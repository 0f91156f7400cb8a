import PacketTree.Proofs.Text.Runs
import PacketTree.Regex.Parser

/-!
# Readers inside brackets

What is read of a text on its own is read all the same when a closing bracket follows it. That is shown
here for all that an expression is made of, one reader after the other.

## What is proved

* `firm_takeRun`: runs of characters end before the bracket.
* `firm_readEscape`: so do escapes,
* `firm_readClass`: bracketed classes,
* `firm_readBounds`: the bounds of repetitions,
* `firm_readOpening`: and openings of groups.

## The model

A reader is `Firm` if what it takes of a text it takes all the same of that text between brackets.
`Under` says how the text goes on there: with the bracket, or, when a comment at the end has taken that in,
with nothing. A comment goes to the end of its line, so that no line may end behind the bracket. Readers
that may also fail without ending the expression have to fail all the same, too, and for these there is
an equation.
-/

namespace PacketTree.Regex.Parser

variable {α β : Type} {v s t : List Char} {free comment : Bool} {p : Char → Bool} {c : Char} {n : ℕ}
  {tables : Tables} {flags : Flags}

/-! ### Texts between brackets -/

/-- How a text goes on between brackets: with the closing one, unless a comment has taken that in. -/
def Under (v s t : List Char) : Prop := t = s ++ ')' :: v ∨ t = s

theorem Under.exists_cons (h : Under v (c :: s) t) : ∃ t', t = c :: t' ∧ Under v s t' := by
  rcases h with rfl | rfl
  · exact ⟨s ++ ')' :: v, rfl, .inl rfl⟩
  · exact ⟨s, rfl, .inr rfl⟩

theorem Under.length_le (h : Under v s t) : s.length ≤ t.length := by
  rcases h with rfl | rfl
  · simp
  · exact le_rfl

/-- Nothing goes on with nothing, or with the bracket. -/
theorem Under.of_nil (h : Under v [] t) : t = ')' :: v ∨ t = [] := h

/-- Any other character stands in front of both texts or of none. -/
theorem Under.after? (h : Under v s t) (hc : c ≠ ')') :
    (∃ s' t', after? c s = some s' ∧ after? c t = some t' ∧ Under v s' t') ∨
      (after? c s = none ∧ after? c t = none) := by
  rcases s with _ | ⟨d, s⟩
  · refine .inr ⟨rfl, ?_⟩
    rcases h.of_nil with rfl | rfl
    · exact if_neg hc.symm
    · rfl
  · obtain ⟨t, rfl, ht⟩ := h.exists_cons
    by_cases hd : d = c
    · exact .inl ⟨s, t, if_pos hd, if_pos hd, ht⟩
    · exact .inr ⟨if_neg hd, if_neg hd⟩

/-- What a reader takes of a text it takes all the same of that text between brackets. -/
def Firm (v : List Char) (read : List Char → Option (α × List Char)) : Prop :=
  ∀ ⦃s t a rest⦄, Under v s t → read s = some (a, rest) →
    ∃ rest', read t = some (a, rest') ∧ Under v rest rest'

variable {read here elsewhere : List Char → Option (α × List Char)}

/-- Nothing is to be shown of a text that does not go on. -/
theorem firm_of_append (h : ∀ s a rest, read s = some (a, rest) →
    ∃ rest', read (s ++ ')' :: v) = some (a, rest') ∧ Under v rest rest') : Firm v read := by
  rintro s t a rest (rfl | rfl) hread
  · exact h s a rest hread
  · exact ⟨rest, hread, .inr rfl⟩

theorem firm_none : Firm v fun _ => (none : Option (α × List Char)) := fun _ _ _ _ _ h => by cases h

theorem firm_some (a : α) : Firm v fun s => some (a, s) := by
  rintro s t _ _ hst ⟨⟩
  exact ⟨t, rfl, hst⟩

theorem firm_option (o : Option α) (f : α → β) : Firm v fun s => o.map fun a => (f a, s) := by
  cases o with
  | none => exact firm_none
  | some a => exact firm_some (f a)

theorem firm_option_bind (o : Option β) {next : β → List Char → Option (α × List Char)}
    (hnext : ∀ b, Firm v (next b)) : Firm v fun s => o.bind fun b => next b s := by
  cases o with
  | none => exact firm_none
  | some b => exact hnext b

theorem Firm.ite {p : Prop} [Decidable p] (hhere : Firm v here) (helsewhere : Firm v elsewhere) :
    Firm v fun s => if p then here s else elsewhere s := by
  by_cases hp : p
  · simpa only [if_pos hp] using hhere
  · simpa only [if_neg hp] using helsewhere

/-- A reader that goes on after another. -/
theorem Firm.bind {next : α → List Char → Option (β × List Char)} (h : Firm v read)
    (hnext : ∀ a, Firm v (next a)) : Firm v fun s => (read s).bind fun r => next r.1 r.2 := by
  intro s t b rest hst hread
  obtain ⟨⟨a, between⟩, hfirst, hsecond⟩ := Option.bind_eq_some_iff.mp hread
  obtain ⟨between', hfirst', hbetween⟩ := h hst hfirst
  obtain ⟨rest', hsecond', hrest⟩ := hnext a hbetween hsecond
  exact ⟨rest', Option.bind_eq_some_iff.mpr ⟨_, hfirst', hsecond'⟩, hrest⟩

theorem Firm.map (h : Firm v read) (f : α → β) :
    Firm v fun s => (read s).map fun r => (f r.1, r.2) := by
  intro s t b rest hst hread
  obtain ⟨⟨a, between⟩, hfirst, heq⟩ := Option.map_eq_some_iff.mp hread
  cases heq
  obtain ⟨rest', hfirst', hrest⟩ := h hst hfirst
  exact ⟨rest', Option.map_eq_some_iff.mpr ⟨_, hfirst', rfl⟩, hrest⟩

/-- A reader that makes something of what it has read, or fails. -/
theorem Firm.convert (h : Firm v read) (f : α → Option β) :
    Firm v fun s => do
      let r ← read s
      return (← f r.1, r.2) :=
  h.bind fun a => firm_option_bind (f a) firm_some

theorem Firm.filter (h : Firm v read) (f : α → Bool) :
    Firm v fun s => (read s).filter fun r => f r.1 := by
  intro s t a rest hst hread
  obtain ⟨hfirst, hf⟩ := Option.filter_eq_some_iff.mp hread
  obtain ⟨rest', hfirst', hrest⟩ := h hst hfirst
  exact ⟨rest', Option.filter_eq_some_iff.mpr ⟨hfirst', hf⟩, hrest⟩

/-- Readers for what stands behind a character and for what stands elsewhere. -/
theorem Firm.branch (hhere : Firm v here) (hc : c ≠ ')') (helsewhere : Firm v elsewhere) :
    Firm v fun s => match after? c s with
      | some s => here s
      | none => elsewhere s := by
  intro s t a rest hst hread
  dsimp only at hread ⊢
  rcases hst.after? hc with ⟨s', t', hs, ht, hst'⟩ | ⟨hs, ht⟩
  · rw [hs] at hread
    rw [ht]
    exact hhere hst' hread
  · rw [hs] at hread
    rw [ht]
    exact helsewhere hst hread

theorem Firm.after? (h : Firm v read) (hc : c ≠ ')') :
    Firm v fun s => (after? c s).bind read := by
  intro s t a rest hst hread
  obtain ⟨s', hs, hread⟩ := Option.bind_eq_some_iff.mp hread
  rcases hst.after? hc with ⟨s'', t'', hs'', ht'', hst''⟩ | ⟨hnone, -⟩
  · cases hs.symm.trans hs''
    obtain ⟨rest', hread', hrest⟩ := h hst'' hread
    exact ⟨rest', Option.bind_eq_some_iff.mpr ⟨t'', ht'', hread'⟩, hrest⟩
  · cases hs.symm.trans hnone

/-- A reader with an equation takes the same of both texts or fails on both. -/
theorem Under.of_append
    (happend : ∀ s, read (s ++ ')' :: v) = (read s).map fun (a, rest) => (a, rest ++ ')' :: v))
    (h : Under v s t) :
    (∃ a s' t', read s = some (a, s') ∧ read t = some (a, t') ∧ Under v s' t') ∨
      (read s = none ∧ read t = none) := by
  rcases hs : read s with _ | ⟨a, s'⟩
  · refine .inr ⟨rfl, ?_⟩
    rcases h with rfl | rfl
    · rw [happend, hs]
      rfl
    · exact hs
  · refine .inl ⟨a, s', ?_⟩
    rcases h with rfl | rfl
    · exact ⟨_, rfl, by rw [happend, hs]; rfl, .inl rfl⟩
    · exact ⟨_, rfl, hs, .inr rfl⟩

/-! ### Runs of characters -/

/-- A run that ends before the end of the text stays the same if more follows. -/
theorem runFrom_append (h : (runFrom free p comment s).2 ≠ []) (t : List Char) :
    runFrom free p comment (s ++ t) =
      ((runFrom free p comment s).1, (runFrom free p comment s).2 ++ t) := by
  induction s generalizing comment with
  | nil => exact absurd rfl h
  | cons c s ih =>
    rw [List.cons_append]
    rw [runFrom] at h
    rw [runFrom, runFrom]
    split_ifs at h ⊢ with hcomment hblank hhash hp
    · exact ih h
    · exact ih h
    · exact ih h
    · dsimp only at h ⊢
      rw [ih h]
    · rfl

/-- A comment goes on as long as its line does. -/
theorem runFrom_comment (hv : '\n' ∉ v) : runFrom free p true v = ([], []) := by
  induction v with
  | nil => rfl
  | cons c v ih =>
    rw [List.mem_cons, not_or] at hv
    rw [runFrom, if_pos rfl, bne_iff_ne.mpr (Ne.symm hv.1)]
    exact ih hv.2

/-- A run up to the end of the text ends at the bracket, unless it ends in a comment. -/
theorem under_runFrom (comment : Bool) (hv : '\n' ∉ v) (hp : p ')' = false) (s : List Char) :
    ∃ rest, runFrom free p comment (s ++ ')' :: v) = ((runFrom free p comment s).1, rest) ∧
      Under v (runFrom free p comment s).2 rest := by
  induction s generalizing comment with
  | nil =>
    cases comment with
    | true => exact ⟨[], runFrom_comment (v := ')' :: v) (by simpa using hv), .inr rfl⟩
    | false =>
      have hblank : Text.isBlank ')' = false := by decide
      have hstop : runFrom free p false (')' :: v) = ([], ')' :: v) := by
        simp [runFrom, hblank, hp]
      exact ⟨')' :: v, hstop, .inl rfl⟩
  | cons c s ih =>
    rw [List.cons_append, runFrom, runFrom]
    split_ifs with hcomment hblank hhash hc
    · exact ih _
    · exact ih false
    · exact ih true
    · obtain ⟨rest, hrun, hrest⟩ := ih false
      exact ⟨rest, by rw [hrun], hrest⟩
    · exact ⟨_, rfl, .inl rfl⟩

/-- **A run of characters that are no brackets.** -/
theorem firm_takeRun (free : Bool) (hv : '\n' ∉ v) (hp : p ')' = false) :
    Firm v fun s => some (takeRun free p s) := by
  refine firm_of_append fun s a rest h => ?_
  obtain ⟨rfl, rfl⟩ := Prod.mk.inj (Option.some.inj h)
  obtain ⟨rest', hrun, hrest⟩ := under_runFrom false hv hp s
  exact ⟨rest', congrArg some hrun, hrest⟩

theorem Under.takeRun (free : Bool) (hv : '\n' ∉ v) (hp : p ')' = false) (h : Under v s t) :
    ∃ rest, takeRun free p t = ((takeRun free p s).1, rest) ∧ Under v (takeRun free p s).2 rest := by
  obtain ⟨rest, hrun, hrest⟩ := firm_takeRun free hv hp h rfl
  exact ⟨rest, Option.some.inj hrun, hrest⟩

theorem Under.skip (free : Bool) (hv : '\n' ∉ v) (h : Under v s t) :
    Under v (skip free s) (skip free t) := by
  obtain ⟨rest, hrun, hrest⟩ := h.takeRun (p := fun _ => false) free hv rfl
  rw [Parser.skip, Parser.skip, hrun]
  exact hrest

theorem Firm.skip (free : Bool) (hv : '\n' ∉ v) (h : Firm v read) :
    Firm v fun s => read (skip free s) :=
  fun _ _ _ _ hst => h (hst.skip free hv)

/-- A reader that passes over blanks and comments in the end. -/
theorem Firm.trim (free : Bool) (hv : '\n' ∉ v) (h : Firm v read) :
    Firm v fun s => (read s).map fun r => (r.1, Parser.skip free r.2) := by
  intro s t a rest hst hread
  obtain ⟨⟨a, behind⟩, hfirst, heq⟩ := Option.map_eq_some_iff.mp hread
  cases heq
  obtain ⟨behind', hfirst', hbehind⟩ := h hst hfirst
  exact ⟨_, Option.map_eq_some_iff.mpr ⟨_, hfirst', rfl⟩, hbehind.skip free hv⟩

/-- A closing bracket is neither blank nor the start of a comment. -/
theorem skip_bracket (v : List Char) : skip free (')' :: v) = ')' :: v := by
  have hblank : Text.isBlank ')' = false := by decide
  simp [Parser.skip, Parser.takeRun, runFrom, hblank]

/-- What stands in braces may hold brackets. -/
theorem firm_readBraced : Firm v (readBraced free) := by
  refine firm_of_append fun s a rest h => ?_
  unfold readBraced at h ⊢
  split at h
  · next content c after hrun =>
    cases h
    have hne : (runFrom free (· != '\x7d') false s).2 ≠ [] := by
      rw [← takeRun, hrun]
      exact List.cons_ne_nil _ _
    have happend := runFrom_append hne (')' :: v)
    rw [← takeRun, ← takeRun, hrun] at happend
    rw [happend]
    exact ⟨_, rfl, .inl rfl⟩
  · cases h

/-! ### Escapes -/

theorem firm_readMany (hv : '\n' ∉ v) : Firm v (readMany free n) := by
  induction n with
  | zero =>
    intro s t a rest hst h
    cases h
    exact ⟨t, rfl, hst⟩
  | succ n ih =>
    intro s t a rest hst h
    rcases s with _ | ⟨c, s⟩
    · cases h
    · obtain ⟨t, rfl, hst'⟩ := hst.exists_cons
      exact ((ih.skip free hv).map (c :: ·)) hst' h

theorem firm_readDigits (hv : '\n' ∉ v) : Firm v (readDigits free n) :=
  (firm_readBraced.trim free hv).branch (by decide) (firm_readMany hv)

theorem firm_readCodePoint (hv : '\n' ∉ v) : Firm v (readCodePoint free n) :=
  (firm_readDigits hv).convert charOfHex?

theorem firm_readByte (hv : '\n' ∉ v) : Firm v (readByte flags) := by
  intro s t a rest hst h
  unfold readByte at h ⊢
  rcases hst.after? (c := '\x7b') (by decide) with ⟨s', t', hs, ht, -⟩ | ⟨hs, ht⟩
  · rw [hs] at h
    rw [ht]
    exact firm_readCodePoint hv hst h
  · rw [hs] at h
    rw [ht]
    exact (firm_readCodePoint hv).filter flags.allows hst h

theorem firm_readEdge (hv : '\n' ∉ v) : Firm v (readEdge free) := by
  intro s t edge rest hst h
  unfold readEdge at h ⊢
  rcases hst.after? (c := '\x7b') (by decide) with ⟨s', t', hs, ht, hst'⟩ | ⟨hs, ht⟩
  · obtain ⟨behind', hrun', hbehind⟩ := hst'.takeRun free hv (show isEdgeChar ')' = false by decide)
    rw [hs] at h
    rw [ht]
    dsimp only at h ⊢
    rw [hrun']
    rcases hrun : takeRun free isEdgeChar s' with ⟨name, behind⟩
    rw [hrun] at h hbehind
    dsimp only at h hbehind ⊢
    rcases name with _ | ⟨c, name⟩
    · rcases behind with _ | ⟨d, behind⟩
      · cases h
      · cases h
        obtain ⟨behind', rfl, -⟩ := hbehind.exists_cons
        exact ⟨t, rfl, hst⟩
    · obtain ⟨e, he, h⟩ := Option.bind_eq_some_iff.mp h
      obtain ⟨after, hafter, heq⟩ := Option.bind_eq_some_iff.mp h
      cases heq
      rcases hbehind.after? (c := '\x7d') (by decide) with ⟨_, after', hs', ht', hrest⟩ | ⟨hnone, -⟩
      · cases hafter.symm.trans hs'
        exact ⟨after', by simp [he, ht'], hrest⟩
      · cases hafter.symm.trans hnone
  · rw [hs] at h
    rw [ht]
    cases h
    exact ⟨t, rfl, hst⟩

theorem firm_readProperty (hv : '\n' ∉ v) : Firm v (readProperty tables free) := by
  have hletter (name : List Char) : Firm v fun s =>
      if name = ['\\'] then none
      else (tables.named? (String.ofList name)).bind fun r => some ((false, r), skip free s) :=
    firm_none.ite (firm_option_bind _ fun r => (firm_some (false, r)).skip free hv)
  exact (firm_readBraced.convert (property? tables)).branch (by decide)
    ((firm_readMany hv).bind hletter)

theorem firm_readPropertySet (hv : '\n' ∉ v) (negated : Bool) :
    Firm v (readPropertySet tables flags negated) :=
  ((firm_readProperty hv).skip _ hv).convert (propertySet? tables flags negated)

/-- **An escape.** -/
theorem firm_readEscape (hv : '\n' ∉ v) : Firm v (readEscape tables flags) := by
  intro s t a rest hst h
  rcases s with _ | ⟨c, s⟩
  · cases h
  · obtain ⟨t, rfl, hst'⟩ := hst.exists_cons
    have hkind negated k := firm_option (v := v) (flags.kind? negated k) Escape.set
    have hproperty negated : Firm v fun s =>
        (readPropertySet tables flags negated s).map fun r => (Escape.set r.1, r.2) :=
      (firm_readPropertySet hv negated).map Escape.set
    have hbyte : Firm v fun s =>
        (readByte flags (skip flags.free s)).map fun r => (Escape.literal r.1, r.2) :=
      ((firm_readByte hv).skip flags.free hv).map Escape.literal
    have hpoint n : Firm v fun s =>
        (readCodePoint flags.free n (skip flags.free s)).map fun r => (Escape.literal r.1, r.2) :=
      ((firm_readCodePoint hv).skip flags.free hv).map Escape.literal
    have hedge : Firm v fun s =>
        (readEdge flags.free s).map fun r => (Escape.place (.word r.1 flags.unicode), r.2) :=
      (firm_readEdge hv).map fun edge => Escape.place (.word edge flags.unicode)
    unfold readEscape at h ⊢
    dsimp only at h ⊢
    split at h
    all_goals first
      | exact hkind _ _ hst' h
      | exact hproperty _ hst' h
      | exact hbyte hst' h
      | exact hpoint _ hst' h
      | exact hedge hst' h
      | cases h; exact ⟨t, rfl, hst'⟩
      | skip
    split_ifs at h with hpunctuation
    cases h
    refine ⟨t, ?_, hst'⟩
    split <;> simp_all

/-! ### Classes -/

/-- A closing bracket does not belong to any name of a set. -/
theorem setNamed?_eq_none {name : List Char} (h : ')' ∈ name) : setNamed? name = none := by
  have hnames : ∀ s ∈ ["alnum", "alpha", "ascii", "blank", "cntrl", "digit", "graph", "lower", "print",
      "punct", "space", "upper", "word", "xdigit"], ')' ∉ s.toList := by decide
  refine List.lookup_eq_none_iff.mpr fun p hp => bne_iff_ne.mpr fun heq => ?_
  refine hnames p.1 (List.mem_map_of_mem (f := Prod.fst) hp) ?_
  rwa [← heq, String.toList_ofList]

/-- A mark of negation, and what follows it. -/
def readNegation : List Char → Bool × List Char
  | '^' :: s => (true, s)
  | s => (false, s)

theorem readNegation_append (s v : List Char) :
    readNegation (s ++ ')' :: v) = ((readNegation s).1, (readNegation s).2 ++ ')' :: v) := by
  rcases s with _ | ⟨c, s⟩
  · rfl
  · unfold readNegation
    simp only [List.cons_append]
    split <;> split <;> simp_all

/-- What follows the end of a name. -/
def readNameEnd? : List Char → Option (List Char)
  | ':' :: ']' :: rest => some rest
  | _ => none

theorem readNameEnd?_append (s v : List Char) :
    readNameEnd? (s ++ ')' :: v) = (readNameEnd? s).map (· ++ ')' :: v) := by
  rcases s with _ | ⟨c, _ | ⟨d, s⟩⟩
  · rfl
  · unfold readNameEnd?
    split <;> simp_all
  · unfold readNameEnd?
    simp only [List.cons_append]
    split <;> split <;> simp_all

theorem readNamed?_colon (s : List Char) : readNamed? (':' :: s) =
    let (negated, s) := readNegation s
    (readNameEnd? (s.drop (s.takeWhile (· != ':')).length)).bind fun rest =>
      (setNamed? (s.takeWhile (· != ':'))).map fun set => ((negated, set), rest) := by
  have hend : ∀ (s : List Char) (f : List Char → Option ((Bool × CharSet) × List Char)),
      (match s with
      | ':' :: ']' :: rest => f rest
      | _ => none) = (readNameEnd? s).bind f := by
    intro s f
    unfold readNameEnd?
    split <;> rfl
  have hnegated : readNamed? (':' :: s) = match readNegation s with
      | (negated, s) => match s.drop (s.takeWhile (· != ':')).length with
        | ':' :: ']' :: rest =>
          (setNamed? (s.takeWhile (· != ':'))).map fun set => ((negated, set), rest)
        | _ => none := rfl
  rw [hnegated]
  rcases readNegation s with ⟨negated, s⟩
  exact hend _ _

theorem readNamed?_append (s v : List Char) :
    readNamed? (s ++ ')' :: v) = (readNamed? s).map fun (found, rest) => (found, rest ++ ')' :: v) := by
  by_cases hcolon : ∃ s', s = ':' :: s'
  · obtain ⟨s, rfl⟩ := hcolon
    rw [List.cons_append, readNamed?_colon, readNamed?_colon, readNegation_append]
    rcases readNegation s with ⟨negated, s⟩
    dsimp only
    rcases hdrop : s.drop (s.takeWhile (· != ':')).length with _ | ⟨c, after⟩
    · have hall : s.takeWhile (· != ':') = s :=
        (List.takeWhile_prefix _).eq_of_length_le (List.drop_eq_nil_iff.mp hdrop)
      have hmem : ')' ∈ (s ++ ')' :: v).takeWhile (· != ':') := by
        rw [List.takeWhile_append, if_pos (by rw [hall]), List.takeWhile_cons_of_pos (by decide)]
        simp
      rw [setNamed?_eq_none hmem]
      cases readNameEnd? _ <;> rfl
    · obtain ⟨hname, hafter⟩ := Text.takeWhile_append_of_drop (')' :: v) hdrop
      rw [hname, hafter, ← List.cons_append, readNameEnd?_append]
      rcases readNameEnd? (c :: after) with _ | rest
      · rfl
      · cases setNamed? (s.takeWhile (· != ':')) <;> rfl
  · have hnone : ∀ s : List Char, (¬∃ s', s = ':' :: s') → readNamed? s = none := by
      intro s hs
      unfold readNamed?
      split
      · next s' => exact absurd ⟨s', rfl⟩ hs
      · rfl
    rw [hnone s hcolon, hnone]
    · rfl
    · rintro ⟨s', heq⟩
      rcases s with _ | ⟨c, s⟩
      · cases heq
      · exact hcolon ⟨s, congrArg (· :: s) (List.cons.inj heq).1⟩

theorem readOperator?_append (s v : List Char) :
    readOperator? (s ++ ')' :: v) =
      (readOperator? s).map fun (op, rest) => (op, rest ++ ')' :: v) := by
  rcases s with _ | ⟨c, _ | ⟨d, s⟩⟩
  · rfl
  · unfold readOperator?
    split <;> simp_all
  · unfold readOperator?
    simp only [List.cons_append]
    split <;> split <;> simp_all

theorem firm_firstItems (hv : '\n' ∉ v) (negated : Bool) :
    Firm v fun s => some (openClass.firstItems free negated s) := by
  intro s t a rest hst h
  obtain ⟨behind', hrun', hbehind⟩ := hst.takeRun (p := (· == '-')) free hv rfl
  dsimp only [openClass.firstItems] at h ⊢
  rw [hrun']
  rcases hbehind.after? (c := ']') (by decide) with ⟨s', t', hs, ht, hst'⟩ | ⟨hs, ht⟩
  · rw [hs] at h
    rw [ht]
    split at h
    · next hnone heq =>
      cases heq
      cases h
      rw [hnone]
      exact ⟨_, rfl, hst'.skip free hv⟩
    · next hother =>
      cases h
      refine ⟨behind', ?_, hbehind⟩
      split
      · next hnone heq => exact absurd rfl (hother s' hnone)
      · rfl
  · rw [hs] at h
    rw [ht]
    split at h
    · next heq => cases heq
    · obtain ⟨rfl, rfl⟩ := Prod.mk.inj (Option.some.inj h)
      exact ⟨behind', rfl, hbehind⟩

theorem firm_openClass (free : Bool) (hv : '\n' ∉ v) : Firm v fun s => some (openClass free s) := by
  intro s t a rest hst h
  dsimp only [openClass] at h ⊢
  rcases (hst.skip free hv).after? (c := '^') (by decide) with
    ⟨s', t', hs, ht, hst'⟩ | ⟨hs, ht⟩
  · rw [hs] at h
    rw [ht]
    exact firm_firstItems hv true (hst'.skip free hv) h
  · rw [hs] at h
    rw [ht]
    exact firm_firstItems hv false (hst.skip free hv) h

theorem firm_readClassItem (hv : '\n' ∉ v) : Firm v (readClassItem tables flags) := by
  intro s t item rest hst h
  rcases s with _ | ⟨c, s⟩
  · cases h
  · obtain ⟨t, rfl, hst'⟩ := hst.exists_cons
    unfold readClassItem at h ⊢
    split at h
    · cases h
    · next after heq =>
      obtain ⟨rfl, rfl⟩ := List.cons.inj heq
      split at h
      · next d after hescape =>
        split_ifs at h with hallows
        cases h
        obtain ⟨after', hescape', hafter⟩ := firm_readEscape hv hst' hescape
        exact ⟨after', by simp [hescape', hallows], hafter⟩
      · next set after hescape =>
        cases h
        obtain ⟨after', hescape', hafter⟩ := firm_readEscape hv hst' hescape
        exact ⟨after', by simp [hescape'], hafter⟩
      · cases h
    · next d after hne heq =>
      obtain ⟨rfl, rfl⟩ := List.cons.inj heq
      split_ifs at h with hallows
      cases h
      refine ⟨t, ?_, hst'⟩
      split <;> simp_all

theorem Under.dropBlanks (h : Under v s t) :
    Under v (s.dropWhile Text.isBlank) (t.dropWhile Text.isBlank) := by
  rcases h with rfl | rfl
  · exact .inl (Text.dropWhile_append_of_head (Text.forall_mem_head?_cons (by decide)))
  · exact .inr rfl

theorem Under.head?_eq (h : Under v s t) (hc : c ≠ ')') : (t.head? == some c) = (s.head? == some c) := by
  rcases s with _ | ⟨d, s⟩
  · rcases h.of_nil with rfl | rfl
    · simpa using hc.symm
    · rfl
  · obtain ⟨t, rfl, -⟩ := h.exists_cons
    rfl

theorem Under.tail (h : Under v (c :: s) t) : Under v s t.tail := by
  obtain ⟨t, rfl, ht⟩ := h.exists_cons
  exact ht

/-- A bracket makes no dash the last one of a class. -/
theorem Under.isLastDash (h : Under v s t) : isLastDash free t = isLastDash free s := by
  have hends : ∀ {s t : List Char}, Under v s t →
      (t.head? == some ']' || t.head? == some '-') = (s.head? == some ']' || s.head? == some '-') :=
    fun h => by rw [h.head?_eq (by decide), h.head?_eq (by decide)]
  unfold Parser.isLastDash
  cases free with
  | false => exact hends h
  | true =>
    have hblank := h.dropBlanks
    simp only [if_true, Bool.true_and]
    rw [hblank.head?_eq (by decide)]
    split
    · next hhash =>
      rcases hs : s.dropWhile Text.isBlank with _ | ⟨d, s'⟩
      · rw [hs] at hhash
        cases hhash
      · rw [hs] at hblank
        exact hends hblank.tail.dropBlanks
    · exact hends hblank

theorem firm_readClassRange (hv : '\n' ∉ v) : Firm v (readClassRange tables flags) := by
  intro s t set rest hst h
  unfold readClassRange at h ⊢
  obtain ⟨⟨item, between⟩, hitem, h⟩ := Option.bind_eq_some_iff.mp h
  obtain ⟨between', hitem', hbetween⟩ := firm_readClassItem hv hst hitem
  have hskip := hbetween.skip flags.free hv
  rw [hitem']
  dsimp only [Option.bind_eq_bind, Option.bind_some, Option.pure_def] at h ⊢
  rcases hskip.after? (c := '-') (by decide) with ⟨s', t', hs, ht, hst'⟩ | ⟨hs, ht⟩
  · rw [hs] at h
    rw [ht]
    dsimp only at h ⊢
    rw [hst'.isLastDash]
    split_ifs at h ⊢ with hlast
    · cases h
      exact ⟨_, rfl, hskip⟩
    · obtain ⟨⟨last, after⟩, hnext, h⟩ := Option.bind_eq_some_iff.mp h
      obtain ⟨range, hrange, heq⟩ := Option.bind_eq_some_iff.mp h
      cases heq
      obtain ⟨after', hnext', hafter⟩ := firm_readClassItem hv (hst'.skip _ hv) hnext
      exact ⟨after', by simp [hnext', hrange], hafter⟩
  · rw [hs] at h
    rw [ht]
    cases h
    exact ⟨_, rfl, hskip⟩

theorem firm_classStep? {outer : List OpenClass} {k : OpenClass} (hv : '\n' ∉ v) :
    Firm v (classStep? tables flags outer k) := by
  intro s t next rest hst h
  have hskip := hst.skip flags.free hv
  unfold classStep? at h ⊢
  dsimp only at h ⊢
  rcases hskip.after? (c := ']') (by decide) with ⟨s', t', hs, ht, hst'⟩ | ⟨hs, ht⟩
  · rw [hs] at h
    rw [ht]
    dsimp only at h ⊢
    obtain ⟨closed, hclose, heq⟩ := Option.map_eq_some_iff.mp h
    cases heq
    exact ⟨t', by rw [hclose]; rfl, hst'⟩
  rw [hs] at h
  rw [ht]
  rcases hskip.after? (c := '[') (by decide) with ⟨s', t', hs, ht, hst'⟩ | ⟨hs, ht⟩
  · rw [hs] at h
    rw [ht]
    dsimp only at h ⊢
    rcases hst'.of_append (readNamed?_append · v) with ⟨⟨negated, set⟩, s'', t'', hs, ht, hrest⟩ | ⟨hs, ht⟩
    · rw [hs] at h
      rw [ht]
      obtain ⟨u, hu, heq⟩ := Option.map_eq_some_iff.mp h
      cases heq
      exact ⟨t'', Option.map_eq_some_iff.mpr ⟨u, hu, rfl⟩, hrest⟩
    · rw [hs] at h
      rw [ht]
      exact ((firm_openClass flags.free hv).map fun inner => Sum.inr (k :: outer, inner)) hst' h
  · rw [hs] at h
    rw [ht]
    dsimp only at h ⊢
    rcases hskip.of_append (readOperator?_append · v) with ⟨op, s'', t'', hs, ht, hrest⟩ | ⟨hs, ht⟩
    · rw [hs] at h
      rw [ht]
      cases h
      exact ⟨t'', rfl, hrest⟩
    · rw [hs] at h
      rw [ht]
      exact ((firm_readClassRange hv).map fun set => Sum.inr (outer, k.push ⟨set, 0⟩)) hskip h

/-- **A bracketed class**, however many items may be read. -/
theorem firm_readClass {outer : List OpenClass} {k : OpenClass} (hv : '\n' ∉ v) :
    Firm v (readClass tables flags outer k n) := by
  induction n generalizing outer k with
  | zero => exact fun s t set rest _ h => by cases h
  | succ n ih =>
    intro s t set rest hst h
    rw [readClass] at h ⊢
    rcases hstep : classStep? tables flags outer k s with _ | ⟨next, between⟩
    · rw [hstep] at h
      cases h
    · obtain ⟨between', hstep', hbetween⟩ := firm_classStep? hv hst hstep
      rw [hstep] at h
      rw [hstep']
      rcases next with closed | ⟨outer', k'⟩
      · cases h
        exact ⟨between', rfl, hbetween⟩
      · exact ih hbetween h

theorem readClass_of_le {outer : List OpenClass} {k : OpenClass} {set : NestedSet} {rest : List Char}
    {m : ℕ} (h : readClass tables flags outer k n s = some (set, rest)) (hle : n ≤ m) :
    readClass tables flags outer k m s = some (set, rest) := by
  induction n generalizing m outer k s with
  | zero => cases h
  | succ n ih =>
    obtain ⟨m, rfl⟩ := Nat.exists_eq_add_of_le' (show 1 ≤ m by omega)
    rw [readClass] at h ⊢
    split at h
    · cases h
    · exact h
    · exact ih h (by omega)

/-! ### Repetitions and groups -/

theorem firm_readCount (hv : '\n' ∉ v) : Firm v (readCount free) := by
  intro s t k rest hst h
  obtain ⟨behind', hrun', hbehind⟩ :=
    hst.dropBlanks.takeRun (p := Char.isDigit) free hv (by decide)
  unfold readCount at h ⊢
  rw [hrun']
  dsimp only at h ⊢
  split_ifs at h ⊢ with hdigits
  cases h
  exact ⟨_, rfl, hbehind.dropBlanks⟩

theorem firm_readMost (free : Bool) (hv : '\n' ∉ v) (least : ℕ) : Firm v (readMost free least) := by
  have hmost (most : ℕ) : Firm v fun s =>
      if least ≤ most then (after? '\x7d' s).bind fun rest => some (some most, rest) else none :=
    ((firm_some (some most)).after? (by decide)).ite firm_none
  exact (firm_some none).branch (by decide) ((firm_readCount hv).bind hmost)

/-- **The bounds of a repetition.** -/
theorem firm_readBounds (hv : '\n' ∉ v) : Firm v (readBounds free) := by
  have hmore (least : ℕ) : Firm v fun s => (after? ',' s).bind fun rest =>
      (readMost free least (skip free rest)).map fun r => ((least, r.1), r.2) :=
    (((firm_readMost free hv least).skip free hv).map (least, ·)).after? (by decide)
  exact (firm_readCount hv).bind fun least =>
    (firm_some (least, some least)).branch (by decide) (hmore least)

theorem firm_readName : Firm v (readName tables) := by
  refine firm_of_append fun s name rest h => ?_
  unfold readName at h ⊢
  dsimp only at h ⊢
  split at h
  · next c after hdrop =>
    obtain ⟨hname, hafter⟩ := Text.takeWhile_append_of_drop (')' :: v) hdrop
    rw [hname, hafter]
    dsimp only
    split_ifs at h ⊢ with hvalid
    cases h
    exact ⟨_, rfl, .inl rfl⟩
  · cases h

/-- Any other character than a colon, a bracket and a dash has to be the letter of a flag. -/
theorem readFlags_of_ne {on : Bool} {changes : List (Flag × Bool)} (hcolon : c ≠ ':') (hclose : c ≠ ')')
    (hdash : c ≠ '-') (s : List Char) :
    readFlags on changes (c :: s) = (Flag.ofLetter? c).bind fun flag =>
      if changes.any (·.1 == flag) then none else readFlags on (changes ++ [(flag, on)]) s := by
  rw [readFlags.eq_5 _ _ _ _ hcolon hclose hdash]
  cases Flag.ofLetter? c <;> rfl

theorem firm_readFlags {on : Bool} {changes : List (Flag × Bool)} : Firm v (readFlags on changes) := by
  refine firm_of_append fun s opening rest h => ?_
  induction s generalizing on changes with
  | nil => cases h
  | cons c s ih =>
    rw [List.cons_append]
    by_cases hcolon : c = ':'
    · subst hcolon
      cases h
      exact ⟨_, rfl, .inl rfl⟩
    by_cases hclose : c = ')'
    · subst hclose
      rw [readFlags] at h ⊢
      split_ifs at h ⊢ with hempty
      cases h
      exact ⟨_, rfl, .inl rfl⟩
    by_cases hdash : c = '-'
    · subst hdash
      rw [readFlags] at h ⊢
      split_ifs at h with hflag
      rcases s with _ | ⟨d, s⟩
      · cases h
      · rw [List.head?_cons] at hflag
        rw [List.cons_append, List.head?_cons, if_pos hflag]
        exact ih h
    · rw [readFlags_of_ne hcolon hclose hdash] at h ⊢
      obtain ⟨flag, hflag, h⟩ := Option.bind_eq_some_iff.mp h
      rw [hflag, Option.bind_some]
      split_ifs at h ⊢ with htwice
      exact ih h

/-- **The opening of a group.** -/
theorem firm_readOpening : Firm v (readOpening tables) := by
  intro s t opening rest hst h
  unfold readOpening at h ⊢
  rcases hst.after? (c := '?') (by decide) with ⟨s', t', hs, ht, hst'⟩ | ⟨hs, ht⟩
  · rw [hs] at h
    rw [ht]
    dsimp only at h ⊢
    have hmark : Under v ((after? 'P' s').getD s') ((after? 'P' t').getD t') := by
      rcases hst'.after? (c := 'P') (by decide) with ⟨s'', t'', hs, ht, hst''⟩ | ⟨hs, ht⟩
      · rwa [hs, ht]
      · rwa [hs, ht]
    rcases hmark.after? (c := '<') (by decide) with ⟨s'', t'', hs, ht, hst''⟩ | ⟨hs, ht⟩
    · rw [hs] at h
      rw [ht]
      exact (firm_readName.map fun name => Opening.numbered (some name)) hst'' h
    · rw [hs] at h
      rw [ht]
      exact firm_readFlags hst' h
  · rw [hs] at h
    rw [ht]
    cases h
    exact ⟨t, rfl, hst⟩

/-- A mark that makes a repetition prefer few rounds. -/
theorem Under.readFew (h : Under v s t) :
    (readFew t).1 = (readFew s).1 ∧ Under v (readFew s).2 (readFew t).2 := by
  unfold Parser.readFew
  rcases h.after? (c := '?') (by decide) with ⟨s', t', hs, ht, hst'⟩ | ⟨hs, ht⟩
  · rw [hs, ht]
    exact ⟨rfl, hst'⟩
  · rw [hs, ht]
    exact ⟨rfl, h⟩

end PacketTree.Regex.Parser
