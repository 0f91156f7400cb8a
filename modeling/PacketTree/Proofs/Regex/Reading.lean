import PacketTree.Proofs.Regex.Brackets
import PacketTree.Proofs.Regex.Rounds

/-!
# Expressions inside brackets

An expression is read part by part, with the groups that are open kept on a stack. This module proves
that an expression that can be read on its own is read the same way between brackets, whatever follows
them on the line: no part of it reaches for the closing bracket, but a comment at its end may take that
in, and then the brackets are never closed. It also proves that the bounds of every repetition that is
read are in order.

## What is proved

* `Parser.readPart_under`: one part is read the same way inside one more group.
* `Parser.readFrom_under`: so is a whole expression, up to the bracket that closes the group.
* `bounded_of_read?`: the bounds of all repetitions are in order in what is read.

## The model

A reading inside one more group has that group below all others on its stack. The flags of a group end
with it, so that those of the expression do not reach what stands around it.
-/

namespace PacketTree.Regex

namespace Parser

variable {v s t rest : List Char} {n m : ℕ} {tables : Tables}

/-! ### Readings inside a group -/

namespace Reading

/-- A reading inside one more group, outside all others. -/
def under (r : Reading) (g : OpenGroup) : Reading := { r with outer := r.outer ++ [g] }

variable {r r' : Reading} {g : OpenGroup}

theorem under_open? {opening : Opening} (h : r.open? opening = some r') :
    (r.under g).open? opening = some (r'.under g) := by
  cases opening with
  | flags | plain =>
    cases h
    rfl
  | numbered name =>
    rw [open?] at h ⊢
    dsimp only at h ⊢
    split_ifs at h with htaken
    cases h
    exact if_neg htaken

theorem under_leave? (h : r.leave? = some r') : (r.under g).leave? = some (r'.under g) := by
  rcases r with ⟨_ | ⟨parent, outer⟩, group, count, names⟩
  · cases h
  · cases h
    rfl

theorem under_repeatLast? {least : ℕ} {most : Option ℕ} (hst : Under v s t)
    (h : r.repeatLast? least most s = some (r', rest)) :
    ∃ rest', (r.under g).repeatLast? least most t = some (r'.under g, rest') ∧ Under v rest rest' := by
  obtain ⟨hfew, hrest⟩ := hst.readFew
  obtain ⟨g', hg, heq⟩ := Option.map_eq_some_iff.mp h
  cases heq
  refine ⟨(readFew t).2, ?_, hrest⟩
  have hsame : (r.under g).group.repeatLast? least most ((readFew t).1 != (r.under g).group.flags.few) =
      some g' := hfew ▸ hg
  exact Option.map_eq_some_iff.mpr ⟨g', hsame, rfl⟩

end Reading

open Reading

variable {r r' : Reading} {g : OpenGroup} {c : Char}

/-- **A part is read the same way inside one more group.** -/
theorem readPart_under (hv : '\n' ∉ v) (hst : Under v s t)
    (h : readPart tables r c s = some (r', rest)) :
    ∃ rest', readPart tables (r.under g) c t = some (r'.under g, rest') ∧ Under v rest rest' := by
  unfold readPart at h ⊢
  dsimp only at h ⊢
  have hflags : (r.under g).group.flags = r.group.flags := rfl
  rw [hflags]
  split at h
  · obtain ⟨⟨opening, between⟩, hopening, h⟩ := Option.bind_eq_some_iff.mp h
    obtain ⟨opened, hopen, heq⟩ := Option.bind_eq_some_iff.mp h
    cases heq
    obtain ⟨rest', hopening', hrest⟩ := firm_readOpening (hst.skip _ hv) hopening
    exact ⟨rest', Option.bind_eq_some_iff.mpr ⟨_, hopening',
      Option.bind_eq_some_iff.mpr ⟨_, under_open? hopen, rfl⟩⟩, hrest⟩
  · obtain ⟨left, hleft, heq⟩ := Option.map_eq_some_iff.mp h
    cases heq
    exact ⟨t, Option.map_eq_some_iff.mpr ⟨_, under_leave? hleft, rfl⟩, hst⟩
  · cases h
    exact ⟨t, rfl, hst⟩
  · exact under_repeatLast? hst h
  · exact under_repeatLast? hst h
  · exact under_repeatLast? hst h
  · obtain ⟨⟨⟨least, most⟩, between⟩, hbounds, h⟩ := Option.bind_eq_some_iff.mp h
    obtain ⟨between', hbounds', hbetween⟩ := firm_readBounds hv hst hbounds
    obtain ⟨rest', hrepeat, hrest⟩ := under_repeatLast? (g := g) (hbetween.skip _ hv) h
    exact ⟨rest', Option.bind_eq_some_iff.mpr ⟨_, hbounds', hrepeat⟩, hrest⟩
  · obtain ⟨⟨set, after⟩, hclass, heq⟩ := Option.bind_eq_some_iff.mp h
    cases heq
    obtain ⟨behind, hopen, hbehind⟩ := firm_openClass r.group.flags.free hv hst rfl
    obtain ⟨rest', hclass', hrest⟩ := firm_readClass hv hbehind hclass
    rw [Option.some.inj hopen]
    refine ⟨rest', Option.bind_eq_some_iff.mpr ⟨(set, rest'), ?_, rfl⟩, hrest⟩
    exact readClass_of_le hclass' (Nat.succ_le_succ hst.length_le)
  · obtain ⟨⟨escape, after⟩, hescape, heq⟩ := Option.bind_eq_some_iff.mp h
    cases heq
    obtain ⟨rest', hescape', hrest⟩ := firm_readEscape hv hst hescape
    exact ⟨rest', Option.bind_eq_some_iff.mpr ⟨_, hescape', rfl⟩, hrest⟩
  · obtain ⟨set, hset, heq⟩ := Option.map_eq_some_iff.mp h
    cases heq
    exact ⟨t, Option.map_eq_some_iff.mpr ⟨set, hset, rfl⟩, hst⟩
  · cases h
    exact ⟨t, rfl, hst⟩
  · cases h
    exact ⟨t, rfl, hst⟩
  · cases h
    refine ⟨t, ?_, hst⟩
    simp_all [Reading.push, withGroup, under]

/-- At the end of a text its expression is finished. -/
theorem readFrom_of_nil (h : skip r.group.flags.free s = []) :
    readFrom tables r (n + 1) s = r.finish? := by
  rw [readFrom, h]

/-- Any other text is read part by part. -/
theorem readFrom_of_cons (h : skip r.group.flags.free s = c :: t) :
    readFrom tables r (n + 1) s =
      (readPart tables r c t).bind fun next => readFrom tables next.1 n next.2 := by
  rw [readFrom, h]
  dsimp only
  cases readPart tables r c t <;> rfl

/-- Reading inside one more group goes on, at its end, where reading without that group has ended, unless
a comment has taken in what follows; then it fails. -/
theorem readFrom_under {p : Part} (hv : '\n' ∉ v) (hst : Under v s t)
    (h : readFrom tables r n s = some p) (g : OpenGroup) :
    ∃ k < n, ∃ last : Reading, last.finish? = some p ∧
      ((∀ m, readFrom tables (r.under g) (k + m) t = readFrom tables (last.under g) m (')' :: v)) ∨
        ∀ m, readFrom tables (r.under g) m t = none) := by
  induction n generalizing r s t with
  | zero => cases h
  | succ n ih =>
    have hskip := hst.skip r.group.flags.free hv
    rcases hnext : skip r.group.flags.free s with _ | ⟨c, s'⟩
    · rw [readFrom_of_nil hnext] at h
      refine ⟨0, by omega, r, h, ?_⟩
      rw [hnext] at hskip
      rcases hskip.of_nil with ht | ht
      · refine .inl fun m => ?_
        rw [Nat.zero_add]
        cases m with
        | zero => rfl
        | succ m =>
          rw [readFrom_of_cons (r := r.under g) ht, readFrom_of_cons (r := r.under g) (skip_bracket v)]
      · refine .inr fun m => ?_
        cases m with
        | zero => rfl
        | succ m =>
          rw [readFrom_of_nil (r := r.under g) ht]
          simp [finish?, under]
    · rw [readFrom_of_cons hnext] at h
      obtain ⟨⟨next, after⟩, hpart, h⟩ := Option.bind_eq_some_iff.mp h
      rw [hnext] at hskip
      obtain ⟨t', ht, hst'⟩ := hskip.exists_cons
      obtain ⟨after', hpart', hafter⟩ := readPart_under (g := g) hv hst' hpart
      obtain ⟨k, hk, last, hlast, hrun⟩ := ih hafter h
      have hstep : ∀ m, readFrom tables (r.under g) (m + 1) t =
          readFrom tables (next.under g) m after' := by
        intro m
        rw [readFrom_of_cons (r := r.under g) ht, hpart', Option.bind_some]
      refine ⟨k + 1, by omega, last, hlast, hrun.imp (fun hrun m => ?_) fun hnone m => ?_⟩
      · rw [← hrun m, ← hstep, show k + 1 + m = k + m + 1 by omega]
      · cases m with
        | zero => rfl
        | succ m => rw [hstep, hnone]

/-! ### Bounds -/

/-- What is put together from expressions with bounds in order has its bounds in order. -/
theorem bounded_gather {op : Regex → Regex → Regex} {es : List Regex}
    (hop : ∀ {e f : Regex}, e.Bounded → f.Bounded → (op e f).Bounded) (h : ∀ e ∈ es, e.Bounded) :
    (gather op es).Bounded := by
  have hpairs : ∀ (es done : List Regex), (∀ e ∈ done, e.Bounded) → (∀ e ∈ es, e.Bounded) →
      ∀ e ∈ gather.pairs op done es, e.Bounded := by
    intro es done
    induction done, es using gather.pairs.induct op with
    | case1 done =>
      intro hdone _ e he
      exact hdone e (List.mem_reverse.mp he)
    | case2 done e =>
      intro hdone hes f hf
      exact (List.mem_cons.mp (List.mem_reverse.mp hf)).elim
        (fun heq => heq ▸ hes e List.mem_cons_self) (hdone f)
    | case3 done e f rest ih =>
      intro hdone hes
      obtain ⟨he, hrest⟩ := List.forall_mem_cons.mp hes
      obtain ⟨hf, hrest⟩ := List.forall_mem_cons.mp hrest
      exact ih (List.forall_mem_cons.mpr ⟨hop he hf, hdone⟩) hrest
  have hrounds : ∀ n (es : List Regex), (∀ e ∈ es, e.Bounded) → (gather.rounds op n es).Bounded := by
    intro n
    induction n with
    | zero =>
      rintro (_ | ⟨e, _ | ⟨f, rest⟩⟩) hes
      · trivial
      · exact hes e List.mem_cons_self
      · exact hes e List.mem_cons_self
    | succ n ih =>
      rintro (_ | ⟨e, _ | ⟨f, rest⟩⟩) hes
      · trivial
      · exact hes e List.mem_cons_self
      · exact ih _ (hpairs _ [] (List.forall_mem_nil _) hes)
  exact hrounds _ es h

/-- The bounds of all repetitions that were read are in order. -/
def OpenGroup.Bounded (g : OpenGroup) : Prop :=
  (∀ p ∈ g.alternatives, p.expr.Bounded) ∧ ∀ p ∈ g.parts, p.expr.Bounded

/-- The bounds of all repetitions of a reading are in order. -/
def Reading.Bounded (r : Reading) : Prop := r.group.Bounded ∧ ∀ g ∈ r.outer, g.Bounded

namespace OpenGroup

theorem bounded_sequence (h : g.Bounded) : g.sequence.expr.Bounded := by
  refine bounded_gather And.intro fun e he => ?_
  obtain ⟨p, hp, rfl⟩ := List.mem_map.mp he
  exact h.2 p (List.mem_reverse.mp hp)

theorem bounded_content (h : g.Bounded) : g.content.expr.Bounded := by
  refine bounded_gather And.intro fun e he => ?_
  obtain ⟨p, hp, rfl⟩ := List.mem_map.mp he
  rcases List.mem_cons.mp (List.mem_reverse.mp hp) with rfl | hp
  · exact bounded_sequence h
  · exact h.1 p hp

theorem Bounded.push {p : Part} (h : g.Bounded) (hp : p.expr.Bounded) : (g.push p).Bounded :=
  ⟨h.1, List.forall_mem_cons.mpr ⟨hp, h.2⟩⟩

theorem bounded_start {number : Option ℕ} {flags : Flags} : (start number flags).Bounded :=
  ⟨List.forall_mem_nil _, List.forall_mem_nil _⟩

end OpenGroup

theorem least_le_of_readMost {free : Bool} {least : ℕ} {most : Option ℕ}
    (h : readMost free least s = some (most, rest)) : ∀ m ∈ most, least ≤ m := by
  unfold readMost at h
  split at h
  · cases h
    exact fun m hm => by cases hm
  · obtain ⟨⟨high, between⟩, -, h⟩ := Option.bind_eq_some_iff.mp h
    dsimp only at h
    split_ifs at h with hle
    obtain ⟨after, -, heq⟩ := Option.bind_eq_some_iff.mp h
    cases heq
    rintro m ⟨⟩
    exact hle

theorem least_le_of_readBounds {free : Bool} {least : ℕ} {most : Option ℕ}
    (h : readBounds free s = some ((least, most), rest)) : ∀ m ∈ most, least ≤ m := by
  unfold readBounds at h
  obtain ⟨⟨low, between⟩, -, h⟩ := Option.bind_eq_some_iff.mp h
  dsimp only at h
  split at h
  · cases h
    rintro m ⟨⟩
    exact le_rfl
  · obtain ⟨after, -, h⟩ := Option.bind_eq_some_iff.mp h
    obtain ⟨⟨high, behind⟩, hmost, heq⟩ := Option.map_eq_some_iff.mp h
    cases heq
    exact least_le_of_readMost hmost

namespace Reading

theorem Bounded.push {e : Regex} (h : r.Bounded) (he : e.Bounded) : (r.push e).Bounded :=
  ⟨h.1.push he, h.2⟩

theorem Bounded.repeatLast? {least : ℕ} {most : Option ℕ} (h : r.Bounded)
    (hbounds : ∀ m ∈ most, least ≤ m) (hr : r.repeatLast? least most s = some (r', rest)) : r'.Bounded := by
  obtain ⟨g', hg, heq⟩ := Option.map_eq_some_iff.mp hr
  cases heq
  refine ⟨?_, h.2⟩
  unfold OpenGroup.repeatLast? at hg
  split at hg
  · cases hg
  · next p parts hparts =>
    split_ifs at hg with hnothing
    cases hg
    obtain ⟨hp, hparts⟩ := List.forall_mem_cons.mp (hparts ▸ h.1.2)
    exact ⟨h.1.1, List.forall_mem_cons.mpr ⟨⟨hp, hbounds⟩, hparts⟩⟩

theorem Bounded.open? {opening : Opening} (h : r.Bounded) (hr : r.open? opening = some r') :
    r'.Bounded := by
  have henter : ∀ number flags, (r.enter number flags).Bounded := fun number flags =>
    ⟨OpenGroup.bounded_start, List.forall_mem_cons.mpr h⟩
  cases opening with
  | flags =>
    cases hr
    exact ⟨h.1.push trivial, h.2⟩
  | plain =>
    cases hr
    exact henter none _
  | numbered name =>
    rw [Reading.open?] at hr
    dsimp only at hr
    split_ifs at hr
    cases hr
    exact henter _ _

theorem Bounded.leave? (h : r.Bounded) (hr : r.leave? = some r') : r'.Bounded := by
  rcases r with ⟨_ | ⟨parent, outer⟩, group, count, names⟩
  · cases hr
  · cases hr
    obtain ⟨hparent, houter⟩ := List.forall_mem_cons.mp h.2
    exact ⟨hparent.push (OpenGroup.bounded_content h.1), houter⟩

end Reading

/-- A part keeps the bounds in order. -/
theorem bounded_readPart (hr : r.Bounded) (h : readPart tables r c s = some (r', rest)) :
    r'.Bounded := by
  unfold readPart at h
  dsimp only at h
  split at h
  · obtain ⟨⟨opening, after⟩, hopening, h⟩ := Option.bind_eq_some_iff.mp h
    obtain ⟨opened, hopen, heq⟩ := Option.bind_eq_some_iff.mp h
    cases heq
    exact hr.open? hopen
  · obtain ⟨left, hleft, heq⟩ := Option.map_eq_some_iff.mp h
    cases heq
    exact hr.leave? hleft
  · cases h
    exact ⟨⟨List.forall_mem_cons.mpr ⟨OpenGroup.bounded_sequence hr.1, hr.1.1⟩, List.forall_mem_nil _⟩, hr.2⟩
  · exact hr.repeatLast? (by simp) h
  · exact hr.repeatLast? (by simp) h
  · exact hr.repeatLast? (by simp) h
  · obtain ⟨⟨⟨least, most⟩, after⟩, hbounds, h⟩ := Option.bind_eq_some_iff.mp h
    exact hr.repeatLast? (least_le_of_readBounds hbounds) h
  · obtain ⟨⟨set, after⟩, hclass, heq⟩ := Option.bind_eq_some_iff.mp h
    cases heq
    exact ⟨hr.1.push trivial, hr.2⟩
  · obtain ⟨⟨escape, after⟩, hescape, heq⟩ := Option.bind_eq_some_iff.mp h
    cases heq
    refine hr.push ?_
    cases escape <;> trivial
  · obtain ⟨set, hset, heq⟩ := Option.map_eq_some_iff.mp h
    cases heq
    exact hr.push trivial
  all_goals
    cases h
    exact hr.push trivial

theorem bounded_readFrom {p : Part} (hr : r.Bounded) (h : readFrom tables r n s = some p) :
    p.expr.Bounded := by
  induction n generalizing r s with
  | zero => cases h
  | succ n ih =>
    rcases hnext : skip r.group.flags.free s with _ | ⟨c, s'⟩
    · rw [readFrom_of_nil hnext, finish?] at h
      split_ifs at h
      cases h
      exact OpenGroup.bounded_content hr.1
    · rw [readFrom_of_cons hnext] at h
      obtain ⟨⟨next, after⟩, hpart, h⟩ := Option.bind_eq_some_iff.mp h
      exact ih (bounded_readPart hr hpart) h

end Parser

/-- The bounds of all repetitions are in order in every expression that is read. -/
theorem bounded_of_read? {tables : Tables} {text : String} {e : Regex}
    (h : read? tables text = some e) : e.Bounded := by
  unfold read? at h
  split at h
  · cases h
  · next p hread =>
    split_ifs at h
    cases h
    exact Parser.bounded_readFrom ⟨Parser.OpenGroup.bounded_start, List.forall_mem_nil _⟩ hread

end PacketTree.Regex
