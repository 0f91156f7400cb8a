import PacketTree.Json.Printer
import PacketTree.Json.Reader
import PacketTree.Proofs.Json.Numbers

/-!
# Documents are read back from their texts

The compact text of a document is read as that document, whatever follows it that does not go on
with a number. The reader follows lists and objects only so deep: in the text of a document that nests
deeper it stops at a bracket and says so.

## Main results

* `PacketTree.Json.unquote_quote` - a quoted text is read back.
* `PacketTree.Json.readValue_write` - a document is read back where it stands.
* `PacketTree.Json.parse_compact` - the text of a document stands for it.
-/

namespace PacketTree.Json

variable {rest s t u text : List Char} {c close : Char} {count d : ℕ} {first : Bool}

/-! ### Quoted texts -/

/-- A control character in hexadecimal digits. -/
theorem hexQuad?_hexPair {k : ℕ} (h : k < 32) : ∃ a b, Text.hexPair (UInt8.ofNat k) = [a, b] ∧
    hexQuad? '0' '0' a b = some k ∧ isTrailing k = false ∧ isLeading k = false := by
  have hall : ∀ k : Fin 32, ∃ a b, Text.hexPair (UInt8.ofNat k.val) = [a, b] ∧
      hexQuad? '0' '0' a b = some k.val ∧ isTrailing k.val = false ∧ isLeading k.val = false :=
    fun k => ⟨_, _, rfl, by revert k; decide⟩
  exact hall ⟨k, h⟩

/-- The escape of a character is read as that character. -/
theorem unquoteFrom_escape (c : Char) (seen rest : List Char) :
    unquoteFrom seen (escape c ++ rest) = unquoteFrom (c :: seen) rest := by
  unfold escape
  split
  · rfl
  · rfl
  · rfl
  · rfl
  · rfl
  · next hquote hslash hfeed hreturn htab =>
    split_ifs with hback hform hcontrol
    · rw [← Char.ofNat_toNat c, hback]
      rfl
    · rw [← Char.ofNat_toNat c, hform]
      rfl
    · obtain ⟨a, b, hpair, hquad, htrailing, hleading⟩ := hexQuad?_hexPair hcontrol
      rw [hpair]
      simp only [List.cons_append, List.nil_append, unquoteFrom, hquad, htrailing, hleading,
        Bool.false_eq_true, if_false, Char.ofNat_toNat]
    · rw [List.cons_append, List.nil_append, unquoteFrom.eq_def seen (c :: rest)]
      split
      · next heq => cases heq
      · next heq => exact absurd (List.cons.inj heq).1 hquote
      · next heq => exact absurd (List.cons.inj heq).1 hslash
      · next heq =>
        obtain ⟨rfl, rfl⟩ := List.cons.inj heq
        exact if_neg hcontrol

/-- **A quoted text is read back.** -/
theorem unquote_quote (s rest : List Char) :
    ∃ body, quote s rest = '"' :: body ∧ unquote body = .ok (s, rest) := by
  refine ⟨_, rfl, ?_⟩
  have hfrom : ∀ seen, unquoteFrom seen (s.foldr (fun c r => escape c ++ r) ('"' :: rest)) =
      .ok (seen.reverse ++ s, rest) := by
    induction s with
    | nil =>
      intro seen
      rw [List.foldr_nil, unquoteFrom, List.append_nil]
    | cons c s ih =>
      intro seen
      rw [List.foldr_cons, unquoteFrom_escape, ih, List.reverse_cons, List.append_assoc]
      rfl
  exact hfrom []


/-! ### The parts of a document -/

mutual

/-- How deep lists and objects nest in a document. -/
def depth : Json → ℕ
  | .array items => depthItems items + 1
  | .object members => depthMembers members + 1
  | _ => 0

/-- How deep they nest in the items of a list. -/
def depthItems : List Json → ℕ
  | [] => 0
  | item :: items => max item.depth (depthItems items)

/-- How deep they nest in the members of an object. -/
def depthMembers : List (String × Json) → ℕ
  | [] => 0
  | (_, value) :: members => max value.depth (depthMembers members)

end

mutual

/-- The numbers in a document. -/
def numbers : Json → List Number
  | .number n => [n]
  | .array items => numbersItems items
  | .object members => numbersMembers members
  | _ => []

/-- The numbers in the items of a list. -/
def numbersItems : List Json → List Number
  | [] => []
  | item :: items => item.numbers ++ numbersItems items

/-- The numbers in the members of an object. -/
def numbersMembers : List (String × Json) → List Number
  | [] => []
  | (_, value) :: members => value.numbers ++ numbersMembers members

end

variable {j v : Json} {items : List Json} {members : List (String × Json)} {name : String}
  {n : Number}

/-- The numbers in a document have 64 bits. -/
def Fits (j : Json) : Prop := ∀ n ∈ j.numbers, n.Fits

theorem fits_null : null.Fits := nofun

theorem fits_bool (b : Bool) : (bool b).Fits := nofun

theorem fits_string (s : String) : (string s).Fits := nofun

theorem fits_int {i : ℤ} (hlow : -0x8000000000000000 ≤ i) (hhigh : i < 0x10000000000000000) :
    (int i).Fits := by
  intro n hn
  cases List.mem_singleton.mp hn
  exact ⟨hlow, hhigh⟩

theorem fits_nat {k : ℕ} (h : k < UInt64.size) : (nat k).Fits := by
  have hsize : UInt64.size = 0x10000000000000000 := rfl
  exact fits_int (by omega) (by omega)

theorem fits_double (x : Double) : (double x).Fits := by
  intro n hn
  unfold double at hn
  split at hn
  · cases List.mem_singleton.mp hn
    trivial
  · cases hn

theorem fits_array (h : ∀ j ∈ items, j.Fits) : (array items).Fits := by
  intro n hn
  rw [numbers] at hn
  induction items with
  | nil => cases hn
  | cons j items ih =>
    obtain ⟨hj, hitems⟩ := List.forall_mem_cons.mp h
    rcases List.mem_append.mp hn with hn | hn
    · exact hj n hn
    · exact ih hitems hn

theorem fits_object (h : ∀ m ∈ members, m.2.Fits) : (object members).Fits := by
  intro n hn
  rw [numbers] at hn
  induction members with
  | nil => cases hn
  | cons m members ih =>
    obtain ⟨hm, hmembers⟩ := List.forall_mem_cons.mp h
    rcases List.mem_append.mp hn with hn | hn
    · exact hm n hn
    · exact ih hmembers hn

theorem depth_lt_of_mem_items (h : j ∈ items) : j.depth < (array items).depth := by
  refine Nat.lt_succ_of_le ?_
  induction items with
  | nil => cases h
  | cons i items ih =>
    rw [depthItems]
    rcases List.mem_cons.mp h with rfl | h
    · exact Nat.le_max_left _ _
    · exact (ih h).trans (Nat.le_max_right _ _)

theorem depth_lt_of_mem_members (h : (name, v) ∈ members) : v.depth < (object members).depth := by
  refine Nat.lt_succ_of_le ?_
  induction members with
  | nil => cases h
  | cons m members ih =>
    rw [depthMembers]
    rcases List.mem_cons.mp h with rfl | h
    · exact Nat.le_max_left _ _
    · exact (ih h).trans (Nat.le_max_right _ _)

/-- A member nests less deep than what it is a member of. -/
theorem depth_lt_of_member? (h : j.member? name = some v) : v.depth < j.depth := by
  cases j with
  | object members =>
    obtain ⟨l₁, l₂, rfl, -⟩ := List.lookup_eq_some_iff.mp h
    exact depth_lt_of_mem_members (List.mem_append_right _ List.mem_cons_self)
  | _ => cases h

/-! ### What follows a document -/

/-- A quoted text ends with its quote and what follows. -/
theorem cons_suffix_quote (s rest : List Char) : '"' :: rest <:+ quote s rest := by
  have hfold : '"' :: rest <:+ s.foldr (fun c r => escape c ++ r) ('"' :: rest) := by
    induction s with
    | nil => exact List.suffix_rfl
    | cons c s ih => exact ih.trans (List.suffix_append _ _)
  exact hfold.trans (List.suffix_cons _ _)

theorem suffix_quote (s rest : List Char) : rest <:+ quote s rest :=
  (List.suffix_cons _ _).trans (cons_suffix_quote s rest)

theorem suffix_member (name : String) (h : rest <:+ s) : rest <:+ quote name.toList (':' :: s) :=
  (h.trans (List.suffix_cons _ _)).trans (suffix_quote _ _)

theorem length_lt_length_quote (s rest : List Char) : rest.length < (quote s rest).length :=
  (cons_suffix_quote s rest).length_le

mutual

/-- The text of a document ends with what follows. -/
theorem suffix_write (rest : List Char) : ∀ j : Json, rest <:+ j.write rest
  | .null => ⟨['n', 'u', 'l', 'l'], rfl⟩
  | .bool true => ⟨['t', 'r', 'u', 'e'], rfl⟩
  | .bool false => ⟨['f', 'a', 'l', 's', 'e'], rfl⟩
  | .number n => ⟨n.text, rfl⟩
  | .string s => suffix_quote s.toList rest
  | .array [] => ⟨['[', ']'], rfl⟩
  | .object [] => ⟨['\x7b', '\x7d'], rfl⟩
  | .array (item :: items) => by
    have hitems := suffix_writeItems (']' :: rest) items
    have hitem := suffix_write (writeItems items (']' :: rest)) item
    exact (((List.suffix_cons _ _).trans hitems).trans hitem).trans (List.suffix_cons _ _)
  | .object ((name, value) :: members) => by
    have hmembers := suffix_writeMembers ('\x7d' :: rest) members
    have hvalue := suffix_write (writeMembers members ('\x7d' :: rest)) value
    exact (((List.suffix_cons _ _).trans hmembers).trans (suffix_member name hvalue)).trans
      (List.suffix_cons _ _)

theorem suffix_writeItems (rest : List Char) : ∀ items : List Json, rest <:+ writeItems items rest
  | [] => List.suffix_rfl
  | item :: items => by
    have hitem := suffix_write (writeItems items rest) item
    exact ((suffix_writeItems rest items).trans hitem).trans (List.suffix_cons _ _)

theorem suffix_writeMembers (rest : List Char) :
    ∀ members : List (String × Json), rest <:+ writeMembers members rest
  | [] => List.suffix_rfl
  | (name, value) :: members => by
    have hvalue := suffix_write (writeMembers members rest) value
    exact ((suffix_writeMembers rest members).trans (suffix_member name hvalue)).trans
      (List.suffix_cons _ _)

end

theorem length_le_length_write (rest : List Char) (j : Json) : rest.length ≤ (j.write rest).length :=
  (suffix_write rest j).length_le

/-! ### Reading many -/

/-- What starts an item: neither a space nor a closing bracket. -/
def Opens (c : Char) : Prop := isSpace c = false ∧ c ≠ ']' ∧ c ≠ '\x7d'

theorem skipSpace_cons (h : isSpace c = false) : skipSpace (c :: s) = c :: s :=
  List.dropWhile_cons_of_neg (by simp [h])

/-- What is read of a text: a value if it is shallow enough, and otherwise the reader stops within the
text at a bracket that nests too deep. -/
structure Reads {α : Type} (s : List Char) (r : Except Problem α) (x : α) (shallow : Prop) : Prop where
  /-- The value is read. -/
  ok : shallow → r = .ok x
  /-- The reader stops. -/
  stops : ¬shallow → ∃ rest, rest <:+ s ∧ r = .error (.tooDeep rest)

namespace Reads

variable {α β : Type} {r : Except Problem α} {x : α} {p q : Prop}

theorem of_ok (h : r = .ok x) (hp : p) : Reads s r x p := ⟨fun _ => h, fun hnp => absurd hp hnp⟩

theorem map (h : Reads s r x p) (f : α → β) : Reads s (r.map f) (f x) p where
  ok hp := by
    rw [h.ok hp]
    rfl
  stops hp := by
    obtain ⟨rest, hrest, herror⟩ := h.stops hp
    exact ⟨rest, hrest, by rw [herror]; rfl⟩

/-- A reader that stops within a part of a text stops within the text. -/
theorem mono (h : Reads t r x p) (ht : t <:+ s) : Reads s r x p where
  ok := h.ok
  stops hp := by
    obtain ⟨rest, hrest, herror⟩ := h.stops hp
    exact ⟨rest, hrest.trans ht, herror⟩

theorem congr (h : Reads s r x p) (hpq : p ↔ q) : Reads s r x q := ⟨h.ok ∘ hpq.mpr, h.stops ∘ mt hpq.mp⟩

end Reads

theorem nextItem_close (h : isSpace close = false) :
    nextItem close first (close :: s) = .ok (none, s) := by
  rw [nextItem, skipSpace_cons h]
  exact if_pos rfl

/-- The first item stands behind the opening bracket. -/
theorem nextItem_first (hspace : isSpace c = false) (hclose : c ≠ close) :
    nextItem close true (c :: s) = .ok (some (c :: s), s) := by
  rw [nextItem, skipSpace_cons hspace]
  exact if_neg hclose

/-- A later item stands behind a comma. -/
theorem nextItem_comma (hspace : isSpace c = false) (hclose : c ≠ close) (hcomma : ',' ≠ close) :
    nextItem close false (',' :: c :: s) = .ok (some (c :: s), s) := by
  rw [nextItem, skipSpace_cons (c := ',') (by decide)]
  dsimp only
  rw [if_neg hcomma, if_neg Bool.false_ne_true, if_pos rfl, skipSpace_cons hspace]
  exact if_neg hclose

theorem readMany_close {α : Type} (item : List Char → Reading α) (h : isSpace close = false) :
    readMany item close first (count + 1) (close :: s) = .ok ([], s) := by
  rw [readMany, nextItem_close h]

/-- An item is read, and then those after it. -/
theorem reads_readMany {α : Type} {item : List Char → Reading α} {x : α} {xs : List α} {p q : Prop}
    (hnext : nextItem close first s = .ok (some text, rest)) (hitem : Reads text (item text) (x, t) p)
    (ht : t <:+ text) (hothers : Reads t (readMany item close false count t) (xs, u) q) :
    Reads text (readMany item close first (count + 1) s) (x :: xs, u) (p ∧ q) := by
  rw [readMany, hnext]
  by_cases hp : p
  · simp only [hitem.ok hp]
    exact ((hothers.map fun r => (x :: r.1, r.2)).mono ht).congr (iff_and_self.mpr fun _ => hp)
  · obtain ⟨rest, hrest, herror⟩ := hitem.stops hp
    simp only [herror]
    exact ⟨fun h => absurd h.1 hp, fun _ => ⟨rest, hrest, rfl⟩⟩

/-- A member is read as its name and its value. -/
theorem reads_readMember {α : Type} (value : List Char → Reading α) (name : String) {x : α} {p : Prop}
    (h : Reads s (value s) (x, t) p) : Reads (quote name.toList (':' :: s))
      (readMember value (quote name.toList (':' :: s))) ((name, x), t) p := by
  obtain ⟨body, hquote, hunquote⟩ := unquote_quote name.toList (':' :: s)
  have hmember : readMember value (quote name.toList (':' :: s)) =
      (value s).map fun r => ((name, r.1), r.2) := by
    rw [hquote, readMember, hunquote]
    dsimp only [bind, Except.bind]
    rw [show readColon (':' :: s) = .ok s from rfl, String.ofList_toList]
    rfl
  rw [hmember]
  exact (h.map fun r => ((name, r.1), r.2)).mono (suffix_member name List.suffix_rfl)

/-! ### Writing and reading -/

theorem opens_of_isDigit (h : c.isDigit = true) : Opens c := by
  refine ⟨?_, ?_, ?_⟩
  · rw [isSpace]
    simp only [Bool.or_eq_false_iff, beq_eq_false_iff_ne]
    refine ⟨⟨⟨?_, ?_⟩, ?_⟩, ?_⟩ <;> rintro rfl <;> exact absurd h (by decide)
  · rintro rfl
    exact absurd h (by decide)
  · rintro rfl
    exact absurd h (by decide)

/-- A document starts with a character that opens an item. -/
theorem exists_write (rest : List Char) :
    ∀ j : Json, (∀ n ∈ j.numbers, n.Restored) → ∃ c s, j.write rest = c :: s ∧ Opens c
  | .null, _ | .bool true, _ | .bool false, _ | .array [], _ | .object [], _ | .string _, _
  | .array (_ :: _), _ | .object (_ :: _), _ => ⟨_, _, rfl, by decide, by decide, by decide⟩
  | .number n, h => by
    obtain ⟨c, s, htext, hc⟩ := exists_cons_of_readNumber (h n (List.mem_singleton_self n))
    refine ⟨c, s ++ rest, by rw [write, htext, List.cons_append], ?_⟩
    rcases hc with rfl | hdigit
    · exact ⟨by decide, by decide, by decide⟩
    · exact opens_of_isDigit hdigit

theorem readValue_number (h : c = '-' ∨ c.isDigit = true) (d : ℕ) :
    readValue count d (c :: s) = (readNumber (c :: s)).map fun r => (.number r.1, r.2) := by
  have hopens : Opens c := by
    rcases h with rfl | hdigit
    · exact ⟨by decide, by decide, by decide⟩
    · exact opens_of_isDigit hdigit
  have hne : ∀ d : Char, ¬(d = '-' ∨ d.isDigit = true) → c ≠ d := fun d hd hcd => hd (hcd ▸ h)
  rw [readValue, skipSpace_cons hopens.1]
  split
  case h_1 heq => cases heq
  case h_8 heq =>
    obtain ⟨rfl, rfl⟩ := List.cons.inj heq
    exact if_pos h
  all_goals
    next heq => exact absurd (List.cons.inj heq).1 (hne _ (by decide))

theorem readValue_string (d : ℕ) (s : List Char) : readValue count d ('"' :: s) =
    (unquote s).map fun r => (.string (String.ofList r.1), r.2) := by
  rw [readValue]
  rfl

/-- A bracket is followed by items up to its closing one. -/
theorem readValue_array (d : ℕ) (s : List Char) : readValue count (d + 1) ('[' :: s) =
    (readMany (readValue count d) ']' true count s).map fun r => (.array r.1, r.2) := by
  rw [readValue]
  rfl

theorem readValue_object (d : ℕ) (s : List Char) : readValue count (d + 1) ('\x7b' :: s) =
    (readMany (readMember (readValue count d)) '\x7d' true count s).map
      fun r => (.object r.1, r.2) := by
  rw [readValue]
  rfl

/-- No list and no object is read at the limit. -/
theorem readValue_deep (hc : c = '[' ∨ c = '\x7b') : Reads (c :: s) (readValue count 0 (c :: s)) (v, t)
    (d + 1 ≤ 0) := by
  refine ⟨fun h => absurd h (Nat.not_succ_le_zero d), fun _ => ⟨c :: s, List.suffix_rfl, ?_⟩⟩
  rw [readValue]
  rcases hc with rfl | rfl <;> rfl

theorem ends_nil : Ends [] := by
  intro c hc
  cases hc

theorem ends_cons (h : c.isDigit = false ∧ c ≠ '.' ∧ c ≠ 'e' ∧ c ≠ 'E') : Ends (c :: s) := by
  rintro d ⟨⟩
  exact h

theorem ends_writeItems (items : List Json) (rest : List Char) :
    Ends (writeItems items (']' :: rest)) := by
  cases items with
  | nil => exact ends_cons (by decide)
  | cons item items =>
    rw [writeItems]
    exact ends_cons (by decide)

theorem ends_writeMembers (members : List (String × Json)) (rest : List Char) :
    Ends (writeMembers members ('\x7d' :: rest)) := by
  cases members with
  | nil => exact ends_cons (by decide)
  | cons member members =>
    rw [writeMembers]
    exact ends_cons (by decide)

/-- The length of a text that is not empty bounds no count of zero. -/
theorem exists_succ (h : (c :: s).length ≤ count) : ∃ more, count = more + 1 :=
  ⟨count - 1, (Nat.sub_add_cancel (Nat.le_trans (Nat.succ_le_succ s.length.zero_le) h)).symm⟩

-- By induction on the document. Two counts bound the reader: `count` stays the same in all lists, so
-- it has to be at least the length of the whole text, and `more` falls by one with each item, which
-- is made up for by the comma in front of it.

mutual

/-- **A document is read back where it stands**, unless it nests too deep. -/
theorem readValue_write (count d : ℕ) {rest : List Char} (hrest : Ends rest) :
    ∀ j : Json, (∀ n ∈ j.numbers, n.Restored) → (j.write rest).length ≤ count →
      Reads (j.write rest) (readValue count d (j.write rest)) (j, rest) (j.depth ≤ d)
  | .null, _, _ | .bool true, _, _ | .bool false, _, _ => by
    refine .of_ok ?_ (Nat.zero_le d)
    rw [readValue]
    rfl
  | .number n, hnumbers, _ => by
    have hn := hnumbers n (List.mem_singleton_self n)
    obtain ⟨c, s, htext, hc⟩ := exists_cons_of_readNumber hn
    have hread := steady_readNumber hn hrest
    refine .of_ok ?_ (Nat.zero_le d)
    simp only [write]
    rw [htext, List.cons_append] at hread ⊢
    rw [readValue_number hc, hread]
    rfl
  | .string s, _, _ => by
    obtain ⟨body, hquote, hunquote⟩ := unquote_quote s.toList rest
    refine .of_ok ?_ (Nat.zero_le d)
    simp only [write]
    rw [hquote, readValue_string, hunquote]
    exact congrArg (fun t => Except.ok (Json.string t, rest)) String.ofList_toList
  | .array [], _, hcount => by
    obtain ⟨more, rfl⟩ := exists_succ hcount
    cases d with
    | zero => exact readValue_deep (.inl rfl)
    | succ d =>
      refine .of_ok ?_ (Nat.le_add_left 1 d)
      simp only [write, readValue_array, readMany_close _ (show isSpace ']' = false by decide)]
      rfl
  | .object [], _, hcount => by
    obtain ⟨more, rfl⟩ := exists_succ hcount
    cases d with
    | zero => exact readValue_deep (.inr rfl)
    | succ d =>
      refine .of_ok ?_ (Nat.le_add_left 1 d)
      simp only [write, readValue_object, readMany_close _ (show isSpace '\x7d' = false by decide)]
      rfl
  | .array (item :: items), hnumbers, hcount => by
    obtain ⟨more, rfl⟩ := exists_succ hcount
    cases d with
    | zero => exact readValue_deep (.inl rfl)
    | succ d =>
      obtain ⟨hitem, hitems⟩ := List.forall_mem_append.mp hnumbers
      obtain ⟨c, s, hs, hc⟩ := exists_write (writeItems items (']' :: rest)) item hitem
      have hlong := length_le_length_write (writeItems items (']' :: rest)) item
      simp only [write, List.length_cons] at hcount
      have hvalue := readValue_write (more + 1) d (ends_writeItems items rest) item hitem (by omega)
      have hothers := readMany_writeItems (more + 1) d more rest items hitems (by omega) (by omega)
      have hafter := suffix_write (writeItems items (']' :: rest)) item
      simp only [write, depth, depthItems, Nat.add_le_add_iff_right, Nat.max_le]
      rw [hs] at hvalue hafter ⊢
      rw [readValue_array]
      exact ((reads_readMany (nextItem_first hc.1 hc.2.1) hvalue hafter hothers).map
        fun r => (array r.1, r.2)).mono (List.suffix_cons _ _)
  | .object ((name, value) :: members), hnumbers, hcount => by
    obtain ⟨more, rfl⟩ := exists_succ hcount
    cases d with
    | zero => exact readValue_deep (.inr rfl)
    | succ d =>
      obtain ⟨hfirst, hmembers⟩ := List.forall_mem_append.mp hnumbers
      obtain ⟨body, hquote, -⟩ := unquote_quote name.toList
        (':' :: value.write (writeMembers members ('\x7d' :: rest)))
      have hname := length_lt_length_quote name.toList
        (':' :: value.write (writeMembers members ('\x7d' :: rest)))
      have hlong := length_le_length_write (writeMembers members ('\x7d' :: rest)) value
      simp only [write, List.length_cons] at hcount hname
      have hvalue := readValue_write (more + 1) d (ends_writeMembers members rest) value hfirst (by omega)
      have hmember := reads_readMember (readValue (more + 1) d) name hvalue
      have hothers := readMany_writeMembers (more + 1) d more rest members hmembers (by omega)
        (by omega)
      have hafter := suffix_member name (suffix_write (writeMembers members ('\x7d' :: rest)) value)
      simp only [write, depth, depthMembers, Nat.add_le_add_iff_right, Nat.max_le]
      rw [hquote] at hmember hafter ⊢
      rw [readValue_object]
      exact ((reads_readMany (nextItem_first (by decide) (by decide)) hmember hafter hothers).map
        fun r => (object r.1, r.2)).mono (List.suffix_cons _ _)

/-- Items after the first are read back up to the closing bracket. -/
theorem readMany_writeItems (count d more : ℕ) (rest : List Char) :
    ∀ items : List Json, (∀ n ∈ numbersItems items, n.Restored) →
      (writeItems items (']' :: rest)).length ≤ count →
      (writeItems items (']' :: rest)).length ≤ more →
      Reads (writeItems items (']' :: rest))
        (readMany (readValue count d) ']' false more (writeItems items (']' :: rest)))
        (items, rest) (depthItems items ≤ d)
  | [], _, _, hmore => by
    obtain ⟨more, rfl⟩ := exists_succ hmore
    exact .of_ok (readMany_close _ (by decide)) (Nat.zero_le d)
  | item :: items, hnumbers, hcount, hmore => by
    obtain ⟨more, rfl⟩ := exists_succ hmore
    obtain ⟨hitem, hitems⟩ := List.forall_mem_append.mp hnumbers
    obtain ⟨c, s, hs, hc⟩ := exists_write (writeItems items (']' :: rest)) item hitem
    have hlong := length_le_length_write (writeItems items (']' :: rest)) item
    simp only [writeItems, List.length_cons] at hcount hmore
    have hvalue := readValue_write count d (ends_writeItems items rest) item hitem (by omega)
    have hothers := readMany_writeItems count d more rest items hitems (by omega) (by omega)
    have hafter := suffix_write (writeItems items (']' :: rest)) item
    simp only [writeItems, depthItems, Nat.max_le]
    rw [hs] at hvalue hafter ⊢
    exact (reads_readMany (nextItem_comma hc.1 hc.2.1 (by decide)) hvalue hafter hothers).mono
      (List.suffix_cons _ _)

/-- Members after the first are read back up to the closing bracket. -/
theorem readMany_writeMembers (count d more : ℕ) (rest : List Char) :
    ∀ members : List (String × Json), (∀ n ∈ numbersMembers members, n.Restored) →
      (writeMembers members ('\x7d' :: rest)).length ≤ count →
      (writeMembers members ('\x7d' :: rest)).length ≤ more →
      Reads (writeMembers members ('\x7d' :: rest))
        (readMany (readMember (readValue count d)) '\x7d' false more
          (writeMembers members ('\x7d' :: rest)))
        (members, rest) (depthMembers members ≤ d)
  | [], _, _, hmore => by
    obtain ⟨more, rfl⟩ := exists_succ hmore
    exact .of_ok (readMany_close _ (by decide)) (Nat.zero_le d)
  | (name, value) :: members, hnumbers, hcount, hmore => by
    obtain ⟨more, rfl⟩ := exists_succ hmore
    obtain ⟨hfirst, hmembers⟩ := List.forall_mem_append.mp hnumbers
    obtain ⟨body, hquote, -⟩ := unquote_quote name.toList
      (':' :: value.write (writeMembers members ('\x7d' :: rest)))
    have hname := length_lt_length_quote name.toList
      (':' :: value.write (writeMembers members ('\x7d' :: rest)))
    have hlong := length_le_length_write (writeMembers members ('\x7d' :: rest)) value
    simp only [writeMembers, List.length_cons] at hcount hmore hname
    have hvalue := readValue_write count d (ends_writeMembers members rest) value hfirst (by omega)
    have hmember := reads_readMember (readValue count d) name hvalue
    have hothers := readMany_writeMembers count d more rest members hmembers (by omega) (by omega)
    have hafter := suffix_member name (suffix_write (writeMembers members ('\x7d' :: rest)) value)
    simp only [writeMembers, depthMembers, Nat.max_le]
    rw [hquote] at hmember hafter ⊢
    exact (reads_readMany (nextItem_comma (by decide) (by decide) (by decide)) hmember hafter
      hothers).mono (List.suffix_cons _ _)

end

/-! ### Whole texts -/

theorem reads_finish {α : Type} {r : Reading α} {x : α} {p : Prop} (h : Reads s r (x, []) p) :
    Reads s (finish r) x p where
  ok hp := by
    rw [h.ok hp]
    rfl
  stops hp := by
    obtain ⟨rest, hrest, herror⟩ := h.stops hp
    exact ⟨rest, hrest, by rw [herror]; rfl⟩

/-- **The text of a document stands for it**, if lists and objects nest in it no deeper than the
reader follows; otherwise the reader stops at a bracket that nests too deep. -/
theorem parse_compact (j : Json) (hnumbers : ∀ n ∈ j.numbers, n.Restored) :
    Reads j.compact.toList (parse j.compact) j (j.depth ≤ maxDepth) := by
  have hlength : (j.write []).length ≤ j.compact.length + 1 := by
    rw [compact, String.length_ofList]
    exact Nat.le_succ _
  rw [parse, show j.compact.toList = j.write [] from String.toList_ofList]
  exact reads_finish (readValue_write _ maxDepth ends_nil j hnumbers hlength)

end PacketTree.Json
