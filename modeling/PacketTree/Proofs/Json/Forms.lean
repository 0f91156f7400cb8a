import PacketTree.Proofs.Json.RoundTrip

/-!
# Both forms of a text

The compact and the indented form of a document differ in the spaces between its parts only. What is
proved of a reader that passes over spaces holds for both forms at once.

## What is proved

* `Form.write_object`: an object is its members, with spaces in front of each and in front of its value.
* `Form.readMany_members`: what reads a single member reads all of them.
-/

namespace PacketTree.Json

/-- A form in which documents are written. -/
inductive Form where
  /-- Without spaces. -/
  | compact
  /-- On lines of their own, indented by the depth of what they stand in. -/
  | indented (depth : ℕ)

namespace Form

variable {rest s t : List Char} {f : Form} {ms : List (String × Json)} {first : Bool}

/-- A document in a form, put before `rest`. -/
def write : Form → Json → List Char → List Char
  | compact => Json.write
  | indented depth => writeIndented depth

/-- The form of what stands in a list or an object. -/
def inner : Form → Form
  | compact => compact
  | indented depth => indented (depth + 1)

/-- The spaces in front of a member. -/
def line : Form → List Char
  | compact => []
  | indented depth => newline (depth + 1) []

/-- The spaces in front of the value of a member. -/
def gap : Form → List Char
  | compact => []
  | indented _ => [' ']

/-- The closing bracket of an object, with the spaces in front of it. -/
def close (f : Form) (ms : List (String × Json)) (rest : List Char) : List Char :=
  match f, ms with
  | indented depth, _ :: _ => newline depth ('\x7d' :: rest)
  | _, _ => '\x7d' :: rest

/-- The members of an object, all but the first behind a comma. -/
def members (f : Form) (first : Bool) : List (String × Json) → List Char → List Char
  | [], rest => rest
  | (name, value) :: ms, rest =>
    (if first then [] else [',']) ++ (f.line ++
      quote name.toList (':' :: (f.gap ++ f.inner.write value (f.members false ms rest))))

theorem newline_append (depth : ℕ) (s rest : List Char) :
    newline depth (s ++ rest) = newline depth s ++ rest := by
  rw [newline, newline, List.cons_append, List.append_assoc]

theorem write_number (n : Number) (rest : List Char) : f.write (.number n) rest = n.text ++ rest := by
  cases f <;> rfl

theorem write_bool (b : Bool) (rest : List Char) :
    f.write (.bool b) rest = (if b then ['t', 'r', 'u', 'e'] else ['f', 'a', 'l', 's', 'e']) ++ rest := by
  cases f <;> cases b <;> rfl

theorem write_string (s : String) (rest : List Char) :
    f.write (.string s) rest = quote s.toList rest := by
  cases f <;> rfl

theorem writeMembers_eq (ms : List (String × Json)) (rest : List Char) :
    writeMembers ms rest = compact.members false ms rest := by
  induction ms with
  | nil => rfl
  | cons m ms ih => rw [writeMembers, ih]; rfl

theorem indentMembers_eq (depth : ℕ) (ms : List (String × Json)) (rest : List Char) :
    indentMembers depth ms rest = (indented depth).members false ms rest := by
  induction ms with
  | nil => rfl
  | cons m ms ih =>
    rw [indentMembers, ih, ← List.nil_append (quote _ _), newline_append]
    rfl

/-- An object is its members between brackets. -/
theorem write_object (ms : List (String × Json)) (rest : List Char) :
    f.write (.object ms) rest = '\x7b' :: f.members true ms (f.close ms rest) := by
  cases ms with
  | nil => cases f <;> rfl
  | cons m ms =>
    cases f with
    | compact => rw [write, Json.write, writeMembers_eq]; rfl
    | indented depth =>
      rw [write, writeIndented, indentMembers_eq, ← List.nil_append (quote _ _), newline_append]
      rfl

/-! ### Lengths -/

theorem length_newline (depth : ℕ) (rest : List Char) : rest.length ≤ (newline depth rest).length := by
  rw [newline, List.length_cons, List.length_append]
  omega

mutual

theorem length_le_length_writeIndented (depth : ℕ) (rest : List Char) :
    ∀ j : Json, rest.length ≤ (writeIndented depth j rest).length
  | .null => length_le_length_write rest .null
  | .bool b => length_le_length_write rest (.bool b)
  | .number n => length_le_length_write rest (.number n)
  | .string s => length_le_length_write rest (.string s)
  | .array [] => length_le_length_write rest (.array [])
  | .object [] => length_le_length_write rest (.object [])
  | .array (item :: items) => by
    have hend := length_newline depth (']' :: rest)
    have hitems := length_le_length_indentItems depth (newline depth (']' :: rest)) items
    have hitem := length_le_length_writeIndented (depth + 1)
      (indentItems depth items (newline depth (']' :: rest))) item
    have hline := length_newline (depth + 1) (writeIndented (depth + 1) item
      (indentItems depth items (newline depth (']' :: rest))))
    rw [writeIndented, List.length_cons]
    rw [List.length_cons] at hend
    omega
  | .object ((name, value) :: members) => by
    have hend := length_newline depth ('\x7d' :: rest)
    have hmembers := length_le_length_indentMembers depth (newline depth ('\x7d' :: rest)) members
    have hvalue := length_le_length_writeIndented (depth + 1)
      (indentMembers depth members (newline depth ('\x7d' :: rest))) value
    have hquote := length_lt_length_quote name.toList (':' :: ' ' :: writeIndented (depth + 1) value
      (indentMembers depth members (newline depth ('\x7d' :: rest))))
    have hline := length_newline (depth + 1) (quote name.toList (':' :: ' ' ::
      writeIndented (depth + 1) value (indentMembers depth members (newline depth ('\x7d' :: rest)))))
    rw [writeIndented, List.length_cons]
    simp only [List.length_cons] at hend hquote
    omega

theorem length_le_length_indentItems (depth : ℕ) (rest : List Char) :
    ∀ items : List Json, rest.length ≤ (indentItems depth items rest).length
  | [] => le_rfl
  | item :: items => by
    have hitems := length_le_length_indentItems depth rest items
    have hitem := length_le_length_writeIndented (depth + 1) (indentItems depth items rest) item
    have hline := length_newline (depth + 1)
      (writeIndented (depth + 1) item (indentItems depth items rest))
    rw [indentItems, List.length_cons]
    omega

theorem length_le_length_indentMembers (depth : ℕ) (rest : List Char) :
    ∀ members : List (String × Json), rest.length ≤ (indentMembers depth members rest).length
  | [] => le_rfl
  | (name, value) :: members => by
    have hmembers := length_le_length_indentMembers depth rest members
    have hvalue := length_le_length_writeIndented (depth + 1) (indentMembers depth members rest) value
    have hquote := length_lt_length_quote name.toList
      (':' :: ' ' :: writeIndented (depth + 1) value (indentMembers depth members rest))
    have hline := length_newline (depth + 1) (quote name.toList
      (':' :: ' ' :: writeIndented (depth + 1) value (indentMembers depth members rest)))
    rw [indentMembers, List.length_cons]
    simp only [List.length_cons] at hquote
    omega

end

/-- What follows a document is no longer than both. -/
theorem length_le (j : Json) (rest : List Char) : rest.length ≤ (f.write j rest).length := by
  cases f with
  | compact => exact length_le_length_write rest j
  | indented depth => exact length_le_length_writeIndented depth rest j

/-- Members are no more than the characters of their text. -/
theorem length_le_length_members (first : Bool) (ms : List (String × Json)) (rest : List Char) :
    ms.length ≤ (f.members first ms rest).length := by
  induction ms generalizing first with
  | nil => exact Nat.zero_le _
  | cons m ms ih =>
    have hothers := ih false
    have hvalue := length_le (f := f.inner) m.2 (f.members false ms rest)
    have hquote := length_lt_length_quote m.1.toList
      (':' :: (f.gap ++ f.inner.write m.2 (f.members false ms rest)))
    simp only [members, List.length_append, List.length_cons] at hquote ⊢
    omega

/-! ### Reading -/

theorem skipSpace_append (hs : ∀ c ∈ s, isSpace c = true) (t : List Char) :
    skipSpace (s ++ t) = skipSpace t :=
  List.dropWhile_append_of_pos hs

theorem isSpace_of_mem_newline {c : Char} {depth : ℕ} (h : c ∈ newline depth []) : isSpace c = true := by
  rw [newline, List.append_nil] at h
  rcases List.mem_cons.mp h with rfl | h
  · decide
  · rw [List.eq_of_mem_replicate h]
    decide

theorem isSpace_of_mem_line {c : Char} (h : c ∈ f.line) : isSpace c = true := by
  cases f with
  | compact => cases h
  | indented depth => exact isSpace_of_mem_newline h

theorem isSpace_of_mem_gap {c : Char} (h : c ∈ f.gap) : isSpace c = true := by
  cases f with
  | compact => cases h
  | indented depth =>
    rw [List.mem_singleton.mp h]
    decide

theorem skipSpace_close (ms : List (String × Json)) (rest : List Char) :
    skipSpace (f.close ms rest) = '\x7d' :: rest := by
  cases f with
  | compact => rfl
  | indented depth =>
    cases ms with
    | nil => rfl
    | cons m ms =>
      rw [close, ← List.nil_append ('\x7d' :: rest), newline_append,
        skipSpace_append fun c => isSpace_of_mem_newline]
      rfl

theorem ends_close (ms : List (String × Json)) (rest : List Char) : Ends (f.close ms rest) := by
  cases f with
  | compact => exact ends_cons (by decide)
  | indented depth =>
    cases ms with
    | nil => exact ends_cons (by decide)
    | cons m ms => exact ends_cons (by decide)

/-- The members after the first end a number. -/
theorem ends_members (hrest : Ends rest) : Ends (f.members false ms rest) := by
  cases ms with
  | nil => exact hrest
  | cons m ms => exact ends_cons (by decide)

/-- A member is found behind what stands in front of it. -/
theorem nextItem_member (first : Bool) (s : List Char) :
    nextItem '\x7d' first ((if first then [] else [',']) ++ (f.line ++ '"' :: s)) =
      .ok (some ('"' :: s), s) := by
  have hskip : skipSpace (f.line ++ '"' :: s) = '"' :: s := by
    rw [skipSpace_append fun c => isSpace_of_mem_line]
    rfl
  cases first with
  | true =>
    rw [if_pos rfl, List.nil_append, nextItem, hskip]
    rfl
  | false =>
    rw [if_neg Bool.false_ne_true, List.singleton_append, nextItem, skipSpace_cons (by decide)]
    dsimp only
    rw [if_neg (by decide), if_neg Bool.false_ne_true, if_pos rfl, hskip]
    rfl

theorem nextItem_close (h : skipSpace s = '\x7d' :: rest) (first : Bool) :
    nextItem '\x7d' first s = .ok (none, rest) := by
  rw [nextItem, h]
  rfl

/-- What reads a member in front of what ends a number reads all members up to the bracket. -/
theorem readMany_members {α : Type} {item : List Char → Reading α} {member : α → String × Json}
    {xs : List α} {count : ℕ}
    (hitem : ∀ x ∈ xs, ∀ rest, Ends rest →
      item (quote (member x).1.toList (':' :: (f.gap ++ f.inner.write (member x).2 rest))) =
        .ok (x, rest))
    (hclose : skipSpace s = '\x7d' :: rest) (hends : Ends s) (hcount : xs.length < count) :
    readMany item '\x7d' first count (f.members first (xs.map member) s) = .ok (xs, rest) := by
  induction xs generalizing first count with
  | nil =>
    obtain ⟨count, rfl⟩ := Nat.exists_eq_add_one_of_ne_zero (Nat.ne_of_gt hcount)
    rw [List.map_nil, members, readMany, nextItem_close hclose]
  | cons x xs ih =>
    obtain ⟨count, rfl⟩ := Nat.exists_eq_add_one_of_ne_zero (Nat.ne_zero_of_lt hcount)
    obtain ⟨hx, hxs⟩ := List.forall_mem_cons.mp hitem
    have hread := hx (f.members false (xs.map member) s) (ends_members hends)
    obtain ⟨body, hquote, -⟩ := unquote_quote (member x).1.toList
      (':' :: (f.gap ++ f.inner.write (member x).2 (f.members false (xs.map member) s)))
    rw [List.map_cons, members, hquote, readMany, nextItem_member]
    rw [hquote] at hread
    dsimp only
    rw [hread]
    dsimp only
    rw [ih hxs (Nat.lt_of_succ_lt_succ hcount)]
    rfl

/-- The same for an object, its opening bracket gone. -/
theorem readMany_object {α : Type} {item : List Char → Reading α} {member : α → String × Json}
    {xs : List α}
    (hitem : ∀ x ∈ xs, ∀ rest, Ends rest →
      item (quote (member x).1.toList (':' :: (f.gap ++ f.inner.write (member x).2 rest))) =
        .ok (x, rest))
    (rest : List Char) :
    let text := f.members true (xs.map member) (f.close (xs.map member) rest)
    readMany item '\x7d' true (text.length + 1) text = .ok (xs, rest) := by
  have hlength := length_le_length_members (f := f) true (xs.map member) (f.close (xs.map member) rest)
  rw [List.length_map] at hlength
  exact readMany_members hitem (skipSpace_close _ rest) (ends_close _ rest) (Nat.lt_succ_of_le hlength)

/-- A document starts with a character that is no space. -/
theorem exists_write (j : Json) (h : ∀ n ∈ j.numbers, n.Restored) (rest : List Char) :
    ∃ c t, f.write j rest = c :: t ∧ isSpace c = false := by
  obtain ⟨c, t, hwrite, hc⟩ := Json.exists_write rest j h
  cases f with
  | compact => exact ⟨c, t, hwrite, hc.1⟩
  | indented depth =>
    match j with
    | .null | .bool _ | .number _ | .string _ => exact ⟨c, t, hwrite, hc.1⟩
    | .array [] | .object [] | .array (_ :: _) | .object (_ :: _) => exact ⟨_, _, rfl, by decide⟩

/-- The space in front of a value is passed over. -/
theorem skipSpace_gap (j : Json) (h : ∀ n ∈ j.numbers, n.Restored) (rest : List Char) :
    skipSpace (f.gap ++ f.inner.write j rest) = f.inner.write j rest := by
  obtain ⟨c, t, hwrite, hc⟩ := exists_write (f := f.inner) j h rest
  rw [skipSpace_append fun c => isSpace_of_mem_gap, hwrite, skipSpace_cons hc]

end Form

end PacketTree.Json
