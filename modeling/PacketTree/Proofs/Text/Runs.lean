import Mathlib.Data.List.TakeWhile

/-!
# Runs of characters

A reader often takes a run of characters from the front of a text. This module says when the run stays
the same if more text follows, and how texts with separators between them are joined.
-/

namespace PacketTree.Text

variable {s t : List Char} {p : Char → Bool}

/-- A run that ends before the end of the text stays the same if more follows. -/
theorem takeWhile_append_of_drop {c : Char} {after : List Char} (t : List Char)
    (h : s.drop (s.takeWhile p).length = c :: after) :
    (s ++ t).takeWhile p = s.takeWhile p ∧
      (s ++ t).drop (s.takeWhile p).length = c :: (after ++ t) := by
  have hlength : (s.takeWhile p).length < s.length := by
    by_contra hge
    rw [List.drop_eq_nil_of_le (by omega)] at h
    cases h
  constructor
  · rw [List.takeWhile_append, if_neg (by omega)]
  · rw [List.drop_append_of_le_length (by omega), h, List.cons_append]

theorem forall_mem_head?_cons {c : Char} (h : p c = false) : ∀ d ∈ (c :: t).head?, p d = false := by
  rintro d ⟨⟩
  exact h

/-- A run stays the same if what follows does not go on with it. -/
theorem takeWhile_append_of_head (h : ∀ c ∈ t.head?, p c = false) :
    (s ++ t).takeWhile p = s.takeWhile p := by
  have hstop : t.takeWhile p = [] := by
    rcases t with _ | ⟨c, t⟩
    · rfl
    · exact List.takeWhile_cons_of_neg (by simp [h c rfl])
  rw [List.takeWhile_append, hstop, List.append_nil]
  split_ifs with hall
  · exact ((List.takeWhile_prefix p).eq_of_length hall).symm
  · rfl

/-- What is left behind a run grows by what follows, if that does not go on with the run. -/
theorem dropWhile_append_of_head (h : ∀ c ∈ t.head?, p c = false) :
    (s ++ t).dropWhile p = s.dropWhile p ++ t := by
  have hstop : t.dropWhile p = t := by
    rcases t with _ | ⟨c, t⟩
    · rfl
    · exact List.dropWhile_cons_of_neg (by simp [h c rfl])
  rw [List.dropWhile_append, hstop]
  split_ifs with hall
  · rw [List.isEmpty_iff.mp hall, List.nil_append]
  · rfl

/-! ### Joined texts -/

theorem intercalate_append {xs ys : List (List Char)} (c : Char) (hxs : xs ≠ [])
    (hys : ys ≠ []) :
    [c].intercalate (xs ++ ys) = [c].intercalate xs ++ c :: [c].intercalate ys := by
  induction xs with
  | nil => exact absurd rfl hxs
  | cons x xs ih =>
    cases xs with
    | nil =>
      obtain ⟨y, ys, rfl⟩ := List.exists_cons_of_ne_nil hys
      simp [List.intercalate_cons_cons]
    | cons x' xs =>
      rw [List.cons_append, List.cons_append, List.intercalate_cons_cons, List.intercalate_cons_cons,
        ← List.cons_append, ih (List.cons_ne_nil x' xs)]
      simp

end PacketTree.Text
