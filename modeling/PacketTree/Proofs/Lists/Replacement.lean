import Mathlib.Algebra.BigOperators.Group.List.Basic
import Mathlib.Algebra.Order.Ring.Nat
import Mathlib.Data.List.Basic

/-!
# Lists in which one item is replaced

What a list holds, adds up to and consists of when the item at one place gives way to another.

## What is proved

* `List.exists_around`: the list around the place.
* `List.flatMap_set_perm`, `List.perm_out_set`: what all items hold together.
* `List.sum_map_set`: what a number of each item adds up to.
* `List.of_getElem?_set_eq_some`, `List.forall_mem_set`: which items there are.
-/

namespace List

variable {α : Type} {l : List α} {i : ℕ} {a b : α}

/-- A list around one of its places. -/
theorem exists_around (h : l[i]? = some a) :
    ∃ xs ys, l = xs ++ a :: ys ∧ ∀ b, l.set i b = xs ++ b :: ys := by
  obtain ⟨hlt, rfl⟩ := List.getElem?_eq_some_iff.mp h
  refine ⟨l.take i, l.drop (i + 1), ?_, fun b => List.set_eq_take_append_cons_drop .. ▸ if_pos hlt⟩
  rw [List.getElem_cons_drop, List.take_append_drop]

/-- An item of a list with a new one among them is the new one or an old one. -/
theorem of_getElem?_set_eq_some {j : ℕ} (h : (l.set i b)[j]? = some a) :
    (j = i ∧ a = b) ∨ (j ≠ i ∧ l[j]? = some a) := by
  rw [List.getElem?_set] at h
  split at h
  · next hij =>
    split at h
    · exact .inl ⟨hij.symm, (Option.some.inj h).symm⟩
    · cases h
  · next hij => exact .inr ⟨Ne.symm hij, h⟩

/-- What a list of items holds together when one of them is replaced. -/
theorem flatMap_set_perm {β : Type} (h : l[i]? = some a) (f : α → List β)
    (b : α) : ((l.set i b).flatMap f ++ f a).Perm (l.flatMap f ++ f b) := by
  obtain ⟨xs, ys, rfl, hset⟩ := exists_around h
  simp only [hset, List.flatMap_append, List.flatMap_cons, List.append_assoc]
  refine List.Perm.append_left _ ?_
  calc f b ++ (ys.flatMap f ++ f a)
      _ ~ f b ++ (f a ++ ys.flatMap f) := List.perm_append_comm.append_left _
      _ ~ f a ++ (f b ++ ys.flatMap f) := List.perm_append_comm_assoc ..
      _ ~ f a ++ (ys.flatMap f ++ f b) := List.perm_append_comm.append_left _

/-- What one item of a list gives up goes out, and all others hold what they held. -/
theorem perm_out_set {β γ : Type} (h : l[i]? = some a)
    {f : α → List β} {change : β → γ} {out out' : List γ}
    (hout : (out' ++ (f b).map change).Perm (out ++ (f a).map change)) :
    (out' ++ ((l.set i b).flatMap f).map change).Perm (out ++ (l.flatMap f).map change) := by
  have hset := (flatMap_set_perm h f b).map change
  rw [List.map_append, List.map_append] at hset
  refine (List.perm_append_right_iff ((f a).map change)).mp ?_
  rw [List.append_assoc, List.append_assoc]
  calc out' ++ (((l.set i b).flatMap f).map change ++ (f a).map change)
      _ ~ out' ++ ((l.flatMap f).map change ++ (f b).map change) := hset.append_left out'
      _ ~ (l.flatMap f).map change ++ (out' ++ (f b).map change) := List.perm_append_comm_assoc ..
      _ ~ (l.flatMap f).map change ++ (out ++ (f a).map change) := hout.append_left _
      _ ~ out ++ ((l.flatMap f).map change ++ (f a).map change) := List.perm_append_comm_assoc ..

/-- The sum over a list when one of its items is replaced. -/
theorem sum_map_set (h : l[i]? = some a)
    (f : α → ℕ) (b : α) :
    ((l.set i b).map f).sum + f a = (l.map f).sum + f b := by
  obtain ⟨xs, ys, rfl, hset⟩ := exists_around h
  simp only [hset, List.map_append, List.map_cons, List.sum_append, List.sum_cons]
  omega

theorem sum_map_set_lt (h : l[i]? = some a) {f : α → ℕ}
    (hlt : f b < f a) : ((l.set i b).map f).sum < (l.map f).sum := by
  have hsum := sum_map_set h f b
  omega

/-- What holds of all items of a list and of a new one holds of all with the new one among them. -/
theorem forall_mem_set {P : α → Prop} (h : ∀ a ∈ l, P a) (hb : P b) :
    ∀ a ∈ l.set i b, P a := by
  intro a ha
  rcases List.mem_or_eq_of_mem_set ha with ha | rfl
  · exact h a ha
  · exact hb

/-- The other items stay when one is replaced. -/
theorem mem_set_of_ne {c : α} (h : l[i]? = some a) (hc : c ∈ l) (hne : c ≠ a) : c ∈ l.set i b := by
  obtain ⟨j, hj⟩ := List.mem_iff_getElem?.mp hc
  have hij : i ≠ j := by
    rintro rfl
    exact hne (Option.some.inj (hj.symm.trans h))
  exact List.mem_of_getElem? ((List.getElem?_set_ne hij).trans hj)

end List
