import Mathlib.Algebra.Order.Ring.Nat
import Mathlib.Data.List.Basic
import PacketTree.Flow.Queue

/-!
# When a queue makes others wait

Each operation on a queue is done, refused or blocked, and this module says when, and what the queue
holds after it.

## What is proved

* `push_eq_done_iff`, `push_eq_blocked_iff`: an open queue blocks exactly if it is full.
* `popBatch_eq_done_iff`, `popBatch_eq_closed_iff`, `popBatch_eq_blocked_iff`: an open queue blocks
  exactly if it is empty.
-/

namespace PacketTree.Queue

variable {α : Type} {q r : Queue α} {x : α} {most : ℕ} {atHand batch out : List α}

theorem limit_pos (q : Queue α) : 0 < q.limit := Nat.lt_of_lt_of_le Nat.one_pos (Nat.le_max_right _ _)

/-! ### Putting in -/

theorem push_eq_done_iff :
    q.push x = .done r ↔
      q.closed = false ∧ q.size < q.limit ∧ r = { q with items := q.items ++ [x] } := by
  unfold push
  cases hc : q.closed
  · by_cases hl : q.limit ≤ q.size
    · simp [hl, Nat.not_lt.mpr hl]
    · simp [hl, Nat.lt_of_not_le hl, eq_comm]
  · simp

theorem push_eq_blocked_iff : q.push x = .blocked ↔ q.closed = false ∧ q.limit ≤ q.size := by
  unfold push
  cases hc : q.closed
  · by_cases hl : q.limit ≤ q.size <;> simp [hl]
  · simp

theorem push_eq_closed_iff : q.push x = .closed ↔ q.closed = true := by
  unfold push
  cases hc : q.closed
  · by_cases hl : q.limit ≤ q.size <;> simp [hl]
  · simp

/-! ### Taking out -/

theorem popBatch_eq_done_iff :
    q.popBatch most atHand = .done (r, out) ↔
      q.items ≠ [] ∧ out = atHand ++ q.items.take (share most atHand.length) ∧
        r = { q with items := q.items.drop (share most atHand.length) } := by
  unfold popBatch
  cases hitems : q.items with
  | nil => cases q.closed <;> simp
  | cons x items => simp [and_comm, eq_comm]

theorem popBatch_eq_closed_iff :
    q.popBatch most atHand = .closed ↔ q.items = [] ∧ q.closed = true := by
  unfold popBatch
  cases q.items <;> cases q.closed <;> simp

theorem popBatch_eq_blocked_iff :
    q.popBatch most atHand = .blocked ↔ q.items = [] ∧ q.closed = false := by
  unfold popBatch
  cases q.items <;> cases q.closed <;> simp

theorem share_pos (most n : ℕ) : 0 < share most n := Nat.le_max_left _ _

theorem share_le (most n : ℕ) : share most n ≤ max most 1 := by
  unfold share
  omega

theorem take_share_ne_nil {l : List α} (h : l ≠ []) (most n : ℕ) : l.take (share most n) ≠ [] := by
  rw [Ne, List.take_eq_nil_iff]
  exact not_or.mpr ⟨(share_pos most n).ne', h⟩

/-- At least one item is taken, and what is left follows it. -/
theorem popBatch_eq_done (h : q.popBatch most [] = .done (r, batch)) :
    batch ≠ [] ∧ q.items = batch ++ r.items ∧ r.closed = q.closed ∧ r.capacity = q.capacity := by
  obtain ⟨hne, rfl, rfl⟩ := popBatch_eq_done_iff.mp h
  exact ⟨take_share_ne_nil hne _ _, (List.take_append_drop _ _).symm, rfl, rfl⟩

/-- No more items are taken than asked for, but for the first one. -/
theorem length_le_of_popBatch (h : q.popBatch most [] = .done (r, batch)) :
    batch.length ≤ max most 1 := by
  obtain ⟨-, rfl, -⟩ := popBatch_eq_done_iff.mp h
  exact (List.length_take_le _ _).trans (share_le most 0)

/-- A batch of at most one item is one item. -/
theorem popBatch_one (h : q.popBatch 1 [] = .done (r, batch)) :
    ∃ x, batch = [x] ∧ q.items = x :: r.items ∧ r = { q with items := r.items } := by
  obtain ⟨hne, rfl, rfl⟩ := popBatch_eq_done_iff.mp h
  obtain ⟨x, items, hitems⟩ := List.exists_cons_of_ne_nil hne
  rw [hitems]
  exact ⟨x, rfl, rfl, rfl⟩

end PacketTree.Queue
