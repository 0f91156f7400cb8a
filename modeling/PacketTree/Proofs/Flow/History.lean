import Mathlib.Data.List.Induction
import PacketTree.Proofs.Flow.Queue

/-!
# What goes through a queue

Operations on one queue follow each other in any order. This module follows the items from the push
that brings them to the batch that takes them out, and says what each operation comes to at any time.

## What is proved

* `History.Sound.perform`: what every operation keeps, and so `sound_all`.
* `history_after`: items come out in the order in which they were accepted, none is lost, the queue
  never holds more than it may, and what the next operation is told, whichever it is.

## The model

A `History` is a queue together with the items that it accepted and those that were taken out of it.
An operation that would have to wait does not happen. Whoever takes out a batch brings a list of items
already at hand, of any length, which may be longer than the batch asked for.
-/

namespace PacketTree.Queue

variable {α : Type}

/-- An operation. -/
inductive Operation (α : Type) where
  /-- An item is put in. -/
  | push (x : α)
  /-- A batch is taken out and put behind the items at hand. -/
  | popBatch (most : ℕ) (atHand : List α)
  /-- Nothing more is to be accepted. -/
  | close

/-- What an operation is told. -/
inductive Reply (α : Type) where
  /-- The item is in the queue. -/
  | accepted
  /-- The item is refused, since the queue is closed. -/
  | refused
  /-- These items are at hand, and there may be more to come. -/
  | batch (atHand : List α)
  /-- These items are at hand, and there is nothing to come. -/
  | drained (atHand : List α)
  /-- The queue is closed. -/
  | closed

/-- A queue with all that went in and came out. -/
structure History (α : Type) where
  /-- The queue. -/
  queue : Queue α
  /-- The items accepted, the first one first. -/
  accepted : List α := []
  /-- The items taken out, the first one first. -/
  delivered : List α := []

namespace History

/-- What an operation is told and what it leaves; `none` if it has to wait. -/
def perform? (h : History α) : Operation α → Option (Reply α × History α)
  | .push x =>
    match h.queue.push x with
    | .done queue => some (.accepted, { h with queue := queue, accepted := h.accepted ++ [x] })
    | .closed => some (.refused, h)
    | .blocked => none
  | .popBatch most atHand =>
    match h.queue.popBatch most atHand with
    | .done (queue, out) =>
      some (.batch out,
        { h with queue := queue, delivered := h.delivered ++ out.drop atHand.length })
    | .closed => some (.drained atHand, h)
    | .blocked => none
  | .close => some (.closed, { h with queue := h.queue.close })

/-- One operation more, unless it has to wait. -/
def perform (h : History α) (operation : Operation α) : History α :=
  ((h.perform? operation).map Prod.snd).getD h

/-- What some operations on a new queue lead to. -/
def after (capacity : ℕ) (operations : List (Operation α)) : History α :=
  operations.foldl perform { queue := .ofCapacity capacity }

/-- What holds after any operations. -/
structure Sound (capacity : ℕ) (operations : List (Operation α)) (h : History α) : Prop where
  /-- What came out and what is still there went in, in this order. -/
  order : h.delivered ++ h.queue.items = h.accepted
  /-- The queue has its capacity, -/
  capacity : h.queue.capacity = capacity
  /-- and holds no more. -/
  size_le : h.queue.size ≤ h.queue.limit
  /-- It is closed once it was closed. -/
  closed : h.queue.closed = true ↔ .close ∈ operations

variable {h next : History α} {x : α} {most capacity : ℕ} {atHand : List α}
  {operations : List (Operation α)} {operation : Operation α} {reply : Reply α}

/-! ### Single operations -/

theorem perform?_push_of_closed (hc : h.queue.closed = true) (x : α) :
    h.perform? (.push x) = some (.refused, h) := by
  rw [perform?, push_eq_closed_iff.mpr hc]

theorem perform?_push_of_lt (hc : h.queue.closed = false) (hlt : h.queue.size < h.queue.limit)
    (x : α) : h.perform? (.push x) = some (.accepted,
      { h with
        queue := { h.queue with items := h.queue.items ++ [x] }
        accepted := h.accepted ++ [x] }) := by
  rw [perform?, push_eq_done_iff.mpr ⟨hc, hlt, rfl⟩]

theorem perform?_push_of_le (hc : h.queue.closed = false) (hle : h.queue.limit ≤ h.queue.size)
    (x : α) : h.perform? (.push x) = none := by
  rw [perform?, push_eq_blocked_iff.mpr ⟨hc, hle⟩]

/-- A batch is what is first in the queue. -/
theorem perform?_popBatch (hne : h.queue.items ≠ []) (most : ℕ) (atHand : List α) :
    let batch := h.queue.items.take (share most atHand.length)
    h.perform? (.popBatch most atHand) = some (.batch (atHand ++ batch),
      { h with
        queue := { h.queue with items := h.queue.items.drop (share most atHand.length) }
        delivered := h.delivered ++ batch }) := by
  rw [perform?, popBatch_eq_done_iff.mpr ⟨hne, rfl, rfl⟩]
  simp only [List.drop_left]

theorem perform?_popBatch_of_closed (hempty : h.queue.items = []) (hc : h.queue.closed = true)
    (most : ℕ) (atHand : List α) : h.perform? (.popBatch most atHand) = some (.drained atHand, h) := by
  rw [perform?, popBatch_eq_closed_iff.mpr ⟨hempty, hc⟩]

theorem perform?_popBatch_of_open (hempty : h.queue.items = []) (hc : h.queue.closed = false)
    (most : ℕ) (atHand : List α) : h.perform? (.popBatch most atHand) = none := by
  rw [perform?, popBatch_eq_blocked_iff.mpr ⟨hempty, hc⟩]

/-! ### Any operations -/

theorem sound_new (capacity : ℕ) :
    Sound (α := α) capacity [] { queue := .ofCapacity capacity } where
  order := rfl
  capacity := rfl
  size_le := Nat.zero_le _
  closed := by simp [ofCapacity]

/-- What was sound before an operation that does not close the queue is sound after it, if that is so
of the items. -/
theorem Sound.concat (hs : h.Sound capacity operations) (hne : operation ≠ .close)
    (horder : next.delivered ++ next.queue.items = next.accepted)
    (hcapacity : next.queue.capacity = h.queue.capacity) (hclosed : next.queue.closed = h.queue.closed)
    (hsize : next.queue.size ≤ next.queue.limit) :
    next.Sound capacity (operations ++ [operation]) where
  order := horder
  capacity := hcapacity.trans hs.capacity
  size_le := hsize
  closed := by rw [hclosed, hs.closed, List.mem_append, List.mem_singleton, or_iff_left hne.symm]

theorem Sound.push (hs : h.Sound capacity operations) (x : α) :
    (h.perform (.push x)).Sound capacity (operations ++ [.push x]) := by
  cases hc : h.queue.closed with
  | true =>
    rw [perform, perform?_push_of_closed hc]
    exact hs.concat nofun hs.order rfl rfl hs.size_le
  | false =>
    rcases Nat.lt_or_ge h.queue.size h.queue.limit with hlt | hle
    · rw [perform, perform?_push_of_lt hc hlt]
      refine hs.concat nofun ?_ rfl rfl ?_
      · simp only [Option.map_some, Option.getD_some]
        rw [← List.append_assoc, hs.order]
      · simp only [Option.map_some, Option.getD_some, size, limit, List.length_append,
          List.length_singleton] at hlt ⊢
        omega
    · rw [perform, perform?_push_of_le hc hle]
      exact hs.concat nofun hs.order rfl rfl hs.size_le

theorem Sound.popBatch (hs : h.Sound capacity operations) (most : ℕ) (atHand : List α) :
    (h.perform (.popBatch most atHand)).Sound capacity (operations ++ [.popBatch most atHand]) := by
  by_cases hempty : h.queue.items = []
  · cases hc : h.queue.closed with
    | true =>
      rw [perform, perform?_popBatch_of_closed hempty hc]
      exact hs.concat nofun hs.order rfl rfl hs.size_le
    | false =>
      rw [perform, perform?_popBatch_of_open hempty hc]
      exact hs.concat nofun hs.order rfl rfl hs.size_le
  · rw [perform, perform?_popBatch hempty]
    refine hs.concat nofun ?_ rfl rfl ?_
    · simp only [Option.map_some, Option.getD_some]
      rw [List.append_assoc, List.take_append_drop, hs.order]
    · have hsize := hs.size_le
      simp only [Option.map_some, Option.getD_some, size, limit, List.length_drop] at hsize ⊢
      omega

theorem Sound.close (hs : h.Sound capacity operations) :
    (h.perform .close).Sound capacity (operations ++ [.close]) where
  order := hs.order
  capacity := hs.capacity
  size_le := hs.size_le
  closed := iff_of_true rfl (List.mem_append_right _ List.mem_cons_self)

/-- Every operation keeps the order and the bound. -/
theorem Sound.perform (hs : h.Sound capacity operations) (operation : Operation α) :
    (h.perform operation).Sound capacity (operations ++ [operation]) := by
  cases operation with
  | push x => exact hs.push x
  | popBatch most atHand => exact hs.popBatch most atHand
  | close => exact hs.close

theorem sound_all (capacity : ℕ) (operations : List (Operation α)) :
    (after capacity operations).Sound capacity operations := by
  induction operations using List.reverseRecOn with
  | nil => exact sound_new capacity
  | append_singleton operations operation ih =>
    rw [after, List.foldl_append]
    exact ih.perform operation

/-- **Items come out in the order in which they were accepted**, after any operations on a queue of any
capacity, which holds no more than this capacity, and one item if the capacity is zero. The next
operation is told the following. Once the queue was closed every item is refused, and nothing changes;
before, an item is accepted if there is room. A batch is at least one item and at most as many as asked
for, those that are first in the queue, behind all that is at hand; only if there are none the items at
hand stay as they are, and there is nothing to come if the queue was closed. -/
theorem history_after (capacity : ℕ) (operations : List (Operation α)) :
    let h := after capacity operations
    h.delivered ++ h.queue.items = h.accepted ∧
    h.queue.size ≤ max capacity 1 ∧
    (∀ x,
      (.close ∈ operations → h.perform? (.push x) = some (.refused, h)) ∧
      (.close ∉ operations → h.perform? (.push x) =
        if h.queue.size < max capacity 1 then
          some (.accepted,
            { h with
              queue := { h.queue with items := h.queue.items ++ [x] }
              accepted := h.accepted ++ [x] })
        else none)) ∧
    ∀ most atHand,
      (h.queue.items ≠ [] → ∃ batch rest,
        1 ≤ batch.length ∧ batch.length ≤ max most 1 ∧ h.queue.items = batch ++ rest ∧
        h.perform? (.popBatch most atHand) = some (.batch (atHand ++ batch),
          { h with
            queue := { h.queue with items := rest }
            delivered := h.delivered ++ batch })) ∧
      (h.queue.items = [] →
        (.close ∈ operations → h.perform? (.popBatch most atHand) = some (.drained atHand, h)) ∧
        (.close ∉ operations → h.perform? (.popBatch most atHand) = none)) := by
  intro h
  have hs : h.Sound capacity operations := sound_all capacity operations
  have hopen : .close ∉ operations → h.queue.closed = false := fun hclose =>
    Bool.eq_false_iff.mpr (mt hs.closed.mp hclose)
  have hlimit : h.queue.limit = max capacity 1 := by rw [limit, hs.capacity]
  refine ⟨hs.order, hlimit ▸ hs.size_le, fun x => ⟨fun hclose => ?_, fun hclose => ?_⟩,
    fun most atHand => ⟨fun hne => ?_, fun hempty => ⟨fun hclose => ?_, fun hclose => ?_⟩⟩⟩
  · exact perform?_push_of_closed (hs.closed.mpr hclose) x
  · rw [← hlimit]
    split
    · next hlt => exact perform?_push_of_lt (hopen hclose) hlt x
    · next hle => exact perform?_push_of_le (hopen hclose) (Nat.le_of_not_lt hle) x
  · have hbatch := take_share_ne_nil hne most atHand.length
    exact ⟨_, _, List.length_pos_iff.mpr hbatch, (List.length_take_le _ _).trans (share_le _ _),
      (List.take_append_drop _ _).symm, perform?_popBatch hne most atHand⟩
  · exact perform?_popBatch_of_closed hempty (hs.closed.mpr hclose) most atHand
  · exact perform?_popBatch_of_open hempty (hopen hclose) most atHand

/-- An item taken out of a closed queue of capacity zero stands behind those at hand. -/
example : (after 0 [.push 7, .close]).perform? (.popBatch 0 [5, 6]) =
    some (.batch [5, 6, 7],
      { queue := { capacity := 0, closed := true }, accepted := [7], delivered := [7] }) := rfl

end History
end PacketTree.Queue
