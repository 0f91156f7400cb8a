/-!
# Bounded queues

A queue hands items from one stage to the next in the order in which they were accepted. It holds a
bounded number of them and can be closed: it then accepts nothing more and still gives out what it
holds.

## The model

An operation on a queue is done, refused because the queue is closed, or blocked: then it waits
until some other operation has changed the queue.
-/

namespace PacketTree

/-- What comes of an operation that may have to wait. -/
inductive Attempt (α : Type) where
  /-- It is done. -/
  | done (result : α)
  /-- It will never be possible again. -/
  | closed
  /-- It has to wait. -/
  | blocked
deriving DecidableEq, Repr

/-- A queue of a bounded number of items. -/
structure Queue (α : Type) where
  /-- The number of items that was asked for. -/
  capacity : Nat
  /-- The items, the oldest first. -/
  items : List α := []
  /-- Nothing more is accepted. -/
  closed : Bool := false
deriving DecidableEq, Repr

namespace Queue

variable {α : Type}

/-- An empty queue. -/
def ofCapacity (capacity : Nat) : Queue α := { capacity := capacity }

/-- The number of items it can hold, never less than one. -/
def limit (q : Queue α) : Nat := max q.capacity 1

/-- The number of items. -/
def size (q : Queue α) : Nat := q.items.length

/-- There is no item. -/
def isEmpty (q : Queue α) : Bool := q.items.isEmpty

/-- Accepts an item. -/
def push (q : Queue α) (x : α) : Attempt (Queue α) :=
  if q.closed then .closed
  else if q.limit ≤ q.size then .blocked
  else .done { q with items := q.items ++ [x] }

/-- Accepts nothing more. -/
def close (q : Queue α) : Queue α := { q with closed := true }

/-- The number of items to take when some are already at hand: at least one, and as many more as
bring the items at hand to `most`. -/
def share (most atHand : Nat) : Nat := max 1 (most - atHand)

/-- Takes the oldest items and puts them behind those at hand: one in any case, then as long as
there are some and fewer than `most` are at hand. -/
def popBatch (q : Queue α) (most : Nat) (atHand : List α) : Attempt (Queue α × List α) :=
  if q.items.isEmpty then (if q.closed then .closed else .blocked)
  else
    let n := share most atHand.length
    .done ({ q with items := q.items.drop n }, atHand ++ q.items.take n)

/-! ### Laws -/

/-- An accepted item is the last one. -/
theorem items_of_push_eq_done {q r : Queue α} {x : α} (h : q.push x = .done r) :
    r.items = q.items ++ [x] := by
  unfold push at h
  split at h
  · cases h
  · split at h
    · cases h
    · cases h; rfl

/-- A queue that holds no more items than it can holds no more of them after another one. -/
theorem size_le_limit_of_push_eq_done {q r : Queue α} {x : α} (h : q.push x = .done r) :
    r.size ≤ r.limit := by
  have hi := items_of_push_eq_done h
  unfold push at h
  split at h
  · cases h
  · split at h
    · cases h
    · rename_i hroom
      cases h
      simp only [size, limit, List.length_append, List.length_singleton] at hroom ⊢
      omega

/-- Nothing is accepted by a closed queue. -/
theorem push_close (q : Queue α) (x : α) : q.close.push x = .closed := rfl

/-- Items that were taken and items that are left are those there were, in their order. -/
theorem append_items_of_popBatch_eq_done {q r : Queue α} {most : Nat} {atHand out : List α}
    (h : q.popBatch most atHand = .done (r, out)) : out ++ r.items = atHand ++ q.items := by
  unfold popBatch at h
  split at h
  · split at h <;> cases h
  · cases h
    rw [List.append_assoc, List.take_append_drop]

end Queue

end PacketTree
