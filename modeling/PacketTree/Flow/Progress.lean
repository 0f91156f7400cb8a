/-!
# Progress of several workers

Frames are numbered in the order in which they came in, and workers take runs of them. Each worker
counts how far it was given frames and how far it is done with them. The safe index is a number up
to which all frames are done: as long as some worker has frames in hand, what the furthest behind of
these is done with, and otherwise the last frame given to anyone. It never goes down.
-/

namespace PacketTree

/-- How far one worker is. -/
structure Share where
  /-- The highest frame it was given. -/
  given : Nat := 0
  /-- The highest frame it is done with. -/
  done : Nat := 0
deriving DecidableEq, Repr, Inhabited

/-- The worker has frames in hand. -/
def Share.busy (s : Share) : Bool := s.done < s.given

/-- How far all workers are. -/
structure Progress where
  /-- The share of each worker. -/
  shares : List Share
  /-- The highest safe index found so far. -/
  mark : Nat := 0
deriving DecidableEq, Repr, Inhabited

namespace Progress

/-- No frame was given to anyone. -/
def ofWorkers (n : Nat) : Progress := { shares := List.replicate n {} }

/-- The least of some numbers. -/
def least? : List Nat → Option Nat
  | [] => none
  | n :: ns => some (ns.foldl min n)

/-- The greatest of some numbers, zero if there are none. -/
def greatest (ns : List Nat) : Nat := ns.foldl max 0

/-- The index up to which all frames are done, as the shares tell. -/
def candidate (p : Progress) : Nat :=
  (least? ((p.shares.filter Share.busy).map Share.done)).getD (greatest (p.shares.map Share.given))

/-- Brings the mark up to date. -/
def refresh (p : Progress) : Progress := { p with mark := max p.mark p.candidate }

/-- A worker takes the frames from `first` to `last`. -/
def begin (p : Progress) (worker first last : Nat) : Progress :=
  { p with
    shares := p.shares.modify worker fun s =>
      { given := max s.given last, done := max s.done (first - 1) } }

/-- A worker is done with all frames up to `index`. -/
def finish (p : Progress) (worker index : Nat) : Progress :=
  refresh
    { p with
      shares := p.shares.modify worker fun s =>
        { given := max s.given index, done := max s.done index } }

/-- The safe index. Asking for it brings the mark up to date. -/
def safe (p : Progress) : Nat × Progress := (p.refresh.mark, p.refresh)

/-! ### Laws -/

/-- The mark never goes down, and it is brought up to what the shares tell. -/
theorem mark_refresh (p : Progress) : p.refresh.mark = max p.mark p.candidate := rfl

theorem mark_le_refresh (p : Progress) : p.mark ≤ p.refresh.mark := Nat.le_max_left _ _

/-- Taking frames leaves the mark where it is. -/
theorem mark_begin (p : Progress) (worker first last : Nat) :
    (p.begin worker first last).mark = p.mark := rfl

/-- Being done with frames never lowers the mark. -/
theorem mark_le_finish (p : Progress) (worker index : Nat) : p.mark ≤ (p.finish worker index).mark :=
  Nat.le_max_left _ _

/-- The safe index is the mark that is left behind. -/
theorem safe_mark (p : Progress) : p.safe.2.mark = p.safe.1 := rfl

end Progress

end PacketTree
