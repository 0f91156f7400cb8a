import PacketTree.Flow.Queue
import PacketTree.Frame.Basic

/-!
# The store of frames in order

Frames come in any order and are given out in the order of their numbers, from one on without a gap.
A frame that comes too early is parked until those before it are there. Frames given out never
change their place; layers can still be added to them.
-/

namespace PacketTree

/-- Frames in order, and those that came too early. -/
structure Store where
  /-- The frames in order: the first has number one, and none is missing. -/
  frames : Array Frame := #[]
  /-- The frames that wait for others, in the order of their numbers. -/
  parked : List Frame := []
  /-- No more frames will come. -/
  closed : Bool := false
deriving Inhabited

namespace Store

/-- No frame came yet. -/
def empty : Store := {}

/-- The number of frames in order. -/
def size (s : Store) : Nat := s.frames.size

/-- Puts a frame into its place by number; a frame of the same number is replaced. -/
def park (f : Frame) : List Frame → List Frame
  | [] => [f]
  | g :: gs =>
    if f.index < g.index then f :: g :: gs
    else if f.index = g.index then f :: gs
    else g :: park f gs

/-- Moves parked frames to those in order, as far as none is missing. -/
def release (frames : Array Frame) : List Frame → Array Frame × List Frame
  | [] => (frames, [])
  | f :: fs =>
    if f.index = frames.size + 1 then release (frames.push f) fs
    else
      let (frames, kept) := release frames fs
      (frames, f :: kept)

/-- Takes in frames. -/
def insert (s : Store) (batch : List Frame) : Store :=
  let (frames, parked) := release s.frames (batch.foldl (fun fs f => park f fs) s.parked)
  { s with frames := frames, parked := parked }

/-- At most `count` frames behind the first `offset`. -/
def get (s : Store) (offset count : Nat) : List Frame :=
  (s.frames.extract offset (offset + count)).toList

/-- Waits for frames behind the first `offset`: at most `most` of them, and at least one unless no
more will come. -/
def wait (s : Store) (offset most : Nat) : Attempt (List Frame) :=
  if offset < s.size then .done (s.get offset (max most 1))
  else if s.closed then .closed
  else .blocked

/-- Adds a layer to a frame in order; `none` if there is no such frame or parent. The second result
is the number of the new layer. -/
def attach? (s : Store) (index parent : Nat) (l : Layer) : Option (Store × Nat) :=
  match index with
  | 0 => none
  | place + 1 => do
    let f ← s.frames[place]?
    let g ← f.attach? parent l
    return ({ s with frames := s.frames.setIfInBounds place g }, f.size)

/-- No more frames will come. -/
def close (s : Store) : Store := { s with closed := true }

end Store

end PacketTree
