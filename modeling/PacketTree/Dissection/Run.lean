import PacketTree.Dissection.Dissector

/-!
# Dissection

A frame is taken apart in generations. In each generation every new leaf is shown to the workers
that are called for its namespace, and what they find is added below it. A layer whose namespace
appeared in an earlier generation is not looked at again, so that dissectors which lead back to a
namespace do not go round in circles.

## The model

`Dissection` is the state between generations, `step` one generation and `run` any number of them.
A layer whose payload is not part of its parent's loses the payload and is marked. A worker that
breaks down ends the dissection of the frame; the layers added before stay. Dissectors that find a new
namespace in every generation never end, and then there is no result.
-/

namespace PacketTree

/-- Numbers that a layer needs in order to be kept. -/
abbrev Threshold := Double

/-- The state of a dissection between two generations. -/
structure Dissection (σ : Type) where
  /-- The frame with the layers found so far. -/
  frame : Frame
  /-- The workers, in the order in which they look at a layer. -/
  workers : List (Worker σ)
  /-- The namespaces of all generations so far. -/
  visited : List Namespace
  /-- The layers to look at next. -/
  leaves : List Nat
  /-- A worker broke down. -/
  faulted : Bool

namespace Dissection

variable {σ : Type}

/-- The error of a layer whose payload is not part of its parent's. -/
def outsideError : String := "payload outside parent layer"

/-- A layer with a payload that is part of its parent's: its own, or else the parent's empty end. -/
def contain (parent : ByteView) (l : Layer) : Layer :=
  if l.payload.Within parent then l
  else { l with error := outsideError, payload := parent.tail }

/-- One layer is surer than another or as sure, zeros told apart by their sign. -/
def surer (l m : Layer) : Bool := decide (m.confidence.value.totalKey ≤ l.confidence.value.totalKey)

/-- The layers that are sure enough, the surest first, equally sure ones in the order given. -/
def rank (threshold : Threshold) (found : List Layer) : List Layer :=
  (found.filter fun l => threshold.le l.confidence.value).mergeSort surer

/-- Adds layers below a layer, in the order given; the numbers of those added. -/
def attachAll (f : Frame) (parent : Nat) (payload : ByteView) : List Layer → Frame × List Nat
  | [] => (f, [])
  | l :: ls =>
    match f.attach? parent (contain payload l) with
    | some g =>
      let (h, ids) := attachAll g parent payload ls
      (h, f.size :: ids)
    | none => attachAll f parent payload ls

/-- What expanding some leaves gives: the frame, the workers, the layers added, and whether a worker
broke down. -/
structure Growth (σ : Type) where
  /-- The frame with the new layers. -/
  frame : Frame
  /-- The workers after their calls. -/
  workers : List (Worker σ)
  /-- The layers added. -/
  added : List Nat
  /-- A worker broke down. -/
  faulted : Bool

/-- Shows leaves to the workers, one after the other, and adds what they find. -/
def expand (threshold : Threshold) (f : Frame) (workers : List (Worker σ)) :
    List Nat → Growth σ
  | [] => ⟨f, workers, [], false⟩
  | leaf :: leaves =>
    match f.layer? leaf with
    | none => expand threshold f workers leaves
    | some l =>
      match Worker.callAll f leaf l.ns workers with
      | (workers, none) => ⟨f, workers, [], true⟩
      | (workers, some found) =>
        let (f, ids) := attachAll f leaf l.payload (rank threshold found)
        let rest := expand threshold f workers leaves
        { rest with added := ids ++ rest.added }

/-- The namespace of a layer. -/
def nsOf (f : Frame) (id : Nat) : Namespace := (f.layer? id).elim ⟨[]⟩ Layer.ns

/-- One generation. -/
def step (threshold : Threshold) (d : Dissection σ) : Dissection σ :=
  let g := expand threshold d.frame d.workers d.leaves
  { frame := g.frame
    workers := g.workers
    visited := d.visited ++ g.added.map (nsOf g.frame)
    leaves := if g.faulted then []
      else g.added.filter fun id => !d.visited.contains (nsOf g.frame id)
    faulted := g.faulted }

/-- Generations until there is nothing to look at, at most `limit`. -/
def run (threshold : Threshold) : Nat → Dissection σ → Dissection σ
  | 0, d => d
  | limit + 1, d => if d.leaves.isEmpty then d else run threshold limit (step threshold d)

/-- The state before the first generation. -/
def start (f : Frame) (workers : List (Worker σ)) : Dissection σ where
  frame := f
  workers := workers
  visited := [f.root.ns]
  leaves := [Frame.rootId]
  faulted := false

/-- Generations until there is nothing to look at; `none` if that never comes. -/
def runAll (threshold : Threshold) (d : Dissection σ) : Option (Dissection σ) :=
  if d.leaves.isEmpty then some d
  else by
    -- As a term, the call would carry its place in the file.
    apply runAll
    · exact threshold
    · exact step threshold d
partial_fixpoint

/-- The number of generations that are counted. No other number makes a difference: a dissection that
ends with them needs no more than the rules of its definitions to be computed. -/
def countedGenerations : Nat := 64

/-- Takes a frame apart; `none` if that never ends. -/
def complete (threshold : Threshold) (f : Frame) (workers : List (Worker σ)) :
    Option (Dissection σ) :=
  let d := run threshold countedGenerations (start f workers)
  if d.leaves.isEmpty then some d else runAll threshold d

/-- The number of layers that were added to a frame of which only the root was known. -/
def added (d : Dissection σ) : Nat := d.frame.size - 1

end Dissection

end PacketTree
