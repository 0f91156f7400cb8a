import PacketTree.Dissection.Run
import PacketTree.Flow.Memory
import PacketTree.Flow.Progress
import PacketTree.Flow.Queue

/-!
# Dissection by several contexts

Frames go through a queue to a number of contexts, each with workers of its own. A context takes a
batch of frames, takes them apart, hands the batch on and says how far it is.

## The model

Contexts take turns in any order. `step?` is one turn of one context: it claims the next batch, or
hands on the batch it claimed, or reports its progress. Claiming and announcing the batch is one
turn, so that no later frame can be done before an earlier one is known to be in hand. A turn that
has to wait or never ends is `none`. A context makes room for a whole batch before it claims one, and
breaks down if that cannot be had; then it leaves without a frame.
-/

namespace PacketTree

/-- What a context does next. -/
inductive DissectionPhase where
  /-- It claims a batch. -/
  | idle
  /-- It takes these frames apart and hands them on. -/
  | holding (batch : List Frame)
  /-- It reports that it is done with all frames up to this one. -/
  | handed (last : Nat)
  /-- It has left: the queue is closed and empty, or there is no room for a batch. -/
  | left

/-- A place where frames are taken apart. -/
structure DissectionContext (σ : Type) where
  /-- Its workers. -/
  workers : List (Worker σ)
  /-- What it does next. -/
  phase : DissectionPhase := .idle

/-- Several contexts behind one queue. -/
structure Pool (σ : Type) where
  /-- The confidence a layer needs. -/
  threshold : Threshold
  /-- The number of frames a context claims at most. -/
  batchSize : Nat
  /-- The frames not yet claimed. -/
  queue : Queue Frame
  /-- How far each context is. -/
  progress : Progress
  /-- The contexts. -/
  contexts : List (DissectionContext σ)

variable {σ : Type}

/-- Takes frames apart one after the other, with the same workers. A frame on which a worker breaks
down keeps the layers found before. There is no result if one of them never ends. -/
def dissectAll (threshold : Threshold) (workers : List (Worker σ)) :
    List Frame → Option (List (Worker σ) × List Frame)
  | [] => some (workers, [])
  | f :: fs => do
    let d ← Dissection.complete threshold f workers
    let (workers, frames) ← dissectAll threshold d.workers fs
    return (workers, d.frame :: frames)

/-- The number of the first frame of a batch. -/
def firstIndex (batch : List Frame) : Nat := (batch.head?.map Frame.index).getD 0

/-- The number of the last frame of a batch. -/
def lastIndex (batch : List Frame) : Nat := (batch.getLast?.map Frame.index).getD 0

namespace Pool

/-- The number of bytes of a frame in a batch. -/
def frameBytes : Nat := 56

/-- The number of bytes of a place in the queue. -/
def slotBytes : Nat := 64

/-- There is room for a batch. -/
def HasRoom (p : Pool σ) : Prop := Memory.Fits p.batchSize frameBytes

instance (p : Pool σ) : Decidable p.HasRoom :=
  inferInstanceAs (Decidable (Memory.Fits p.batchSize frameBytes))

/-- A pool of contexts, at least one, each with new workers of the given dissectors. -/
def create (dissectors : List (Dissector σ)) (threshold : Threshold)
    (contexts batchSize capacity : Nat) : Pool σ where
  threshold := threshold
  batchSize := batchSize
  queue := .ofCapacity capacity
  progress := .ofWorkers (max contexts 1)
  contexts := List.replicate (max contexts 1) { workers := dissectors.map Dissector.worker }

/-- Starts a pool; `none` if that breaks down for lack of room. -/
def start? (dissectors : List (Dissector σ)) (threshold : Threshold)
    (contexts batchSize capacity : Nat) : Option (Pool σ) :=
  if Memory.FitsStage slotBytes contexts capacity then
    some (create dissectors threshold contexts batchSize capacity)
  else none

/-- Puts a frame into the queue. -/
def push (p : Pool σ) (f : Frame) : Attempt (Pool σ) :=
  match p.queue.push f with
  | .done queue => .done { p with queue := queue }
  | .closed => .closed
  | .blocked => .blocked

/-- Accepts no more frames. -/
def close (p : Pool σ) : Pool σ := { p with queue := p.queue.close }

/-- One turn of a context, with the batch that it hands on, if it does. -/
def step? (p : Pool σ) (i : Nat) : Option (Pool σ × List Frame) := do
  let c ← p.contexts[i]?
  match c.phase with
  | .idle =>
    if p.HasRoom then
      match p.queue.popBatch p.batchSize [] with
      | .done (queue, batch) =>
        some ({ p with
          queue := queue
          progress := p.progress.begin i (firstIndex batch) (lastIndex batch)
          contexts := p.contexts.set i { c with phase := .holding batch } }, [])
      | .closed => some ({ p with contexts := p.contexts.set i { c with phase := .left } }, [])
      | .blocked => none
    else some ({ p with contexts := p.contexts.set i { c with phase := .left } }, [])
  | .holding batch => do
    let (workers, frames) ← dissectAll p.threshold c.workers batch
    some ({ p with
      contexts := p.contexts.set i { workers := workers, phase := .handed (lastIndex batch) } },
      frames)
  | .handed last =>
    some ({ p with
      progress := p.progress.finish i last
      contexts := p.contexts.set i { c with phase := .idle } }, [])
  | .left => none

/-- All contexts have left. -/
def isDrained (p : Pool σ) : Bool := p.contexts.all fun c => c.phase matches .left

end Pool

end PacketTree
