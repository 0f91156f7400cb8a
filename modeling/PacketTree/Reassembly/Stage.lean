import PacketTree.Flow.Progress
import PacketTree.Frame.Store
import PacketTree.Reassembly.Context
import PacketTree.Reassembly.Route

/-!
# Streams over several contexts

A feeder takes frames from the store in order, picks their segments and hands each segment to the
context that works on its stream. Every context gets a batch for every run of frames, if only an
empty one, so that all contexts agree on how far the frames are. What the workers find is added to
the stored frame, below the layer that carried the segment.

## The model

The feeder and the contexts take turns in any order. A turn of the feeder takes frames from the
store, announces a batch to one context, or puts it into the queue of that context. A turn of a
context takes a batch from its queue, looks at one segment, or reports its progress and sweeps when
it is time to. A turn that has to wait is `none`.
-/

namespace PacketTree

/-- The segments for one context out of a run of frames. -/
structure StreamBatch where
  /-- The segments in the order of their frames and layers. -/
  segments : List Segment
  /-- The number of the first frame of the run. -/
  first : Nat
  /-- The number of the last frame of the run. -/
  last : Nat

/-- What the feeder does next. -/
inductive FeederPhase where
  /-- It takes frames from the store. -/
  | waiting
  /-- It announces the first of these batches to a context, and the others to those behind it. -/
  | announcing (place : Nat) (batches : List StreamBatch)
  /-- It puts the first of these batches into the queue of a context. -/
  | handing (place : Nat) (batches : List StreamBatch)
  /-- It has left: no more frames will come. -/
  | left

/-- What a context does next. -/
inductive StreamPhase where
  /-- It takes a batch from its queue. -/
  | idle
  /-- It looks at the first of these segments; behind them it is done with all frames up to
  `last`. -/
  | working (segments : List Segment) (last : Nat)
  /-- It has left: its queue is closed and empty. -/
  | left

/-- A place where streams are worked on. -/
structure StreamContext (τ : Type) where
  /-- The batches for it. -/
  queue : Queue StreamBatch
  /-- Its streams. -/
  table : StreamTable τ := {}
  /-- The number of batches it is done with. -/
  batches : Nat := 0
  /-- What it does next. -/
  phase : StreamPhase := .idle

/-- The feeder and its contexts. -/
structure StreamStage (τ : Type) where
  /-- The dissectors. -/
  dissectors : List (StreamDissector τ)
  /-- The number of frames the feeder takes at most. -/
  batchSize : Nat
  /-- The number of batches of a context between two sweeps. -/
  sweepInterval : Nat
  /-- The number of frames the feeder has taken. -/
  offset : Nat := 0
  /-- What the feeder does next. -/
  feeder : FeederPhase := .waiting
  /-- How far each context is. -/
  progress : Progress
  /-- The contexts. -/
  contexts : List (StreamContext τ)

namespace StreamStage

variable {τ : Type}

/-- The number of bytes of a place in the queue of a context. -/
def slotBytes : Nat := 40

/-- A stage of contexts, at least one. -/
def create (dissectors : List (StreamDissector τ))
    (contexts batchSize capacity sweepInterval : Nat) : StreamStage τ where
  dissectors := dissectors
  batchSize := max batchSize 1
  sweepInterval := max sweepInterval 1
  progress := .ofWorkers (max contexts 1)
  contexts := List.replicate (max contexts 1) { queue := .ofCapacity capacity }

/-- The batches for all contexts out of a run of frames. -/
def batches (dissectors : List (StreamDissector τ)) (contexts : Nat) (frames : List Frame)
    (first last : Nat) : List StreamBatch :=
  let segments := frames.flatMap (Segment.ofFrame dissectors)
  let routed := segments.map fun s => (route s.stream contexts, s)
  (List.range contexts).map fun place =>
    { segments := (routed.filter fun r => r.1 = place).map Prod.snd
      first := first
      last := last }

/-- One turn of the feeder. -/
def feed? (s : StreamStage τ) (store : Store) : Option (StreamStage τ) :=
  match s.feeder with
  | .waiting =>
    match store.wait s.offset s.batchSize with
    | .done frames =>
      let first := (frames.head?.map Frame.index).getD 0
      let last := (frames.getLast?.map Frame.index).getD 0
      some { s with
        offset := s.offset + frames.length
        feeder := .announcing 0 (batches s.dissectors s.contexts.length frames first last) }
    | .closed =>
      some { s with
        feeder := .left
        contexts := s.contexts.map fun c => { c with queue := c.queue.close } }
    | .blocked => none
  | .announcing _ [] => some { s with feeder := .waiting }
  | .announcing place (b :: bs) =>
    some { s with
      feeder := .handing place (b :: bs)
      progress := s.progress.begin place b.first b.last }
  | .handing _ [] => some { s with feeder := .waiting }
  | .handing place (b :: bs) => do
    let c ← s.contexts[place]?
    match c.queue.push b with
    | .done queue =>
      some { s with
        feeder := .announcing (place + 1) bs
        contexts := s.contexts.set place { c with queue := queue } }
    | .closed => some { s with feeder := .left }
    | .blocked => none
  | .left => none

/-- Adds layers to a stored frame, below a layer; those that find no place are lost. -/
def attachAll (store : Store) (frame parent : Nat) (layers : List Layer) : Store :=
  layers.foldl (fun s l => (s.attach? frame parent l).elim s Prod.fst) store

/-- One turn of a context, at some time. -/
def work? (s : StreamStage τ) (store : Store) (i now : Nat) : Option (StreamStage τ × Store) := do
  let c ← s.contexts[i]?
  match c.phase with
  | .idle =>
    match c.queue.popBatch 1 [] with
    | .done (queue, batch) =>
      let next := match batch with
        | [] => .idle
        | b :: _ => .working b.segments b.last
      some ({ s with contexts := s.contexts.set i { c with queue := queue, phase := next } }, store)
    | .closed => some ({ s with contexts := s.contexts.set i { c with phase := .left } }, store)
    | .blocked => none
  | .working (segment :: rest) last =>
    let (table, layers) := c.table.process s.dissectors segment now
    some ({ s with
      contexts := s.contexts.set i { c with table := table, phase := .working rest last } },
      attachAll store segment.frame segment.layer layers)
  | .working [] last =>
    let batches := c.batches + 1
    let table := if batches % s.sweepInterval = 0 then c.table.sweep now else c.table
    some ({ s with
      progress := s.progress.finish i last
      contexts := s.contexts.set i
        { c with table := table, batches := batches, phase := .idle } }, store)
  | .left => none

end StreamStage

end PacketTree
