import PacketTree.Dissection.Pool
import PacketTree.Reassembly.Stage

/-!
# From the queue to the store

Frames are taken apart by the contexts of a pool, put into the store, and from there, in order, go
through the streams. All stages work at the same time.

## The model

Each actor of the pipeline takes turns; a list of actors is a schedule, and any schedule is a run of
the pipeline. A turn of an actor that has to wait leaves everything as it is. `drain` is the orderly
schedule that lets every actor finish its work, if that is possible: first all frames are taken apart,
then all streams are worked on.
-/

namespace PacketTree

/-- Someone who takes turns in a pipeline. -/
inductive Actor where
  /-- A context that takes frames apart. -/
  | dissector (i : Nat)
  /-- The one who waits for these contexts and then closes the store. -/
  | joiner
  /-- The one who takes frames from the store to the streams. -/
  | feeder
  /-- A context that works on streams, at some time. -/
  | stream (i now : Nat)
deriving DecidableEq, Repr

/-- All stages between the queue and the store. -/
structure Pipeline (σ τ : Type) where
  /-- The contexts that take frames apart. -/
  pool : Pool σ
  /-- The frames in order. -/
  store : Store := .empty
  /-- The contexts that work on streams; none if nothing looks at streams. -/
  streams : Option (StreamStage τ)
  /-- The batches that were handed on by the pool, the latest first. -/
  handed : List (List Frame) := []
  /-- No more frames will be pushed, and someone waits for the pipeline to finish. -/
  joining : Bool := false

namespace Pipeline

variable {σ τ : Type}

/-- A turn of an actor; `none` if it has to wait or has left. -/
def step? (p : Pipeline σ τ) : Actor → Option (Pipeline σ τ)
  | .dissector i =>
    match p.pool.step? i with
    | none => none
    | some (pool, []) => some { p with pool := pool }
    | some (pool, f :: fs) =>
      some { p with
        pool := pool
        store := p.store.insert (f :: fs)
        handed := (f :: fs) :: p.handed }
  | .joiner =>
    if p.joining && p.pool.isDrained && !p.store.closed then some { p with store := p.store.close }
    else none
  | .feeder => do
    let stage ← p.streams
    let stage ← stage.feed? p.store
    return { p with streams := some stage }
  | .stream i now => do
    let stage ← p.streams
    let (stage, store) ← stage.work? p.store i now
    return { p with streams := some stage, store := store }

/-- A turn of an actor, or nothing if it has to wait. -/
def step (p : Pipeline σ τ) (a : Actor) : Pipeline σ τ := (p.step? a).getD p

/-- The turns of a schedule, one after the other. -/
def run (p : Pipeline σ τ) (schedule : List Actor) : Pipeline σ τ := schedule.foldl step p

/-! ### The orderly schedule -/

/-- Three turns of the pool: a context claims a batch, hands it on and reports. -/
def batchTurns (p : Pipeline σ τ) (round : Nat) : List Actor :=
  List.replicate 3 (.dissector (round % p.pool.contexts.length))

/-- There is room in the queue. -/
def hasSpace (p : Pipeline σ τ) : Bool := p.pool.queue.size < p.pool.queue.limit

/-- Takes a batch apart if the queue is full. The contexts are asked one after the other, until there
is room. -/
def makeRoom (p : Pipeline σ τ) (round : Nat) : Pipeline σ τ :=
  (List.range p.pool.contexts.length).foldl (fun p k =>
    if p.hasSpace then p else p.run (p.batchTurns (round + k))) p

/-- Turns that empty the queue of the pool, the contexts one after the other, and let the contexts
leave if it is closed. -/
def poolTurns (p : Pipeline σ τ) : List Actor :=
  (List.range p.pool.queue.size).flatMap p.batchTurns ++
    (List.range p.pool.contexts.length).map .dissector

/-- The number of turns in which a context empties its queue. -/
def backlog (c : StreamContext τ) : Nat :=
  c.queue.items.foldr (fun b n => b.segments.length + 2 + n) 1

/-- Turns of the feeder that hand on one run of frames. -/
def feederTurns (stage : StreamStage τ) : List Actor :=
  List.replicate (2 * stage.contexts.length + 2) .feeder

/-- Turns in which all contexts empty their queues. The clock stands still meanwhile. -/
def streamTurns (stage : StreamStage τ) : List Actor :=
  stage.contexts.zipIdx.flatMap fun (c, i) => List.replicate (backlog c) (.stream i 0)

/-- Hands on one run of frames and works on its streams. -/
def streamRound (p : Pipeline σ τ) : Pipeline σ τ :=
  let p := p.run ((p.streams.map feederTurns).getD [])
  p.run ((p.streams.map streamTurns).getD [])

/-- Works on the streams of all frames in the store: no run of frames is empty, and in the last
round the contexts leave. -/
def streamRounds : Nat → Pipeline σ τ → Pipeline σ τ
  | 0, p => p
  | n + 1, p => streamRounds n p.streamRound

/-- Lets all actors finish their work. -/
def drain (p : Pipeline σ τ) : Pipeline σ τ :=
  let p := p.run (p.poolTurns ++ [.joiner])
  streamRounds (p.store.size + 1) p

/-- All contexts and the feeder have left, and the store is closed. -/
def isFinished (p : Pipeline σ τ) : Bool :=
  p.pool.isDrained && p.store.closed && p.streams.all fun stage =>
    stage.feeder matches .left && stage.contexts.all fun c => c.phase matches .left

end Pipeline

end PacketTree
