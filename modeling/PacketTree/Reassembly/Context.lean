import PacketTree.Reassembly.StreamDissector

/-!
# Streams of one context

A context keeps the workers of its streams by the name of the stream. The first segment of a stream
gives it new workers, one of each dissector that takes segments from the namespace of that segment.
A sweep gives up the streams all of whose workers agree that they were idle for long enough; a
segment that comes later is the first of a new stream.

The clock, in nanoseconds, is given with every operation.
-/

namespace PacketTree

/-- A stream at work. -/
structure StreamEntry (τ : Type) where
  /-- The name of the stream. -/
  stream : String
  /-- Its workers. -/
  workers : List (StreamWorker τ)
  /-- When its last segment came. -/
  touched : Nat

/-- The streams of one context, the latest new one first. -/
structure StreamTable (τ : Type) where
  /-- The streams. -/
  entries : List (StreamEntry τ) := []

namespace StreamTable

variable {τ : Type}

/-- The workers of a stream, or new ones if it has none. -/
def workersFor (dissectors : List (StreamDissector τ)) (segment : Segment) :
    List (StreamEntry τ) → List (StreamWorker τ)
  | [] => (dissectors.filter (·.selects segment.ns)).map StreamDissector.worker
  | e :: es => if e.stream = segment.stream then e.workers else workersFor dissectors segment es

/-- Replaces the entry of a stream, or adds it. -/
def put (e : StreamEntry τ) (entries : List (StreamEntry τ)) : List (StreamEntry τ) :=
  e :: entries.filter fun o => o.stream ≠ e.stream

/-- The workers of a stream look at its next segment: the layers they found. -/
def process (t : StreamTable τ) (dissectors : List (StreamDissector τ)) (segment : Segment)
    (now : Nat) : StreamTable τ × List Layer :=
  let (workers, layers) := StreamWorker.callAll segment (workersFor dissectors segment t.entries)
  (⟨put ⟨segment.stream, workers, now⟩ t.entries⟩, layers)

/-- All workers of a stream agree that it was idle for long enough. -/
def expired (now : Nat) (e : StreamEntry τ) : Bool := e.workers.all (·.expired (now - e.touched))

/-- Gives up the streams that were idle for long enough. -/
def sweep (t : StreamTable τ) (now : Nat) : StreamTable τ :=
  ⟨t.entries.filter fun e => !expired now e⟩

end StreamTable

end PacketTree
