import PacketTree.Namespace.Pattern
import PacketTree.Frame.Basic

/-!
# Stream dissectors

A stream dissector looks at the segments of one stream after the other and may find layers in what
they carry together. It names the namespaces of the layers it takes segments from. Each stream has
workers of its own; what a worker remembers from segment to segment is a value of the type `τ`.
Time is counted in nanoseconds.
-/

namespace PacketTree

/-- A part of a stream, as one packet carries it. -/
structure Segment where
  /-- The number of the frame. -/
  frame : Nat
  /-- The layer of the frame that carries it. -/
  layer : Nat
  /-- The stream. -/
  stream : String
  /-- The namespace of the layer. -/
  ns : Namespace
  /-- The sequence number of the first byte. -/
  seq : UInt32
  /-- The sequence number that the sender expects next. -/
  ack : UInt32
  /-- The control bits. -/
  flags : UInt16
  /-- The number of bytes that the sender can take. -/
  window : UInt16
  /-- The bytes. -/
  payload : ByteView

/-- A way to find layers in streams. -/
structure StreamDissector (τ : Type) where
  /-- The name. -/
  name : String
  /-- The namespaces of the layers it takes segments from. -/
  patterns : List Pattern
  /-- What a new worker remembers. -/
  fresh : τ
  /-- Looks at the next segment of a stream. -/
  analyze : τ → Segment → τ × Option Layer
  /-- The stream can be given up after a time without segments. -/
  expired : τ → Nat → Bool

/-- A stream dissector at work on one stream. -/
structure StreamWorker (τ : Type) where
  /-- The dissector. -/
  dissector : StreamDissector τ
  /-- What it remembers. -/
  memory : τ

variable {σ τ : Type}

namespace StreamDissector

/-- The dissector takes segments from layers of a namespace. -/
def selects (d : StreamDissector τ) (ns : Namespace) : Bool := d.patterns.any (·.selects ns)

/-- A new worker. -/
def worker (d : StreamDissector τ) : StreamWorker τ := ⟨d, d.fresh⟩

/-- A dissector beside dissectors that remember values of another type. -/
def left (d : StreamDissector σ) : StreamDissector (σ ⊕ τ) where
  name := d.name
  patterns := d.patterns
  fresh := .inl d.fresh
  analyze
    | .inl s, segment => ((d.analyze s segment).map .inl id)
    | .inr t, _ => (.inr t, none)
  expired
    | .inl s, idle => d.expired s idle
    | .inr _, _ => true

/-- A dissector beside dissectors that remember values of another type. -/
def right (d : StreamDissector τ) : StreamDissector (σ ⊕ τ) where
  name := d.name
  patterns := d.patterns
  fresh := .inr d.fresh
  analyze
    | .inr t, segment => ((d.analyze t segment).map .inr id)
    | .inl s, _ => (.inl s, none)
  expired
    | .inr t, idle => d.expired t idle
    | .inl _, _ => true

end StreamDissector

namespace StreamWorker

/-- The worker looks at the next segment. -/
def call (w : StreamWorker τ) (segment : Segment) : StreamWorker τ × Option Layer :=
  let (memory, found) := w.dissector.analyze w.memory segment
  ({ w with memory := memory }, found)

/-- The worker can be given up after a time without segments. -/
def expired (w : StreamWorker τ) (idle : Nat) : Bool := w.dissector.expired w.memory idle

/-- All workers of a stream look at a segment, one after the other: the layers they found. -/
def callAll (segment : Segment) : List (StreamWorker τ) → List (StreamWorker τ) × List Layer
  | [] => ([], [])
  | w :: ws =>
    let (w, found) := w.call segment
    let (ws, layers) := callAll segment ws
    (w :: ws, found.toList ++ layers)

end StreamWorker

/-! ### Segments of a frame -/

namespace Segment

/-- A field of a layer as a number. -/
def number? (l : Layer) (id : String) : Option Nat := (l.property? id).bind (·.value.nat?)

/-- The segment that a layer carries: it has to belong to a stream and to have a sequence number.
Fields that are missing count as zero, and fields that are too wide keep their low bits. -/
def ofLayer? (frame id : Nat) (l : Layer) : Option Segment := do
  let stream ← l.streamId
  let seq ← number? l "seq"
  let field (name : String) : Nat := (number? l name).getD 0
  return {
    frame := frame
    layer := id
    stream := stream
    ns := l.ns
    seq := UInt32.ofNat seq
    ack := UInt32.ofNat (field "ack")
    flags := UInt16.ofNat (field "flags")
    window := UInt16.ofNat (field "window")
    payload := l.payload }

/-- The segments of a frame that some dissector takes, in the order of their layers. -/
def ofFrame (dissectors : List (StreamDissector τ)) (f : Frame) : List Segment :=
  f.layers.zipIdx.filterMap fun (l, id) =>
    if dissectors.any (·.selects l.ns) then ofLayer? f.index id l else none

end Segment

end PacketTree
