import PacketTree.Frame.Basic

/-!
# Reports

What is shown of a capture: its frames as trees of layers with their fields, and a few numbers about
all of them.

## The model

A report is a tree of its own, so that it can be written and read without the frames. `ofFrames`
makes one from frames; the layers of a frame nest as they were read from each other, the surest
child first.
-/

namespace PacketTree

/-- A field in a report. -/
structure PropertyReport where
  /-- The name. -/
  id : String
  /-- What the field holds. -/
  value : Json
  /-- Where the field lies in the payload that it was read from, if it has a place. -/
  range : Option (Nat × Nat)
  /-- What the value means. -/
  summary : String
  /-- What is wrong with the field. -/
  error : String
  /-- The fields that it is made of. -/
  children : List PropertyReport
deriving Inhabited

/-- A layer in a report. -/
structure LayerReport where
  /-- The text of the namespace. -/
  ns : String
  /-- How sure the dissector was. -/
  confidence : Double
  /-- The layer in a few words. -/
  summary : String
  /-- What is wrong with the layer. -/
  error : String
  /-- The stream that the layer belongs to. -/
  streamId : Option String
  /-- The number of bytes carried for the next protocol. -/
  payloadLength : Nat
  /-- The fields. -/
  properties : List PropertyReport
  /-- The layers read from it. -/
  children : List LayerReport
deriving Inhabited

/-- A frame in a report. -/
structure FrameReport where
  /-- The number. -/
  index : Nat
  /-- When it was captured, if that has a text. -/
  timestamp : Option String
  /-- The length on the wire. -/
  length : Nat
  /-- The number of the link type. -/
  linkType : Nat
  /-- The text of the namespace of the layer that stands for the packet. -/
  primary : String
  /-- Something is wrong with that layer. -/
  hasError : Bool
  /-- The root. -/
  root : LayerReport
deriving Inhabited

/-- A few numbers about all frames. -/
structure CaptureSummary where
  /-- The number of frames. -/
  packets : Nat
  /-- The number of frames with something wrong. -/
  framesWithErrors : Nat
  /-- The number of layers that streams were put together to. -/
  streamLayers : Nat
  /-- When the first frame was captured, if that has a text. -/
  timeStart : Option String
  /-- When the last frame was captured, if that has a text. -/
  timeEnd : Option String
deriving DecidableEq, Repr, Inhabited

/-- A report. -/
structure Report where
  /-- The version of the form of reports. -/
  version : Nat
  /-- The name of the program that made it. -/
  toolName : String
  /-- The version of that program. -/
  toolVersion : String
  /-- The time of the report: that of the last frame. -/
  generatedAt : String
  /-- The path of the capture. -/
  path : String
  /-- The size of the capture in bytes. -/
  bytes : Nat
  /-- Numbers about all frames. -/
  summary : Option CaptureSummary
  /-- The frames in order. -/
  frames : List FrameReport
deriving Inhabited

namespace Report

/-- The time of a report without frames. -/
def epochText : String := "1970-01-01T00:00:00Z"

/-- A report without frames. -/
def stub (path : String) (bytes : Nat) : Report where
  version := 1
  toolName := "layershark"
  toolVersion := "0.1.0"
  generatedAt := epochText
  path := path
  bytes := bytes
  summary := none
  frames := []

mutual

/-- The report of a field. -/
def ofProperty : Property → PropertyReport
  | ⟨id, value, range, summary, error, children⟩ =>
    { id := id
      value := value.toJson
      range := if range.isEmpty then none else some (range.start, range.stop)
      summary := summary
      error := error
      children := ofProperties children }

/-- The reports of fields. -/
def ofProperties : List Property → List PropertyReport
  | [] => []
  | p :: ps => ofProperty p :: ofProperties ps

end

/-- The report of a layer without its children. -/
def ofLayer (l : Layer) (children : List LayerReport) : LayerReport where
  ns := l.ns.text
  confidence := l.confidence.value
  summary := l.summary
  error := l.error
  streamId := l.streamId
  payloadLength := l.payload.size
  properties := ofProperties l.properties
  children := children

/-- The report of a layer of a frame with all that was read from it. -/
def ofLayers (f : Frame) (id : Nat) : LayerReport :=
  ofLayer ((f.layer? id).getD default)
    ((f.below id).attach.map fun ⟨c, _⟩ => ofLayers f c)
termination_by f.size - id
decreasing_by
  rename_i h
  have := Frame.lt_of_mem_below h
  omega

/-- The text of an instant in UTC. -/
def timeText (t : Instant) : Option String := t.text? 0

/-- The report of a frame. -/
def ofFrame (f : Frame) : FrameReport where
  index := f.index
  timestamp := timeText f.timestamp
  length := f.length
  linkType := f.sourceId
  primary := f.primary.ns.text
  hasError := f.hasError
  root := ofLayers f Frame.rootId

/-- The layers of a frame that streams were put together to. -/
def streamLayers (f : Frame) : Nat := f.layers.countP fun l => l.ns.primary? = some "stream"

/-- The numbers about some frames. -/
def summarize (frames : List Frame) : CaptureSummary where
  packets := frames.length
  framesWithErrors := frames.countP Frame.hasError
  streamLayers := frames.foldr (fun f n => streamLayers f + n) 0
  timeStart := frames.head?.bind fun f => timeText f.timestamp
  timeEnd := frames.getLast?.bind fun f => timeText f.timestamp

/-- A report with frames in place of those it had. -/
def fill (r : Report) (frames : List Frame) : Report :=
  let summary := summarize frames
  { r with
    frames := frames.map ofFrame
    generatedAt := (summary.timeEnd.or summary.timeStart).getD epochText
    summary := some summary }

end Report

end PacketTree
