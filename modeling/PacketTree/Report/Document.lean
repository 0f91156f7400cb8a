import PacketTree.Json.Printer
import PacketTree.Json.Reader
import PacketTree.Report.Basic

/-!
# The document of a report

The JSON form of reports. Members stand in a fixed order; texts and lists that are empty and
optional parts that are missing are left out, and reading puts them back. Members of other names are
passed over.
-/

namespace PacketTree

open Json

namespace Report

/-! ### Members of objects -/

/-- A list of members. -/
abbrev Members := List (String × Json)

/-- A member that is always there. -/
def always (name : String) (value : Json) : Members := [(name, value)]

/-- A member that is left out if there is no value. -/
def ifSome (name : String) : Option Json → Members
  | some value => [(name, value)]
  | none => []

/-- A text that is left out if it is empty. -/
def ifText (name text : String) : Members := if text = "" then [] else [(name, .string text)]

/-- A list that is left out if it is empty. -/
def ifItems (name : String) : List Json → Members
  | [] => []
  | items => [(name, .array items)]

/-! ### Writing -/

mutual

/-- The document of a field. -/
def propertyToJson : PropertyReport → Json
  | ⟨id, value, range, summary, error, children⟩ =>
    .object (always "id" (.string id) ++ always "value" value ++
      ifSome "range" (range.map fun r => .array [.nat r.1, .nat r.2]) ++
      ifText "summary" summary ++ ifText "error" error ++
      ifItems "children" (propertiesToJson children))

/-- The documents of fields. -/
def propertiesToJson : List PropertyReport → List Json
  | [] => []
  | p :: ps => propertyToJson p :: propertiesToJson ps

end

mutual

/-- The document of a layer. -/
def layerToJson : LayerReport → Json
  | ⟨ns, confidence, summary, error, streamId, payloadLength, properties, children⟩ =>
    .object (always "namespace" (.string ns) ++ always "confidence" (.double confidence) ++
      ifText "summary" summary ++ ifText "error" error ++
      ifSome "stream_id" (streamId.map .string) ++
      always "payload_length" (.nat payloadLength) ++
      ifItems "properties" (propertiesToJson properties) ++
      ifItems "children" (layersToJson children))

/-- The documents of layers. -/
def layersToJson : List LayerReport → List Json
  | [] => []
  | l :: ls => layerToJson l :: layersToJson ls

end

/-- The document of a frame. -/
def frameToJson (f : FrameReport) : Json :=
  .object (always "index" (.nat f.index) ++ ifSome "timestamp" (f.timestamp.map .string) ++
    always "length" (.nat f.length) ++ always "link_type" (.nat f.linkType) ++
    always "primary" (.string f.primary) ++ always "has_error" (.bool f.hasError) ++
    always "root" (layerToJson f.root))

/-- The document of the numbers about all frames. -/
def summaryToJson (s : CaptureSummary) : Json :=
  .object (always "packets_total" (.nat s.packets) ++
    always "frames_with_errors" (.nat s.framesWithErrors) ++
    always "stream_layers" (.nat s.streamLayers) ++
    ifSome "time_start" (s.timeStart.map .string) ++ ifSome "time_end" (s.timeEnd.map .string))

/-- The document of a report. -/
def toJson (r : Report) : Json :=
  .object (always "report_version" (.nat r.version) ++
    always "tool" (.object (always "name" (.string r.toolName) ++
      always "version" (.string r.toolVersion))) ++
    always "generated_at" (.string r.generatedAt) ++
    always "input" (.object (always "path" (.string r.path) ++ always "bytes" (.nat r.bytes))) ++
    ifSome "capture_summary" (r.summary.map summaryToJson) ++
    always "frames" (.array (r.frames.map frameToJson)))

/-! ### Reading -/

/-- A natural number below a bound. -/
def nat? (bound : Nat) : Json → Option Nat
  | .number (.int i) => if 0 ≤ i ∧ i < bound then some i.toNat else none
  | _ => none

/-- A double, which may be written as a whole number. -/
def double? : Json → Option Double
  | .number (.int i) => some (Double.ofInt i)
  | .number (.double x) => some x
  | _ => none

/-- A truth value. -/
def bool? : Json → Option Bool
  | .bool b => some b
  | _ => none

/-- A text. -/
def string? : Json → Option String
  | .string s => some s
  | _ => none

/-- The items of a list. -/
def items? : Json → Option (List Json)
  | .array items => some items
  | _ => none

/-- A pair of numbers. -/
def range? : Json → Option (Nat × Nat)
  | .array [a, b] => do return (← nat? UInt64.size a, ← nat? UInt64.size b)
  | _ => none

/-- A member that has to be there. -/
def required {α : Type} (j : Json) (name : String) (read : Json → Option α) : Option α :=
  (j.member? name).bind read

/-- A member that may be missing or null. -/
def optional {α : Type} (j : Json) (name : String) (read : Json → Option α) : Option (Option α) :=
  match j.member? name with
  | none => some none
  | some .null => some none
  | some value => (read value).map some

/-- A member with a value in its place where it is missing. -/
def orElse {α : Type} (j : Json) (name : String) (missing : α) (read : Json → Option α) :
    Option α :=
  match j.member? name with
  | none => some missing
  | some value => read value

/-- The field that a document nested at most `depth` deep stands for. -/
def property? : Nat → Json → Option PropertyReport
  | 0, _ => none
  | depth + 1, j => do
    return {
      id := ← required j "id" string?
      value := ← required j "value" some
      range := ← optional j "range" range?
      summary := ← orElse j "summary" "" string?
      error := ← orElse j "error" "" string?
      children := ← orElse j "children" [] fun c => (items? c).bind (·.mapM (property? depth)) }

/-- The layer that a document nested at most `depth` deep stands for. -/
def layer? : Nat → Json → Option LayerReport
  | 0, _ => none
  | depth + 1, j => do
    return {
      ns := ← required j "namespace" string?
      confidence := ← required j "confidence" double?
      summary := ← orElse j "summary" "" string?
      error := ← orElse j "error" "" string?
      streamId := ← optional j "stream_id" string?
      payloadLength := ← required j "payload_length" (nat? UInt64.size)
      properties := ← orElse j "properties" [] fun c => (items? c).bind (·.mapM (property? depth))
      children := ← orElse j "children" [] fun c => (items? c).bind (·.mapM (layer? depth)) }

/-- The frame that a document stands for. -/
def frame? (j : Json) : Option FrameReport := do
  return {
    index := ← required j "index" (nat? UInt32.size)
    timestamp := ← optional j "timestamp" string?
    length := ← required j "length" (nat? UInt64.size)
    linkType := ← required j "link_type" (nat? UInt32.size)
    primary := ← required j "primary" string?
    hasError := ← required j "has_error" bool?
    root := ← required j "root" (layer? maxDepth) }

/-- The numbers about all frames that a document stands for. -/
def summary? (j : Json) : Option CaptureSummary := do
  return {
    packets := ← required j "packets_total" (nat? UInt64.size)
    framesWithErrors := ← required j "frames_with_errors" (nat? UInt64.size)
    streamLayers := ← required j "stream_layers" (nat? UInt64.size)
    timeStart := ← optional j "time_start" string?
    timeEnd := ← optional j "time_end" string? }

/-- The report that a document stands for. -/
def ofJson? (j : Json) : Option Report := do
  let tool ← required j "tool" some
  let input ← required j "input" some
  return {
    version := ← required j "report_version" (nat? UInt32.size)
    toolName := ← required tool "name" string?
    toolVersion := ← required tool "version" string?
    generatedAt := ← required j "generated_at" string?
    path := ← required input "path" string?
    bytes := ← required input "bytes" (nat? UInt64.size)
    summary := ← optional j "capture_summary" summary?
    frames := ← required j "frames" fun c => (items? c).bind (·.mapM frame?) }

/-- The compact text of a report. -/
def text (r : Report) : String := r.toJson.compact

/-- The report that a text stands for, or the first problem with the text. -/
def parse (text : String) : Except Problem Report := do
  match ofJson? (← Json.parse text) with
  | some r => return r
  | none => throw .mismatched

end Report

end PacketTree
