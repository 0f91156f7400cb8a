import PacketTree.Json.Printer
import PacketTree.Json.Reader
import PacketTree.Session.Settings

/-!
# The text of settings

Settings are written as a JSON object with one member for each setting. Reading goes through the
text from the front and stops at the first problem. A setting that is not mentioned has its standard
value, members of other names are passed over, and a setting must not be given twice. A list may
stand for the object; it gives the settings in their order, and those behind its end have their
standard values.
-/

namespace PacketTree.Settings

open Json (Problem Reading)

/-- A setting. -/
inductive Field where
  /-- The number of contexts that take frames apart. -/
  | concurrency
  /-- The number of contexts that work on streams. -/
  | streamConcurrency
  /-- The confidence that a layer needs. -/
  | confidenceThreshold
  /-- The capacity of queues. -/
  | queueCapacity
  /-- The size of batches. -/
  | batchSize
  /-- The number of batches between two sweeps. -/
  | sweepInterval
  /-- The idle time of streams. -/
  | streamIdleTimeout
  /-- The start of streams in the middle of a connection. -/
  | midstream
  /-- The namespaces of link types. -/
  | linkLayers
deriving DecidableEq, Repr

namespace Field

/-- The settings in their order. -/
def all : List Field :=
  [concurrency, streamConcurrency, confidenceThreshold, queueCapacity, batchSize, sweepInterval,
    streamIdleTimeout, midstream, linkLayers]

/-- The name of a setting in the text. -/
def name : Field → String
  | concurrency => "concurrency"
  | streamConcurrency => "stream_concurrency"
  | confidenceThreshold => "confidence_threshold"
  | queueCapacity => "queue_capacity"
  | batchSize => "batch_size"
  | sweepInterval => "sweep_interval"
  | streamIdleTimeout => "stream_idle_timeout_ms"
  | midstream => "midstream"
  | linkLayers => "link_layers"

/-- The setting of a name. -/
def ofName? (name : String) : Option Field := all.find? fun f => f.name = name

end Field

/-! ### Writing -/

/-- The document of a table of link types: the numbers are the names of its members. -/
def linkTableToJson (t : LinkTable) : Json :=
  .object (t.entries.map fun e => (toString e.1.toNat, .string e.2))

/-- The document of one setting. -/
def fieldToJson (s : Settings) : Field → Json
  | .concurrency => .nat s.concurrency.toNat
  | .streamConcurrency => .nat s.streamConcurrency.toNat
  | .confidenceThreshold => .double s.confidenceThreshold
  | .queueCapacity => .nat s.queueCapacity.toNat
  | .batchSize => .nat s.batchSize.toNat
  | .sweepInterval => .nat s.sweepInterval.toNat
  | .streamIdleTimeout => .nat s.streamIdleTimeout.toNat
  | .midstream => .bool s.midstream
  | .linkLayers => linkTableToJson s.linkLayers

/-- The document of some of the settings. -/
def fieldsToJson (fields : List Field) (s : Settings) : Json :=
  .object (fields.map fun f => (f.name, s.fieldToJson f))

/-- The document of settings. -/
def toJson (s : Settings) : Json := s.fieldsToJson Field.all

/-! ### Reading single values -/

/-- A character that a number can start with. -/
def startsNumber (c : Char) : Bool := c = '-' ∨ c.isDigit

/-- The problem met in reading a value of a wrong type. -/
def problemOf {α : Type} : Except Problem α → Problem
  | .ok _ => .mismatched
  | .error p => p

/-- The problem with a value of the wrong type: one inside it, if it is no list or object, or else
its type. -/
def mismatch (s : List Char) : Problem :=
  match Json.skipSpace s with
  | [] => .endsEarly
  | 'n' :: rest => problemOf (Json.readWord ['u', 'l', 'l'] rest)
  | 't' :: rest => problemOf (Json.readWord ['r', 'u', 'e'] rest)
  | 'f' :: rest => problemOf (Json.readWord ['a', 'l', 's', 'e'] rest)
  | '"' :: rest => problemOf (Json.unquote rest)
  | '[' :: _ => .mismatched
  | '\x7b' :: _ => .mismatched
  | c :: rest => if startsNumber c then problemOf (Json.readNumber (c :: rest)) else .malformed

/-- Reads a number. -/
def readNumeric {α : Type} (convert : Json.Number → Option α) (s : List Char) : Reading α :=
  match Json.skipSpace s with
  | c :: rest =>
    if startsNumber c then
      match Json.readNumber (c :: rest) with
      | .error p => .error p
      | .ok (n, rest) =>
        match convert n with
        | some x => .ok (x, rest)
        | none => .error .mismatched
    else .error (mismatch s)
  | [] => .error .endsEarly

/-- A whole number that is not negative. -/
def natural? : Json.Number → Option UInt64
  | .int i => if 0 ≤ i then some (UInt64.ofNat i.toNat) else none
  | .double _ => none

/-- Any number as a double. -/
def real? : Json.Number → Option Double
  | .int i => some (Double.ofInt i)
  | .double x => some x

/-- A whole number of 32 bits. -/
def link? : Json.Number → Option UInt32
  | .int i => if 0 ≤ i ∧ i < UInt32.size then some (UInt32.ofNat i.toNat) else none
  | .double _ => none

/-- Reads a truth value. -/
def readBool (s : List Char) : Reading Bool :=
  match Json.skipSpace s with
  | 't' :: rest => (Json.readWord ['r', 'u', 'e'] rest).map (true, ·)
  | 'f' :: rest => (Json.readWord ['a', 'l', 's', 'e'] rest).map (false, ·)
  | _ => .error (mismatch s)

/-- Reads a text. -/
def readText (s : List Char) : Reading String :=
  match Json.skipSpace s with
  | '"' :: rest => (Json.unquote rest).map fun (text, rest) => (String.ofList text, rest)
  | _ => .error (mismatch s)

/-! ### Reading link types -/

/-- Reads the number of a link type between quotes, the opening quote gone. -/
def readLinkNumber : List Char → Reading UInt32
  | [] => .error .malformed
  | c :: rest =>
    if startsNumber c then
      match Json.readNumber (c :: rest) with
      | .error p => .error p
      | .ok (n, rest) =>
        match link? n with
        | none => .error .mismatched
        | some n =>
          match rest with
          | '"' :: rest => .ok (n, rest)
          | _ => .error .malformed
    else .error .malformed

/-- Reads a link type with its namespace. -/
def readLink (s : List Char) : Except Problem ((UInt32 × String) × List Char) := do
  match s with
  | '"' :: rest =>
    let (n, rest) ← readLinkNumber rest
    let (text, rest) ← readText (← Json.readColon rest)
    return ((n, text), rest)
  | _ => throw .malformed

/-- Reads a table of link types. -/
def readLinks (s : List Char) : Reading LinkTable :=
  match Json.skipSpace s with
  | '\x7b' :: rest =>
    (Json.readMany readLink '\x7d' true (rest.length + 1) rest).map
      fun (entries, rest) => (LinkTable.ofList entries, rest)
  | _ => .error (mismatch s)

/-! ### Reading settings -/

/-- Reads a value and changes settings by it. -/
def readInto {α : Type} (change : α → Settings) (value : Reading α) : Reading Settings :=
  value.map fun (x, rest) => (change x, rest)

/-- Reads the value of a setting. -/
def readField (s : Settings) (text : List Char) : Field → Reading Settings
  | .concurrency => readInto (fun n => { s with concurrency := n }) (readNumeric natural? text)
  | .streamConcurrency =>
    readInto (fun n => { s with streamConcurrency := n }) (readNumeric natural? text)
  | .confidenceThreshold =>
    readInto (fun x => { s with confidenceThreshold := x }) (readNumeric real? text)
  | .queueCapacity => readInto (fun n => { s with queueCapacity := n }) (readNumeric natural? text)
  | .batchSize => readInto (fun n => { s with batchSize := n }) (readNumeric natural? text)
  | .sweepInterval => readInto (fun n => { s with sweepInterval := n }) (readNumeric natural? text)
  | .streamIdleTimeout =>
    readInto (fun n => { s with streamIdleTimeout := n }) (readNumeric natural? text)
  | .midstream => readInto (fun b => { s with midstream := b }) (readBool text)
  | .linkLayers => readInto (fun t => { s with linkLayers := t }) (readLinks text)

/-- Reads a member of an object, some settings having been given before: those given after it and
the settings. -/
def readMember (given : List Field) (s : Settings) (text : List Char) :
    Except Problem ((List Field × Settings) × List Char) := do
  match text with
  | '"' :: text =>
    let (name, rest) ← Json.unquote text
    match Field.ofName? (String.ofList name) with
    | some f =>
      if f ∈ given then throw .mismatched
      let (s, rest) ← readField s (← Json.readColon rest) f
      return ((f :: given, s), rest)
    | none =>
      let (_, rest) ← Json.skipValue (← Json.readColon rest)
      return ((given, s), rest)
  | _ => throw .malformed

/-- Reads the members of an object up to its closing bracket. `count` bounds their number: the
length of the text always suffices. -/
def readMembers (first : Bool) (given : List Field) (s : Settings) :
    Nat → List Char → Reading Settings
  | 0, _ => .error .malformed
  | count + 1, text =>
    match Json.nextItem '\x7d' first text with
    | .error p => .error p
    | .ok (none, rest) => .ok (s, rest)
    | .ok (some text, _) =>
      match readMember given s text with
      | .error p => .error p
      | .ok ((given, s), rest) => readMembers false given s count rest

/-- The end of a list whose items were all read. -/
def readClose (s : Settings) (text : List Char) : Reading Settings :=
  match Json.skipSpace text with
  | [] => .error .endsEarly
  | ']' :: rest => .ok (s, rest)
  | _ => .error .malformed

/-- Reads the items of a list up to its closing bracket, for the given settings in their order. -/
def readItems (first : Bool) (s : Settings) : List Field → List Char → Reading Settings
  | [], text => readClose s text
  | f :: fields, text =>
    match Json.nextItem ']' first text with
    | .error p => .error p
    | .ok (none, rest) => .ok (s, rest)
    | .ok (some text, _) =>
      match readField s text f with
      | .error p => .error p
      | .ok (s, rest) => readItems false s fields rest

/-- Reads settings. -/
def readSettings (text : List Char) : Reading Settings :=
  match Json.skipSpace text with
  | '\x7b' :: rest => readMembers true [] {} (rest.length + 1) rest
  | '[' :: rest => readItems true {} Field.all rest
  | _ => .error (mismatch text)

/-- The settings that a text stands for. -/
def parse (text : String) : Except Problem Settings := Json.finish (readSettings text.toList)

/-- The settings that a text stands for, if they are in range. -/
def load (text : String) : Except SettingsError Settings :=
  match parse text with
  | .error p => .error (.text p)
  | .ok s => s.validate.map fun _ => s

end PacketTree.Settings
