import PacketTree.Layer.Confidence
import PacketTree.Namespace.Basic
import PacketTree.Value

/-!
# Layers and their properties

A layer is one protocol of a packet: its namespace, what was read from its header as properties,
and the bytes that it carries for the next protocol.
-/

namespace PacketTree

/-- A half-open range of places. -/
structure Span where
  /-- The first place. -/
  start : Nat := 0
  /-- The place just past the last. -/
  stop : Nat := 0
deriving DecidableEq, Repr, Inhabited

/-- No place lies in the range. -/
def Span.isEmpty (s : Span) : Bool := !decide (s.start < s.stop)

/-- A named field of a header. -/
structure Property where
  /-- The name. -/
  id : String
  /-- What the field holds. -/
  value : Value := .nil
  /-- Where the field lies in the payload that it was read from; empty if it has no place. -/
  range : Span := {}
  /-- What the value means, for a reader. -/
  summary : String := ""
  /-- What is wrong with the field; empty if nothing is. -/
  error : String := ""
  /-- The fields that it is made of. -/
  children : List Property := []
deriving Inhabited

namespace Property

/-- The first part with a name. -/
def child? (p : Property) (id : String) : Option Property := p.children.find? (·.id = id)

/-- The property with one more part. -/
def push (p : Property) (part : Property) : Property := { p with children := p.children ++ [part] }

/-- Something is wrong with the field. -/
def hasError (p : Property) : Bool := p.error ≠ ""

end Property

/-- One protocol of a packet. -/
structure Layer where
  /-- The protocols from the outside in. -/
  ns : Namespace
  /-- How sure the dissector is. -/
  confidence : Confidence := .full
  /-- The layer in a few words. -/
  summary : String := ""
  /-- What is wrong with the layer; empty if nothing is. -/
  error : String := ""
  /-- The bytes carried for the next protocol. -/
  payload : ByteView := ByteView.empty
  /-- The fields in the order in which they were read. -/
  properties : List Property := []
  /-- The stream that the layer belongs to. -/
  streamId : Option String := none
deriving Inhabited

namespace Layer

/-- The layer with one more field. -/
def push (l : Layer) (p : Property) : Layer := { l with properties := l.properties ++ [p] }

/-- The first field with a name. -/
def property? (l : Layer) (id : String) : Option Property := l.properties.find? (·.id = id)

/-- Something is wrong with the layer or with one of its fields. -/
def hasError (l : Layer) : Bool := l.error ≠ "" || l.properties.any Property.hasError

end Layer

end PacketTree
