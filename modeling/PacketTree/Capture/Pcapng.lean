import PacketTree.Bytes.Order
import PacketTree.Capture.Packet
import PacketTree.Capture.Window

/-!
# The capture format of sections and blocks

A file is a sequence of blocks. A block starts with a number for its kind and its length in bytes,
and ends with its length again. A section header starts a section, which has a byte order of its
own; interfaces are described one after the other and belong to their section; an enhanced packet
names its interface by number. Blocks of other kinds carry no packets that are used here, and they
are checked only as far as their form is known.

The bytes of a packet fill up a multiple of four, and those that fill up are kept.
-/

namespace PacketTree

/-- The kinds of blocks. -/
inductive BlockKind where
  /-- The start of a section. -/
  | sectionHeader
  /-- The description of an interface. -/
  | interface
  /-- A packet without a time. -/
  | simplePacket
  /-- Names of addresses. -/
  | names
  /-- Numbers about an interface. -/
  | statistics
  /-- A packet with its time and interface. -/
  | packet
  /-- A line of a journal. -/
  | journal
  /-- Secrets of encrypted connections. -/
  | secrets
  /-- A form that someone defined. -/
  | custom
  /-- A process of the machine. -/
  | process
  /-- Any other kind. -/
  | unknown
deriving DecidableEq, Repr

namespace BlockKind

/-- The kind of a number. -/
def ofNumber (n : Nat) : BlockKind :=
  if n = 0x0a0d0d0a then sectionHeader
  else if n = 1 then interface
  else if n = 3 then simplePacket
  else if n = 4 then names
  else if n = 5 then statistics
  else if n = 6 then packet
  else if n = 9 then journal
  else if n = 10 then secrets
  else if n = 0xbad ∨ n = 0x40000bad then custom
  else if n = 0x80000001 then process
  else unknown

/-- The length of the shortest block of a kind. -/
def minSize : BlockKind → Nat
  | sectionHeader => 28
  | interface => 20
  | simplePacket => 16
  | names => 12
  | statistics => 24
  | packet => 32
  | journal => 12
  | secrets => 20
  | custom => 16
  | process => 12
  | unknown => 12

/-- The length at the end of a block is compared with that at its start. -/
def checksLength : BlockKind → Bool
  | sectionHeader | simplePacket | journal | unknown => false
  | _ => true

end BlockKind

/-- A block, as far as it is used. -/
inductive Block where
  /-- A section of some byte order starts. -/
  | sectionHeader (order : ByteOrder)
  /-- The next interface of the section has this type of link. -/
  | interface (link : UInt32)
  /-- A packet of an interface: its time in microseconds, its length on the wire and its bytes. -/
  | packet (place micros wireLength : Nat) (data : List UInt8)
  /-- Any other block. -/
  | other
deriving DecidableEq, Repr

namespace Block

/-- A number moved up to a multiple of four. -/
def roundUp (n : Nat) : Nat := (n + 3) / 4 * 4

/-- Lengths from here on cannot be moved up to a multiple of four in 32 bits. -/
def lengthLimit : Nat := UInt32.size - 5

/-- The number by which a section header tells its byte order. -/
def orderMark : Nat := 0x1a2b3c4d

/-- The byte order of a section header. -/
def sectionOrder? (v : ByteView) : Option ByteOrder :=
  if v.number .little 8 4 = orderMark then some .little
  else if v.number .big 8 4 = orderMark then some .big
  else none

/-- Scans bytes of a given length, `start` bytes behind the start of a block, that are to fit into
the block with the bytes that fill them up. -/
def scanBytes (order : ByteOrder) (v : ByteView) (lengthAt start stop : Nat) : Scan (List UInt8) :=
  let length := v.number order lengthAt 4
  if lengthLimit ≤ length then .bad .inconsistent
  else if stop < start + roundUp length then .short (start + roundUp length - stop)
  else .found (v.clamped start (start + roundUp length)).toList (roundUp length)

/-- The number of bytes missing in a list of names up to its end mark, which is four zeros; nothing
is missing if it is complete. An entry is a kind and a length, two bytes each, and bytes filled up to
a multiple of four. -/
def missingNames (order : ByteOrder) (bytes : List UInt8) : Nat :=
  if bytes.length < 4 then
    if (bytes.all (· = 0)) then 4 - bytes.length
    else if bytes.length < 2 then 2 - bytes.length
    else 4 - bytes.length
  else if (bytes.take 4).all (· = 0) then 0
  else
    let length := roundUp (order.number ((bytes.drop 2).take 2))
    if bytes.length < 4 + length then 4 + length - bytes.length
    else missingNames order (bytes.drop (4 + length))
termination_by bytes.length
decreasing_by simp only [List.length_drop]; omega

/-- Scans the content of a block that is complete. -/
def scanContent (kind : BlockKind) (order : ByteOrder) (v : ByteView) (length : Nat) : Scan Block :=
  match kind with
  | .sectionHeader => .found (.sectionHeader order) length
  | .interface => .found (.interface (UInt32.ofNat (v.number order 8 2))) length
  | .packet =>
    match scanBytes order v 20 28 (length - 4) with
    | .bad p => .bad p
    | .short missing => .short missing
    | .found data _ =>
      .found
        (.packet (v.number order 8 4) (v.number order 12 4 * UInt32.size + v.number order 16 4)
          (v.number order 24 4) data)
        length
  | .secrets =>
    match scanBytes order v 12 16 (length - 4) with
    | .bad p => .bad p
    | .short missing => .short missing
    | .found _ _ => .found .other length
  | .names =>
    match missingNames order (v.clamped 8 (length - 4)).toList with
    | 0 => .found .other length
    | missing => .short missing
  | .process => if length < 16 then .short (16 - length) else .found .other length
  | _ => .found .other length

/-- Scans a block of a kind from its length on. -/
def scanSized (kind : BlockKind) (order : ByteOrder) (v : ByteView) : Scan Block :=
  if v.size < kind.minSize then .short (kind.minSize - v.size)
  else
    let length := v.number order 4 4
    if length < kind.minSize then .bad .inconsistent
    else if v.size < length - 4 then .short (length - 4 - v.size)
    else if v.size < length then .short (length - v.size)
    else
      match scanContent kind order v length with
      | .found block size =>
        if kind.checksLength && v.number order (length - 4) 4 ≠ length then .bad .inconsistent
        else .found block size
      | .short missing => .short missing
      | .bad p => .bad p

/-- Scans for a section header, which tells its byte order. -/
def scanSection (v : ByteView) : Scan Block :=
  if v.size < 12 then .short (12 - v.size)
  else match sectionOrder? v with
    | none => .bad .notRecognized
    | some order => scanSized .sectionHeader order v

/-- Scans for a block in a section of the given byte order. -/
def scan (order : ByteOrder) (v : ByteView) : Scan Block :=
  if v.size < 4 then .short (4 - v.size)
  else match BlockKind.ofNumber (v.number order 0 4) with
    | .sectionHeader => scanSection v
    | kind => scanSized kind order v

end Block

/-- The section that is being read. -/
structure Section where
  /-- The byte order. -/
  order : ByteOrder
  /-- The types of the links of the interfaces described so far. -/
  links : Array UInt32 := #[]
deriving DecidableEq, Repr

namespace Section

/-- The type of the link of an interface; that of Ethernet if the interface is not described. -/
def linkOf (links : Array UInt32) (place : Nat) : UInt32 := links.getD place 1

/-- The instant some microseconds after the start of 1970; that start where it is beyond the
calendar. -/
def timestamp (micros : Nat) : Instant :=
  let t : Instant := ⟨micros * 1000⟩
  if t.nanos ≤ Instant.latest.nanos then t else .epoch

/-- The section behind a block, and the packet that the block holds. -/
def take (s : Section) : Block → Section × Option Packet
  | .sectionHeader order => ({ order := order }, none)
  | .interface link => ({ s with links := s.links.push link }, none)
  | .packet place micros wireLength data =>
    (s, some
      { timestamp := timestamp micros
        link := linkOf s.links place
        wireLength := wireLength
        data := data })
  | .other => (s, none)

end Section

end PacketTree
