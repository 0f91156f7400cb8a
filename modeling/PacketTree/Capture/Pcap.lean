import PacketTree.Bytes.Order
import PacketTree.Capture.Packet
import PacketTree.Capture.Window

/-!
# The classic capture format

A file starts with a header of 24 bytes: a number that tells the byte order and the resolution of
time, the version, and the type of the link. A record follows for each packet: seconds, fraction,
the number of bytes kept and the length on the wire, four bytes each, and then the bytes kept.
In one variant of the format the head of a record is eight bytes longer.
-/

namespace PacketTree

/-- What the header of a classic capture file says. -/
structure PcapHeader where
  /-- The byte order. -/
  order : ByteOrder
  /-- Fractions of a second count nanoseconds; else they count microseconds. -/
  nanoseconds : Bool
  /-- The size of the head of a record. -/
  recordHead : Nat
  /-- The type of the link. -/
  link : UInt32
deriving DecidableEq, Repr

namespace PcapHeader

/-- The size of the header. -/
def size : Nat := 24

/-- The variants of the format by the first number of the file, its lowest byte first: byte order,
resolution and size of a record's head. -/
def variants : List (Nat × ByteOrder × Bool × Nat) :=
  [(0xa1b2c3d4, .little, false, 16), (0xa1b23c4d, .little, true, 16),
    (0xd4c3b2a1, .big, false, 16), (0x4d3cb2a1, .big, true, 16),
    (0xa1b2cd34, .little, false, 24)]

/-- The places where the fields of the header end. -/
def fieldEnds : List Nat := [4, 6, 8, 12, 16, 20, 24]

/-- Reads the header. A cut header lacks the bytes up to the end of the field that is cut. -/
def read (v : ByteView) : Except FormatProblem PcapHeader :=
  match variants.lookup (v.number .little 0 4) with
  | none => .error .notRecognized
  | some (order, nanoseconds, recordHead) =>
    match fieldEnds.find? (v.size < ·) with
    | some stop => .error (.incomplete (stop - v.size))
    | none =>
      .ok
        { order := order
          nanoseconds := nanoseconds
          recordHead := recordHead
          link := UInt32.ofNat (v.number order 20 4) }

/-- The instant of a packet; the start of 1970 where it is beyond the calendar. -/
def timestamp (nanoseconds : Bool) (seconds fraction : Nat) : Instant :=
  let t : Instant := .ofSeconds seconds (if nanoseconds then fraction else fraction * 1000)
  if t.nanos ≤ Instant.latest.nanos then t else .epoch

/-- Scans for a record. -/
def scan (h : PcapHeader) (v : ByteView) : Scan Packet :=
  if v.size < h.recordHead then .short (h.recordHead - v.size)
  else
    let field := fun i => v.number h.order (4 * i) 4
    let stop := h.recordHead + field 2
    if v.size < stop then .short (stop - v.size)
    else
      .found
        { timestamp := timestamp h.nanoseconds (field 0) (field 1)
          link := h.link
          wireLength := field 3
          data := (v.clamped h.recordHead stop).toList }
        stop

end PcapHeader

end PacketTree
