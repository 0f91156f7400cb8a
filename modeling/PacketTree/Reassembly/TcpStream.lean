import PacketTree.Reassembly.Reorder

/-!
# The byte stream of a TCP connection

Sequence numbers count the bytes of one direction of a connection modulo `2 ^ 32`. A stream maps
them to offsets that grow without bound and puts the bytes in order.

## The model

The anchor is the sequence number that follows the furthest byte received, and `length` is its
offset. A sequence number up to half the space ahead of the anchor is new data, also if it leaves a
gap. One behind the anchor repeats bytes sent before, unless it lies further back than the window
that the segment announces: then the numbers have wrapped around and it is new data too. Bytes
before the start of the stream are cut off. A stream starts with a segment that carries the SYN
flag, whose number counts as one byte before the data, or, in the middle of a connection, with the
first segment seen.

Offsets are natural numbers here. A program that keeps them in 64 bits does the same as long as they
stay below `2 ^ 64`, and so everything said of streams is said of those.
-/

namespace PacketTree

/-- How a segment was placed. -/
inductive Admission where
  /-- The stream has not started. -/
  | ignored
  /-- The bytes were taken in at this offset. -/
  | data (offset : Nat)
  /-- All bytes lie before the start of the stream. -/
  | stale
  /-- There are no bytes. -/
  | empty
deriving DecidableEq, Repr

/-- One direction of a connection. -/
structure TcpStream where
  /-- The sequence number that follows the furthest byte; none before the start. -/
  anchor : Option UInt32 := none
  /-- The offset just past the furthest byte, gaps included. -/
  length : Nat := 0
  /-- The bytes that wait for their turn. -/
  buffer : Reorder := {}
  /-- The stream may start in the middle of a connection. -/
  midstream : Bool := false
deriving DecidableEq, Repr, Inhabited

namespace TcpStream

/-- A stream that has not started. -/
def fresh (midstream : Bool) : TcpStream := { midstream := midstream }

/-- The flag of the first segment of a connection. -/
def synFlag : Nat := 2

/-- Half the space of sequence numbers. -/
def halfSpace : Nat := 0x80000000

/-- The number of steps from one sequence number up to another. -/
def distance (low high : UInt32) : Nat := (high - low).toNat

/-- Places bytes whose sequence number is `seq`, once the stream has started at `anchor`. -/
def place (s : TcpStream) (anchor seq : UInt32) (window : Nat) (payload : ByteView) :
    Admission × TcpStream :=
  let ahead := distance anchor seq
  let behind := distance seq anchor
  if ahead < halfSpace ∨ window < behind then
    let offset := s.length + ahead
    (.data offset,
      { s with
        anchor := some (seq + UInt32.ofNat payload.size)
        length := offset + payload.size
        buffer := s.buffer.put offset payload })
  else if behind ≤ s.length then
    let offset := s.length - behind
    (.data offset, { s with buffer := s.buffer.put offset payload })
  else
    let early := behind - s.length
    if payload.size ≤ early then (.stale, s)
    else (.data 0, { s with buffer := s.buffer.put 0 (payload.drop early) })

/-- The stream from its first segment on. -/
def start (s : TcpStream) (seq : UInt32) (payload : ByteView) : TcpStream :=
  { s with
    anchor := some (seq + 1 + UInt32.ofNat payload.size)
    length := payload.size
    buffer := s.buffer.put 0 payload }

/-- Takes in a segment. -/
def accept (s : TcpStream) (seq : UInt32) (flags window : Nat) (payload : ByteView) :
    Admission × TcpStream :=
  match s.anchor with
  | some anchor => if payload.isEmpty then (.empty, s) else s.place anchor seq window payload
  | none =>
    if flags &&& synFlag ≠ 0 then (.data 0, s.start seq payload)
    else if s.midstream then
      let s := { s with anchor := some seq }
      if payload.isEmpty then (.empty, s) else s.place seq seq window payload
    else (.ignored, s)

/-- Delivers the bytes that are next and in order. -/
def fetch (s : TcpStream) : List ByteView × TcpStream :=
  let (run, buffer) := s.buffer.fetch
  (run, { s with buffer := buffer })

end TcpStream

end PacketTree
