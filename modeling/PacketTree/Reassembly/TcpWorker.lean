import PacketTree.Reassembly.StreamDissector
import PacketTree.Reassembly.TcpStream

/-!
# Layers from TCP streams

The dissector that puts TCP streams together. Whenever a segment completes the next bytes of its
stream, these bytes become a layer `stream` below the layer of the segment.
-/

namespace PacketTree.TcpStream

/-- The layer of bytes that were delivered to a stream: the pieces, the length received so far and
the sequence number expected next are its fields. -/
def layer (segment : Segment) (start : Nat) (run : List ByteView) (s : TcpStream) : Layer :=
  let payload := ByteView.join (.joined segment.stream start) run
  { ns := segment.ns.push "stream"
    streamId := some segment.stream
    summary := toString payload.size ++ " bytes"
    payload := payload
    properties :=
      [{ id := "payloads", value := .array (run.map .bytes) },
        { id := "length", value := .ofNat s.length }] ++
      (s.anchor.map fun n => { id := "lastSeq", value := .ofNat n.toNat : Property }).toList }

/-- Takes in a segment and delivers what is then in order, as a layer if there is any. -/
def analyze (s : TcpStream) (segment : Segment) : TcpStream × Option Layer :=
  let (_, s) := s.accept segment.seq segment.flags.toNat segment.window.toNat segment.payload
  let start := s.buffer.cursor
  let (run, s) := s.fetch
  (s, if run.isEmpty then none else some (layer segment start run s))

/-- The dissector of TCP streams. A stream is given up after `timeout` nanoseconds without
segments. -/
def dissector (timeout : Nat) (midstream : Bool) : StreamDissector TcpStream where
  name := "tcp-stream"
  patterns := [.suffix ⟨[.confirmed "tcp"]⟩]
  fresh := fresh midstream
  analyze := analyze
  expired := fun _ idle => timeout ≤ idle

end PacketTree.TcpStream
