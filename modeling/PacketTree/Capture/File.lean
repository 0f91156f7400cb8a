import PacketTree.Capture.Pcap
import PacketTree.Capture.Pcapng

/-!
# Capture files

The first four bytes of a file tell its format. Packets are read one after the other up to the end
of the file or to the first problem.
-/

namespace PacketTree

/-- A capture file that is being read. -/
inductive CaptureReader where
  /-- Records follow the header of a classic file. -/
  | pcap (header : PcapHeader) (w : Window)
  /-- Blocks follow within a section. -/
  | pcapng (s : Section) (w : Window)

namespace CaptureReader

/-- The first bytes of a file. -/
def magic? (file : ByteView) : Except CaptureError (List UInt8) :=
  match file.slice? 0 4 with
  | some v => .ok v.toList
  | none => .error (.file .tooShort)

/-- The file is one of sections and blocks. -/
def isPcapng (magic : List UInt8) : Bool := magic = [0x0a, 0x0d, 0x0d, 0x0a]

/-- Starts to read a classic file: its header has to be complete. -/
def openPcap (w : Window) : Except FormatProblem CaptureReader :=
  (PcapHeader.read w.view).map fun h => .pcap h (w.advance PcapHeader.size)

/-- Starts to read a file of sections: its first block has to be complete. That block is read again
with the others. -/
def openPcapng (w : Window) : Except FormatProblem CaptureReader :=
  match Block.scanSection w.view with
  | .found (.sectionHeader order) _ => .ok (.pcapng { order := order } w)
  | .found _ _ => .error .notRecognized
  | .short missing => .error (.incomplete missing)
  | .bad p => .error p

/-- Starts to read a file. -/
def ofFile (file : ByteView) : Except CaptureError CaptureReader := do
  let magic ← magic? file
  let w := Window.ofView file
  if isPcapng magic then (openPcapng w).mapError (.format .pcapng true)
  else (openPcap w).mapError (.format .pcap true)

/-- The reader behind the next record or block with the packet in it; `none` at the end of the
file. -/
def step : CaptureReader → Except CaptureError (Option (CaptureReader × Option Packet))
  | .pcap h w =>
    match w.next h.scan with
    | .found packet w => .ok (some (.pcap h w, some packet))
    | .finished => .ok none
    | .failed p => .error (.format .pcap false p)
  | .pcapng s w =>
    match w.next (Block.scan s.order) with
    | .found block w =>
      let (s, packet) := s.take block
      .ok (some (.pcapng s w, packet))
    | .finished => .ok none
    | .failed p => .error (.format .pcapng false p)

/-- What is not used yet. -/
def rest : CaptureReader → ByteView
  | .pcap _ w => w.rest
  | .pcapng _ w => w.rest

/-- The packets of at most `count` records and blocks, and the problem that ends them if they do not
end with the file. -/
def readSome : Nat → CaptureReader → List Packet × Option CaptureError
  | 0, _ => ([], none)
  | count + 1, r =>
    match r.step with
    | .error e => ([], some e)
    | .ok none => ([], none)
    | .ok (some (r, packet)) =>
      let (packets, e) := readSome count r
      (packet.toList ++ packets, e)

/-- The packets up to the end of the file or to the first problem. No record or block is empty. -/
def read (r : CaptureReader) : List Packet × Option CaptureError := readSome (r.rest.size + 1) r

end CaptureReader

end PacketTree
