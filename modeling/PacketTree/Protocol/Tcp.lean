import PacketTree.Header.Basic

/-!
# TCP segments

A header of at least twenty bytes and options up to the length that it gives in words. Ports alone do
not tell streams apart, so the text that names the stream takes the addresses from the layer below.

## The model

The options are read one by one. One that cannot be read ends the reading and marks the property of
the options; the segment itself is none the worse for it.
-/

namespace PacketTree.Tcp

open Header

/-- The least length of a header. -/
def minHeaderLength : Nat := 20

/-- The flags, from the top bit down. -/
def flagBits : List (Nat × String) :=
  [(256, "ns"), (128, "cwr"), (64, "ece"), (32, "urg"), (16, "ack"), (8, "psh"), (4, "rst"),
   (2, "syn"), (1, "fin")]

/-! ### Streams -/

/-- One end of a stream: the address that the layer below shows for it, and a port. -/
def endpoint (parent : Layer) (id : String) (port : Nat) : String :=
  let address := (parent.property? id).elim "" (·.summary)
  if parent.ns.primary? = some "ipv6" then "[" ++ address ++ "]:" ++ toString port
  else address ++ ":" ++ toString port

/-- The name of the stream from one end to the other. -/
def streamName (parent : Layer) (src dst : Nat) : String :=
  endpoint parent "src" src ++ " -> " ++ endpoint parent "dst" dst

/-- Names the stream. -/
def nameStream (parent : Layer) : Step := fun l => do
  let src ← word 2 parent.payload 0 2
  let dst ← word 2 parent.payload 2 4
  let name := streamName parent src dst
  return { l with summary := name, streamId := some name }

/-! ### Flags and lengths -/

/-- The length of the header in words. -/
def headerWords (v : ByteView) : Result Nat := (byte v 12).map (·.toNat / 16)

/-- Reads the flags and adds those that are set to the summary. -/
def readFlags (v : ByteView) : Step := fun l => do
  let n ← word 2 v 12 14
  let p := flagProperty "flags" (n % 0x200) ⟨12, 14⟩ flagBits
  let l := if p.summary = "" then l
    else { l with summary := l.summary ++ " [" ++ p.summary.map Char.toUpper ++ "]" }
  return l.push p

/-- Refuses a header that is shorter than its fixed part or longer than the payload. -/
def checkLength (v : ByteView) : Result Unit := do
  let words ← headerWords v
  if words * 4 < minHeaderLength then throw (.invalid "data offset" words)
  require v (words * 4)

/-! ### Options -/

/-- The end of an option of some length, which must not lie beyond the end of the header. -/
def bounded (place length stop : Nat) : Result Nat :=
  if place + length > stop then .error (.tooShort (place + length) stop) else .ok (place + length)

/-- An option without anything to say but that it is there. -/
def bareOption (id : String) (value : Value) (place stop : Nat) : Property :=
  { id := id, value := value, range := ⟨place, stop⟩ }

/-- The option of two timestamps. -/
def timestamps (v : ByteView) (place stop : Nat) : Result Property := do
  let mine ← word 4 v (place + 2) (place + 6)
  let echoed ← word 4 v (place + 6) (place + 10)
  return { id := "ts"
           value := .string (toString mine ++ " - " ++ toString echoed)
           range := ⟨place, stop⟩
           children :=
            [{ id := "mt", value := .ofNat mine, range := ⟨place + 2, place + 6⟩ },
             { id := "et", value := .ofNat echoed, range := ⟨place + 6, place + 10⟩ }] }

/-- The option at a place of a header that ends at `stop`, with the place behind it; nothing at the
mark that ends the list. -/
def option (v : ByteView) (place stop : Nat) : Result (Option (Property × Nat)) := do
  let kind ← byte v place
  match kind.toNat with
  | 0 => return none
  | 1 =>
    let next ← bounded place 1 stop
    return some (bareOption "nop" .nil place next, next)
  | 2 =>
    let next ← bounded place 4 stop
    let size ← word 2 v (place + 2) (place + 4)
    return some (bareOption "mss" (.ofNat size) place next, next)
  | 3 =>
    let next ← bounded place 3 stop
    let shift ← byte v (place + 2)
    return some (bareOption "scale" (.ofNat shift.toNat) place next, next)
  | 4 =>
    let next ← bounded place 2 stop
    return some (bareOption "ackPerm" (.bool true) place next, next)
  | 5 =>
    let length ← byte v (place + 1)
    if length.toNat < 2 then throw (.invalid "selAck length" length.toNat)
    let next ← bounded place length.toNat stop
    let blocks ← view v (place + 2) next
    return some (bareOption "selAck" (.bytes blocks) place next, next)
  | 8 =>
    let next ← bounded place 10 stop
    return some (← timestamps v place next, next)
  | unknown => throw (.invalid "option kind" unknown)

/-- The options from a place on: those that could be read, and the error that ended the reading.
Every option is at least one byte long, so `count` of them reach past as many bytes. -/
def optionsFrom (v : ByteView) (stop : Nat) : Nat → Nat → List Property × String
  | 0, _ => ([], "")
  | count + 1, place =>
    if place < stop then
      match option v place stop with
      | .ok (some (p, next)) =>
        let (ps, error) := optionsFrom v stop count next
        (p :: ps, error)
      | .ok none => ([], "")
      | .error e => ([], e.message)
    else ([], "")

/-- The property of the options of a header that ends at `stop`. -/
def options (v : ByteView) (stop : Nat) : Property :=
  let (children, error) := optionsFrom v stop (stop - minHeaderLength) minHeaderLength
  { id := "options", range := ⟨minHeaderLength, stop⟩, error := error, children := children }

/-- Reads the options. -/
def readOptions (v : ByteView) : Step := fun l => do
  let words ← headerWords v
  return l.push (options v (words * 4))

/-- The payload is all that follows the header. -/
def carry (v : ByteView) : Step := fun l => do
  let words ← headerWords v
  return { l with payload := v.clamped (words * 4) v.size }

/-! ### Segments -/

/-- The steps of reading the header. -/
def steps (parent : Layer) : List Step :=
  let v := parent.payload
  [field (wordProperty "src" v 0 2),
   field (wordProperty "dst" v 2 4),
   nameStream parent,
   field (wordProperty "seq" v 4 8),
   field (wordProperty "ack" v 8 12),
   field (byteProperty "dOffset" v 12 (· / 16)),
   readFlags v,
   field (wordProperty "window" v 14 16),
   field (wordProperty "checksum" v 16 18),
   field (wordProperty "urgent" v 18 20),
   check (checkLength v),
   readOptions v,
   carry v]

/-- The segment in the payload of a layer. -/
def dissect (parent : Layer) : Layer := Header.read "tcp" (steps parent) parent

end PacketTree.Tcp
