import PacketTree.Address
import PacketTree.Header.Basic
import PacketTree.Protocol.Numbers

/-!
# Internet protocol, version 4

A header of at least twenty bytes. Its own length is given in words of four bytes, and the length of
the whole packet says where the payload ends.
-/

namespace PacketTree.Ipv4

open Header

/-- The least length of a header. -/
def minHeaderLength : Nat := 20

/-- The flags in the top bits of the fragment field. -/
def flagBits : List (Nat × String) := [(4, "reserved"), (2, "dontFrag"), (1, "moreFrag")]

/-- The length of the header in words. -/
def headerWords (v : ByteView) : Result Nat := (byte v 0).map (·.toNat % 16)

/-- The flags of a packet that may be cut into fragments. -/
def flags (v : ByteView) : Result Property :=
  (word 2 v 6 8).map fun n => flagProperty "flags" (n / 0x2000) ⟨6, 7⟩ flagBits

/-- The place of a fragment in its packet. -/
def fragmentOffset (v : ByteView) : Result Property :=
  (word 2 v 6 8).map fun n => { id := "fOffset", value := .ofNat (n % 0x2000), range := ⟨6, 8⟩ }

/-- The protocol of the payload. -/
def protocol (v : ByteView) : Result Property := do
  let n ← byte v 9
  let name := (Protocol.internet? n.toNat).elim "" (·.name)
  return { id := "protocol", value := .ofNat n.toNat, range := ⟨9, 10⟩, summary := name }

/-- Says who sends to whom. -/
def summarize (v : ByteView) : Step := fun l => do
  let src ← bytes v 12 16
  let dst ← bytes v 16 20
  return { l with summary := Address.version4 src ++ " -> " ++ Address.version4 dst }

/-- Refuses a header that is shorter than its fixed part or longer than the packet. -/
def checkLength (v : ByteView) : Result Unit := do
  let words ← headerWords v
  if words * 4 < minHeaderLength then throw (.invalid "header length" words)
  require v (words * 4)

/-- The payload lies between the end of the header and the end of the packet. -/
def carry (v : ByteView) : Step := fun l => do
  let words ← headerWords v
  let total ← word 2 v 2 4
  let n ← byte v 9
  let l := { l with payload := v.clamped (words * 4) total }
  match Protocol.internet? n.toNat with
  | some p => return { l with ns := l.ns.announce p.token }
  | none => return l

/-- The steps of reading the header. -/
def steps (v : ByteView) : List Step :=
  [field (byteProperty "version" v 0 (· / 16)),
   field (byteProperty "hLen" v 0 (· % 16)),
   field (byteProperty "type" v 1 id),
   field (wordProperty "tLen" v 2 4),
   field (wordProperty "id" v 4 6),
   field (flags v),
   field (fragmentOffset v),
   field (byteProperty "ttl" v 8 id),
   field (protocol v),
   field (wordProperty "checksum" v 10 12),
   field (addressProperty "src" Address.version4 v 12 16),
   field (addressProperty "dst" Address.version4 v 16 20),
   summarize v,
   check (checkLength v),
   carry v]

/-- The layer of version 4 in the payload of a layer. -/
def dissect (parent : Layer) : Layer := Header.read "ipv4" (steps parent.payload) parent

end PacketTree.Ipv4
