import PacketTree.Address
import PacketTree.Header.Basic
import PacketTree.Protocol.Numbers

/-!
# Internet protocol, version 6

A header of forty bytes, which gives the length of the payload.
-/

namespace PacketTree.Ipv6

open Header

/-- The length of the header. -/
def headerLength : Nat := 40

/-- A field of the first word, which holds version, traffic class and flow label. -/
def firstWordField (id : String) (v : ByteView) (stop : Nat) (read : Nat → Nat) : Result Property :=
  (word 4 v 0 4).map fun n => { id := id, value := .ofNat (read n), range := ⟨0, stop⟩ }

/-- The protocol of the payload. -/
def nextHeader (v : ByteView) : Result Property := do
  let n ← byte v 6
  let name := (Protocol.internet? n.toNat).elim "" (·.name)
  return { id := "nHeader", value := .ofNat n.toNat, range := ⟨6, 7⟩, summary := name }

/-- Says who sends to whom. -/
def summarize (v : ByteView) : Step := fun l => do
  let src ← bytes v 8 24
  let dst ← bytes v 24 40
  return { l with summary := Address.version6 src ++ " -> " ++ Address.version6 dst }

/-- The payload starts behind the header and has the length given there. -/
def carry (v : ByteView) : Step := fun l => do
  let length ← word 2 v 4 6
  let n ← byte v 6
  let l := { l with payload := v.clamped headerLength (headerLength + length) }
  match Protocol.internet? n.toNat with
  | some p => return { l with ns := l.ns.announce p.token }
  | none => return l

/-- The steps of reading the header. -/
def steps (v : ByteView) : List Step :=
  [field (firstWordField "version" v 1 (· / 0x10000000)),
   field (firstWordField "tClass" v 2 (· / 0x100000 % 0x100)),
   field (firstWordField "fLabel" v 4 (· % 0x100000)),
   field (wordProperty "pLen" v 4 6),
   field (nextHeader v),
   field (byteProperty "hLimit" v 7 id),
   field (addressProperty "src" Address.version6 v 8 24),
   field (addressProperty "dst" Address.version6 v 24 40),
   summarize v,
   carry v]

/-- The layer of version 6 in the payload of a layer. -/
def dissect (parent : Layer) : Layer := Header.read "ipv6" (steps parent.payload) parent

end PacketTree.Ipv6
