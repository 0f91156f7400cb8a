import PacketTree.Address
import PacketTree.Header.Basic
import PacketTree.Protocol.Numbers

/-!
# Ethernet

Two hardware addresses and a number, which is the length of the payload if it is small and its
protocol otherwise.
-/

namespace PacketTree.Ethernet

open Header

/-- The length of the header. -/
def headerLength : Nat := 14

/-- The largest number that is a length. -/
def maxLengthField : Nat := 1500

/-- Says who sends to whom. -/
def summarize (v : ByteView) : Step := fun l => do
  let dst ← bytes v 0 6
  let src ← bytes v 6 12
  return { l with summary := Address.hardware src ++ " -> " ++ Address.hardware dst }

/-- Reads the length or protocol; the bytes behind it are the payload. -/
def readType (v : ByteView) : Step := fun l => do
  let n ← word 2 v 12 14
  let l := { l with payload := v.clamped headerLength v.size }
  if n ≤ maxLengthField then
    return l.push { id := "len", value := .ofNat n, range := ⟨12, 14⟩ }
  else
    match Protocol.etherType? n with
    | some p =>
      let l := { l with ns := l.ns.announce p.token }
      return l.push { id := "ethType", value := .ofNat n, range := ⟨12, 14⟩, summary := p.name }
    | none => return l.push { id := "ethType", value := .ofNat n, range := ⟨12, 14⟩ }

/-- The steps of reading the header. -/
def steps (v : ByteView) : List Step :=
  [field (addressProperty "dst" Address.hardware v 0 6),
   field (addressProperty "src" Address.hardware v 6 12),
   summarize v,
   readType v]

/-- The Ethernet layer in the payload of a layer. -/
def dissect (parent : Layer) : Layer := Header.read "eth" (steps parent.payload) parent

end PacketTree.Ethernet
