import PacketTree.Header.Basic

/-!
# User datagrams

Two ports, a length that counts the header, and a checksum.
-/

namespace PacketTree.Udp

open Header

/-- The length of the header. -/
def headerLength : Nat := 8

/-- Says from which port to which. -/
def summarize (v : ByteView) : Step := fun l => do
  let src ← word 2 v 0 2
  let dst ← word 2 v 2 4
  return { l with summary := toString src ++ " -> " ++ toString dst }

/-- The payload ends where the length says; a length without room for the header is refused. -/
def carry (v : ByteView) : Step := fun l => do
  let length ← word 2 v 4 6
  if length < headerLength then throw (.invalid "length" length)
  return { l with payload := v.clamped headerLength length }

/-- The steps of reading the header. -/
def steps (v : ByteView) : List Step :=
  [field (wordProperty "src" v 0 2),
   field (wordProperty "dst" v 2 4),
   summarize v,
   field (wordProperty "length" v 4 6),
   field (wordProperty "checksum" v 6 8),
   carry v]

/-- The datagram in the payload of a layer. -/
def dissect (parent : Layer) : Layer := Header.read "udp" (steps parent.payload) parent

end PacketTree.Udp
