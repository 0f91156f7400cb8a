import PacketTree.Bytes.View

/-!
# Byte order

Numbers that fill several bytes, the highest byte first or the lowest.
-/

namespace PacketTree

/-- The order of the bytes of a number. -/
inductive ByteOrder where
  /-- The lowest byte comes first. -/
  | little
  /-- The highest byte comes first. -/
  | big
deriving DecidableEq, Repr

namespace ByteOrder

/-- The number that bytes stand for. -/
def number : ByteOrder → List UInt8 → Nat
  | big, bytes => bytes.foldl (fun n b => n * 256 + b.toNat) 0
  | little, bytes => bytes.foldr (fun b n => b.toNat + 256 * n) 0

end ByteOrder

/-- The number that fills some bytes of a view, of which those outside the view are missing. -/
def ByteView.number (v : ByteView) (order : ByteOrder) (start width : Nat) : Nat :=
  order.number (v.clamped start (start + width)).toList

end PacketTree
