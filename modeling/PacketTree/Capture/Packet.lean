import PacketTree.Time

/-!
# Captured packets

A packet as a capture gives it: when it was seen, on a link of which type, how long it was on the
wire, and the bytes that were kept.
-/

namespace PacketTree

/-- A captured packet. -/
structure Packet where
  /-- When it was captured. -/
  timestamp : Instant
  /-- The type of the link. -/
  link : UInt32
  /-- Its length on the wire; fewer bytes may have been kept. -/
  wireLength : Nat
  /-- The bytes that were kept. -/
  data : List UInt8
deriving DecidableEq, Repr, Inhabited

end PacketTree
