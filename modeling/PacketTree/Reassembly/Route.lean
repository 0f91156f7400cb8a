import PacketTree.Numeric.SipHash

/-!
# Which place works on a stream

Streams are spread over a fixed number of places by a hash of their names, so that all segments of a
stream come to one place.
-/

namespace PacketTree

/-- The bytes that are hashed for a name: its encoding and a byte that occurs in none. -/
def routeKey (stream : String) : List UInt8 := stream.toUTF8.toList ++ [0xff]

/-- The place, of a number of places, that works on a stream. -/
def route (stream : String) (places : Nat) : Nat :=
  (SipHash.hash 0 0 (routeKey stream)).toNat % max places 1

/-- The place exists. -/
theorem route_lt {stream : String} {places : Nat} (h : 0 < places) : route stream places < places := by
  have : max places 1 = places := by omega
  rw [route, this]
  exact Nat.mod_lt _ h

end PacketTree
