import PacketTree.Dissection.Dissector
import PacketTree.Protocol.Ethernet
import PacketTree.Protocol.Ipv4
import PacketTree.Protocol.Ipv6
import PacketTree.Protocol.Tcp
import PacketTree.Protocol.Udp

/-!
# The built-in dissectors

Each is called for the tentative token of its protocol. Packets that are said to hold some version
of the internet protocol are called `*ip`: both versions look at those, and the first four bits
decide which of the two takes them.
-/

namespace PacketTree.Protocol

variable {σ : Type}

/-- The token of a payload of either version of the internet protocol. -/
def anyVersion : Token := .tentative "ip"

/-- The version that a payload claims, where its layer leaves the version open. No payload claims
version zero. -/
def claimedVersion? (l : Layer) : Option Nat :=
  if l.ns.last? = some anyVersion then some ((l.payload.get? 0).elim 0 (·.toNat / 16)) else none

/-- Some bare packets decide by themselves that they are not of version 4: those of version 6. -/
def isVersion4 (l : Layer) : Bool := claimedVersion? l ≠ some 6

/-- A packet of open version is one of version 6 only if it says so. -/
def isVersion6 (l : Layer) : Bool := (claimedVersion? l).all (· = 6)

/-- A dissector that finds one layer in the payload of every layer that fits. -/
def dissector (name : String) (tokens : List String) (fits : Layer → Bool) (read : Layer → Layer)
    (memory : σ) : Dissector σ :=
  .stateless name (tokens.map fun t => .suffix ⟨[.tentative t]⟩) memory fun f id =>
    (f.layer? id).bind fun l => if fits l then some (read l) else none

/-- Ethernet frames. -/
def ethernet (memory : σ) : Dissector σ :=
  dissector "eth" ["eth"] (fun _ => true) Ethernet.dissect memory

/-- Packets of version 4. -/
def ipv4 (memory : σ) : Dissector σ :=
  dissector "ipv4" ["ipv4", "ip"] isVersion4 Ipv4.dissect memory

/-- Packets of version 6. -/
def ipv6 (memory : σ) : Dissector σ :=
  dissector "ipv6" ["ipv6", "ip"] isVersion6 Ipv6.dissect memory

/-- Segments of TCP. -/
def tcp (memory : σ) : Dissector σ :=
  dissector "tcp" ["tcp"] (fun _ => true) Tcp.dissect memory

/-- Datagrams of UDP. -/
def udp (memory : σ) : Dissector σ :=
  dissector "udp" ["udp"] (fun _ => true) Udp.dissect memory

/-- The built-in dissectors in the order in which they look at a layer. -/
def builtin (memory : σ) : List (Dissector σ) :=
  [ethernet memory, ipv4 memory, ipv6 memory, tcp memory, udp memory]

end PacketTree.Protocol
