/-!
# Protocol numbers

The numbers by which a header announces the protocol of its payload, with the name shown for it and
the token put into the namespace.
-/

namespace PacketTree.Protocol

/-- A protocol that a number stands for. -/
structure Announced where
  /-- The name for a reader. -/
  name : String
  /-- The token in a namespace. -/
  token : String
deriving DecidableEq, Repr

/-- Protocols by the type field of Ethernet. -/
def etherTypes : List (Nat × Announced) :=
  [(0x0800, ⟨"IPv4", "ipv4"⟩), (0x0806, ⟨"ARP", "arp"⟩), (0x86dd, ⟨"IPv6", "ipv6"⟩)]

/-- Protocols by the protocol or next header field of the internet protocols. -/
def internetProtocols : List (Nat × Announced) :=
  [(1, ⟨"ICMP", "icmp"⟩), (2, ⟨"IGMP", "igmp"⟩), (6, ⟨"TCP", "tcp"⟩), (17, ⟨"UDP", "udp"⟩),
   (58, ⟨"ICMPv6", "icmpv6"⟩)]

/-- The protocol of an Ethernet type. -/
def etherType? (n : Nat) : Option Announced := etherTypes.lookup n

/-- The protocol of an internet protocol number. -/
def internet? (n : Nat) : Option Announced := internetProtocols.lookup n

end PacketTree.Protocol
