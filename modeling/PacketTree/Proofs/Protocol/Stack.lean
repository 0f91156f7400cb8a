import PacketTree.Proofs.Dissection.Termination
import PacketTree.Proofs.Protocol.Chain
import PacketTree.Proofs.Protocol.Encoding

/-!
# Packets taken apart

A packet that was put together by the rules of its protocols is taken apart into the same protocols: a
segment or datagram in a packet of either version of the internet protocol in an Ethernet frame.

## What is proved

* `Stack.run`: where each layer is found in the one before, the dissection is the chain of these layers.
* `dissects_packet`: the dissection of a packet, with everything that was put into its headers.

## The model

A `SentPacket` is given by the fields of its headers and by what it carries. Its `bytes` follow from
that; behind them there may be padding. Only packets are considered whose length fits the fields for
it.
-/

namespace PacketTree

open Header

variable {σ : Type}

/-! ### Layers one below the other -/

namespace Dissection

variable {memory : σ} {threshold : Threshold} {d : Dissection σ} {id : ℕ} {l m : Layer}
  {ls : List Layer}

/-- Each of the layers is what the built-in dissectors find in the one before, the first one in a given
layer, and nothing is found in the last. -/
inductive Stack (threshold : Threshold) : Layer → List Layer → Prop where
  /-- Nothing is found. -/
  | nothing {l : Layer} (h : Protocol.next? l = none) : Stack threshold l []
  /-- A layer is found that is sure enough and lies in its parent. -/
  | next {l m : Layer} {ls : List Layer} (h : Protocol.next? l = some m)
      (hwithin : m.payload.Within l.payload) (hsure : threshold.le m.confidence.value = true)
      (hrest : Stack threshold m ls) : Stack threshold l (m :: ls)

/-- The nodes of layers that stand one below the other, the first one below a layer with a number. -/
def stackNodes : ℕ → List Layer → List (Layer × Option ℕ)
  | _, [] => []
  | id, l :: ls => (l, some id) :: stackNodes (id + 1) ls

/-- A generation of the built-in dissectors with one layer to look at. -/
theorem step_builtin (hd : d.workers.map Worker.dissector = Protocol.builtin memory)
    (hleaves : d.leaves = [id]) (hl : d.frame.layer? id = some l) {found : List Layer}
    (hfound : Dissector.offspring threshold (Protocol.builtin memory) d.frame id = found) :
    (step threshold d).frame.nodes = d.frame.nodes ++ found.map (·, some id) ∧
      (step threshold d).workers.map Worker.dissector = Protocol.builtin memory ∧
      (step threshold d).faulted = false ∧
      (step threshold d).leaves = (List.range' d.frame.size found.length).filter (fun i =>
        !d.visited.contains (nsOf (step threshold d).frame i)) ∧
      (step threshold d).visited = d.visited ++
        (List.range' d.frame.size found.length).map (nsOf (step threshold d).frame) := by
  have hlocal : ∀ w ∈ d.workers, w.dissector.IsLocal := fun _ hw =>
    Protocol.isLocal_builtin memory _ (hd ▸ List.mem_map_of_mem hw)
  have hlt : ∀ leaf ∈ [id], leaf < d.frame.size := by
    intro leaf hleaf
    rw [List.mem_singleton.mp hleaf]
    exact Frame.layer?_isSome_iff.mp (hl ▸ rfl)
  obtain ⟨hfault, hgrow, hworkers, -⟩ := expand_spec threshold hlocal hlt
  rw [hd] at hfault hgrow hworkers
  have hsound : (expand threshold d.frame d.workers [id]).faulted = false := by
    rw [Bool.eq_false_iff, ne_eq, hfault]
    rintro ⟨leaf, hleaf, hnone⟩
    rw [List.mem_singleton.mp hleaf, Protocol.findings_builtin memory hl] at hnone
    cases hnone
  have hgrowth : growth threshold (Protocol.builtin memory) d.frame [id] = found.map (·, some id) := by
    rw [growth, List.flatMap_singleton, hfound]
  rw [hgrowth, List.length_map] at hgrow
  obtain ⟨hnodes, hadded⟩ := hgrow hsound
  have hstep : step threshold d =
      let g := expand threshold d.frame d.workers [id]
      let new := List.range' d.frame.size found.length
      ⟨g.frame, g.workers, d.visited ++ new.map (nsOf g.frame),
        new.filter fun i => !d.visited.contains (nsOf g.frame i), false⟩ := by
    simp only [step, hleaves, hsound, hadded, Bool.false_eq_true, if_false]
  rw [hstep]
  exact ⟨hnodes, hworkers, rfl, rfl, rfl⟩

/-- **Layers that are found one in the other become a chain**, in as many generations and one that finds
nothing more, provided that no two of them have one namespace. -/
theorem Stack.run (h : Stack threshold l ls)
    (hd : d.workers.map Worker.dissector = Protocol.builtin memory) (hleaves : d.leaves = [id])
    (hl : d.frame.layer? id = some l) (hlast : id + 1 = d.frame.size)
    (hns : (ls.map Layer.ns).Nodup) (hnew : ∀ m ∈ ls, m.ns ∉ d.visited) :
    let e := Dissection.run threshold (ls.length + 1) d
    e.frame.nodes = d.frame.nodes ++ stackNodes id ls ∧ e.leaves = [] ∧ e.faulted = false := by
  induction h generalizing d id with
  | @nothing l h =>
    have hfound : Dissector.offspring threshold (Protocol.builtin memory) d.frame id = [] := by
      simp [Dissector.offspring, hl, Protocol.findings_builtin memory hl, h, rank]
    obtain ⟨hnodes, -, hsound, hnext, -⟩ := step_builtin hd hleaves hl hfound
    rw [List.length_nil, Nat.zero_add, Dissection.run, hleaves, Dissection.run]
    exact ⟨by simpa [stackNodes] using hnodes, by simpa using hnext, hsound⟩
  | @next l m ls h hwithin hsure _ ih =>
    have hfound : Dissector.offspring threshold (Protocol.builtin memory) d.frame id = [m] := by
      simp [Dissector.offspring, hl, Protocol.findings_builtin memory hl, h, rank, hsure, contain,
        hwithin]
    obtain ⟨hnodes, hworkers, -, hnext, hvisited⟩ := step_builtin hd hleaves hl hfound
    rw [List.map_cons, List.nodup_cons] at hns
    obtain ⟨hfirst, hrest⟩ := List.forall_mem_cons.mp hnew
    have hm : (step threshold d).frame.layer? d.frame.size = some m := by
      simp [Frame.layer?_eq, hnodes]
    have hsize : d.frame.size + 1 = (step threshold d).frame.size := by
      rw [← Frame.length_nodes, ← Frame.length_nodes, hnodes, List.length_append]
      rfl
    have hnsOf : nsOf (step threshold d).frame d.frame.size = m.ns := by rw [nsOf, hm]; rfl
    obtain ⟨hall, hend, hsound⟩ := ih hworkers
      (by simpa [hnsOf, hfirst] using hnext) hm hsize hns.2 fun k hk => by
        rw [hvisited]
        simp only [List.length_singleton, List.range'_one, List.map_singleton, hnsOf,
          List.mem_append, List.mem_singleton, not_or]
        exact ⟨hrest k hk, fun heq => hns.1 (heq ▸ List.mem_map_of_mem hk)⟩
    rw [List.length_cons, Dissection.run, hleaves]
    refine ⟨?_, hend, hsound⟩
    rw [if_neg (by simp), hall, hnodes, stackNodes, hlast, List.append_assoc]
    rfl

/-- A frame of which only the root is known becomes the chain. -/
theorem Stack.complete {root : Layer} (h : Stack threshold root ls)
    (hns : (root.ns :: ls.map Layer.ns).Nodup) (index : ℕ) (timestamp : Instant)
    (length sourceId : ℕ) (memory : σ) :
    ∃ d, Dissection.complete threshold (.ofRoot index timestamp length sourceId root)
        ((Protocol.builtin memory).map Dissector.worker) = some d ∧
      d.frame.nodes = (root, none) :: stackNodes Frame.rootId ls ∧ d.leaves = [] ∧
      d.faulted = false := by
  obtain ⟨hroot, hrest⟩ := List.nodup_cons.mp hns
  let d := start (.ofRoot index timestamp length sourceId root)
    ((Protocol.builtin memory).map Dissector.worker)
  have hd : d.workers.map Worker.dissector = Protocol.builtin memory := rfl
  have hleaves : d.leaves = [Frame.rootId] := rfl
  have hnew : ∀ m ∈ ls, m.ns ∉ d.visited := fun m hm hmem =>
    hroot (List.mem_singleton.mp hmem ▸ List.mem_map_of_mem hm)
  obtain ⟨hnodes, hend, hsound⟩ := h.run hd hleaves rfl rfl hrest hnew
  exact ⟨_, complete_of_leaves_eq_nil hend, hnodes, hend, hsound⟩

end Dissection

/-! ### Packets -/

/-- What a packet carries for the two ports. -/
inductive Transport where
  /-- A segment of TCP. -/
  | tcp (fields : Tcp.Fields) (payload : List UInt8)
  /-- A datagram of UDP. -/
  | udp (fields : Udp.Fields) (payload : List UInt8)

namespace Transport

/-- The name of the protocol. -/
def token : Transport → String
  | tcp .. => "tcp"
  | udp .. => "udp"

/-- The number of the protocol. -/
def protocol : Transport → ℕ
  | tcp .. => 6
  | udp .. => 17

/-- What is carried. -/
def payload : Transport → List UInt8
  | tcp _ payload | udp _ payload => payload

/-- The header and what is carried. -/
def bytes : Transport → List UInt8
  | tcp fields payload => fields.header ++ payload
  | udp fields payload => fields.header payload.length ++ payload

/-- What the properties of the header say. -/
def readings : Transport → List Reading
  | tcp fields _ => fields.readings
  | udp fields payload => fields.readings payload.length

/-- The dissector of the protocol. -/
def dissect : Transport → Layer → Layer
  | tcp .. => Tcp.dissect
  | udp .. => Udp.dissect

variable {t : Transport} {parent l : Layer}

theorem decodes (hfits : t.bytes.length < 2 ^ 16) (hv : parent.payload.toList = t.bytes) :
    Decodes parent (parent.ns.descend t.token) t.readings t.payload (t.dissect parent) := by
  cases t with
  | tcp fields payload => exact Tcp.decodes_dissect fields hv
  | udp fields payload =>
    have hlength : 8 + payload.length < 2 ^ 16 := by simpa [bytes] using hfits
    have hrest : parent.payload.toList = fields.header payload.length ++ (payload ++ []) := by
      rw [hv, List.append_nil]
      rfl
    exact Udp.decodes_dissect fields hlength hrest

theorem next?_eq_some (h : l.ns.last? = some (.tentative t.token)) :
    Protocol.next? l = some (t.dissect l) := by
  cases t <;> simp only [Protocol.next?, h, token, dissect]

theorem internet?_protocol (t : Transport) :
    ∃ p, Protocol.internet? t.protocol = some p ∧ p.token = t.token := by
  cases t
  · exact ⟨⟨"TCP", "tcp"⟩, rfl, rfl⟩
  · exact ⟨⟨"UDP", "udp"⟩, rfl, rfl⟩

theorem protocol_lt (t : Transport) : t.protocol < 2 ^ 8 := by
  cases t <;> simp [protocol]

end Transport

/-- The header of either version of the internet protocol. -/
inductive Internet where
  /-- A header of version 4. -/
  | ipv4 (fields : Ipv4.Fields)
  /-- A header of version 6. -/
  | ipv6 (fields : Ipv6.Fields)

namespace Internet

/-- The name of the protocol. -/
def token : Internet → String
  | ipv4 _ => "ipv4"
  | ipv6 _ => "ipv6"

/-- The number of the protocol in an Ethernet frame. -/
def etherType : Internet → ℕ
  | ipv4 _ => 0x0800
  | ipv6 _ => 0x86dd

/-- The bytes of the header that the length field counts. -/
def counted : Internet → ℕ
  | ipv4 fields => 4 * fields.words
  | ipv6 _ => 0

/-- The header before a payload of some protocol and length. -/
def header (protocol length : ℕ) : Internet → List UInt8
  | ipv4 fields => fields.header protocol length
  | ipv6 fields => fields.header protocol length

/-- What the properties of the header say. -/
def readings (protocol length : ℕ) : Internet → List Reading
  | ipv4 fields => fields.readings protocol length
  | ipv6 fields => fields.readings protocol length

/-- The dissector of the protocol. -/
def dissect : Internet → Layer → Layer
  | ipv4 _ => Ipv4.dissect
  | ipv6 _ => Ipv6.dissect

variable {i : Internet} {t : Transport} {parent l : Layer} {rest : List UInt8}

theorem decodes (hfits : i.counted + t.bytes.length < 2 ^ 16)
    (hv : parent.payload.toList = i.header t.protocol t.bytes.length ++ (t.bytes ++ rest)) :
    Decodes parent ((parent.ns.descend i.token).announce t.token)
      (i.readings t.protocol t.bytes.length) t.bytes (i.dissect parent) := by
  obtain ⟨p, hp, htoken⟩ := t.internet?_protocol
  rw [← htoken]
  cases i with
  | ipv4 fields => exact Ipv4.decodes_dissect fields hp t.protocol_lt hfits hv
  | ipv6 fields =>
    exact Ipv6.decodes_dissect fields hp t.protocol_lt (by simpa [counted] using hfits) hv

theorem next?_eq_some (h : l.ns.last? = some (.tentative i.token)) :
    Protocol.next? l = some (i.dissect l) := by
  cases i <;> simp only [Protocol.next?, h, token, dissect]

theorem etherType?_etherType (i : Internet) :
    ∃ p, Protocol.etherType? i.etherType = some p ∧ p.token = i.token := by
  cases i
  · exact ⟨⟨"IPv4", "ipv4"⟩, rfl, rfl⟩
  · exact ⟨⟨"IPv6", "ipv6"⟩, rfl, rfl⟩

end Internet

/-- A packet as it is sent, in a frame of Ethernet. -/
structure SentPacket where
  /-- The header of the frame. -/
  ethernet : Ethernet.Fields
  /-- The header of the packet. -/
  internet : Internet
  /-- What the packet carries. -/
  transport : Transport
  /-- The length of the packet fits the field for it. -/
  fits : internet.counted + transport.bytes.length < 2 ^ 16

namespace SentPacket

/-- The packet behind the header of the frame. -/
def inner (p : SentPacket) : List UInt8 :=
  p.internet.header p.transport.protocol p.transport.bytes.length ++ p.transport.bytes

/-- The whole frame. -/
def bytes (p : SentPacket) : List UInt8 := p.ethernet.header p.internet.etherType ++ p.inner

variable {p : SentPacket} {parent : Layer} {padding : List UInt8}

theorem decodes_ethernet (hv : parent.payload.toList = p.bytes ++ padding) :
    Decodes parent ((parent.ns.descend "eth").announce p.internet.token)
      (p.ethernet.readings p.internet.etherType) (p.inner ++ padding) (Ethernet.dissect parent) := by
  obtain ⟨announced, hannounced, htoken⟩ := p.internet.etherType?_etherType
  rw [bytes, List.append_assoc] at hv
  have hrange : Ethernet.maxLengthField < p.internet.etherType ∧ p.internet.etherType < 2 ^ 16 := by
    cases p.internet <;> simp [Internet.etherType, Ethernet.maxLengthField]
  rw [← htoken]
  exact Ethernet.decodes_dissect p.ethernet hannounced hrange.1 hrange.2 hv

/-- **What was put together is taken apart again.** A packet of TCP or UDP in a packet of either version
of the internet protocol in a frame of Ethernet, with any padding behind it, becomes four layers, one
below the other; each of them says what was put into its header, none is in error, and the last one
carries what the packet carries, without the padding. -/
theorem dissects_packet (p : SentPacket) (padding : List UInt8) (memory : σ) {root : Layer}
    (hns : root.ns = ⟨[.tentative "eth"]⟩) (hroot : root.payload.toList = p.bytes ++ padding)
    (index : ℕ) (timestamp : Instant) (length sourceId : ℕ) :
    ∃ d eth ip transport,
      Dissection.complete Double.zero (.ofRoot index timestamp length sourceId root)
        ((Protocol.builtin memory).map Dissector.worker) = some d ∧
      d.leaves = [] ∧ d.faulted = false ∧
      d.frame.nodes = [(root, none), (eth, some 0), (ip, some 1), (transport, some 2)] ∧
      Decodes root ⟨[.confirmed "eth", .tentative p.internet.token]⟩
        (p.ethernet.readings p.internet.etherType) (p.inner ++ padding) eth ∧
      Decodes eth
        ⟨[.confirmed "eth", .confirmed p.internet.token, .tentative p.transport.token]⟩
        (p.internet.readings p.transport.protocol p.transport.bytes.length) p.transport.bytes ip ∧
      Decodes ip
        ⟨[.confirmed "eth", .confirmed p.internet.token, .confirmed p.transport.token]⟩
        p.transport.readings p.transport.payload transport := by
  have heth := decodes_ethernet hroot
  rw [hns] at heth
  set eth := Ethernet.dissect root
  replace heth : Decodes root ⟨[.confirmed "eth", .tentative p.internet.token]⟩ _ _ eth := heth
  have hinner : eth.payload.toList =
      p.internet.header p.transport.protocol p.transport.bytes.length ++
        (p.transport.bytes ++ padding) := by
    rw [heth.body, inner, List.append_assoc]
  have hip := Internet.decodes p.fits hinner
  rw [heth.ns] at hip
  set ip := p.internet.dissect eth
  replace hip : Decodes eth
    ⟨[.confirmed "eth", .confirmed p.internet.token, .tentative p.transport.token]⟩ _ _ ip := hip
  have htransport := Transport.decodes ((Nat.le_add_left ..).trans_lt p.fits) hip.body
  rw [hip.ns] at htransport
  set transport := p.transport.dissect ip
  replace htransport : Decodes ip
    ⟨[.confirmed "eth", .confirmed p.internet.token, .confirmed p.transport.token]⟩ _ _ transport :=
      htransport
  have hsure : ∀ {parent l ns fs body}, Decodes parent ns fs body l →
      Double.zero.le l.confidence.value = true := fun h => h.confidence ▸ Confidence.full.zero_le
  have hend : Protocol.next? transport = none := by
    rw [Option.eq_none_iff_forall_ne_some]
    intro m hm
    obtain ⟨⟨name, hlast⟩, -⟩ := Protocol.of_next?_eq_some hm
    rw [htransport.ns] at hlast
    cases hlast
  have hstack : Dissection.Stack Double.zero root [eth, ip, transport] := by
    refine .next ?_ heth.within (hsure heth) <| .next ?_ hip.within (hsure hip) <|
      .next ?_ htransport.within (hsure htransport) <| .nothing hend
    · rw [Protocol.next?, hns]
      rfl
    · exact Internet.next?_eq_some (by rw [heth.ns]; rfl)
    · exact Transport.next?_eq_some (by rw [hip.ns]; rfl)
  have hdistinct : (root.ns :: [eth, ip, transport].map Layer.ns).Nodup := by
    simp [hns, heth.ns, hip.ns, htransport.ns]
  obtain ⟨d, hd, hnodes, hleaves, hsound⟩ :=
    hstack.complete hdistinct index timestamp length sourceId memory
  exact ⟨d, eth, ip, transport, hd, hleaves, hsound, hnodes, heth, hip, htransport⟩

/-- A segment of three bytes with an option that nobody knows, in a packet with options. -/
def segment : SentPacket where
  ethernet := { dst := #v[1, 2, 3, 4, 5, 6], src := #v[7, 8, 9, 10, 11, 12] }
  internet := .ipv4
    { version := 4, type := 0, id := 300, flags := 2, fragment := 0, ttl := 64, checksum := 0
      src := #v[10, 0, 0, 1], dst := #v[10, 0, 0, 2], optionWords := 1, options := #v[1, 1, 1, 0] }
  transport := .tcp
    { src := 80, dst := 1025, seq := 70000, ack := 9, reserved := 0, flags := 0x18, window := 100
      checksum := 0, urgent := 0, optionWords := 1, options := #v[255, 0, 0, 0] } [1, 2, 3]
  fits := by decide

/-- The segment as it was captured, with two bytes of padding. -/
def captured : Layer where
  ns := ⟨[.tentative "eth"]⟩
  payload := .ofBytes (.packet 1) (segment.bytes ++ [0, 0])

theorem dissects_segment :
    captured.ns = ⟨[.tentative "eth"]⟩ ∧ captured.payload.toList = segment.bytes ++ [0, 0] ∧
      ∃ (d : Dissection Unit) (eth ip tcp : Layer),
        Dissection.complete Double.zero (.ofRoot 1 .epoch 67 1 captured)
          ((Protocol.builtin ()).map Dissector.worker) = some d ∧
        d.frame.nodes = [(captured, none), (eth, some 0), (ip, some 1), (tcp, some 2)] ∧
        tcp.error = "" ∧ tcp.payload.toList = [1, 2, 3] ∧
        tcp.properties.map Property.reading =
          [⟨"src", some 80, none⟩, ⟨"dst", some 1025, none⟩, ⟨"seq", some 70000, none⟩,
           ⟨"ack", some 9, none⟩, ⟨"dOffset", some 6, none⟩, ⟨"flags", some 0x18, none⟩,
           ⟨"window", some 100, none⟩, ⟨"checksum", some 0, none⟩, ⟨"urgent", some 0, none⟩,
           ⟨"options", none, none⟩] := by
  have hns : captured.ns = ⟨[.tentative "eth"]⟩ := rfl
  have hbytes : captured.payload.toList = segment.bytes ++ [0, 0] := ByteView.toList_ofBytes _ _
  obtain ⟨d, eth, ip, tcp, hd, -, -, hnodes, -, -, htcp⟩ :=
    dissects_packet segment [0, 0] () hns hbytes 1 .epoch 67 1
  exact ⟨hns, hbytes, d, eth, ip, tcp, hd, hnodes, htcp.error, htcp.body, htcp.fields⟩

end SentPacket

end PacketTree
