import PacketTree.Proofs.Header.Boundary
import PacketTree.Proofs.Protocol.Chain
import PacketTree.Proofs.Protocol.Options
import PacketTree.Proofs.Text.Address

/-!
# Streams are known by their names

The stream of a segment is known by a text alone, which is made of the addresses that the layer below
shows and of the ports. This module proves that nothing is lost in the text: streams between different
ends, in different directions or over different versions never have the same name.

## What is proved

* `Header.hasAddress_run`: the addresses of a packet that could be read are found under their names.
* `Version.endpoint_inj`: an address and a port are known by their text.
* `Flow.streamName_inj`: a stream is known by its name.
* `Tcp.streamId_eq_iff`: the streams of any two segments in packets of either version.

## The model

A `Flow` is what tells streams apart: the version, two addresses and two ports. It is `Shown` by the layers
of a packet and of the segment in it if these are the values of their fields. That a packet could not be
read is no exception, as it carries nothing then and has no segment with ports.
-/

namespace PacketTree

open Header ByteView

/-! ### Fields that are looked up -/

variable {l m : Layer} {p : Property} {id name : String}

theorem Layer.property?_push_of_none (h : l.property? p.id = none) : (l.push p).property? p.id = some p := by
  rw [property?] at h
  rw [property?, push, List.find?_append, h]
  simp

theorem Layer.property?_of_prefix (h : l.properties <+: m.properties) (hp : l.property? id = some p) :
    m.property? id = some p := by
  obtain ⟨ps, hps⟩ := h
  rw [property?] at hp
  rw [property?, ← hps, List.find?_append, hp]
  rfl

namespace Header

variable {α : Type} {r : Result Property} {ss ts : List Step}

/-- A field that has a name if it can be read. -/
def Named (name : String) (r : Result Property) : Prop := ∀ p, r = .ok p → p.id = name

theorem named_ok (h : p.id = name) : Named name (.ok p) := by
  intro q hq
  cases hq
  exact h

theorem named_map {x : Result α} {make : α → Property} (h : ∀ a, (make a).id = name) :
    Named name (x.map make) := by
  cases x with
  | error e => exact fun p hp => by cases hp
  | ok a => exact named_ok (h a)

theorem named_bind {x : Result α} {make : α → Result Property} (h : ∀ a, Named name (make a)) :
    Named name (x >>= make) := by
  intro p hp
  obtain ⟨a, -, hp⟩ := exists_of_bind hp
  exact h a p hp

theorem named_addressProperty (name : String) (text : List UInt8 → String) (v : ByteView) (a b : ℕ) :
    Named name (addressProperty name text v a b) := named_map fun _ => rfl

/-- A field of another name makes no difference. -/
theorem Named.keeps (h : Named name r) (hne : name ≠ id) : Keeps (·.property? id) (field r) := by
  intro l m hm
  cases r with
  | error e => cases hm
  | ok p =>
    cases hm
    have hid : p.id ≠ id := h p rfl ▸ hne
    change (l.push p).property? id = l.property? id
    rw [Layer.property?, Layer.push, List.find?_append]
    simp [hid, Layer.property?]

/-- **A field is found in a header that could be read**, if no field before it has the same name. -/
theorem exists_property?_run (hbefore : ∀ step ∈ ss, Keeps (·.property? name) step)
    (hafter : ∀ step ∈ ts, KeepsFields step) (hr : Named name r) (hnone : l.property? name = none)
    (herror : (run (ss ++ field r :: ts) l).error = "") :
    ∃ p, r = .ok p ∧ (run (ss ++ field r :: ts) l).property? name = some p := by
  have happend := run_append herror
  rw [happend] at herror ⊢
  have hnone' : (run ss l).property? name = none :=
    (run_of_keeps (fun _ _ => rfl) hbefore l).trans hnone
  cases hp : r with
  | error e =>
    rw [hp] at herror
    exact absurd herror e.message_ne_empty
  | ok p =>
    obtain rfl : p.id = name := hr p hp
    exact ⟨p, rfl, Layer.property?_of_prefix (properties_prefix_run hafter _)
      (Layer.property?_push_of_none hnone')⟩

theorem word_lt {width n a b : ℕ} {v : ByteView} (h : word width v a b = .ok n) : n < 256 ^ width := by
  rw [word] at h
  split at h
  · cases h
  · split at h
    · next hlength =>
      cases h
      exact hlength ▸ number_lt _
    · cases h

theorem keepsFields_of_grows {v : ByteView} {tokens : List String} {n : ℕ} {last : Step}
    (hgrows : ∀ step ∈ ss, Grows n step) (hlast : HandsOn v tokens last) :
    ∀ step ∈ ss ++ [last], KeepsFields step := by
  intro step hstep
  rcases List.mem_append.mp hstep with hstep | hstep
  · exact (hgrows step hstep).keepsFields
  · exact List.mem_singleton.mp hstep ▸ hlast.keepsFields

end Header

/-! ### Addresses of packets -/

/-- A layer has an address under a name, and shows it as a text. -/
def Layer.HasAddress (l : Layer) (id : String) (address : List UInt8) (text : String) : Prop :=
  ∃ p w, l.property? id = some p ∧ p.value = .bytes w ∧ w.toList = address ∧ p.summary = text

namespace Header

variable {v : ByteView} {text : List UInt8 → String} {a b c n : ℕ}

theorem hasAddress_of_addressProperty (hfound : l.property? id = some p)
    (hp : addressProperty name text v a b = .ok p) :
    ∃ address, l.HasAddress id address (text address) ∧ address.length = b - a := by
  rw [addressProperty] at hp
  cases hview : view v a b with
  | error e =>
    rw [hview] at hp
    cases hp
  | ok w =>
    rw [hview] at hp
    cases hp
    obtain ⟨hab, hb⟩ := view_fits hview
    obtain ⟨u, hu, hbytes⟩ := view_eq_ok hab hb
    obtain rfl : w = u := Except.ok.inj (hview.symm.trans hu)
    refine ⟨w.toList, ⟨_, w, hfound, rfl, rfl, rfl⟩, ?_⟩
    rw [hbytes, List.length_drop, List.length_take, length_toList, Nat.min_eq_left hb]

/-- The step adds no field that is named like an address. -/
def KeepsAddresses (step : Step) : Prop := ∀ id ∈ ["src", "dst"], Keeps (·.property? id) step

theorem Named.keepsAddresses (h : Named name r) (hname : name ∉ ["src", "dst"]) :
    KeepsAddresses (field r) :=
  fun _ hid => h.keeps fun heq => hname (heq ▸ hid)

@[simp] theorem keepsAddresses_byteField (hname : name ∉ ["src", "dst"]) (v : ByteView) (i : ℕ)
    (read : ℕ → ℕ) : KeepsAddresses (field (byteProperty name v i read)) :=
  Named.keepsAddresses (named_map fun _ => rfl) hname

@[simp] theorem keepsAddresses_wordField (hname : name ∉ ["src", "dst"]) (v : ByteView) (a b : ℕ) :
    KeepsAddresses (field (wordProperty name v a b)) :=
  Named.keepsAddresses (named_map fun _ => rfl) hname

/-- The two addresses of a header that could be read, where no field before them is named like them. -/
theorem hasAddress_run (hbefore : ∀ step ∈ ss, KeepsAddresses step)
    (hafter : ∀ step ∈ ts, KeepsFields step) (hempty : l.properties = [])
    (herror : (run (ss ++ field (addressProperty "src" text v a b) ::
      field (addressProperty "dst" text v b c) :: ts) l).error = "") :
    let m := run (ss ++ field (addressProperty "src" text v a b) ::
      field (addressProperty "dst" text v b c) :: ts) l
    (∃ address, m.HasAddress "src" address (text address) ∧ address.length = b - a) ∧
      ∃ address, m.HasAddress "dst" address (text address) ∧ address.length = c - b := by
  intro m
  have hnone : ∀ id, l.property? id = none := fun id => by rw [Layer.property?, hempty, List.find?_nil]
  constructor
  · have hafter' : ∀ step ∈ field (addressProperty "dst" text v b c) :: ts, KeepsFields step :=
      List.forall_mem_cons.mpr ⟨(grows_addressField "dst" text v b c).keepsFields, hafter⟩
    obtain ⟨p, hp, hfound⟩ := exists_property?_run
      (fun step hstep => hbefore step hstep "src" (by decide)) hafter'
      (named_addressProperty "src" text v a b) (hnone "src") herror
    exact hasAddress_of_addressProperty hfound hp
  · have hsrc : Keeps (·.property? "dst") (field (addressProperty "src" text v a b)) :=
      (named_addressProperty "src" text v a b).keeps (by decide)
    have hbefore' : ∀ step ∈ ss ++ [field (addressProperty "src" text v a b)],
        Keeps (·.property? "dst") step := by
      intro step hstep
      rcases List.mem_append.mp hstep with hstep | hstep
      · exact hbefore step hstep "dst" (by decide)
      · exact List.mem_singleton.mp hstep ▸ hsrc
    have hm : m = run (ss ++ [field (addressProperty "src" text v a b)] ++
        field (addressProperty "dst" text v b c) :: ts) l := by
      rw [List.append_assoc, List.singleton_append]
    change m.error = "" at herror
    rw [hm] at herror ⊢
    obtain ⟨p, hp, hfound⟩ := exists_property?_run hbefore' hafter
      (named_addressProperty "dst" text v b c) (hnone "dst") herror
    exact hasAddress_of_addressProperty hfound hp

end Header

namespace Ipv4

theorem keepsFields_steps (v : ByteView) : ∀ step ∈ steps v, KeepsFields step :=
  keepsFields_of_grows (grows_steps v) (handsOn_carry v)

theorem keepsAddresses_take_steps (v : ByteView) : ∀ step ∈ (steps v).take 10, KeepsAddresses step := by
  have hflags : Named "flags" (flags v) := named_map fun _ => rfl
  have hoffset : Named "fOffset" (fragmentOffset v) := named_map fun _ => rfl
  have hprotocol : Named "protocol" (protocol v) := named_bind fun _ => named_ok rfl
  simp [steps, hflags.keepsAddresses, hoffset.keepsAddresses, hprotocol.keepsAddresses]

theorem hasAddress_dissect {parent : Layer} (h : (dissect parent).error = "") :
    (∃ address, (dissect parent).HasAddress "src" address (Address.version4 address) ∧ address.length = 4) ∧
      ∃ address, (dissect parent).HasAddress "dst" address (Address.version4 address) ∧
        address.length = 4 := by
  have hafter : ∀ step ∈ (steps parent.payload).drop 12, KeepsFields step :=
    fun step hstep => keepsFields_steps parent.payload step (List.mem_of_mem_drop hstep)
  exact hasAddress_run (keepsAddresses_take_steps parent.payload) hafter rfl h

end Ipv4

namespace Ipv6

theorem keepsFields_steps (v : ByteView) : ∀ step ∈ steps v, KeepsFields step :=
  keepsFields_of_grows (grows_steps v) (handsOn_carry v)

theorem keepsAddresses_take_steps (v : ByteView) : ∀ step ∈ (steps v).take 6, KeepsAddresses step := by
  have hfirst : ∀ name stop read, Named name (firstWordField name v stop read) :=
    fun _ _ _ => named_map fun _ => rfl
  have hnext : Named "nHeader" (nextHeader v) := named_bind fun _ => named_ok rfl
  simp [steps, (hfirst _ _ _).keepsAddresses, hnext.keepsAddresses]

theorem hasAddress_dissect {parent : Layer} (h : (dissect parent).error = "") :
    (∃ address, (dissect parent).HasAddress "src" address (Address.version6 address) ∧
        address.length = 16) ∧
      ∃ address, (dissect parent).HasAddress "dst" address (Address.version6 address) ∧
        address.length = 16 := by
  have hafter : ∀ step ∈ (steps parent.payload).drop 8, KeepsFields step :=
    fun step hstep => keepsFields_steps parent.payload step (List.mem_of_mem_drop hstep)
  exact hasAddress_run (keepsAddresses_take_steps parent.payload) hafter rfl h

end Ipv6

/-! ### Ends of streams -/

namespace Protocol

/-- The two versions of the internet protocol. -/
inductive Version where
  /-- Version 4. -/
  | four
  /-- Version 6. -/
  | six
deriving DecidableEq

namespace Version

/-- The protocol. -/
def kind : Version → Kind
  | four => .ipv4
  | six => .ipv6

/-- The number of bytes of an address. -/
def addressLength : Version → ℕ
  | four => 4
  | six => 16

/-- The text of an address. -/
def text : Version → List UInt8 → String
  | four => Address.version4
  | six => Address.version6

/-- One end of a stream: an address and a port. -/
def endpoint (k : Version) (address : List UInt8) (port : ℕ) : String :=
  match k with
  | four => k.text address ++ ":" ++ toString port
  | six => "[" ++ k.text address ++ "]:" ++ toString port

variable {k k' : Version} {parent : Layer} {address address' : List UInt8} {port port' : ℕ} {c : Char}

theorem hasAddress_dissect (h : (k.kind.dissect parent).error = "") :
    (∃ address, (k.kind.dissect parent).HasAddress "src" address (k.text address) ∧
        address.length = k.addressLength) ∧
      ∃ address, (k.kind.dissect parent).HasAddress "dst" address (k.text address) ∧
        address.length = k.addressLength :=
  match k with
  | four => Ipv4.hasAddress_dissect h
  | six => Ipv6.hasAddress_dissect h

theorem primary?_dissect (k : Version) (parent : Layer) :
    (k.kind.dissect parent).ns.primary? = some k.kind.name := by
  rcases (k.kind.leftBy_dissect parent).ns with hns | ⟨t, -, hns⟩
  · rw [hns, Namespace.primary?_descend]
  · rw [hns]
    simp [Namespace.primary?, Namespace.announce, Namespace.settled, Namespace.descend, Namespace.last?,
      Token.isTentative, Token.isConfirmed, Token.name]

theorem endpoint_eq {l : Layer} (hns : l.ns.primary? = some k.kind.name)
    (h : l.HasAddress id address (k.text address)) (port : ℕ) :
    Tcp.endpoint l id port = k.endpoint address port := by
  obtain ⟨p, w, hfound, -, -, htext⟩ := h
  rw [Tcp.endpoint, hfound, hns, Option.elim_some, htext]
  cases k <;> rfl

theorem mem_signs_of_mem_text (h : c ∈ (k.text address).toList) : c ∈ Address.signs :=
  match k with
  | four => List.mem_cons_of_mem _ (List.mem_cons.mpr (Address.mem_version4 h))
  | six => (Address.shows_version6 address).mem_signs h

theorem mem_digits (h : c ∈ Nat.toDigits 10 port) : c ∈ Text.digits :=
  Text.mem_digits_of_mem_toDigits (by decide) (by decide) h

theorem text_inj (hlength : address.length = k.addressLength) (hlength' : address'.length = k.addressLength)
    (h : (k.text address).toList = (k.text address').toList) : address = address' := by
  have htext := String.toList_inj.mp h
  cases k with
  | four =>
    have hsome : ∀ as : List UInt8, as.length = 4 → as ≠ [] := by
      rintro as has rfl
      cases has
    exact Address.version4_inj (hsome _ hlength) (hsome _ hlength') htext
  | six => exact Address.version6_inj hlength hlength' htext

theorem toList_endpoint_four (address : List UInt8) (port : ℕ) : (four.endpoint address port).toList =
    (four.text address).toList ++ ':' :: Nat.toDigits 10 port := by
  simp [endpoint]

theorem toList_endpoint_six (address : List UInt8) (port : ℕ) : (six.endpoint address port).toList =
    '[' :: ((six.text address).toList ++ ']' :: ':' :: Nat.toDigits 10 port) := by
  simp [endpoint]

theorem space_not_mem_endpoint (k : Version) (address : List UInt8) (port : ℕ) :
    ' ' ∉ (k.endpoint address port).toList := by
  have htext : ' ' ∉ (k.text address).toList := fun h => absurd (mem_signs_of_mem_text h) (by decide)
  have hport : ' ' ∉ Nat.toDigits 10 port := fun h => absurd (mem_digits h) (by decide)
  cases k with
  | four => simp [toList_endpoint_four, htext, hport]
  | six => simp [toList_endpoint_six, htext, hport]

theorem bracket_not_mem_endpoint : '[' ∉ (four.endpoint address port).toList := by
  rw [toList_endpoint_four, List.mem_append, List.mem_cons]
  rintro (h | h | h)
  · exact absurd (Address.mem_version4 h) (by decide)
  · exact absurd h (by decide)
  · exact absurd (mem_digits h) (by decide)

/-- **The ends of streams are known by their texts.** -/
theorem endpoint_inj (hlength : address.length = k.addressLength)
    (hlength' : address'.length = k'.addressLength)
    (h : (k.endpoint address port).toList = (k'.endpoint address' port').toList) :
    k = k' ∧ address = address' ∧ port = port' := by
  have hcolon : ∀ as, ':' ∉ (four.text as).toList := fun as h =>
    absurd (Address.mem_version4 h) (by decide)
  have hbracket : ∀ as, ']' ∉ (six.text as).toList := fun as h => absurd (mem_signs_of_mem_text h) (by decide)
  cases k with
  | four =>
    cases k' with
    | four =>
      rw [toList_endpoint_four, toList_endpoint_four] at h
      obtain ⟨htext, hport⟩ := Text.append_cons_inj (hcolon _) (hcolon _) h
      exact ⟨rfl, text_inj hlength hlength' htext, Text.toDigits_inj (by decide) (by decide) hport⟩
    | six =>
      have hmem : '[' ∈ (four.endpoint address port).toList := by
        rw [h, toList_endpoint_six]
        exact List.mem_cons_self
      exact absurd hmem bracket_not_mem_endpoint
  | six =>
    cases k' with
    | four =>
      have hmem : '[' ∈ (four.endpoint address' port').toList := by
        rw [← h, toList_endpoint_six]
        exact List.mem_cons_self
      exact absurd hmem bracket_not_mem_endpoint
    | six =>
      rw [toList_endpoint_six, toList_endpoint_six, List.cons_inj_right] at h
      obtain ⟨htext, hport⟩ := Text.append_cons_inj (hbracket _) (hbracket _) h
      rw [List.cons_inj_right] at hport
      exact ⟨rfl, text_inj hlength hlength' htext, Text.toDigits_inj (by decide) (by decide) hport⟩

end Version

/-! ### Streams -/

/-- Who sends to whom. -/
@[ext] structure Flow where
  /-- The version of the internet protocol. -/
  version : Version
  /-- The address of the sender. -/
  src : List UInt8
  /-- The port of the sender. -/
  srcPort : ℕ
  /-- The address of the receiver. -/
  dst : List UInt8
  /-- The port of the receiver. -/
  dstPort : ℕ
deriving DecidableEq

namespace Flow

/-- The other direction. -/
def reversed (f : Flow) : Flow := ⟨f.version, f.dst, f.dstPort, f.src, f.srcPort⟩

/-- The name of the stream. -/
def streamName (f : Flow) : String :=
  f.version.endpoint f.src f.srcPort ++ " -> " ++ f.version.endpoint f.dst f.dstPort

/-- The layers of a packet and of the segment in it say so. -/
structure Shown (f : Flow) (packet segment : Layer) : Prop where
  /-- The version is that of the packet. -/
  version : packet.ns.primary? = some f.version.kind.name
  /-- The addresses have the length that they have there, -/
  srcLength : f.src.length = f.version.addressLength
  /-- both of them. -/
  dstLength : f.dst.length = f.version.addressLength
  /-- The packet names the sender -/
  src : packet.HasAddress "src" f.src (f.version.text f.src)
  /-- and the receiver, -/
  dst : packet.HasAddress "dst" f.dst (f.version.text f.dst)
  /-- and the segment their ports. -/
  srcPort : Segment.number? segment "src" = some f.srcPort
  /-- Both of them. -/
  dstPort : Segment.number? segment "dst" = some f.dstPort

variable {f f' : Flow} {packet packet' segment segment' : Layer}

theorem toList_streamName (f : Flow) : f.streamName.toList =
    (f.version.endpoint f.src f.srcPort).toList ++ ' ' :: '-' :: '>' :: ' ' ::
      (f.version.endpoint f.dst f.dstPort).toList := by
  simp [streamName]

/-- **A stream is known by its name.** -/
theorem streamName_inj (hf : f.Shown packet segment) (hf' : f'.Shown packet' segment')
    (h : f.streamName = f'.streamName) : f = f' := by
  have hlist := congrArg String.toList h
  rw [toList_streamName, toList_streamName] at hlist
  obtain ⟨hsender, hreceiver⟩ := Text.append_cons_inj (Version.space_not_mem_endpoint _ _ _)
    (Version.space_not_mem_endpoint _ _ _) hlist
  simp only [List.cons.injEq, true_and] at hreceiver
  obtain ⟨hversion, hsrc, hsrcPort⟩ := Version.endpoint_inj hf.srcLength hf'.srcLength hsender
  obtain ⟨-, hdst, hdstPort⟩ := Version.endpoint_inj hf.dstLength hf'.dstLength hreceiver
  exact Flow.ext hversion hsrc hsrcPort hdst hdstPort

end Flow

end Protocol

namespace Tcp

open Protocol

variable {parent : Layer}

theorem keeps_streamId_readFlags (v : ByteView) : Keeps Layer.streamId (readFlags v) :=
  .bind fun n => .pure fun l => by split <;> rfl

theorem keeps_streamId_checkedOptions (v : ByteView) :
    Keeps Layer.streamId (checked (checkLength v) (readOptions v)) :=
  .bind fun _ => .bind fun _ => .pure fun _ => rfl

theorem keeps_streamId_carry (v : ByteView) : Keeps Layer.streamId (carry v) :=
  .bind fun _ => .pure fun _ => rfl

theorem number?_of_port {v : ByteView} {a b port : ℕ} (h : word 2 v a b = .ok port)
    (hfound : l.property? id = some p) (hp : p.value = .ofNat port) :
    Segment.number? l id = some port := by
  have hlt : port < 2 ^ 64 := (word_lt h).trans (by decide)
  rw [Segment.number?, hfound, Option.bind_some, hp, Value.ofNat, Value.nat?, UInt64.toNat_ofNat',
    Nat.mod_eq_of_lt hlt]

/-- A stream is named as soon as the ports could be read. -/
theorem of_streamId_eq_some (h : (dissect parent).streamId = some name) :
    ∃ src dst : ℕ, name = streamName parent src dst ∧ Segment.number? (dissect parent) "src" = some src ∧
      Segment.number? (dissect parent) "dst" = some dst ∧ 0 < parent.payload.size := by
  let start : Layer := { ns := parent.ns.descend "tcp", payload := parent.payload.tail }
  let later : List Step := (headerSteps parent).drop 3 ++ [carry parent.payload]
  have hsteps : dissect parent = run (field (wordProperty "src" parent.payload 0 2) ::
      field (wordProperty "dst" parent.payload 2 4) :: nameStream parent :: later) start := dissect_eq parent
  have hkeeps : ∀ step ∈ later, Keeps Layer.streamId step := by
    simp [later, headerSteps, steps, keeps_streamId_readFlags, keeps_streamId_checkedOptions,
      keeps_streamId_carry]
  have hfields : ∀ step ∈ later, KeepsFields step :=
    keepsFields_of_grows (fun step hstep => grows_headerSteps parent step (List.mem_of_mem_drop hstep))
      (handsOn_carry parent.payload)
  rw [hsteps] at h ⊢
  cases hsrc : word 2 parent.payload 0 2 with
  | error e => simp [run, field, wordProperty, hsrc, Except.map, start] at h
  | ok src =>
    cases hdst : word 2 parent.payload 2 4 with
    | error e => simp [run, field, wordProperty, hsrc, hdst, Except.map, start, Layer.push] at h
    | ok dst =>
      let named : Layer :=
        { start with
          summary := streamName parent src dst
          streamId := some (streamName parent src dst)
          properties := [{ id := "src", value := .ofNat src, range := ⟨0, 2⟩ },
            { id := "dst", value := .ofNat dst, range := ⟨2, 4⟩ }] }
      have hrun : run (field (wordProperty "src" parent.payload 0 2) ::
          field (wordProperty "dst" parent.payload 2 4) :: nameStream parent :: later) start =
          run later named := by
        simp only [run, field, wordProperty, nameStream, hsrc, hdst, Except.map, bind, Except.bind]
        rfl
      have hprefix := properties_prefix_run hfields named
      rw [hrun] at h ⊢
      rw [run_of_keeps (fun _ _ => rfl) hkeeps] at h
      have hsrcFound : (run later named).property? "src" = some _ :=
        Layer.property?_of_prefix hprefix rfl
      have hdstFound : (run later named).property? "dst" = some _ :=
        Layer.property?_of_prefix hprefix rfl
      exact ⟨src, dst, (Option.some.inj h).symm, number?_of_port hsrc hsrcFound rfl,
        number?_of_port hdst hdstFound rfl, Nat.lt_of_lt_of_le Nat.two_pos (word_fits hsrc).2⟩

theorem exists_flow (k : Version) (h : (dissect (k.kind.dissect parent)).streamId = some name) :
    ∃ f : Flow, f.version = k ∧ f.Shown (k.kind.dissect parent) (dissect (k.kind.dissect parent)) ∧
      name = f.streamName := by
  obtain ⟨srcPort, dstPort, hname, hsrcPort, hdstPort, hpos⟩ := of_streamId_eq_some h
  have herror : (k.kind.dissect parent).error = "" := by
    by_contra hbroken
    obtain ⟨hpayload, -⟩ := (k.kind.leftBy_dissect parent).broken hbroken
    rw [hpayload, size, start_tail, stop_tail, Nat.sub_self] at hpos
    exact Nat.lt_irrefl 0 hpos
  have hversion := k.primary?_dissect parent
  obtain ⟨⟨src, hsrc, hsrcLength⟩, dst, hdst, hdstLength⟩ := Version.hasAddress_dissect herror
  refine ⟨⟨k, src, srcPort, dst, dstPort⟩, rfl,
    ⟨hversion, hsrcLength, hdstLength, hsrc, hdst, hsrcPort, hdstPort⟩, ?_⟩
  rw [hname, streamName, Version.endpoint_eq hversion hsrc, Version.endpoint_eq hversion hdst]
  rfl

/-- **Streams are known by their names.** For any two segments that belong to streams, each in a packet of
some version: the streams have one name exactly if the versions, the addresses and the ports are the same
on both sides. So the directions of a connection differ unless both ends are the same, and streams of
different versions differ. The texts of addresses in the names are made by the rules for such texts. -/
theorem streamId_eq_iff (k k' : Version) (parent parent' : Layer) {id id' : String}
    (h : (dissect (k.kind.dissect parent)).streamId = some id)
    (h' : (dissect (k'.kind.dissect parent')).streamId = some id') :
    (∃ f f' : Flow,
      (f.version = k ∧ f.Shown (k.kind.dissect parent) (dissect (k.kind.dissect parent)) ∧
        id = f.streamName) ∧
      (f'.version = k' ∧ f'.Shown (k'.kind.dissect parent') (dissect (k'.kind.dissect parent')) ∧
        id' = f'.streamName) ∧
      (id = id' ↔ f = f') ∧
      (f' = f.reversed → id = id' → f.src = f.dst ∧ f.srcPort = f.dstPort) ∧
      (k ≠ k' → id ≠ id')) ∧
    ∀ address, Address.Shows address (Address.version6 address) := by
  obtain ⟨f, hversion, hf, rfl⟩ := exists_flow k h
  obtain ⟨f', hversion', hf', rfl⟩ := exists_flow k' h'
  have hiff : f.streamName = f'.streamName ↔ f = f' :=
    ⟨Flow.streamName_inj hf hf', congrArg Flow.streamName⟩
  refine ⟨⟨f, f', ⟨hversion, hf, rfl⟩, ⟨hversion', hf', rfl⟩, hiff, fun hreversed heq => ?_,
    fun hne heq => ?_⟩, Address.shows_version6⟩
  · have hsame : f = f.reversed := (hiff.mp heq).trans hreversed
    exact ⟨congrArg Flow.src hsame, congrArg Flow.srcPort hsame⟩
  · exact hne (hversion.symm.trans ((congrArg Flow.version (hiff.mp heq)).trans hversion'))

/-- A packet of version 4, and one of version 6 with the same addresses in it: the streams of their
segments have different names. -/
theorem streamId_eq_iff_mapped :
    let ports : List UInt8 := [0, 80, 4, 1]
    let four : Layer :=
      { ns := ⟨[.tentative "ipv4"]⟩
        payload := .ofBytes (.packet 1)
          ([0x45, 0, 0, 24, 0, 0, 0, 0, 64, 6, 0, 0, 10, 0, 0, 1, 10, 0, 0, 2] ++ ports) }
    let six : Layer :=
      { ns := ⟨[.tentative "ipv6"]⟩
        payload := .ofBytes (.packet 2)
          ([0x60, 0, 0, 0, 0, 4, 6, 64, 0, 0, 0, 0, 0, 0, 0, 0, 0, 0, 0xff, 0xff, 10, 0, 0, 1,
            0, 0, 0, 0, 0, 0, 0, 0, 0, 0, 0xff, 0xff, 10, 0, 0, 2] ++ ports) }
    let id := "10.0.0.1:80 -> 10.0.0.2:1025"
    let id' := "[::ffff:10.0.0.1]:80 -> [::ffff:10.0.0.2]:1025"
    (dissect (Ipv4.dissect four)).streamId = some id ∧ (dissect (Ipv6.dissect six)).streamId = some id' ∧
      id ≠ id' := by
  intro ports four six id id'
  have hfour : (dissect (Ipv4.dissect four)).streamId = some id := by decide
  have hsix : (dissect (Ipv6.dissect six)).streamId = some id' := by decide
  obtain ⟨⟨f, f', -, -, -, -, hne⟩, -⟩ := streamId_eq_iff .four .six four six hfour hsix
  exact ⟨hfour, hsix, hne (by decide)⟩

end Tcp

end PacketTree
