import PacketTree.Proofs.Header.Fields
import PacketTree.Protocol.Ethernet
import PacketTree.Protocol.Ipv4
import PacketTree.Protocol.Ipv6
import PacketTree.Protocol.Tcp
import PacketTree.Protocol.Udp

/-!
# Headers read back

For each built-in protocol: the fields of a header, the bytes that they are sent as, and the proof that
the dissector of the protocol reads these fields back from these bytes.

## What is proved

* `decodes_dissect`, in the namespace of each protocol: a header in front of a payload is read back, all
  fields and the payload, whatever the fields are and whatever stands behind the payload.

## The model

The fields are as wide as they are sent, so that every record of fields is a header that can be sent.
Fields that are determined by others, such as lengths, are not in the record. Options are bytes of any
content, up to the length that the field for it can tell.
-/

namespace PacketTree

open Header ByteView

/-- The bytes between header and padding are the payload. -/
theorem ByteView.toList_clamped_of_eq {v : ByteView} {header body rest : List UInt8} {a b : ℕ}
    (h : v.toList = header ++ (body ++ rest)) (ha : a = header.length)
    (hb : b = header.length + body.length) : (v.clamped a b).toList = body := by
  rw [toList_clamped, h, hb, List.take_length_add_append, ha, List.drop_left, List.take_left]

/-- The bytes behind a header are the payload if there is no padding. -/
theorem ByteView.toList_clamped_size {v : ByteView} {header body : List UInt8} {a : ℕ}
    (h : v.toList = header ++ body) (ha : a = header.length) :
    (v.clamped a v.size).toList = body := by
  have hrest : v.toList = header ++ (body ++ []) := by rw [h, List.append_nil]
  have hsize : v.size = header.length + body.length := by rw [← length_toList, h, List.length_append]
  exact toList_clamped_of_eq hrest ha hsize

/-! ### Ethernet -/

namespace Ethernet

/-- Who sends to whom. -/
structure Fields where
  /-- The receiver. -/
  dst : Vector UInt8 6
  /-- The sender. -/
  src : Vector UInt8 6

namespace Fields

/-- The header before a payload of some protocol. -/
def header (h : Fields) (etherType : ℕ) : List UInt8 :=
  h.dst.toList ++ (h.src.toList ++ bigEndian 2 etherType)

/-- What the properties of the header say. -/
def readings (h : Fields) (etherType : ℕ) : List Reading :=
  [⟨"dst", none, h.dst.toList⟩, ⟨"src", none, h.src.toList⟩, ⟨"ethType", etherType, none⟩]

@[simp] theorem length_header (h : Fields) (etherType : ℕ) : (h.header etherType).length = 14 := by
  simp [header]

end Fields

variable {etherType : ℕ} {p : Protocol.Announced} {v : ByteView} {parent : Layer} {body : List UInt8}

theorem reads_steps (h : Fields) (hp : Protocol.etherType? etherType = some p)
    (hlarge : maxLengthField < etherType) (hsmall : etherType < 2 ^ 16)
    (hv : v.Holds 0 (h.header etherType)) :
    Reads (h.readings etherType) (·.announce p.token) (v.clamped headerLength v.size) (steps v) := by
  simp only [Fields.header, holds_append, Vector.length_toList, Nat.zero_add, Nat.reduceAdd] at hv
  obtain ⟨hdst, hsrc, htype⟩ := hv
  let property : Property :=
    { id := "ethType", value := .ofNat etherType, range := ⟨12, 14⟩, summary := p.name }
  have hreading : property.reading = ⟨"ethType", etherType, none⟩ :=
    Property.reading_ofNat rfl rfl (by omega)
  refine .field (adds_addressProperty hdst (by simp) (by simp) _) <|
    .field (adds_addressProperty hsrc (by simp) (by simp) _) <|
    .skip (adds_words (bytes_of_holds hdst (by simp) (by simp))
      (bytes_of_holds hsrc (by simp) (by simp)) fun l => ⟨_, _, rfl⟩) <|
    reads_last fun l => ⟨_, ?_, extends_push l hreading nofun⟩
  simp only [readType, word_of_holds htype (by simp) hsmall rfl, bind, Except.bind, hp,
    if_neg (Nat.not_le_of_lt hlarge)]
  rfl

/-- **A frame is read back.** -/
theorem decodes_dissect (h : Fields) (hp : Protocol.etherType? etherType = some p)
    (hlarge : maxLengthField < etherType) (hsmall : etherType < 2 ^ 16)
    (hv : parent.payload.toList = h.header etherType ++ body) :
    Decodes parent ((parent.ns.descend "eth").announce p.token) (h.readings etherType) body
      (dissect parent) := by
  refine (reads_steps h hp hlarge hsmall (holds_of_eq_append hv)).decodes ?_ (within_clamped _ _ _)
  exact toList_clamped_size hv (by simp [headerLength])

end Ethernet

/-! ### Internet protocol, version 4 -/

namespace Ipv4

/-- The fields of a header. -/
structure Fields where
  /-- The version. -/
  version : BitVec 4
  /-- The type of service. -/
  type : BitVec 8
  /-- The number of the packet that a fragment belongs to. -/
  id : BitVec 16
  /-- The flags. -/
  flags : BitVec 3
  /-- The place of the fragment. -/
  fragment : BitVec 13
  /-- The number of hops left. -/
  ttl : BitVec 8
  /-- The checksum. -/
  checksum : BitVec 16
  /-- The sender. -/
  src : Vector UInt8 4
  /-- The receiver. -/
  dst : Vector UInt8 4
  /-- The number of words that the options fill. -/
  optionWords : Fin 11
  /-- The options. -/
  options : Vector UInt8 (4 * optionWords)

namespace Fields

/-- The length of the header in words. -/
def words (h : Fields) : ℕ := 5 + h.optionWords

/-- The header before a payload of some protocol and length. -/
def header (h : Fields) (protocol length : ℕ) : List UInt8 :=
  bigEndian 1 (h.version.toNat * 16 + h.words) ++ (bigEndian 1 h.type.toNat ++
    (bigEndian 2 (4 * h.words + length) ++ (bigEndian 2 h.id.toNat ++
    (bigEndian 2 (h.flags.toNat * 0x2000 + h.fragment.toNat) ++ (bigEndian 1 h.ttl.toNat ++
    (bigEndian 1 protocol ++ (bigEndian 2 h.checksum.toNat ++ (h.src.toList ++ (h.dst.toList ++
    h.options.toList)))))))))

/-- What the properties of the header say. -/
def readings (h : Fields) (protocol length : ℕ) : List Reading :=
  [⟨"version", h.version.toNat, none⟩, ⟨"hLen", h.words, none⟩, ⟨"type", h.type.toNat, none⟩,
   ⟨"tLen", some (4 * h.words + length), none⟩, ⟨"id", h.id.toNat, none⟩,
   ⟨"flags", h.flags.toNat, none⟩, ⟨"fOffset", h.fragment.toNat, none⟩, ⟨"ttl", h.ttl.toNat, none⟩,
   ⟨"protocol", protocol, none⟩, ⟨"checksum", h.checksum.toNat, none⟩, ⟨"src", none, h.src.toList⟩,
   ⟨"dst", none, h.dst.toList⟩]

@[simp] theorem length_header (h : Fields) (protocol length : ℕ) :
    (h.header protocol length).length = 4 * h.words := by
  simp [header, words]
  omega

end Fields

variable {protocol length : ℕ} {p : Protocol.Announced} {v : ByteView} {parent : Layer}
  {body rest : List UInt8}

theorem reads_steps (h : Fields) (hp : Protocol.internet? protocol = some p)
    (hprotocol : protocol < 2 ^ 8) (hfits : 4 * h.words + length < 2 ^ 16)
    (hv : v.Holds 0 (h.header protocol length)) :
    Reads (h.readings protocol length) (·.announce p.token)
      (v.clamped (h.words * 4) (4 * h.words + length)) (steps v) := by
  have hsize : h.words * 4 ≤ v.size := by
    have := hv.le_size (by simp [Fields.words])
    rw [Fields.length_header] at this
    omega
  simp only [Fields.header, holds_append, Vector.length_toList, length_bigEndian, Nat.zero_add,
    Nat.reduceAdd] at hv
  obtain ⟨hfirst, htype, htotal, hid, hfragment, httl, hproto, hchecksum, hsrc, hdst, -⟩ := hv
  have hversion := h.version.isLt
  have hflags := h.flags.isLt
  have hoffset := h.fragment.isLt
  have hwords : h.words < 16 := by
    have := h.optionWords.isLt
    simp only [Fields.words]
    omega
  have hfive : 5 ≤ h.words := Nat.le_add_right _ _
  have hfirstlt : h.version.toNat * 16 + h.words < 256 := by omega
  have hfragmentlt : h.flags.toNat * 0x2000 + h.fragment.toNat < 2 ^ 16 := by omega
  obtain ⟨x, hx, hxn⟩ := byte_of_holds hfirst hfirstlt
  obtain ⟨y, hy, hyn⟩ := byte_of_holds hproto hprotocol
  have hheader : headerWords v = .ok h.words := by
    rw [headerWords, hx, Except.map, hxn]
    exact congrArg Except.ok (by omega)
  have hword := word_of_holds hfragment (by simp) hfragmentlt (rfl : 8 = 6 + 2)
  refine .field (adds_byteProperty hfirst hfirstlt (k := h.version.toNat) (by omega) (by omega)) <|
    .field (adds_byteProperty hfirst hfirstlt (k := h.words) (by omega) (by omega)) <|
    .field (adds_byteProperty htype h.type.isLt rfl (by omega)) <|
    .field (adds_wordProperty htotal (by simp) (by simp) hfits rfl) <|
    .field (adds_wordProperty hid (by simp) (by simp) h.id.isLt rfl) <|
    .field (adds_map hword rfl (Property.reading_ofNat rfl (by omega) (by omega))) <|
    .field (adds_map hword rfl (Property.reading_ofNat rfl (by omega) (by omega))) <|
    .field (adds_byteProperty httl h.ttl.isLt rfl (by omega)) <|
    .field (adds_bind hy rfl (Property.reading_ofNat rfl hyn (by omega))) <|
    .field (adds_wordProperty hchecksum (by simp) (by simp) h.checksum.isLt rfl) <|
    .field (adds_addressProperty hsrc (by simp) (by simp) _) <|
    .field (adds_addressProperty hdst (by simp) (by simp) _) <|
    .skip (adds_words (bytes_of_holds hsrc (by simp) (by simp))
      (bytes_of_holds hdst (by simp) (by simp)) fun l => ⟨_, _, rfl⟩) <|
    .skip (adds_check ?_) <| reads_last fun l => ⟨l, ?_, .refl l⟩
  · have hleast : ¬h.words * 4 < minHeaderLength := Nat.not_lt.mpr (Nat.mul_le_mul_right 4 hfive)
    simp only [checkLength, hheader, bind, Except.bind, if_neg hleast, require,
      if_neg (Nat.not_lt.mpr hsize)]
  · simp only [carry, hheader, word_of_holds htotal (by simp) hfits rfl, hy, bind, Except.bind, hyn, hp]
    rfl

/-- **A packet of version 4 is read back.** -/
theorem decodes_dissect (h : Fields) (hp : Protocol.internet? protocol = some p)
    (hprotocol : protocol < 2 ^ 8) (hfits : 4 * h.words + body.length < 2 ^ 16)
    (hv : parent.payload.toList = h.header protocol body.length ++ (body ++ rest)) :
    Decodes parent ((parent.ns.descend "ipv4").announce p.token) (h.readings protocol body.length)
      body (dissect parent) := by
  refine (reads_steps h hp hprotocol hfits (holds_of_eq_append hv)).decodes ?_ (within_clamped _ _ _)
  exact toList_clamped_of_eq hv (by simp [Nat.mul_comm]) (by simp)

end Ipv4

/-! ### Internet protocol, version 6 -/

namespace Ipv6

/-- The fields of a header. -/
structure Fields where
  /-- The version. -/
  version : BitVec 4
  /-- The traffic class. -/
  trafficClass : BitVec 8
  /-- The flow label. -/
  flowLabel : BitVec 20
  /-- The number of hops left. -/
  hopLimit : BitVec 8
  /-- The sender. -/
  src : Vector UInt8 16
  /-- The receiver. -/
  dst : Vector UInt8 16

namespace Fields

/-- The first word, which holds three fields. -/
def firstWord (h : Fields) : ℕ :=
  h.version.toNat * 0x10000000 + h.trafficClass.toNat * 0x100000 + h.flowLabel.toNat

/-- The header before a payload of some protocol and length. -/
def header (h : Fields) (protocol length : ℕ) : List UInt8 :=
  bigEndian 4 h.firstWord ++ (bigEndian 2 length ++ (bigEndian 1 protocol ++
    (bigEndian 1 h.hopLimit.toNat ++ (h.src.toList ++ h.dst.toList))))

/-- What the properties of the header say. -/
def readings (h : Fields) (protocol length : ℕ) : List Reading :=
  [⟨"version", h.version.toNat, none⟩, ⟨"tClass", h.trafficClass.toNat, none⟩,
   ⟨"fLabel", h.flowLabel.toNat, none⟩, ⟨"pLen", length, none⟩, ⟨"nHeader", protocol, none⟩,
   ⟨"hLimit", h.hopLimit.toNat, none⟩, ⟨"src", none, h.src.toList⟩, ⟨"dst", none, h.dst.toList⟩]

@[simp] theorem length_header (h : Fields) (protocol length : ℕ) :
    (h.header protocol length).length = 40 := by
  simp [header]

end Fields

variable {protocol length : ℕ} {p : Protocol.Announced} {v : ByteView} {parent : Layer}
  {body rest : List UInt8}

theorem reads_steps (h : Fields) (hp : Protocol.internet? protocol = some p)
    (hprotocol : protocol < 2 ^ 8) (hfits : length < 2 ^ 16)
    (hv : v.Holds 0 (h.header protocol length)) :
    Reads (h.readings protocol length) (·.announce p.token)
      (v.clamped headerLength (headerLength + length)) (steps v) := by
  simp only [Fields.header, holds_append, Vector.length_toList, length_bigEndian, Nat.zero_add,
    Nat.reduceAdd] at hv
  obtain ⟨hfirst, hlength, hproto, hlimit, hsrc, hdst⟩ := hv
  have hversion := h.version.isLt
  have hclass := h.trafficClass.isLt
  have hlabel := h.flowLabel.isLt
  have hfirstlt : h.firstWord < 2 ^ 32 := by
    rw [Fields.firstWord]
    omega
  have hword := word_of_holds hfirst (by simp) hfirstlt (rfl : 4 = 0 + 4)
  obtain ⟨y, hy, hyn⟩ := byte_of_holds hproto hprotocol
  refine .field (adds_map hword rfl (Property.reading_ofNat rfl ?_ (by omega))) <|
    .field (adds_map hword rfl (Property.reading_ofNat rfl ?_ (by omega))) <|
    .field (adds_map hword rfl (Property.reading_ofNat rfl ?_ (by omega))) <|
    .field (adds_wordProperty hlength (by simp) (by simp) hfits rfl) <|
    .field (adds_bind hy rfl (Property.reading_ofNat rfl hyn (by omega))) <|
    .field (adds_byteProperty hlimit h.hopLimit.isLt rfl (by omega)) <|
    .field (adds_addressProperty hsrc (by simp) (by simp) _) <|
    .field (adds_addressProperty hdst (by simp) (by simp) _) <|
    .skip (adds_words (bytes_of_holds hsrc (by simp) (by simp))
      (bytes_of_holds hdst (by simp) (by simp)) fun l => ⟨_, _, rfl⟩) <|
    reads_last fun l => ⟨l, ?_, .refl l⟩
  case refine_4 =>
    simp only [carry, word_of_holds hlength (by simp) hfits rfl, hy, bind, Except.bind, hyn, hp]
    rfl
  all_goals
    dsimp only
    rw [Fields.firstWord]
    omega

/-- **A packet of version 6 is read back.** -/
theorem decodes_dissect (h : Fields) (hp : Protocol.internet? protocol = some p)
    (hprotocol : protocol < 2 ^ 8) (hfits : body.length < 2 ^ 16)
    (hv : parent.payload.toList = h.header protocol body.length ++ (body ++ rest)) :
    Decodes parent ((parent.ns.descend "ipv6").announce p.token) (h.readings protocol body.length)
      body (dissect parent) := by
  refine (reads_steps h hp hprotocol hfits (holds_of_eq_append hv)).decodes ?_ (within_clamped _ _ _)
  exact toList_clamped_of_eq hv (by simp [headerLength]) (by simp [headerLength])

end Ipv6

/-! ### TCP -/

namespace Tcp

/-- The fields of a header. -/
structure Fields where
  /-- The port of the sender. -/
  src : BitVec 16
  /-- The port of the receiver. -/
  dst : BitVec 16
  /-- The sequence number. -/
  seq : BitVec 32
  /-- The sequence number that the sender expects. -/
  ack : BitVec 32
  /-- Bits without a meaning. -/
  reserved : BitVec 3
  /-- The flags. -/
  flags : BitVec 9
  /-- The number of bytes that the sender takes. -/
  window : BitVec 16
  /-- The checksum. -/
  checksum : BitVec 16
  /-- The end of urgent data. -/
  urgent : BitVec 16
  /-- The number of words that the options fill. -/
  optionWords : Fin 11
  /-- The options. -/
  options : Vector UInt8 (4 * optionWords)

namespace Fields

/-- The length of the header in words. -/
def words (h : Fields) : ℕ := 5 + h.optionWords

/-- The header. -/
def header (h : Fields) : List UInt8 :=
  bigEndian 2 h.src.toNat ++ (bigEndian 2 h.dst.toNat ++ (bigEndian 4 h.seq.toNat ++
    (bigEndian 4 h.ack.toNat ++
    (bigEndian 2 (h.words * 0x1000 + h.reserved.toNat * 0x200 + h.flags.toNat) ++
    (bigEndian 2 h.window.toNat ++ (bigEndian 2 h.checksum.toNat ++ (bigEndian 2 h.urgent.toNat ++
    h.options.toList)))))))

/-- What the properties of the header say. That of the options says nothing itself. -/
def readings (h : Fields) : List Reading :=
  [⟨"src", h.src.toNat, none⟩, ⟨"dst", h.dst.toNat, none⟩, ⟨"seq", h.seq.toNat, none⟩,
   ⟨"ack", h.ack.toNat, none⟩, ⟨"dOffset", h.words, none⟩, ⟨"flags", h.flags.toNat, none⟩,
   ⟨"window", h.window.toNat, none⟩, ⟨"checksum", h.checksum.toNat, none⟩,
   ⟨"urgent", h.urgent.toNat, none⟩, ⟨"options", none, none⟩]

@[simp] theorem length_header (h : Fields) : h.header.length = 4 * h.words := by
  simp [header, words]
  omega

end Fields

variable {parent : Layer} {body : List UInt8}

theorem adds_readFlags {v : ByteView} {n k : ℕ} (hword : word 2 v 12 14 = .ok n)
    (hk : n % 0x200 = k) : Adds [⟨"flags", k, none⟩] (readFlags v) := by
  intro l
  let p := flagProperty "flags" (n % 0x200) ⟨12, 14⟩ flagBits
  have hreading : p.reading = ⟨"flags", k, none⟩ := Property.reading_ofNat rfl hk (by omega)
  have hpush : ∀ m : Layer, Extends [⟨"flags", k, none⟩] m (m.push p) := fun m =>
    extends_push m hreading fun hne => absurd rfl hne
  simp only [readFlags, hword, bind, Except.bind]
  split
  · exact ⟨_, rfl, hpush l⟩
  · exact ⟨_, rfl, (extends_words l _ l.streamId).trans (hpush _)⟩

/-- Whatever the options are, what is wrong with them is said of their property. -/
theorem adds_readOptions {v : ByteView} {words : ℕ} (h : headerWords v = .ok words) :
    Adds [⟨"options", none, none⟩] (readOptions v) := by
  intro l
  simp only [readOptions, h, bind, Except.bind]
  exact ⟨_, rfl, extends_push l rfl fun _ => rfl⟩

theorem reads_steps (h : Fields) (hv : parent.payload.Holds 0 h.header) :
    Reads h.readings id (parent.payload.clamped (h.words * 4) parent.payload.size) (steps parent) := by
  have hsize : h.words * 4 ≤ parent.payload.size := by
    have := hv.le_size (by simp [Fields.words])
    rw [Fields.length_header] at this
    omega
  simp only [Fields.header, holds_append, length_bigEndian, Nat.zero_add, Nat.reduceAdd] at hv
  obtain ⟨hsrc, hdst, hseq, hack, hflags, hwindow, hchecksum, hurgent, -⟩ := hv
  have hreservedlt := h.reserved.isLt
  have hflagslt := h.flags.isLt
  have hwords : h.words < 16 := by
    have := h.optionWords.isLt
    simp only [Fields.words]
    omega
  have hword := word_of_holds hflags (by simp) (by omega) (rfl : 14 = 12 + 2)
  -- The first of the two bytes holds the length of the header alone in its upper half.
  have hbyte : parent.payload.Holds 12 (bigEndian 1
      ((h.words * 0x1000 + h.reserved.toNat * 0x200 + h.flags.toNat) / 256)) :=
    (holds_append.mp hflags).1
  obtain ⟨x, hx, hxn⟩ := byte_of_holds hbyte (by omega)
  have hheader : headerWords parent.payload = .ok h.words := by
    rw [headerWords, hx, Except.map, hxn]
    exact congrArg Except.ok (by omega)
  refine .field (adds_wordProperty hsrc (by simp) (by simp) h.src.isLt rfl) <|
    .field (adds_wordProperty hdst (by simp) (by simp) h.dst.isLt rfl) <|
    .skip (adds_words (word_of_holds hsrc (by simp) h.src.isLt rfl)
      (word_of_holds hdst (by simp) h.dst.isLt rfl) fun l => ⟨_, _, rfl⟩) <|
    .field (adds_wordProperty hseq (by simp) (by simp) h.seq.isLt rfl) <|
    .field (adds_wordProperty hack (by simp) (by simp) h.ack.isLt rfl) <|
    .field (adds_byteProperty hbyte (by omega) (k := h.words) (by omega) (by omega)) <|
    .field (adds_readFlags hword (by omega)) <|
    .field (adds_wordProperty hwindow (by simp) (by simp) h.window.isLt rfl) <|
    .field (adds_wordProperty hchecksum (by simp) (by simp) h.checksum.isLt rfl) <|
    .field (adds_wordProperty hurgent (by simp) (by simp) h.urgent.isLt rfl) <|
    .skip (adds_check ?_) <| .field (adds_readOptions hheader) <|
    reads_last fun l => ⟨l, ?_, .refl l⟩
  · have hleast : ¬h.words * 4 < minHeaderLength :=
      Nat.not_lt.mpr (Nat.mul_le_mul_right 4 (Nat.le_add_right 5 _))
    simp only [checkLength, hheader, bind, Except.bind, if_neg hleast, require,
      if_neg (Nat.not_lt.mpr hsize)]
  · simp only [carry, hheader, bind, Except.bind]
    rfl

/-- **A segment is read back.** -/
theorem decodes_dissect (h : Fields) (hv : parent.payload.toList = h.header ++ body) :
    Decodes parent (parent.ns.descend "tcp") h.readings body (dissect parent) := by
  refine (reads_steps h (holds_of_eq_append hv)).decodes ?_ (within_clamped _ _ _)
  exact toList_clamped_size hv (by simp [Nat.mul_comm])

end Tcp

/-! ### UDP -/

namespace Udp

/-- The fields of a header. -/
structure Fields where
  /-- The port of the sender. -/
  src : BitVec 16
  /-- The port of the receiver. -/
  dst : BitVec 16
  /-- The checksum. -/
  checksum : BitVec 16

namespace Fields

/-- The header before a payload of some length. -/
def header (h : Fields) (length : ℕ) : List UInt8 :=
  bigEndian 2 h.src.toNat ++ (bigEndian 2 h.dst.toNat ++ (bigEndian 2 (8 + length) ++
    bigEndian 2 h.checksum.toNat))

/-- What the properties of the header say. -/
def readings (h : Fields) (length : ℕ) : List Reading :=
  [⟨"src", h.src.toNat, none⟩, ⟨"dst", h.dst.toNat, none⟩, ⟨"length", some (8 + length), none⟩,
   ⟨"checksum", h.checksum.toNat, none⟩]

@[simp] theorem length_header (h : Fields) (length : ℕ) : (h.header length).length = 8 := by
  simp [header]

end Fields

variable {length : ℕ} {v : ByteView} {parent : Layer} {body rest : List UInt8}

theorem reads_steps (h : Fields) (hfits : 8 + length < 2 ^ 16) (hv : v.Holds 0 (h.header length)) :
    Reads (h.readings length) id (v.clamped headerLength (8 + length)) (steps v) := by
  simp only [Fields.header, holds_append, length_bigEndian, Nat.zero_add, Nat.reduceAdd] at hv
  obtain ⟨hsrc, hdst, hlength, hchecksum⟩ := hv
  refine .field (adds_wordProperty hsrc (by simp) (by simp) h.src.isLt rfl) <|
    .field (adds_wordProperty hdst (by simp) (by simp) h.dst.isLt rfl) <|
    .skip (adds_words (word_of_holds hsrc (by simp) h.src.isLt rfl)
      (word_of_holds hdst (by simp) h.dst.isLt rfl) fun l => ⟨_, _, rfl⟩) <|
    .field (adds_wordProperty hlength (by simp) (by simp) hfits rfl) <|
    .field (adds_wordProperty hchecksum (by simp) (by simp) h.checksum.isLt rfl) <|
    reads_last fun l => ⟨l, ?_, .refl l⟩
  have hleast : ¬8 + length < headerLength := Nat.not_lt.mpr (Nat.le_add_right 8 length)
  simp only [carry, word_of_holds hlength (by simp) hfits rfl, bind, Except.bind, if_neg hleast]
  rfl

/-- **A datagram is read back.** -/
theorem decodes_dissect (h : Fields) (hfits : 8 + body.length < 2 ^ 16)
    (hv : parent.payload.toList = h.header body.length ++ (body ++ rest)) :
    Decodes parent (parent.ns.descend "udp") (h.readings body.length) body (dissect parent) := by
  refine (reads_steps h hfits (holds_of_eq_append hv)).decodes ?_ (within_clamped _ _ _)
  exact toList_clamped_of_eq hv (by simp [headerLength]) (by simp)

end Udp

end PacketTree
