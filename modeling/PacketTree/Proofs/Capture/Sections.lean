import Mathlib.Data.List.Forall2
import PacketTree.Proofs.Capture.Blocks

/-!
# Reading a capture of sections and blocks

A capture of sections is read block by block, and its sections follow one another, each with a byte
order and with interfaces of its own. What a packet is given depends on the blocks before it in its
section and on nothing else, however interfaces, packets and other blocks are mixed.

## What is proved

* `reads_attributed`: if all blocks fit into the window, there is one packet for each that was written,
  in their order, with the link, the length and the time that were meant for it.
* `reads_padded`: the bytes of each packet are those that were written and those that fill them up, so
  they are only right if their number is a multiple of four.
* `yields_of_large`: a block that does not fit ends reading, behind all packets before it.

## The model

`WrittenSection` is what is written. `Captured` is a packet with the blocks before it in its section,
and `Attributed` says what it is given. The blocks before it decide what is known when it is read:
`Section.behind` is the state of the reader there.
-/

namespace PacketTree

/-! ### What is written -/

/-- A section as it is written. -/
structure WrittenSection where
  /-- The byte order. -/
  order : ByteOrder
  /-- What its header tells besides. -/
  more : List UInt8
  /-- The blocks behind the header. -/
  blocks : List WrittenBlock

/-- A packet with the blocks before it in its section. -/
structure Captured where
  /-- The blocks before it. -/
  before : List WrittenBlock
  /-- The packet. -/
  packet : EnhancedPacket

namespace WrittenBlock

/-- The types of the links of the interfaces among some blocks. -/
def links (blocks : List WrittenBlock) : List UInt32 :=
  blocks.filterMap fun
    | interface link _ => some (.ofNat link.toNat)
    | _ => none

/-- The packet that a block is. -/
def captured? (before : List WrittenBlock) : WrittenBlock → Option Captured
  | packet p => some ⟨before, p⟩
  | _ => none

/-- The packets among blocks that follow others. -/
def captured (before : List WrittenBlock) : List WrittenBlock → List Captured
  | [] => []
  | b :: blocks => (b.captured? before).toList ++ captured (before ++ [b]) blocks

end WrittenBlock

namespace WrittenSection

/-- Its header as it is written. -/
def header (s : WrittenSection) : List UInt8 := s.order.sectionHeader s.more

/-- The section as it is written. -/
def bytes (s : WrittenSection) : List UInt8 := s.header ++ s.blocks.flatMap (·.bytes s.order)

/-- Its packets. -/
def captured (s : WrittenSection) : List Captured := WrittenBlock.captured [] s.blocks

/-- The section follows the format. -/
structure WellFormed (s : WrittenSection) : Prop where
  /-- The header tells a version and a length. -/
  more : 12 ≤ s.more.length
  /-- The length of the header has 32 bits. -/
  header_lt : s.header.length < UInt32.size
  /-- So do the blocks. -/
  blocks : ∀ b ∈ s.blocks, b.WellFormed s.order

/-- All blocks fit into the window. -/
structure Fits (s : WrittenSection) : Prop where
  /-- The header fits. -/
  header : s.header.length ≤ Window.capacity
  /-- The blocks behind it fit. -/
  blocks : ∀ b ∈ s.blocks, (b.bytes s.order).length ≤ Window.capacity

end WrittenSection

namespace Captured

/-- The type of the link of its interface, which is described before it in its section; that of
Ethernet if there is no such interface. -/
def link (c : Captured) : UInt32 := (WrittenBlock.links c.before)[c.packet.place.toNat]?.getD 1

/-- The packet as it is read. -/
def read (c : Captured) : Packet where
  timestamp := Section.timestamp c.packet.micros
  link := c.link
  wireLength := c.packet.wireLength.toNat
  data := c.packet.data ++ c.packet.padding

/-- A packet has the link, the length and the time that were meant for it. -/
structure Attributed (c : Captured) (packet : Packet) : Prop where
  /-- The link is that of its interface. -/
  link : packet.link = c.link
  /-- The length on the wire is its own. -/
  wireLength : packet.wireLength = c.packet.wireLength.toNat
  /-- The time is its own, if it is not beyond the calendar. -/
  timestamp : (c.packet.micros : ℤ) * 1000 ≤ Instant.latest.nanos →
    packet.timestamp = ⟨c.packet.micros * 1000⟩

/-- The bytes of a packet are followed by those that fill them up. -/
structure Padded (c : Captured) (packet : Packet) : Prop where
  /-- The padding is kept. -/
  data : packet.data = c.packet.data ++ c.packet.padding
  /-- The bytes are right if their number is a multiple of four, and only then. -/
  data_eq_iff : packet.data = c.packet.data ↔ 4 ∣ c.packet.data.length

end Captured

/-- What is known of a section behind some of its blocks. -/
def Section.behind (order : ByteOrder) (before : List WrittenBlock) : Section where
  order := order
  links := (WrittenBlock.links before).toArray

/-- What is known behind some sections is what is known of the last. -/
def WrittenSection.known (t : Section) (sections : List WrittenSection) : Section :=
  sections.foldl (fun _ s => .behind s.order s.blocks) t

variable {sections : List WrittenSection} {s : WrittenSection} {blocks before : List WrittenBlock}
  {order : ByteOrder} {b : WrittenBlock} {t : Section} {file : ByteView} {w : Window}
  {more : List UInt8}

/-! ### What a packet is given -/

namespace Captured

theorem attributed_read (c : Captured) : c.Attributed c.read where
  link := rfl
  wireLength := rfl
  timestamp h := if_pos h

theorem padded_read (c : Captured) : c.Padded c.read where
  data := rfl
  data_eq_iff := by
    have hlt := c.packet.fills.length_lt
    have hdvd := c.packet.fills.four_dvd
    simp only [read, List.append_right_eq_self, ← List.length_eq_zero_iff]
    omega

end Captured

theorem WrittenBlock.bytes_pos (b : WrittenBlock) (order : ByteOrder) :
    12 ≤ (b.bytes order).length := by
  rw [bytes, ByteOrder.length_block]
  exact Nat.le_add_left ..

theorem WrittenSection.header_pos (s : WrittenSection) : 12 ≤ s.header.length := by
  rw [header, ByteOrder.sectionHeader, ByteOrder.length_block]
  exact Nat.le_add_left ..

/-- A block changes what is known of its section as it is meant to. -/
theorem Section.take_used (order : ByteOrder) (before : List WrittenBlock) (b : WrittenBlock) :
    (behind order before).take b.used =
      (behind order (before ++ [b]), (b.captured? before).map Captured.read) := by
  cases b with
  | interface link more =>
    simp [take, behind, WrittenBlock.used, WrittenBlock.links, WrittenBlock.captured?]
  | packet p =>
    simp [take, behind, WrittenBlock.used, EnhancedPacket.used, WrittenBlock.links,
      WrittenBlock.captured?, Captured.read, Captured.link, linkOf]
  | other number content =>
    simp [take, behind, WrittenBlock.used, WrittenBlock.links, WrittenBlock.captured?]

/-! ### Reading on -/

namespace WrittenBlock

/-- A block is read with the packet that it is. -/
theorem step_of_block (before : List WrittenBlock) (hform : b.WellFormed order)
    (hfit : (b.bytes order).length ≤ Window.capacity) (hw : w.Ready)
    (hrest : w.rest.toList = b.bytes order ++ more) :
    ∃ w', (CaptureReader.pcapng (Section.behind order before) w).step =
        .ok (some (.pcapng (Section.behind order (before ++ [b])) w',
          (b.captured? before).map Captured.read)) ∧
      w'.Ready ∧ w'.rest.toList = more := by
  have hlong := b.bytes_pos order
  obtain ⟨w', hnext, hrest', hw'⟩ :=
    Window.next_of_scans hw hrest (scans hform) (by omega) hfit le_rfl
  refine ⟨w', ?_, hw', hrest'⟩
  have hnext' : w.next (Block.scan (Section.behind order before).order) = .found b.used w' := hnext
  simp only [CaptureReader.step, hnext', Section.take_used]

/-- The blocks of a section are read one after the other. -/
theorem passes_blocks (before : List WrittenBlock) (hform : ∀ b ∈ blocks, b.WellFormed order)
    (hfit : ∀ b ∈ blocks, (b.bytes order).length ≤ Window.capacity) (hw : w.Ready)
    (hrest : w.rest.toList = blocks.flatMap (·.bytes order) ++ more) :
    ∃ w', (CaptureReader.pcapng (Section.behind order before) w).Passes
        ((captured before blocks).map Captured.read)
        (.pcapng (Section.behind order (before ++ blocks)) w') ∧
      w'.Ready ∧ w'.rest.toList = more := by
  induction blocks generalizing before w with
  | nil =>
    rw [List.append_nil]
    exact ⟨w, .refl _, hw, hrest⟩
  | cons b blocks ih =>
    rw [List.flatMap_cons, List.append_assoc] at hrest
    obtain ⟨next, hstep, hnext, hrest'⟩ := step_of_block before
      (hform b (List.mem_cons_self ..)) (hfit b (List.mem_cons_self ..)) hw hrest
    obtain ⟨last, hpasses, hlast⟩ := ih (before ++ [b])
      (fun b hb => hform b (List.mem_cons_of_mem _ hb))
      (fun b hb => hfit b (List.mem_cons_of_mem _ hb)) hnext hrest'
    rw [List.append_assoc, List.singleton_append] at hpasses
    refine ⟨last, ?_, hlast⟩
    rw [captured, List.map_append, ← Option.toList_map]
    exact .next hstep hpasses

end WrittenBlock

namespace WrittenSection

/-- A section is read from any section before it, and nothing of that one stays known. -/
theorem passes_section (hform : s.WellFormed) (hfit : s.Fits) (hw : w.Ready)
    (hrest : w.rest.toList = s.bytes ++ more) :
    ∃ w', (CaptureReader.pcapng t w).Passes (s.captured.map Captured.read)
        (.pcapng (Section.behind s.order s.blocks) w') ∧
      w'.Ready ∧ w'.rest.toList = more := by
  have hlong := s.header_pos
  rw [bytes, List.append_assoc] at hrest
  obtain ⟨next, hnext, hrest', hready⟩ := Window.next_of_scans hw hrest
    (Block.scans_sectionHeader t.order hform.more hform.header_lt) (by omega) hfit.header le_rfl
  obtain ⟨last, hpasses, hlast⟩ := WrittenBlock.passes_blocks [] hform.blocks hfit.blocks
    hready hrest'
  have hstep : (CaptureReader.pcapng t w).step =
      .ok (some (.pcapng (Section.behind s.order []) next, none)) := by
    simp only [CaptureReader.step, hnext]
    rfl
  exact ⟨last, .next hstep hpasses, hlast⟩

/-- Sections are read one after the other. -/
theorem passes_sections (hform : ∀ s ∈ sections, s.WellFormed) (hfit : ∀ s ∈ sections, s.Fits)
    (hw : w.Ready) (hrest : w.rest.toList = sections.flatMap bytes ++ more) :
    ∃ w', (CaptureReader.pcapng t w).Passes ((sections.flatMap captured).map Captured.read)
        (.pcapng (known t sections) w') ∧
      w'.Ready ∧ w'.rest.toList = more := by
  induction sections generalizing t w with
  | nil => exact ⟨w, .refl _, hw, hrest⟩
  | cons s sections ih =>
    rw [List.flatMap_cons, List.append_assoc] at hrest
    obtain ⟨next, hfirst, hnext, hrest'⟩ := passes_section (t := t)
      (hform s (List.mem_cons_self ..)) (hfit s (List.mem_cons_self ..)) hw hrest
    obtain ⟨last, hpasses, hlast⟩ := ih (fun s hs => hform s (List.mem_cons_of_mem _ hs))
      (fun s hs => hfit s (List.mem_cons_of_mem _ hs)) hnext hrest'
    refine ⟨last, ?_, hlast⟩
    rw [List.flatMap_cons, List.map_append]
    exact hfirst.trans hpasses

/-- A file that starts with a section header is open at its start. -/
theorem ofFile_header (hform : s.WellFormed) (hfit : s.Fits) (hfile : s.header <+: file.toList) :
    CaptureReader.ofFile file = .ok (.pcapng { order := s.order } (.ofView file)) := by
  have hmagic : CaptureReader.magic? file = .ok (ByteOrder.big.write 4 0x0a0d0d0a) :=
    CaptureReader.magic?_of_isPrefix
      ((Block.write_isPrefix_sectionHeader s.order .big s.more).trans hfile)
      (ByteOrder.length_write ..)
  have hformat : CaptureReader.isPcapng (ByteOrder.big.write 4 0x0a0d0d0a) = true := rfl
  obtain ⟨more, hmore⟩ := hfile
  have hsize := Window.size_of_toList (w := .ofView file) hmore.symm
  have hfits := hfit.header
  have hheld : s.header.length ≤ (Window.ofView file).held := by
    simp only [Window.ofView] at hsize ⊢
    omega
  have hfound := Window.found_of_le (w := .ofView file) hmore.symm
    (Block.scans_sectionStart hform.more hform.header_lt) hheld
  simp only [CaptureReader.ofFile, hmagic, bind, Except.bind, hformat, if_true,
    CaptureReader.openPcapng, hfound]
  rfl

/-- All sections of a file are read one after the other. -/
theorem ofFile_sections (hne : sections ≠ []) (hform : ∀ s ∈ sections, s.WellFormed)
    (hfit : ∀ s ∈ sections, s.Fits) (hfile : file.toList = sections.flatMap bytes ++ more) :
    ∃ r t w, CaptureReader.ofFile file = .ok r ∧
      r.Passes ((sections.flatMap captured).map Captured.read) (.pcapng (known t sections) w) ∧
      w.Ready ∧ w.rest.toList = more := by
  obtain ⟨s, rest, rfl⟩ := List.exists_cons_of_ne_nil hne
  have hheader : s.header <+: file.toList := by
    rw [hfile, List.flatMap_cons, bytes, List.append_assoc, List.append_assoc]
    exact List.prefix_append ..
  have hopen := ofFile_header (hform s (List.mem_cons_self ..)) (hfit s (List.mem_cons_self ..))
    hheader
  obtain ⟨w, hpasses, hw, hrest⟩ := passes_sections hform hfit (Window.ready_ofView file) hfile
  exact ⟨_, _, w, hopen, hpasses, hw, hrest⟩

/-- Behind the last block the file ends. -/
theorem gives_nothing (hw : w.Ready) (hrest : w.rest.toList = []) :
    (CaptureReader.pcapng t w).Gives [] none := by
  have hnext : w.next (Block.scan t.order) = .finished := by
    refine Window.next_of_nothing hw hrest fun v hv => ⟨4, by decide, ?_⟩
    simp [Block.scan, hv]
  exact .finished (by simp only [CaptureReader.step, hnext])

/-- Reading gives the packets of all sections. -/
theorem yields_captured (hne : sections ≠ []) (hform : ∀ s ∈ sections, s.WellFormed)
    (hfit : ∀ s ∈ sections, s.Fits) (hfile : file.toList = sections.flatMap bytes) :
    CaptureReader.Yields file ((sections.flatMap captured).map Captured.read) none := by
  rw [← List.append_nil (sections.flatMap bytes)] at hfile
  obtain ⟨r, t, w, hopen, hpasses, hw, hrest⟩ := ofFile_sections hne hform hfit hfile
  have hgives := hpasses.gives (gives_nothing hw hrest)
  rw [List.append_nil] at hgives
  exact hgives.yields hopen

/-! ### Sections of given blocks -/

/-- A section of given blocks behind a header of the least length. -/
def ofBlocks (order : ByteOrder) (blocks : List WrittenBlock) : WrittenSection where
  order := order
  more := List.replicate 12 0
  blocks := blocks

theorem wellFormed_ofBlocks (h : ∀ b ∈ blocks, b.WellFormed order) :
    (ofBlocks order blocks).WellFormed where
  more := by simp [ofBlocks]
  header_lt := by simp [ofBlocks, header, ByteOrder.sectionHeader, UInt32.size]
  blocks := h

theorem fits_ofBlocks (h : ∀ b ∈ blocks, (b.bytes order).length ≤ Window.capacity) :
    (ofBlocks order blocks).Fits where
  header := by simp [ofBlocks, header, ByteOrder.sectionHeader, Window.capacity]
  blocks := h

end WrittenSection

namespace WrittenBlock

theorem wellFormed_packet {p : EnhancedPacket}
    (h : ((packet p).bytes order).length < UInt32.size) : (packet p).WellFormed order where
  length_lt := h
  content := trivial

theorem length_packet (p : EnhancedPacket) (order : ByteOrder) :
    ((packet p).bytes order).length =
      32 + p.data.length + p.padding.length + p.options.length := by
  rw [bytes, ByteOrder.length_block, content, EnhancedPacket.length_content]
  omega

/-- An interface whose packets have no header of the link. -/
def bareInterface : WrittenBlock := interface 101 (List.replicate 6 0)

theorem wellFormed_bareInterface (order : ByteOrder) : bareInterface.WellFormed order where
  length_lt := by simp [bareInterface, bytes, content, UInt32.size]
  content := by simp [bareInterface]

theorem length_bareInterface (order : ByteOrder) : (bareInterface.bytes order).length = 20 := by
  simp [bareInterface, bytes, content]

/-- A packet of five bytes. -/
def fivePacket : EnhancedPacket where
  place := 0
  high := 0
  low := 1000000
  wireLength := 5
  data := [0x61, 0x66, 0x74, 0x65, 0x72]
  padding := [0, 0, 0]
  options := []
  fills := ⟨by decide, by decide⟩

theorem length_fivePacket (order : ByteOrder) : ((packet fivePacket).bytes order).length = 40 :=
  length_packet ..

theorem wellFormed_fivePacket (order : ByteOrder) : (packet fivePacket).WellFormed order :=
  wellFormed_packet (by rw [length_fivePacket]; decide)

end WrittenBlock

namespace WrittenSection

open WrittenBlock

theorem wellFormed_five : (ofBlocks .little [bareInterface, packet fivePacket]).WellFormed :=
  wellFormed_ofBlocks (by simp [wellFormed_bareInterface, wellFormed_fivePacket])

theorem fits_five : (ofBlocks .little [bareInterface, packet fivePacket]).Fits :=
  fits_ofBlocks (by simp [length_bareInterface, length_fivePacket, Window.capacity])

/-! ### Main results -/

/-- A block that does not fit into the window ends reading behind all packets before it. -/
theorem yields_of_large (sections : List WrittenSection) (s : WrittenSection)
    (hform : ∀ s' ∈ sections ++ [s], s'.WellFormed)
    (hfit : ∀ s' ∈ sections ++ [s], s'.Fits) (hb : b.WellFormed s.order)
    (hlarge : Window.capacity < (b.bytes s.order).length)
    (hfile : file.toList = (sections ++ [s]).flatMap bytes ++ (b.bytes s.order ++ more)) :
    CaptureReader.Yields file (((sections ++ [s]).flatMap captured).map Captured.read)
      (some (.format .pcapng false .tooLarge)) := by
  obtain ⟨r, t, w, hopen, hpasses, hw, hrest⟩ :=
    ofFile_sections (List.concat_ne_nil s sections) hform hfit hfile
  have horder : (known t (sections ++ [s])).order = s.order := by
    rw [known, List.foldl_concat]
    rfl
  have hnext : w.next (Block.scan s.order) = .failed .tooLarge :=
    Window.next_of_large hw hrest (WrittenBlock.scans hb) hlarge
  have hstep : (CaptureReader.pcapng (known t (sections ++ [s])) w).step =
      .error (.format .pcapng false .tooLarge) := by
    simp only [CaptureReader.step, horder, hnext]
  have hgives := hpasses.gives (.failed hstep)
  rw [List.append_nil] at hgives
  exact hgives.yields hopen

/-- **Packets are attributed to the right interface**: there is one for each that was written, in their
order, and each has the link of its interface in its section, its length and its time. -/
theorem reads_attributed (sections : List WrittenSection) (hne : sections ≠ [])
    (hform : ∀ s ∈ sections, s.WellFormed) (hfit : ∀ s ∈ sections, s.Fits)
    (hfile : file.toList = sections.flatMap bytes) :
    ∃ packets, CaptureReader.Yields file packets none ∧
      List.Forall₂ Captured.Attributed (sections.flatMap captured) packets := by
  refine ⟨_, yields_captured hne hform hfit hfile, ?_⟩
  rw [List.forall₂_map_right_iff, List.forall₂_same]
  exact fun c _ => c.attributed_read

/-- Packets of two sections, of which only the first describes its interface. -/
theorem reads_attributed_two :
    ∃ packets, CaptureReader.Yields
        (.ofBytes .nothing ([ofBlocks .little [bareInterface, packet fivePacket],
          ofBlocks .big [packet fivePacket]].flatMap bytes)) packets none ∧
      packets.map Packet.link = [101, 1] := by
  have hform : (ofBlocks .big [packet fivePacket]).WellFormed :=
    wellFormed_ofBlocks (List.forall_mem_singleton.mpr (wellFormed_fivePacket .big))
  have hfit : (ofBlocks .big [packet fivePacket]).Fits :=
    fits_ofBlocks (by simp [length_fivePacket, Window.capacity])
  obtain ⟨packets, hyields, hattributed⟩ := reads_attributed
    [ofBlocks .little [bareInterface, packet fivePacket], ofBlocks .big [packet fivePacket]]
    (List.cons_ne_nil _ _)
    (List.forall_mem_cons.mpr ⟨wellFormed_five, List.forall_mem_singleton.mpr hform⟩)
    (List.forall_mem_cons.mpr ⟨fits_five, List.forall_mem_singleton.mpr hfit⟩)
    (ByteView.toList_ofBytes ..)
  refine ⟨packets, hyields, ?_⟩
  have hlinks : List.Forall₂ Captured.Attributed
      [⟨[bareInterface], fivePacket⟩, ⟨[], fivePacket⟩] packets := hattributed
  cases hlinks with
  | cons hone hmore =>
    cases hmore with
    | cons htwo hnil =>
      cases hnil
      simp only [List.map_cons, List.map_nil, hone.link, htwo.link]
      rfl

/-- A packet for which the window is too small is not read. -/
theorem not_reads_attributed :
    ¬∀ (sections : List WrittenSection) (file : ByteView), sections ≠ [] →
      (∀ s ∈ sections, s.WellFormed) → file.toList = sections.flatMap bytes →
      ∃ packets, CaptureReader.Yields file packets none ∧
        List.Forall₂ Captured.Attributed (sections.flatMap captured) packets := by
  intro hall
  have hlength : (List.replicate 65600 (0x44 : UInt8)).length = 65600 := List.length_replicate
  generalize List.replicate 65600 (0x44 : UInt8) = data at hlength
  let p : EnhancedPacket := ⟨0, 0, 1, 65600, data, [], [], ⟨by decide, by rw [hlength]; decide⟩⟩
  have hsize : ((packet p).bytes .little).length = 65632 := by
    rw [length_packet, hlength]
    rfl
  have hpacket : (packet p).WellFormed .little := wellFormed_packet (by rw [hsize]; decide)
  have hlarge : Window.capacity < ((packet p).bytes .little).length := by
    rw [hsize]
    decide
  have hinterface := wellFormed_bareInterface .little
  have hform : ∀ s ∈ [ofBlocks .little [bareInterface, packet p]], s.WellFormed :=
    List.forall_mem_singleton.mpr (wellFormed_ofBlocks
      (List.forall_mem_cons.mpr ⟨hinterface, List.forall_mem_singleton.mpr hpacket⟩))
  have hform' : ∀ s ∈ [ofBlocks .little [bareInterface]], s.WellFormed :=
    List.forall_mem_singleton.mpr (wellFormed_ofBlocks (List.forall_mem_singleton.mpr hinterface))
  have hfit : ∀ s ∈ [ofBlocks .little [bareInterface]], s.Fits :=
    List.forall_mem_singleton.mpr (fits_ofBlocks
      (List.forall_mem_singleton.mpr (by rw [length_bareInterface]; decide)))
  have hfile := ByteView.toList_ofBytes .nothing
    ([ofBlocks .little [bareInterface, packet p]].flatMap bytes)
  have hfile' : (ByteView.ofBytes .nothing
      ([ofBlocks .little [bareInterface, packet p]].flatMap bytes)).toList =
      ([] ++ [ofBlocks .little [bareInterface]]).flatMap bytes ++
        ((packet p).bytes .little ++ []) := by
    rw [hfile]
    simp [ofBlocks, bytes, header]
  obtain ⟨packets, hread, -⟩ := hall _ _ (List.cons_ne_nil _ _) hform hfile
  have hrefused := yields_of_large [] _ hform' hfit hpacket hlarge hfile'
  have hends := (hread.unique hrefused).2
  cases hends

/-- **The bytes of a packet are followed by those that fill them up**: they are right exactly if their
number is a multiple of four. -/
theorem reads_padded (sections : List WrittenSection) (hne : sections ≠ [])
    (hform : ∀ s ∈ sections, s.WellFormed) (hfit : ∀ s ∈ sections, s.Fits)
    (hfile : file.toList = sections.flatMap bytes) :
    ∃ packets, CaptureReader.Yields file packets none ∧
      List.Forall₂ Captured.Padded (sections.flatMap captured) packets := by
  refine ⟨_, yields_captured hne hform hfit hfile, ?_⟩
  rw [List.forall₂_map_right_iff, List.forall₂_same]
  exact fun c _ => c.padded_read

/-- A packet of five bytes is read with the three that fill it up. -/
theorem reads_padded_five :
    ∃ packets, CaptureReader.Yields
        (.ofBytes .nothing ([ofBlocks .little [bareInterface, packet fivePacket]].flatMap bytes))
        packets none ∧
      packets.map Packet.data = [[0x61, 0x66, 0x74, 0x65, 0x72, 0, 0, 0]] := by
  obtain ⟨packets, hyields, hpadded⟩ := reads_padded
    [ofBlocks .little [bareInterface, packet fivePacket]] (List.cons_ne_nil _ _)
    (List.forall_mem_singleton.mpr wellFormed_five)
    (List.forall_mem_singleton.mpr fits_five) (ByteView.toList_ofBytes ..)
  refine ⟨packets, hyields, ?_⟩
  have hdata : List.Forall₂ Captured.Padded [⟨[bareInterface], fivePacket⟩] packets := hpadded
  cases hdata with
  | cons hone hnil =>
    cases hnil
    simp only [List.map_cons, List.map_nil, hone.data]
    rfl

/-- A packet of five bytes is not read as it was written. -/
theorem not_reads_exactly :
    ¬∀ (sections : List WrittenSection) (file : ByteView), sections ≠ [] →
      (∀ s ∈ sections, s.WellFormed) → (∀ s ∈ sections, s.Fits) →
      file.toList = sections.flatMap bytes →
      ∃ packets, CaptureReader.Yields file packets none ∧
        List.Forall₂ (fun c packet => packet.data = c.packet.data)
          (sections.flatMap captured) packets := by
  intro hall
  have hne : [ofBlocks .little [bareInterface, packet fivePacket]] ≠ [] := List.cons_ne_nil _ _
  have hform := List.forall_mem_singleton.mpr wellFormed_five
  have hfit := List.forall_mem_singleton.mpr fits_five
  have hfile := ByteView.toList_ofBytes .nothing
    ([ofBlocks .little [bareInterface, packet fivePacket]].flatMap bytes)
  obtain ⟨packets, hread, hdata⟩ := hall _ _ hne hform hfit hfile
  obtain rfl := (hread.unique (yields_captured hne hform hfit hfile)).1
  rw [List.forall₂_map_right_iff, List.forall₂_same] at hdata
  have hfive := hdata ⟨[bareInterface], fivePacket⟩ (List.mem_singleton_self _)
  exact absurd hfive (by decide)

end WrittenSection

end PacketTree
