import PacketTree.Proofs.Capture.Reading

/-!
# Reading a classic capture that was written

A capture in the classic format is a header and a record for each packet. Whoever writes packets that
way gets them back by reading: all of them in their order, with their times, lengths and bytes, in
either byte order and with either resolution of time.

## What is proved

* `read_written`: reading inverts writing if each record, its head of 16 bytes included, is shorter
  than the window; of a file that ends inside a record the records before it are read, and then there
  is an error.
* `yields_of_full`: a first record that is as long as the window is refused, as the header takes up
  room in the window before it.

## The model

`ClassicHeader` and `ClassicRecord` hold what is written, and `bytes` how. All numbers have 32 bits, and
with them no time is beyond the calendar.
-/

namespace PacketTree

/-! ### What is written -/

/-- The header of a classic capture. -/
structure ClassicHeader where
  /-- The byte order. -/
  order : ByteOrder
  /-- Fractions of a second count nanoseconds; else they count microseconds. -/
  nanoseconds : Bool
  /-- The main number of the version. -/
  major : UInt16
  /-- The second number of the version. -/
  minor : UInt16
  /-- The offset of the local time. -/
  zone : UInt32
  /-- The accuracy of time. -/
  accuracy : UInt32
  /-- The number of bytes up to which packets are kept. -/
  snapLength : UInt32
  /-- The type of the link. -/
  link : UInt32

/-- The record of a packet. -/
structure ClassicRecord where
  /-- The seconds since the start of 1970. -/
  seconds : UInt32
  /-- The fraction of a second. -/
  fraction : UInt32
  /-- The length of the packet on the wire. -/
  wireLength : UInt32
  /-- The bytes that are kept. -/
  data : List UInt8
  /-- Their number has 32 bits. -/
  length_data : data.length < UInt32.size

namespace ClassicHeader

/-- The number by which a file tells its byte order and the resolution of time, as it is written. -/
def magic (order : ByteOrder) (nanoseconds : Bool) : List UInt8 :=
  order.write 4 (if nanoseconds then 0xa1b23c4d else 0xa1b2c3d4)

/-- The header as it is written. -/
def bytes (c : ClassicHeader) : List UInt8 :=
  magic c.order c.nanoseconds ++ (c.order.write 2 c.major.toNat ++ (c.order.write 2 c.minor.toNat ++
    c.order.words [c.zone, c.accuracy, c.snapLength, c.link]))

/-- What is used of the header. -/
def used (c : ClassicHeader) : PcapHeader where
  order := c.order
  nanoseconds := c.nanoseconds
  recordHead := 16
  link := c.link

end ClassicHeader

namespace ClassicRecord

/-- The head of the record as it is written. -/
def head (r : ClassicRecord) (order : ByteOrder) : List UInt8 :=
  order.words [r.seconds, r.fraction, .ofNat r.data.length, r.wireLength]

/-- The record as it is written. -/
def bytes (r : ClassicRecord) (order : ByteOrder) : List UInt8 := r.head order ++ r.data

/-- The packet of the record. -/
def packet (r : ClassicRecord) (c : ClassicHeader) : Packet where
  timestamp := ⟨r.seconds.toNat * 10 ^ 9 + r.fraction.toNat * if c.nanoseconds then 1 else 1000⟩
  link := c.link
  wireLength := r.wireLength.toNat
  data := r.data

end ClassicRecord

variable {c : ClassicHeader} {r : ClassicRecord} {records : List ClassicRecord} {v file : ByteView}
  {w : Window} {more part : List UInt8}

/-! ### The header -/

namespace ClassicHeader

@[simp] theorem length_magic (order : ByteOrder) (nanoseconds : Bool) :
    (magic order nanoseconds).length = 4 :=
  order.length_write ..

@[simp] theorem length_bytes (c : ClassicHeader) : c.bytes.length = PcapHeader.size := by
  simp [bytes, PcapHeader.size]

/-- The first number tells the variant of the format. -/
theorem lookup_magic (order : ByteOrder) (nanoseconds : Bool) :
    PcapHeader.variants.lookup (ByteOrder.little.number (magic order nanoseconds)) =
      some (order, nanoseconds, 16) := by
  cases order <;> cases nanoseconds <;> decide

theorem isPcapng_magic (order : ByteOrder) (nanoseconds : Bool) :
    CaptureReader.isPcapng (magic order nanoseconds) = false := by
  cases order <;> cases nanoseconds <;> decide

/-- The header is read as it was written. -/
theorem read_bytes (h : v.toList = c.bytes ++ more) : PcapHeader.read v = .ok c.used := by
  have hholds : v.Holds 0 c.bytes := ByteView.holds_of_eq_append h
  have hsize : PcapHeader.size ≤ v.size := by
    rw [← ByteView.length_toList, h, List.length_append, length_bytes]
    exact Nat.le_add_right ..
  have hends : PcapHeader.fieldEnds.find? (v.size < ·) = none := by
    rw [List.find?_eq_none]
    simp only [PcapHeader.fieldEnds, PcapHeader.size] at hsize ⊢
    simp
    omega
  simp only [bytes, ByteView.holds_append, length_magic, ByteOrder.length_write] at hholds
  obtain ⟨hmagic, -, -, hwords⟩ := hholds
  have hfirst : v.number .little 0 4 = ByteOrder.little.number (magic c.order c.nanoseconds) := by
    have := ByteView.toList_clamped_of_holds hmagic
    rw [length_magic] at this
    rw [ByteView.number, this]
  have hlink : v.number c.order 20 4 = c.link.toNat :=
    ByteView.number_of_holds_words hwords (i := 3) (by simp) rfl
  simp only [PcapHeader.read, hfirst, lookup_magic, hends, hlink, UInt32.ofNat_toNat, used]

/-- A file with the header is open behind it. -/
theorem ofFile_bytes (h : file.toList = c.bytes ++ more) :
    ∃ w, CaptureReader.ofFile file = .ok (.pcap c.used w) ∧ w.Ready ∧ w.rest.toList = more ∧
      w.held = min Window.capacity file.size - PcapHeader.size := by
  have hsize : file.size = PcapHeader.size + more.length := by
    rw [← ByteView.length_toList, h, List.length_append, length_bytes]
  have hheld : PcapHeader.size ≤ (Window.ofView file).held := by
    simp only [Window.ofView, Window.capacity, PcapHeader.size] at hsize ⊢
    omega
  have hview : (Window.ofView file).view.toList =
      c.bytes ++ more.take ((Window.ofView file).held - PcapHeader.size) := by
    rw [Window.toList_view, Window.ofView, h, List.take_append, length_bytes,
      List.take_of_length_le (length_bytes c ▸ hheld)]
  have hmagic : CaptureReader.magic? file = .ok (magic c.order c.nanoseconds) :=
    CaptureReader.magic?_of_isPrefix ⟨_, by rw [h, bytes, List.append_assoc]⟩ (length_magic ..)
  refine ⟨(Window.ofView file).advance PcapHeader.size, ?_, ?_, ?_, rfl⟩
  · simp only [CaptureReader.ofFile, hmagic, bind, Except.bind, isPcapng_magic,
      CaptureReader.openPcap, read_bytes hview]
    rfl
  · exact (Window.ready_ofView file).advance (by decide) hheld
  · rw [← length_bytes c, Window.toList_advance h]

end ClassicHeader

/-! ### One record -/

namespace ClassicRecord

@[simp] theorem length_head (r : ClassicRecord) (order : ByteOrder) : (r.head order).length = 16 := by
  simp [head]

theorem length_bytes (r : ClassicRecord) (order : ByteOrder) :
    (r.bytes order).length = 16 + r.data.length := by
  rw [bytes, List.length_append, length_head]

/-- No time of 32 bits is beyond the calendar. -/
theorem timestamp_eq (r : ClassicRecord) (c : ClassicHeader) :
    PcapHeader.timestamp c.nanoseconds r.seconds.toNat r.fraction.toNat = (r.packet c).timestamp := by
  have hseconds := r.seconds.toNat_lt
  have hfraction := r.fraction.toNat_lt
  have hrange : ∀ b : Bool, (Instant.ofSeconds r.seconds.toNat
      (if b then r.fraction.toNat else r.fraction.toNat * 1000)).nanos ≤ Instant.latest.nanos := by
    intro b
    cases b <;> simp [Instant.ofSeconds, Instant.latest, Instant.nanosPerSecond] <;> omega
  rw [PcapHeader.timestamp, if_pos (hrange _), packet]
  cases c.nanoseconds <;> simp [Instant.ofSeconds, Instant.nanosPerSecond]

/-- The numbers that stand in the head of a record. -/
theorem numbers_of_holds_head {order : ByteOrder} (h : v.Holds 0 (r.head order)) :
    v.number order 0 4 = r.seconds.toNat ∧ v.number order 4 4 = r.fraction.toNat ∧
      v.number order 8 4 = r.data.length ∧ v.number order 12 4 = r.wireLength.toNat := by
  have hlength := ByteView.number_of_holds_words h (i := 2) (by simp) rfl
  rw [List.getElem_cons_succ, List.getElem_cons_succ, List.getElem_cons_zero, UInt32.toNat_ofNat',
    Nat.mod_eq_of_lt r.length_data] at hlength
  exact ⟨ByteView.number_of_holds_words h (i := 0) (by simp) rfl,
    ByteView.number_of_holds_words h (i := 1) (by simp) rfl, hlength,
    ByteView.number_of_holds_words h (i := 3) (by simp) rfl⟩

/-- A record is found where it stands. -/
theorem scan_of_holds (h : v.Holds 0 (r.bytes c.order)) :
    c.used.scan v = .found (r.packet c) (r.bytes c.order).length := by
  have hsize := h.le_size (by rw [length_bytes]; omega)
  obtain ⟨hhead, hdata⟩ := ByteView.holds_append.mp h
  obtain ⟨hseconds, hfraction, hlength, hwire⟩ := numbers_of_holds_head hhead
  have hbytes := ByteView.toList_clamped_of_holds hdata
  rw [length_head, Nat.zero_add] at hbytes
  rw [length_bytes, Nat.zero_add] at hsize
  have hlong : ¬v.size < 16 := by omega
  simp only [PcapHeader.scan, ClassicHeader.used, Nat.reduceMul, hseconds, hfraction, hlength, hwire,
    hbytes, timestamp_eq, length_bytes, if_neg hlong, if_neg (Nat.not_lt.mpr hsize)]
  rfl

/-- In a view that ends inside a record the rest of its head is missing, or the rest of the record. -/
theorem scan_of_part (hpart : v.toList <+: r.bytes c.order) (hlt : v.size < (r.bytes c.order).length) :
    c.used.scan v = .short ((if v.size < 16 then 16 else (r.bytes c.order).length) - v.size) := by
  by_cases hshort : v.size < 16
  · simp only [PcapHeader.scan, ClassicHeader.used, hshort, if_true]
  · have hhead : v.Holds 0 (r.head c.order) :=
      ByteView.isPrefix_of_part hpart (List.prefix_append ..)
        (by rwa [length_head, ← Nat.not_lt])
    obtain ⟨-, -, hlength, -⟩ := numbers_of_holds_head hhead
    rw [length_bytes] at hlt ⊢
    simp only [PcapHeader.scan, ClassicHeader.used, Nat.reduceMul, hlength, if_neg hshort, if_pos hlt]

/-- Records shorter than the window are found in it. -/
theorem scans (r : ClassicRecord) (c : ClassicHeader) :
    Window.Scans (Window.capacity - 1) c.used.scan (r.bytes c.order) (r.packet c) where
  whole v h := scan_of_holds h
  cut v hpart hlt := by
    refine ⟨_, scan_of_part hpart hlt, fun hle _ => ?_⟩
    simp only [Window.capacity] at hle ⊢
    split <;> omega

end ClassicRecord

/-! ### All records -/

namespace ClassicHeader

/-- The records are read one after the other. -/
theorem passes_records (hfit : ∀ r ∈ records, 16 + r.data.length < Window.capacity) (hw : w.Ready)
    (hrest : w.rest.toList = records.flatMap (·.bytes c.order) ++ more) :
    ∃ w', (CaptureReader.pcap c.used w).Passes (records.map (·.packet c)) (.pcap c.used w') ∧
      w'.Ready ∧ w'.rest.toList = more := by
  induction records generalizing w with
  | nil => exact ⟨w, .refl _, hw, hrest⟩
  | cons r records ih =>
    rw [List.flatMap_cons, List.append_assoc] at hrest
    have hfirst := hfit r (List.mem_cons_self ..)
    have hlength := r.length_bytes c.order
    obtain ⟨next, hnext, hrest', hnext'⟩ := Window.next_of_scans hw hrest (r.scans c) (by omega)
      (by omega) (Nat.sub_le ..)
    obtain ⟨last, hpasses, hlast⟩ :=
      ih (fun r hr => hfit r (List.mem_cons_of_mem _ hr)) hnext' hrest'
    have hstep : (CaptureReader.pcap c.used w).step =
        .ok (some (.pcap c.used next, some (r.packet c))) := by
      simp only [CaptureReader.step, hnext]
    exact ⟨last, .next hstep hpasses, hlast⟩

/-- Behind the last record the file ends. -/
theorem gives_nothing (hw : w.Ready) (hrest : w.rest.toList = []) :
    (CaptureReader.pcap c.used w).Gives [] none := by
  have hnext : w.next c.used.scan = .finished := by
    refine Window.next_of_nothing hw hrest fun v hv => ⟨16, by decide, ?_⟩
    simp [PcapHeader.scan, used, hv]
  exact .finished (by simp only [CaptureReader.step, hnext])

/-- A part of a record ends reading with an error. -/
theorem gives_part (hw : w.Ready) (hrest : w.rest.toList = part)
    (hpart : r.bytes c.order = part ++ more) (hne : part ≠ []) (hmore : more ≠ []) :
    ∃ p, (CaptureReader.pcap c.used w).Gives [] (some (.format .pcap false p)) := by
  have hsize : w.rest.size = part.length := by rw [← hrest, ByteView.length_toList]
  have hlength : (r.bytes c.order).length = part.length + more.length := by
    rw [hpart, List.length_append]
  have hpos := List.length_pos_of_ne_nil hne
  have hpos' := List.length_pos_of_ne_nil hmore
  have hprefix : w.rest.toList <+: r.bytes c.order := hrest ▸ ⟨more, hpart.symm⟩
  obtain ⟨p, hnext⟩ := Window.next_of_cut hw (r.scans c) hprefix (by omega) (by omega)
  exact ⟨p, .failed (by simp only [CaptureReader.step, hnext])⟩

/-- **Reading inverts writing**, for all records that are shorter than the window; and where the file
ends inside a further record, of any length, there is an error behind them. -/
theorem read_written (c : ClassicHeader) (records : List ClassicRecord)
    (hfit : ∀ r ∈ records, 16 + r.data.length < Window.capacity) :
    (∀ file : ByteView, file.toList = c.bytes ++ records.flatMap (·.bytes c.order) →
      CaptureReader.Yields file (records.map (·.packet c)) none) ∧
    ∀ (file : ByteView) (r : ClassicRecord) (part more : List UInt8),
      r.bytes c.order = part ++ more → part ≠ [] → more ≠ [] →
      file.toList = c.bytes ++ records.flatMap (·.bytes c.order) ++ part →
      ∃ p, CaptureReader.Yields file (records.map (·.packet c)) (some (.format .pcap false p)) := by
  constructor
  · intro file hfile
    obtain ⟨w, hopen, hw, hrest, -⟩ := ofFile_bytes hfile
    rw [← List.append_nil (records.flatMap _)] at hrest
    obtain ⟨last, hpasses, hlast, hnothing⟩ := passes_records hfit hw hrest
    have hgives := hpasses.gives (gives_nothing hlast hnothing)
    rw [List.append_nil] at hgives
    exact hgives.yields hopen
  · intro file r part more hpart hne hmore hfile
    rw [List.append_assoc] at hfile
    obtain ⟨w, hopen, hw, hrest, -⟩ := ofFile_bytes hfile
    obtain ⟨last, hpasses, hlast, hpart'⟩ := passes_records hfit hw hrest
    obtain ⟨p, hends⟩ := gives_part hlast hpart' hpart hne hmore
    have hgives := hpasses.gives hends
    rw [List.append_nil] at hgives
    exact ⟨p, hgives.yields hopen⟩

/-- A capture of one packet, with times in nanoseconds and the highest byte first, is read; so is
the packet if the file ends inside another such record. -/
theorem read_written_of_one :
    CaptureReader.Yields
        (.ofBytes .nothing
          [0xa1, 0xb2, 0x3c, 0x4d, 0, 2, 0, 4, 0, 0, 0, 0, 0, 0, 0, 0, 0, 0, 255, 255, 0, 0, 0, 101,
            0, 0, 0, 1, 0, 0, 0, 2, 0, 0, 0, 3, 0, 0, 0, 60, 7, 8, 9])
        [⟨⟨1000000002⟩, 101, 60, [7, 8, 9]⟩] none ∧
      ∃ p, CaptureReader.Yields
        (.ofBytes .nothing
          [0xa1, 0xb2, 0x3c, 0x4d, 0, 2, 0, 4, 0, 0, 0, 0, 0, 0, 0, 0, 0, 0, 255, 255, 0, 0, 0, 101,
            0, 0, 0, 1, 0, 0, 0, 2, 0, 0, 0, 3, 0, 0, 0, 60, 7, 8, 9,
            0, 0, 0, 1, 0, 0, 0, 2, 0, 0, 0, 3, 0, 0, 0, 60, 7, 8])
        [⟨⟨1000000002⟩, 101, 60, [7, 8, 9]⟩] (some (.format .pcap false p)) := by
  let c : ClassicHeader := ⟨.big, true, 2, 4, 0, 0, 65535, 101⟩
  let r : ClassicRecord := ⟨1, 2, 60, [7, 8, 9], by decide⟩
  have hpackets : [r].map (·.packet c) = [⟨⟨1000000002⟩, 101, 60, [7, 8, 9]⟩] := by decide
  rw [← hpackets]
  have h := read_written c [r] (by simp [r, Window.capacity])
  exact ⟨h.1 _ (by rw [ByteView.toList_ofBytes]; decide +kernel),
    h.2 _ r ((r.bytes .big).take 18) [9] rfl (by decide) (by decide)
      (by rw [ByteView.toList_ofBytes]; decide +kernel)⟩

/-- A first record that would fill the window is refused: the header still takes up room in it when
the record is asked for. -/
theorem yields_of_full (hfile : file.toList = c.bytes ++ (r.bytes c.order ++ more))
    (hlarge : Window.capacity ≤ 16 + r.data.length) :
    CaptureReader.Yields file [] (some (.format .pcap false .tooLarge)) := by
  obtain ⟨w, hopen, hw, hrest, hheld⟩ := ofFile_bytes hfile
  have hlength := r.length_bytes c.order
  have hsize : file.size = PcapHeader.size + ((r.bytes c.order).length + more.length) := by
    rw [← ByteView.length_toList, hfile, List.length_append, List.length_append, length_bytes]
  have hroom : 16 ≤ w.held ∧ w.held < (r.bytes c.order).length := by
    simp only [PcapHeader.size, Window.capacity] at hsize hheld hlarge
    omega
  have hview : w.view.toList <+: r.bytes c.order := by
    rw [Window.toList_view, hrest, List.take_append_of_le_length hroom.2.le]
    exact List.take_prefix ..
  have hscan := ClassicRecord.scan_of_part hview
    (by rw [Window.size_view hw.held_le_size]; exact hroom.2)
  rw [Window.size_view hw.held_le_size, if_neg (Nat.not_lt.mpr hroom.1)] at hscan
  have hfull : Window.capacity ≤ w.held + ((r.bytes c.order).length - w.held) := by omega
  have hnext : w.next c.used.scan = .failed .tooLarge := by
    simp only [Window.next, hscan, if_pos hfull]
  exact CaptureReader.Gives.yields (.failed (by simp only [CaptureReader.step, hnext])) hopen

/-- A record that is exactly as long as the window is not read. -/
theorem not_read_written_of_le :
    ¬∀ (c : ClassicHeader) (records : List ClassicRecord),
      (∀ r ∈ records, 16 + r.data.length ≤ Window.capacity) →
      ∀ file : ByteView, file.toList = c.bytes ++ records.flatMap (·.bytes c.order) →
        CaptureReader.Yields file (records.map (·.packet c)) none := by
  intro hall
  have hlength : (List.replicate 65520 (0x5a : UInt8)).length = 65520 := List.length_replicate
  generalize List.replicate 65520 (0x5a : UInt8) = data at hlength
  let c : ClassicHeader := ⟨.little, false, 2, 4, 0, 0, 65535, 1⟩
  let r : ClassicRecord := ⟨1, 2, 65520, data, by rw [hlength]; decide⟩
  have hfull : 16 + r.data.length = Window.capacity := by rw [hlength]; rfl
  have hfile := ByteView.toList_ofBytes .nothing (c.bytes ++ (r.bytes c.order ++ []))
  have hread := hall c [r] (fun _ h => List.mem_singleton.mp h ▸ hfull.le) _ hfile
  have hrefused := yields_of_full hfile hfull.ge
  exact List.cons_ne_nil _ _ (hread.unique hrefused).1

end ClassicHeader

end PacketTree
