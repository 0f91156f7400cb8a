import PacketTree.Capture.File
import PacketTree.Proofs.Capture.Window

/-!
# Reading a capture to its end

A capture is read step by step, a record or a block in each. Every step uses up some bytes of the file,
so reading comes to an end, whatever is in the file: to the end of the file or to a problem.

## What is proved

* `gives_read`: what is read from a file is what the steps give one after the other, up to the last.
* `Gives.unique`: there is nothing else that they give.

## The model

`Gives` follows the steps of a reader: the packets that they bring, and what ends them; `Passes` follows
them up to a place on the way. `Yields` says of a file what it gives from its first byte on. `Sane` is
what the header of a file guarantees: no record is empty.
-/

namespace PacketTree

/-! ### No step is in vain -/

theorem ByteView.size_drop_eq (v : ByteView) (n : ℕ) : (v.drop n).size = v.size - n := by
  rw [← length_toList, toList_drop, List.length_drop, length_toList]

/-- What is found is found in the part of the file that is in view. -/
theorem Window.exists_of_next {α : Type} {scan : ByteView → Scan α} {x : α} {w next : Window}
    (h : w.next scan = .found x next) :
    ∃ v size, scan v = .found x size ∧ v.size ≤ w.rest.size ∧ next.rest = w.rest.drop size := by
  have hview : ∀ u : Window, u.view.size ≤ u.rest.size := by
    intro u
    rw [← ByteView.length_toList, toList_view, List.length_take, ByteView.length_toList]
    exact Nat.min_le_right ..
  unfold Window.next at h
  split at h
  · next y size hscan =>
    cases h
    exact ⟨_, _, hscan, hview w, rfl⟩
  · cases h
  · split at h
    · cases h
    · unfold last at h
      split at h
      · next y size hscan =>
        cases h
        exact ⟨_, _, hscan, hview w.fill, rfl⟩
      · cases h
      · split at h
        · cases h
        · split at h <;> cases h

/-- What is read is one of the variants of the format. -/
theorem PcapHeader.mem_variants_of_read {v : ByteView} {h : PcapHeader} (hread : read v = .ok h) :
    (v.number .little 0 4, h.order, h.nanoseconds, h.recordHead) ∈ variants := by
  unfold read at hread
  split at hread
  · cases hread
  · next order nanoseconds recordHead hlookup =>
    split at hread
    · cases hread
    · cases hread
      obtain ⟨before, behind, hvariants, -⟩ := List.lookup_eq_some_iff.mp hlookup
      exact hvariants ▸ List.mem_append_right before (List.mem_cons_self ..)

/-- Every variant of the format has a head before the bytes of a record. -/
theorem PcapHeader.recordHead_pos_of_read {v : ByteView} {h : PcapHeader} (hread : read v = .ok h) :
    0 < h.recordHead := by
  have hmem := mem_variants_of_read hread
  simp only [variants, List.mem_cons, Prod.mk.injEq, List.not_mem_nil, or_false] at hmem
  omega

/-- The lowest byte of the number by which a variant is known. -/
theorem PcapHeader.number_mod_of_read {v : ByteView} {h : PcapHeader} (hread : read v = .ok h) :
    v.number .little 0 4 % 256 ∈ [0xd4, 0x4d, 0xa1, 0x34] := by
  have hmem := mem_variants_of_read hread
  simp only [variants, List.mem_cons, Prod.mk.injEq, List.not_mem_nil, or_false] at hmem ⊢
  omega

theorem PcapHeader.size_of_scan {h : PcapHeader} {v : ByteView} {packet : Packet} {size : ℕ}
    (hscan : h.scan v = .found packet size) : h.recordHead ≤ size ∧ size ≤ v.size := by
  simp only [scan] at hscan
  split at hscan
  · cases hscan
  · split at hscan
    · cases hscan
    · cases hscan
      omega

namespace Block

variable {kind : BlockKind} {order : ByteOrder} {v : ByteView} {length size : ℕ} {b : Block}

/-- The content of a block tells nothing about its length. -/
theorem size_of_scanContent (h : scanContent kind order v length = .found b size) : size = length := by
  cases kind with
  | packet | secrets =>
    simp only [scanContent] at h
    split at h
    · cases h
    · cases h
    · cases h
      rfl
  | names =>
    simp only [scanContent] at h
    split at h
    · cases h
      rfl
    · cases h
  | process =>
    simp only [scanContent] at h
    split at h
    · cases h
    · cases h
      rfl
  | _ =>
    simp only [scanContent] at h
    cases h
    rfl

theorem minSize_bounds (kind : BlockKind) : 12 ≤ kind.minSize ∧ kind.minSize ≤ 32 := by
  cases kind <;> decide

theorem size_of_scanSized (h : scanSized kind order v = .found b size) :
    12 ≤ size ∧ size ≤ v.size := by
  have hmin := (minSize_bounds kind).1
  simp only [scanSized] at h
  split at h
  · cases h
  · split at h
    · cases h
    · split at h
      · cases h
      · split at h
        · cases h
        · split at h
          · next hcontent =>
            split at h
            · cases h
            · cases h
              have := size_of_scanContent hcontent
              omega
          · cases h
          · cases h

theorem size_of_scan (h : scan order v = .found b size) : 12 ≤ size ∧ size ≤ v.size := by
  unfold scan at h
  split at h
  · cases h
  · split at h
    · unfold scanSection at h
      split at h
      · cases h
      · split at h
        · cases h
        · exact size_of_scanSized h
    · exact size_of_scanSized h

end Block

namespace CaptureReader

/-! ### The model -/

/-- Reading on gives these packets, and then the file ends or there is a problem. -/
inductive Gives : CaptureReader → List Packet → Option CaptureError → Prop where
  /-- The file ends. -/
  | finished {r : CaptureReader} (h : r.step = .ok none) : Gives r [] none
  /-- There is a problem. -/
  | failed {r : CaptureReader} {e : CaptureError} (h : r.step = .error e) : Gives r [] (some e)
  /-- A record or a block comes next, with a packet or without. -/
  | next {r next : CaptureReader} {packet : Option Packet} {packets : List Packet}
      {e : Option CaptureError} (h : r.step = .ok (some (next, packet)))
      (more : Gives next packets e) : Gives r (packet.toList ++ packets) e

/-- Reading gives these packets and comes to another place. -/
inductive Passes : CaptureReader → List Packet → CaptureReader → Prop where
  /-- Nothing is read. -/
  | refl (r : CaptureReader) : Passes r [] r
  /-- A record or a block is read, with a packet or without. -/
  | next {r next last : CaptureReader} {packet : Option Packet} {packets : List Packet}
      (h : r.step = .ok (some (next, packet))) (more : Passes next packets last) :
      Passes r (packet.toList ++ packets) last

/-- No record is empty. -/
def Sane : CaptureReader → Prop
  | .pcap h _ => 0 < h.recordHead
  | .pcapng _ _ => True

/-- Reading a file gives these packets, and then the file ends or there is a problem. -/
def Yields (file : ByteView) (packets : List Packet) (e : Option CaptureError) : Prop :=
  ∃ r, ofFile file = .ok r ∧ r.Gives packets e ∧ r.read = (packets, e)

variable {r next last : CaptureReader} {packet : Option Packet} {packets packets' : List Packet}
  {e e' : Option CaptureError}

/-! ### Steps and runs -/

/-- A step leaves less of the file. -/
theorem Sane.step (hr : r.Sane) (h : r.step = .ok (some (next, packet))) :
    next.Sane ∧ next.rest.size < r.rest.size := by
  cases r with
  | pcap header w =>
    simp only [CaptureReader.step] at h
    split at h
    · next found =>
      cases h
      obtain ⟨v, size, hscan, hview, hrest⟩ := Window.exists_of_next found
      obtain ⟨hhead, hsize⟩ := PcapHeader.size_of_scan hscan
      refine ⟨hr, ?_⟩
      simp only [rest, hrest, ByteView.size_drop_eq]
      rw [Sane] at hr
      omega
    · cases h
    · cases h
  | pcapng s w =>
    simp only [CaptureReader.step] at h
    split at h
    · next found =>
      cases h
      obtain ⟨v, size, hscan, hview, hrest⟩ := Window.exists_of_next found
      obtain ⟨hlong, hsize⟩ := Block.size_of_scan hscan
      refine ⟨trivial, ?_⟩
      simp only [rest, hrest, ByteView.size_drop_eq]
      omega
    · cases h
    · cases h

/-- A file is opened as one of the two formats, by its first four bytes. -/
theorem ofFile_cases {file : ByteView} (h : ofFile file = .ok r) :
    ∃ magic, magic? file = .ok magic ∧
      ((isPcapng magic = true ∧ openPcapng (Window.ofView file) = .ok r) ∨
        ∃ header, PcapHeader.read (Window.ofView file).view = .ok header ∧
          r = .pcap header ((Window.ofView file).advance PcapHeader.size)) := by
  unfold ofFile at h
  cases hmagic : magic? file with
  | error => simp [hmagic, bind, Except.bind] at h
  | ok magic =>
    refine ⟨magic, rfl, ?_⟩
    simp only [hmagic, bind, Except.bind] at h
    split at h
    · next hsections =>
      cases hopen : openPcapng (Window.ofView file) with
      | error => simp [hopen, Except.mapError] at h
      | ok reader =>
        simp only [hopen, Except.mapError, Except.ok.injEq] at h
        exact .inl ⟨hsections, congrArg Except.ok h⟩
    · unfold openPcap at h
      cases hheader : PcapHeader.read (Window.ofView file).view with
      | error => simp [hheader, Except.map, Except.mapError] at h
      | ok header =>
        simp only [hheader, Except.map, Except.mapError, Except.ok.injEq] at h
        exact .inr ⟨header, rfl, h.symm⟩

theorem sane_of_ofFile {file : ByteView} (h : ofFile file = .ok r) : r.Sane := by
  obtain ⟨magic, -, ⟨-, hopen⟩ | ⟨header, hheader, rfl⟩⟩ := ofFile_cases h
  · unfold openPcapng at hopen
    split at hopen
    · cases hopen
      trivial
    · cases hopen
    · cases hopen
    · cases hopen
  · exact PcapHeader.recordHead_pos_of_read hheader

theorem of_magic?_eq_ok {file : ByteView} {magic : List UInt8} (h : magic? file = .ok magic) :
    4 ≤ file.size ∧ magic = file.toList.take 4 := by
  unfold magic? at h
  split at h
  · next v hv =>
    cases h
    exact ⟨(ByteView.range_of_slice?_eq_some hv).2, ByteView.toList_of_slice?_eq_some hv⟩
  · cases h

/-- The first byte of a capture file is that of one of the numbers by which such files are known. -/
theorem exists_first_of_ofFile {file : ByteView} (h : ofFile file = .ok r) :
    ∃ b rest, file.toList = b :: rest ∧ b.toNat ∈ [0x0a, 0xd4, 0x4d, 0xa1, 0x34] := by
  obtain ⟨magic, hmagic, hopened⟩ := ofFile_cases h
  obtain ⟨hsize, rfl⟩ := of_magic?_eq_ok hmagic
  rw [← ByteView.length_toList] at hsize
  obtain ⟨b, rest, hfile⟩ := List.exists_cons_of_length_pos (Nat.lt_of_lt_of_le (by decide) hsize)
  refine ⟨b, rest, hfile, ?_⟩
  rcases hopened with ⟨hsections, -⟩ | ⟨header, hheader, -⟩
  · rw [hfile, isPcapng, decide_eq_true_eq, List.take_succ_cons] at hsections
    rw [(List.cons.inj hsections).1]
    decide
  · have hview : ((Window.ofView file).view.clamped 0 (0 + 4)).toList = b :: rest.take 3 := by
      have hheld : 4 ≤ (Window.ofView file).held := by
        rw [ByteView.length_toList] at hsize
        exact Nat.le_min.mpr ⟨by decide, hsize⟩
      rw [ByteView.toList_clamped, Window.toList_view, List.take_take, Nat.min_eq_left hheld,
        List.drop_zero]
      exact congrArg (List.take 4) hfile
    have hmod := PcapHeader.number_mod_of_read hheader
    rw [ByteView.number, hview, ByteOrder.number, List.foldr_cons, Nat.add_mul_mod_self_left,
      Nat.mod_eq_of_lt b.toNat_lt] at hmod
    exact List.mem_cons_of_mem _ hmod

/-- The first four bytes of a file. -/
theorem magic?_of_isPrefix {file : ByteView} {magic : List UInt8} (h : magic <+: file.toList)
    (hmagic : magic.length = 4) : magic? file = .ok magic := by
  have hsize : 4 ≤ file.size := by
    rw [← ByteView.length_toList, ← hmagic]
    exact h.length_le
  obtain ⟨v, hv, hbytes⟩ := ByteView.exists_slice? (Nat.zero_le 4) hsize
  have hbytes : v.toList = magic := by
    rw [hbytes, List.drop_zero, ← hmagic]
    exact (List.prefix_iff_eq_take.mp h).symm
  simp only [magic?, hv, hbytes]

theorem Passes.trans (h : r.Passes packets next) (h' : next.Passes packets' last) :
    r.Passes (packets ++ packets') last := by
  induction h with
  | refl => exact h'
  | next h _ ih => exact (List.append_assoc ..).symm ▸ .next h (ih h')

theorem Passes.gives (h : r.Passes packets next) (h' : next.Gives packets' e) :
    r.Gives (packets ++ packets') e := by
  induction h with
  | refl => exact h'
  | next h _ ih => exact (List.append_assoc ..).symm ▸ .next h (ih h')

/-- The steps of a reader determine what it gives. -/
theorem Gives.unique (h : r.Gives packets e) (h' : r.Gives packets' e') :
    packets = packets' ∧ e = e' := by
  induction h generalizing packets' e' with
  | finished h =>
    cases h' with
    | finished => exact ⟨rfl, rfl⟩
    | failed h' | next h' => simp [h] at h'
  | failed h =>
    cases h' with
    | failed h' =>
      rw [h] at h'
      exact ⟨rfl, congrArg some (Except.error.inj h')⟩
    | finished h' | next h' => simp [h] at h'
  | next h _ ih =>
    cases h' with
    | next h' more =>
      simp only [h, Except.ok.injEq, Option.some.injEq, Prod.mk.injEq] at h'
      obtain ⟨rfl, rfl⟩ := h'
      obtain ⟨rfl, rfl⟩ := ih more
      exact ⟨rfl, rfl⟩
    | finished h' | failed h' => simp [h] at h'

/-- With a step for each byte that is left all is read. -/
theorem gives_readSome {count : ℕ} (hr : r.Sane) (hcount : r.rest.size < count) :
    r.Gives (readSome count r).1 (readSome count r).2 := by
  induction count generalizing r with
  | zero => exact absurd hcount (Nat.not_lt_zero _)
  | succ count ih =>
    rw [readSome]
    split
    · next h => exact .failed h
    · next h => exact .finished h
    · next r' packet h =>
      obtain ⟨hsane, hless⟩ := hr.step h
      exact .next h (ih hsane (by omega))

/-- **Reading comes to the end of the file or to a problem**, and gives what the steps give. -/
theorem gives_read (hr : r.Sane) : r.Gives r.read.1 r.read.2 :=
  gives_readSome hr (Nat.lt_succ_self _)

theorem Gives.yields {file : ByteView} (h : r.Gives packets e) (hfile : ofFile file = .ok r) :
    Yields file packets e := by
  obtain ⟨hpackets, he⟩ := (gives_read (sane_of_ofFile hfile)).unique h
  exact ⟨r, hfile, h, Prod.ext hpackets he⟩

theorem Yields.unique {file : ByteView} (h : Yields file packets e)
    (h' : Yields file packets' e') : packets = packets' ∧ e = e' := by
  obtain ⟨r, hfile, hgives, -⟩ := h
  obtain ⟨r', hfile', hgives', -⟩ := h'
  rw [hfile] at hfile'
  obtain rfl := Except.ok.inj hfile'
  exact hgives.unique hgives'

end CaptureReader

end PacketTree
