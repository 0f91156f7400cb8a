import PacketTree.Proofs.Capture.Reading

/-!
# Reading the blocks of a capture

Blocks of all kinds are written in one way: a number for the kind, the length, the content, and the
length again. Reading such a block finds what is used of it, wherever the block stands in the file, if
it is no longer than the window. A block as long as the window is not too long: the length at its end
is asked for on its own.

## What is proved

* `scans_sized`: a block is found by its length, if its content is read as it is meant.
* `WrittenBlock.scans`: a well-formed block is found as what is used of it.
* `scans_sectionHeader`: so is a section header, behind a section of any byte order.

## The model

`WrittenBlock` is what stands in a section: descriptions of interfaces, packets and other blocks.
`OtherContent` says what the content of a block of another kind is like, as far as the kind is known;
the options at the end of a block are never looked at. The bytes of a packet are `data`, and `padding`
fills them up to a multiple of four.
-/

namespace PacketTree

/-! ### What is written -/

/-- A block as it is written: its number, its length, its content, and its length again. -/
def ByteOrder.block (order : ByteOrder) (number : UInt32) (content : List UInt8) : List UInt8 :=
  order.words [number, .ofNat (content.length + 12)] ++
    (content ++ order.words [.ofNat (content.length + 12)])

/-- Less than four bytes that fill up others to a multiple of four. -/
structure FillsUp (data padding : List UInt8) : Prop where
  /-- They are less than four. -/
  length_lt : padding.length < 4
  /-- They fill up the others. -/
  four_dvd : 4 ∣ data.length + padding.length

/-- A packet with its time and interface. -/
structure EnhancedPacket where
  /-- The number of its interface. -/
  place : UInt32
  /-- The high half of its time in microseconds. -/
  high : UInt32
  /-- The low half of its time in microseconds. -/
  low : UInt32
  /-- Its length on the wire. -/
  wireLength : UInt32
  /-- The bytes that are kept. -/
  data : List UInt8
  /-- The bytes that fill them up. -/
  padding : List UInt8
  /-- The options. -/
  options : List UInt8
  /-- The padding fills up the bytes that are kept. -/
  fills : FillsUp data padding

namespace EnhancedPacket

/-- Its time in microseconds since the start of 1970. -/
def micros (p : EnhancedPacket) : ℕ := p.high.toNat * UInt32.size + p.low.toNat

/-- The content of its block. -/
def content (p : EnhancedPacket) (order : ByteOrder) : List UInt8 :=
  order.words [p.place, p.high, p.low, .ofNat p.data.length, p.wireLength] ++
    (p.data ++ p.padding ++ p.options)

/-- What is used of it. -/
def used (p : EnhancedPacket) : Block :=
  .packet p.place.toNat p.micros p.wireLength.toNat (p.data ++ p.padding)

end EnhancedPacket

/-- A list of names with its end mark and the options behind it. -/
inductive NameList (order : ByteOrder) : List UInt8 → Prop where
  /-- The end mark is four zeros. -/
  | done (options : List UInt8) : NameList order ([0, 0, 0, 0] ++ options)
  /-- A name is a kind, a length and as many bytes, filled up to a multiple of four. -/
  | name {kind : UInt16} {value padding more : List UInt8} (hkind : kind ≠ 0)
      (hvalue : value.length < 256 ^ 2) (hfills : FillsUp value padding)
      (hmore : NameList order more) :
      NameList order (order.write 2 kind.toNat ++ (order.write 2 value.length ++
        (value ++ padding ++ more)))

/-- The content of a block of which nothing is used. -/
inductive OtherContent (order : ByteOrder) : BlockKind → List UInt8 → Prop where
  /-- A length and a packet. -/
  | simplePacket {content : List UInt8} (h : 4 ≤ content.length) :
      OtherContent order .simplePacket content
  /-- A list of names. -/
  | names {content : List UInt8} (h : NameList order content) : OtherContent order .names content
  /-- The number of an interface and a time. -/
  | statistics {content : List UInt8} (h : 12 ≤ content.length) :
      OtherContent order .statistics content
  /-- Any text. -/
  | journal (content : List UInt8) : OtherContent order .journal content
  /-- A kind of secrets, their length and as many bytes, filled up to a multiple of four. -/
  | secrets (kind : UInt32) {data padding : List UInt8} (h : FillsUp data padding)
      (options : List UInt8) :
      OtherContent order .secrets
        (order.words [kind, .ofNat data.length] ++ (data ++ padding ++ options))
  /-- The number of who defined the form. -/
  | custom {content : List UInt8} (h : 4 ≤ content.length) : OtherContent order .custom content
  /-- The number of the process. -/
  | process {content : List UInt8} (h : 4 ≤ content.length) : OtherContent order .process content
  /-- Anything. -/
  | unknown (content : List UInt8) : OtherContent order .unknown content

/-- A block of a section. -/
inductive WrittenBlock where
  /-- The description of an interface: the type of its link, and more about it. -/
  | interface (link : UInt16) (more : List UInt8)
  /-- A packet. -/
  | packet (p : EnhancedPacket)
  /-- A block of another kind. -/
  | other (number : UInt32) (content : List UInt8)

namespace WrittenBlock

/-- The number of its kind. -/
def number : WrittenBlock → UInt32
  | interface _ _ => 1
  | packet _ => 6
  | other number _ => number

/-- Its kind. -/
def kind : WrittenBlock → BlockKind
  | interface _ _ => .interface
  | packet _ => .packet
  | other number _ => .ofNumber number.toNat

/-- Its content. -/
def content (order : ByteOrder) : WrittenBlock → List UInt8
  | interface link more => order.write 2 link.toNat ++ more
  | packet p => p.content order
  | other _ content => content

/-- The block as it is written. -/
def bytes (b : WrittenBlock) (order : ByteOrder) : List UInt8 :=
  order.block b.number (b.content order)

/-- What is used of it. -/
def used : WrittenBlock → Block
  | interface link _ => .interface (.ofNat link.toNat)
  | packet p => p.used
  | other _ _ => .other

/-- The block follows the format. -/
structure WellFormed (order : ByteOrder) (b : WrittenBlock) : Prop where
  /-- Its length has 32 bits. -/
  length_lt : (b.bytes order).length < UInt32.size
  /-- Its content is as its kind asks for. -/
  content : match b with
    | interface _ more => 6 ≤ more.length
    | packet _ => True
    | other number content => OtherContent order (.ofNumber number.toNat) content

end WrittenBlock

variable {order : ByteOrder} {kind : BlockKind} {number : UInt32} {content data padding : List UInt8}
  {v : ByteView} {b : Block}

@[simp] theorem ByteOrder.length_block (order : ByteOrder) (number : UInt32) (content : List UInt8) :
    (order.block number content).length = content.length + 12 := by
  simp only [block, List.length_append, length_words, List.length_cons, List.length_nil]
  omega

theorem ByteOrder.write_isPrefix_block (order : ByteOrder) (number : UInt32)
    (content : List UInt8) : order.write 4 number.toNat <+: order.block number content := by
  rw [block, words_cons, List.append_assoc]
  exact List.prefix_append ..

/-! ### Finding a block by its length -/

namespace Block

/-- A block is scanned for as its number asks for. -/
theorem scans_of_number {scanner : ByteView → Scan Block} {bytes : List UInt8} {n : ℕ}
    (h : Window.Scans Window.capacity scanner bytes b) (hhead : order.write 4 n <+: bytes)
    (hn : n < 256 ^ 4)
    (hscanner : ∀ v : ByteView, ¬v.size < 4 → v.number order 0 4 = n → scan order v = scanner v) :
    Window.Scans Window.capacity (scan order) bytes b := by
  refine h.behind hhead (by simp [Window.capacity]) ?_ ?_
  · intro v hv
    rw [ByteOrder.length_write] at hv ⊢
    simp only [scan, hv, if_true]
  · intro v hv
    exact hscanner v (by simpa using hv.length_le) (ByteView.number_of_holds hv hn)

/-- The length stands behind the number. -/
theorem number_length (h : v.Holds 0 (order.words [number, .ofNat (content.length + 12)]))
    (hlt : content.length + 12 < UInt32.size) : v.number order 4 4 = content.length + 12 := by
  rw [ByteView.number_of_holds_words h (i := 1) (by simp) rfl, List.getElem_cons_succ,
    List.getElem_cons_zero, UInt32.toNat_ofNat', Nat.mod_eq_of_lt hlt]

/-- **A block is found by its length**, if its content is read as it is meant. -/
theorem scans_sized (hlt : content.length + 12 < UInt32.size)
    (hmin : kind.minSize ≤ content.length + 12)
    (hcontent : ∀ v : ByteView, v.Holds 8 content →
      scanContent kind order v (content.length + 12) = .found b (content.length + 12)) :
    Window.Scans Window.capacity (scanSized kind order) (order.block number content) b where
  whole v h := by
    have hsize : content.length + 12 ≤ v.size := by
      simpa using h.length_le
    have hholds : v.Holds 0 (order.block number content) := h
    obtain ⟨hhead, hbody⟩ := ByteView.holds_append.mp hholds
    obtain ⟨hinner, hend⟩ := ByteView.holds_append.mp hbody
    rw [ByteOrder.length_words] at hinner hend
    have hlast : v.number order (content.length + 12 - 4) 4 = content.length + 12 := by
      rw [ByteView.number_of_holds_words hend (i := 0) (by simp) (by simp; omega),
        List.getElem_cons_zero, UInt32.toNat_ofNat', Nat.mod_eq_of_lt hlt]
    have hfound := hcontent v hinner
    simp only [scanSized, number_length hhead hlt, hfound, hlast, ByteOrder.length_block,
      if_neg (Nat.not_lt.mpr hmin), if_neg (Nat.not_lt.mpr (hmin.trans hsize)),
      if_neg (Nat.not_lt.mpr hsize), if_neg (Nat.not_lt.mpr ((Nat.sub_le _ 4).trans hsize))]
    simp
  cut v hpart hshort := by
    have hbounds := minSize_bounds kind
    rw [ByteOrder.length_block] at hshort ⊢
    by_cases hkind : v.size < kind.minSize
    · refine ⟨kind.minSize - v.size, by simp only [scanSized, hkind, if_true], fun _ _ => ?_⟩
      simp only [Window.capacity]
      omega
    · have hhead : v.Holds 0 (order.words [number, .ofNat (content.length + 12)]) := by
        refine ByteView.isPrefix_of_part hpart (List.prefix_append ..) ?_
        simp only [ByteOrder.length_words, List.length_cons, List.length_nil]
        omega
      by_cases hlast : v.size < content.length + 12 - 4
      · refine ⟨content.length + 12 - 4 - v.size, ?_, fun _ _ => by omega⟩
        simp only [scanSized, number_length hhead hlt, if_neg hkind, if_neg (Nat.not_lt.mpr hmin),
          hlast, if_true]
      · -- Only the length at the end is missing, and a window that is not almost full has room for it.
        refine ⟨content.length + 12 - v.size, ?_, fun _ _ => by omega⟩
        simp only [scanSized, number_length hhead hlt, if_neg hkind, if_neg (Nat.not_lt.mpr hmin),
          if_neg hlast, hshort, if_true]

end Block

/-! ### What blocks contain -/

theorem FillsUp.roundUp_length (h : FillsUp data padding) :
    Block.roundUp data.length = (data ++ padding).length := by
  have hlt := h.length_lt
  have hdvd := h.four_dvd
  rw [List.length_append, Block.roundUp]
  omega

namespace Block

variable {lengthAt start stop : ℕ}

/-- Bytes are found with those that fill them up. -/
theorem scanBytes_of_holds (h : FillsUp data padding)
    (hlength : v.number order lengthAt 4 = data.length) (hlimit : data.length < lengthLimit)
    (hdata : v.Holds start (data ++ padding)) (hstop : start + (data ++ padding).length ≤ stop) :
    scanBytes order v lengthAt start stop = .found (data ++ padding) (roundUp data.length) := by
  simp only [scanBytes, hlength, h.roundUp_length, ByteView.toList_clamped_of_holds hdata,
    if_neg (Nat.not_le.mpr hlimit), if_neg (Nat.not_lt.mpr hstop)]

/-- The kind of a name is not zero, so a name does not start like the end mark. -/
theorem not_all_zero (order : ByteOrder) {n : ℕ} (hpos : n ≠ 0) (hlt : n < 256 ^ 2)
    (more : List UInt8) : ¬(order.write 2 n ++ more).all (· = 0) = true := by
  intro hall
  rw [List.all_append, Bool.and_eq_true] at hall
  have hzero : order.write 2 n = List.replicate 2 0 := by
    rw [List.eq_replicate_iff]
    exact ⟨order.length_write .., by simpa using hall.1⟩
  have hnumber : order.number (order.write 2 n) = n := ByteOrder.number_write hlt
  rw [hzero] at hnumber
  cases order <;> exact hpos hnumber.symm

/-- A list of names is complete. -/
theorem missingNames_of_nameList (h : NameList order content) : missingNames order content = 0 := by
  induction h with
  | done options =>
    rw [missingNames]
    simp
  | @name kind value padding more hkind hvalue hfills _ ih =>
    have hmark := not_all_zero order (fun h => hkind (UInt16.toNat_inj.mp h)) kind.toNat_lt
      (order.write 2 value.length)
    have hlong : ¬(order.write 2 kind.toNat ++ (order.write 2 value.length ++
        (value ++ padding ++ more))).length < 4 := by
      simp only [List.length_append, ByteOrder.length_write]
      omega
    have henough : ¬(order.write 2 kind.toNat ++ (order.write 2 value.length ++
        (value ++ padding ++ more))).length < 4 + (value ++ padding).length := by
      simp only [List.length_append, ByteOrder.length_write]
      omega
    rw [missingNames, if_neg hlong, List.drop_left' (order.length_write ..),
      List.take_left' (order.length_write ..), ByteOrder.number_write hvalue, hfills.roundUp_length]
    simp only [if_neg henough]
    rw [← List.append_assoc, List.take_left' (by simp), if_neg hmark, ← List.drop_drop,
      List.drop_left' (by simp), List.drop_left, ih]

end Block

@[simp] theorem EnhancedPacket.length_content (p : EnhancedPacket) (order : ByteOrder) :
    (p.content order).length = 20 + p.data.length + p.padding.length + p.options.length := by
  simp only [content, List.length_append, ByteOrder.length_words, List.length_cons, List.length_nil]
  omega

/-- A packet is read with the bytes that fill it up. -/
theorem EnhancedPacket.scanContent_of_holds {p : EnhancedPacket}
    (hlt : (p.content order).length + 12 < UInt32.size) (hv : v.Holds 8 (p.content order)) :
    Block.scanContent .packet order v ((p.content order).length + 12) =
      .found p.used ((p.content order).length + 12) := by
  obtain ⟨hwords, hrest⟩ := ByteView.holds_append.mp hv
  obtain ⟨hdata, -⟩ := ByteView.holds_append.mp hrest
  have hsize := p.length_content order
  have hbytes : (p.data ++ p.padding).length = p.data.length + p.padding.length :=
    List.length_append
  have hlength : v.number order 20 4 = p.data.length := by
    rw [ByteView.number_of_holds_words hwords (i := 3) (by simp) rfl]
    exact UInt32.toNat_ofNat_of_lt' (by omega)
  have hplace : v.number order 8 4 = p.place.toNat :=
    ByteView.number_of_holds_words hwords (i := 0) (by simp) rfl
  have hhigh : v.number order 12 4 = p.high.toNat :=
    ByteView.number_of_holds_words hwords (i := 1) (by simp) rfl
  have hlow : v.number order 16 4 = p.low.toNat :=
    ByteView.number_of_holds_words hwords (i := 2) (by simp) rfl
  have hwire : v.number order 24 4 = p.wireLength.toNat :=
    ByteView.number_of_holds_words hwords (i := 4) (by simp) rfl
  have hfound : Block.scanBytes order v 20 28 ((p.content order).length + 12 - 4) =
      .found (p.data ++ p.padding) (Block.roundUp p.data.length) :=
    Block.scanBytes_of_holds p.fills hlength (by rw [Block.lengthLimit]; omega)
      (by rwa [ByteOrder.length_words] at hdata) (by omega)
  simp only [Block.scanContent, hfound, hplace, hhigh, hlow, hwire, used, micros]

/-- Of a block of another kind nothing is used. -/
theorem OtherContent.scanContent_of_holds (h : OtherContent order kind content)
    (hlt : content.length + 12 < UInt32.size) (hv : v.Holds 8 content) :
    Block.scanContent kind order v (content.length + 12) = .found .other (content.length + 12) := by
  cases h with
  | names h =>
    have hnames : (v.clamped 8 (content.length + 12 - 4)).toList = content := by
      rw [show content.length + 12 - 4 = 8 + content.length by omega]
      exact ByteView.toList_clamped_of_holds hv
    simp only [Block.scanContent, hnames, Block.missingNames_of_nameList h]
  | @secrets kind data padding hfills options =>
    obtain ⟨hwords, hrest⟩ := ByteView.holds_append.mp hv
    obtain ⟨hdata, -⟩ := ByteView.holds_append.mp hrest
    generalize hcontent : order.words [kind, .ofNat data.length] ++ (data ++ padding ++ options) =
      content at hlt hv ⊢
    have hsize : content.length = 8 + (data ++ padding).length + options.length := by
      simp only [← hcontent, List.length_append, ByteOrder.length_words, List.length_cons,
        List.length_nil]
      omega
    have hdata_le : data.length ≤ (data ++ padding).length := by simp
    have hlength : v.number order 12 4 = data.length := by
      rw [ByteView.number_of_holds_words hwords (i := 1) (by simp) rfl]
      exact UInt32.toNat_ofNat_of_lt' (by omega)
    have hfound : Block.scanBytes order v 12 16 (content.length + 12 - 4) =
        .found (data ++ padding) (Block.roundUp data.length) :=
      Block.scanBytes_of_holds hfills hlength (by rw [Block.lengthLimit]; omega)
        (by rwa [ByteOrder.length_words] at hdata) (by omega)
    simp only [Block.scanContent, hfound]
  | process h => simp only [Block.scanContent, if_neg (show ¬content.length + 12 < 16 by omega)]
  | _ => rfl

/-! ### Blocks of a section -/

namespace WrittenBlock

variable {b : WrittenBlock}

theorem ofNumber_number (b : WrittenBlock) : BlockKind.ofNumber b.number.toNat = b.kind := by
  cases b <;> rfl

/-- What stands in a well-formed block is read as it is meant. -/
theorem scanContent_of_holds (h : b.WellFormed order) (hv : v.Holds 8 (b.content order)) :
    Block.scanContent b.kind order v ((b.content order).length + 12) =
      .found b.used ((b.content order).length + 12) := by
  have hlt := h.length_lt
  rw [bytes, ByteOrder.length_block] at hlt
  have hcontent := h.content
  cases b with
  | interface link more =>
    have hlink : v.number order 8 2 = link.toNat :=
      ByteView.number_of_holds (ByteView.holds_append.mp hv).1 link.toNat_lt
    simp only [kind, used, Block.scanContent, hlink]
  | packet p => exact p.scanContent_of_holds hlt hv
  | other number content => exact hcontent.scanContent_of_holds hlt hv

/-- A well-formed block is no shorter than the shortest of its kind. -/
theorem minSize_le (h : b.WellFormed order) : b.kind.minSize ≤ (b.content order).length + 12 := by
  have hcontent := h.content
  cases b with
  | interface link more =>
    simp only at hcontent
    simp only [kind, BlockKind.minSize, content, List.length_append, ByteOrder.length_write]
    omega
  | packet p =>
    simp only [kind, BlockKind.minSize, content, EnhancedPacket.length_content]
    omega
  | other number content =>
    simp only [kind, WrittenBlock.content] at hcontent ⊢
    generalize BlockKind.ofNumber number.toNat = kind at hcontent
    cases hcontent <;> simp [BlockKind.minSize] <;> omega

theorem kind_ne_sectionHeader (h : b.WellFormed order) : b.kind ≠ .sectionHeader := by
  have hcontent := h.content
  cases b with
  | interface | packet => exact nofun
  | other number content =>
    intro hkind
    simp only [kind] at hkind hcontent
    rw [hkind] at hcontent
    cases hcontent

/-- **A well-formed block is found** as what is used of it. -/
theorem scans (h : b.WellFormed order) :
    Window.Scans Window.capacity (Block.scan order) (b.bytes order) b.used := by
  have hlt := h.length_lt
  rw [bytes, ByteOrder.length_block] at hlt
  have hsized : Window.Scans Window.capacity (Block.scanSized b.kind order) (b.bytes order) b.used :=
    Block.scans_sized hlt (minSize_le h) fun v hv => scanContent_of_holds h hv
  refine Block.scans_of_number hsized (order.write_isPrefix_block ..) b.number.toNat_lt ?_
  intro v hsize hnumber
  simp only [Block.scan, if_neg hsize, hnumber, ofNumber_number]
  split
  · next hkind => exact absurd hkind (kind_ne_sectionHeader h)
  · rfl

end WrittenBlock

/-! ### Section headers -/

/-- A section header as it is written. -/
def ByteOrder.sectionHeader (order : ByteOrder) (more : List UInt8) : List UInt8 :=
  order.block 0x0a0d0d0a (order.write 4 Block.orderMark ++ more)

namespace Block

variable {more : List UInt8}

/-- A section header tells its byte order. -/
theorem sectionOrder?_of_holds (h : v.Holds 8 (order.write 4 orderMark)) :
    sectionOrder? v = some order := by
  have hbytes := ByteView.toList_clamped_of_holds h
  rw [ByteOrder.length_write] at hbytes
  simp only [sectionOrder?, ByteView.number, hbytes]
  cases order <;> decide

/-- A section header is found at the start of a file. -/
theorem scans_sectionStart (hmore : 12 ≤ more.length)
    (hlt : (order.sectionHeader more).length < UInt32.size) :
    Window.Scans Window.capacity scanSection (order.sectionHeader more) (.sectionHeader order) := by
  rw [ByteOrder.sectionHeader, ByteOrder.length_block] at hlt
  have hsized : Window.Scans Window.capacity (scanSized .sectionHeader order)
      (order.sectionHeader more) (.sectionHeader order) := by
    refine scans_sized hlt ?_ fun v _ => rfl
    simp only [BlockKind.minSize, List.length_append, ByteOrder.length_write]
    omega
  have hhead : order.words [0x0a0d0d0a, .ofNat ((order.write 4 orderMark ++ more).length + 12)] ++
      order.write 4 orderMark <+: order.sectionHeader more := by
    rw [ByteOrder.sectionHeader, ByteOrder.block, List.append_assoc, List.prefix_append_right_inj]
    exact List.prefix_append ..
  have hlength : (order.words [0x0a0d0d0a, .ofNat ((order.write 4 orderMark ++ more).length + 12)] ++
      order.write 4 orderMark).length = 12 := by
    simp
  refine hsized.behind hhead (by rw [hlength, Window.capacity]; omega) ?_ ?_
  · intro v hv
    rw [hlength] at hv ⊢
    simp only [scanSection, hv, if_true]
  · intro v hv
    have hsize : ¬v.size < 12 := by
      rw [← ByteView.length_toList, ← hlength]
      exact Nat.not_lt.mpr hv.length_le
    have hmark : v.Holds 8 (order.write 4 orderMark) := by
      have hholds : v.Holds 0 _ := hv
      rw [ByteView.holds_append, ByteOrder.length_words] at hholds
      exact hholds.2
    simp only [scanSection, if_neg hsize, sectionOrder?_of_holds hmark]

/-- A section header starts with a number that reads the same in both byte orders. -/
theorem write_isPrefix_sectionHeader (order order' : ByteOrder) (more : List UInt8) :
    order'.write 4 0x0a0d0d0a <+: order.sectionHeader more := by
  have hsame : order'.write 4 0x0a0d0d0a = order.write 4 0x0a0d0d0a := by
    cases order <;> cases order' <;> rfl
  rw [hsame]
  exact order.write_isPrefix_block 0x0a0d0d0a _

/-- **A section header is found** in a section of any byte order. -/
theorem scans_sectionHeader (order' : ByteOrder) (hmore : 12 ≤ more.length)
    (hlt : (order.sectionHeader more).length < UInt32.size) :
    Window.Scans Window.capacity (scan order') (order.sectionHeader more) (.sectionHeader order) := by
  refine scans_of_number (scans_sectionStart hmore hlt)
    (write_isPrefix_sectionHeader order order' more) (by decide) ?_
  intro v hsize hnumber
  simp only [scan, if_neg hsize, hnumber]
  rfl

end Block

end PacketTree
