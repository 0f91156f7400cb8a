import Mathlib.Data.List.Infix
import PacketTree.Capture.Window
import PacketTree.Bytes.Order
import PacketTree.Proofs.Header.Fields

/-!
# Finding in a window what stands in the file

A scanner only sees the window, which may end anywhere inside a record; the file as a whole is never
looked at. This module proves that this makes no difference for records that fit: each is found as if
the whole file were in view, whatever came before it and wherever the window happened to end.

## What is proved

* `next_of_scans`: what stands next in the file comes next.
* `next_of_large`, `next_of_cut`: bytes that the window cannot hold are refused, and so is a part of a
  record at the end of the file.
* `next_of_nothing`: at the end of the file nothing comes next.
* `number_write`, `number_of_holds_words`: a number is read as it was written, in either byte order.

## The model

`Scans` says what a scanner makes of the bytes of a record: it finds the record where they all stand,
and asks for more where they are cut. A scanner asks for what it needs next and not for the record as
a whole, so even a record as long as the window can be found, if the last of its bytes are asked for on
their own; `limit` is the length up to which that is so. `Ready` is what the reading of records keeps
of a window: it is filled up, or it has room for more than four bytes, or it reaches to the end.
-/

namespace PacketTree

/-! ### Numbers -/

namespace ByteOrder

/-- A number as so many bytes. -/
def write : ByteOrder → ℕ → ℕ → List UInt8
  | big, width, n => bigEndian width n
  | little, width, n => (bigEndian width n).reverse

variable {order : ByteOrder} {width n : ℕ}

@[simp] theorem length_write (order : ByteOrder) (width n : ℕ) :
    (order.write width n).length = width := by
  cases order <;> simp [write]

/-- The lowest byte first is the highest byte first, the other way round. -/
theorem number_little_reverse (bytes : List UInt8) :
    little.number bytes.reverse = big.number bytes := by
  simp only [number, List.foldr_reverse]
  congr 1
  funext n b
  omega

/-- **A number is read as it was written.** -/
theorem number_write (h : n < 256 ^ width) : order.number (order.write width n) = n := by
  have hbig : big.number (bigEndian width n) = n := by
    rw [number_bigEndian, Nat.mod_eq_of_lt h]
  cases order with
  | big => exact hbig
  | little => rw [write, number_little_reverse, hbig]

/-- Numbers of four bytes each, one after the other. -/
def words (order : ByteOrder) (ns : List UInt32) : List UInt8 :=
  ns.flatMap fun n => order.write 4 n.toNat

theorem words_cons (order : ByteOrder) (n : UInt32) (ns : List UInt32) :
    order.words (n :: ns) = order.write 4 n.toNat ++ order.words ns :=
  List.flatMap_cons

@[simp] theorem length_words (order : ByteOrder) (ns : List UInt32) :
    (order.words ns).length = 4 * ns.length := by
  induction ns with
  | nil => rfl
  | cons n ns ih =>
    rw [words_cons, List.length_append, ih, length_write, List.length_cons, Nat.mul_succ,
      Nat.add_comm]

end ByteOrder

namespace ByteView

variable {v : ByteView} {order : ByteOrder} {a width n : ℕ} {bs : List UInt8}

/-- The bytes that stand at a place are those between its ends. -/
theorem toList_clamped_of_holds (h : v.Holds a bs) : (v.clamped a (a + bs.length)).toList = bs := by
  rw [toList_clamped, h.take_drop]

/-- The number that stands at a place. -/
theorem number_of_holds (h : v.Holds a (order.write width n)) (hn : n < 256 ^ width) :
    v.number order a width = n := by
  have hbytes := toList_clamped_of_holds h
  rw [ByteOrder.length_write] at hbytes
  rw [number, hbytes, ByteOrder.number_write hn]

/-- Of numbers of four bytes each, the one at a place. -/
theorem number_of_holds_words {ns : List UInt32} {i b : ℕ} (h : v.Holds a (order.words ns))
    (hi : i < ns.length) (hb : b = a + 4 * i) : v.number order b 4 = ns[i].toNat := by
  subst hb
  induction ns generalizing a i with
  | nil => exact absurd hi (Nat.not_lt_zero i)
  | cons n ns ih =>
    rw [ByteOrder.words_cons, holds_append, ByteOrder.length_write] at h
    cases i with
    | zero => exact number_of_holds h.1 n.toNat_lt
    | succ i =>
      have := ih h.2 (Nat.lt_of_succ_lt_succ hi)
      rwa [List.getElem_cons_succ, Nat.mul_succ, Nat.add_comm (4 * i), ← Nat.add_assoc]

/-- A part of some bytes starts with their first bytes, if it is long enough. -/
theorem isPrefix_of_part (hpart : v.toList <+: bs) {head : List UInt8} (hhead : head <+: bs)
    (hsize : head.length ≤ v.size) : head <+: v.toList :=
  List.prefix_of_prefix_length_le hhead hpart (by rwa [length_toList])

end ByteView

namespace Window

variable {α : Type} {scan : ByteView → Scan α} {limit : ℕ} {bs more part : List UInt8} {x : α}
  {w : Window}

/-! ### The model -/

/-- A scanner finds `x` where these bytes stand. -/
structure Scans (limit : ℕ) (scan : ByteView → Scan α) (bs : List UInt8) (x : α) : Prop where
  /-- They are found in a view that starts with them all. -/
  whole : ∀ v : ByteView, bs <+: v.toList → scan v = .found x bs.length
  /-- In a view that ends before they do, more is asked for: no more than the window can hold if they
  are no more than `limit`, except perhaps in a window that is almost full. -/
  cut : ∀ v : ByteView, v.toList <+: bs → v.size < bs.length → ∃ missing, scan v = .short missing ∧
    (bs.length ≤ limit → v.size + 4 < capacity → v.size + missing < capacity)

/-- The window is full, or has room for more than four bytes, or holds all that is left. -/
structure Ready (w : Window) : Prop where
  /-- Only what is left is held. -/
  held_le_size : w.held ≤ w.rest.size
  /-- No more is held than there is room for. -/
  held_le_capacity : w.held ≤ capacity
  /-- There is some room if not all is held, unless there is none at all. -/
  room : w.held < w.rest.size → w.held = capacity ∨ w.held + 4 < capacity

/-! ### What is in view -/

theorem toList_view (w : Window) : w.view.toList = w.rest.toList.take w.held := by
  rw [view, ByteView.toList_clamped, List.drop_zero]

theorem size_view (h : w.held ≤ w.rest.size) : w.view.size = w.held := by
  rw [← ByteView.length_toList, toList_view, List.length_take, ByteView.length_toList]
  omega

theorem size_of_toList (h : w.rest.toList = bs ++ more) :
    w.rest.size = bs.length + more.length := by
  rw [← ByteView.length_toList, h, List.length_append]

theorem ready_ofView (file : ByteView) : (ofView file).Ready where
  held_le_size := Nat.min_le_right ..
  held_le_capacity := Nat.min_le_left ..
  room h := by
    simp only [ofView] at h ⊢
    omega

theorem ready_fill (w : Window) : w.fill.Ready := ready_ofView w.rest

theorem toList_advance (h : w.rest.toList = bs ++ more) :
    (w.advance bs.length).rest.toList = more := by
  rw [advance, ByteView.toList_drop, h, List.drop_left]

/-- Behind more than four bytes there is room for more than four. -/
theorem Ready.advance (hw : w.Ready) {size : ℕ} (hlong : 4 < size) (hle : size ≤ w.held) :
    (w.advance size).Ready := by
  have hsize : (w.rest.drop size).size = w.rest.size - size := by
    rw [← ByteView.length_toList, ByteView.toList_drop, List.length_drop, ByteView.length_toList]
  have hheld := hw.held_le_size
  have hcapacity := hw.held_le_capacity
  constructor
  · simp only [Window.advance, hsize]
    omega
  · simp only [Window.advance]
    omega
  · simp only [Window.advance]
    omega

/-- In a window that holds all bytes of a record, it is found. -/
theorem found_of_le (hrest : w.rest.toList = bs ++ more) (hs : Scans limit scan bs x)
    (hle : bs.length ≤ w.held) : scan w.view = .found x bs.length := by
  refine hs.whole _ ?_
  rw [toList_view, hrest, List.take_append, List.take_of_length_le hle]
  exact List.prefix_append ..

/-- In a window that holds a part of a record, bytes are missing. -/
theorem short_of_lt (hw : w.Ready) (hrest : w.rest.toList <+: bs ∨ bs <+: w.rest.toList)
    (hs : Scans limit scan bs x) (hlt : w.held < bs.length) :
    ∃ missing, scan w.view = .short missing ∧
      (bs.length ≤ limit → w.held + 4 < capacity → w.held + missing < capacity) := by
  have hview : w.view.toList <+: bs := by
    rw [toList_view]
    rcases hrest with h | h
    · exact (List.take_prefix ..).trans h
    · obtain ⟨more, hmore⟩ := h
      rw [← hmore, List.take_append_of_le_length hlt.le]
      exact List.take_prefix ..
  have hsize := size_view hw.held_le_size
  obtain ⟨missing, hshort, hfits⟩ := hs.cut _ hview (hsize ▸ hlt)
  exact ⟨missing, hshort, hsize ▸ hfits⟩

/-- A scanner that looks at the first bytes and then goes on like another finds the same. -/
theorem Scans.behind {scan' : ByteView → Scan α} {head : List UInt8} (h : Scans limit scan bs x)
    (hhead : head <+: bs) (hsmall : head.length < capacity)
    (hshort : ∀ v : ByteView, v.size < head.length → scan' v = .short (head.length - v.size))
    (hthen : ∀ v : ByteView, head <+: v.toList → scan' v = scan v) : Scans limit scan' bs x where
  whole v hv := hthen v (hhead.trans hv) ▸ h.whole v hv
  cut v hpart hlt := by
    rcases Nat.lt_or_ge v.size head.length with hsize | hsize
    · exact ⟨_, hshort v hsize, fun _ _ => by omega⟩
    · rw [hthen v (ByteView.isPrefix_of_part hpart hhead hsize)]
      exact h.cut v hpart hlt

/-! ### What comes next -/

/-- **What stands next in the file comes next**, if it is no longer than `limit`. -/
theorem next_of_scans (hw : w.Ready) (hrest : w.rest.toList = bs ++ more)
    (hs : Scans limit scan bs x) (hlong : 4 < bs.length) (hle : bs.length ≤ limit)
    (hlimit : limit ≤ capacity) :
    ∃ next, w.next scan = .found x next ∧ next.rest.toList = more ∧ next.Ready := by
  rcases Nat.lt_or_ge w.held bs.length with hlt | hge
  · have hsize := size_of_toList hrest
    have hfill : bs.length ≤ w.fill.held := by
      simp only [fill]
      omega
    have hfound := found_of_le (w := w.fill) hrest hs hfill
    obtain ⟨missing, hshort, hfits⟩ :=
      short_of_lt hw (.inr ⟨more, hrest.symm⟩) hs hlt
    have hroom : ¬capacity ≤ w.held + missing := by
      have := hw.room (by omega)
      have := hfits hle (by omega)
      omega
    refine ⟨w.fill.advance bs.length, ?_, toList_advance hrest, (ready_fill w).advance hlong hfill⟩
    simp only [next, hshort, if_neg hroom, last, hfound]
  · refine ⟨w.advance bs.length, ?_, toList_advance hrest, hw.advance hlong hge⟩
    simp only [next, found_of_le hrest hs hge]

/-- Bytes that the window cannot hold are refused. -/
theorem next_of_large (hw : w.Ready) (hrest : w.rest.toList = bs ++ more)
    (hs : Scans limit scan bs x) (hlarge : capacity < bs.length) :
    w.next scan = .failed .tooLarge := by
  have hprefix : bs <+: w.rest.toList := ⟨more, hrest.symm⟩
  have hsize := size_of_toList hrest
  have hheld := hw.held_le_capacity
  have hfill : w.fill.held = capacity := by
    simp only [fill]
    omega
  obtain ⟨missing, hshort, -⟩ := short_of_lt hw (.inr hprefix) hs (by omega)
  obtain ⟨missing', hshort', -⟩ := short_of_lt (ready_fill w) (.inr hprefix) hs (by omega)
  simp only [next, hshort, last, hshort', hfill, Nat.le_add_right, if_true, ite_self]

/-- A part of a record at the end of the file cannot be read. -/
theorem next_of_cut (hw : w.Ready) (hs : Scans limit scan bs x) (hpart : w.rest.toList <+: bs)
    (hlt : w.rest.size < bs.length) (hpos : 0 < w.rest.size) : ∃ p, w.next scan = .failed p := by
  have hheld := hw.held_le_size
  have hfill : 0 < w.fill.held ∧ w.fill.held ≤ w.rest.size := by
    simp only [fill, capacity]
    omega
  obtain ⟨missing, hshort, -⟩ := short_of_lt hw (.inl hpart) hs (by omega)
  obtain ⟨missing', hshort', -⟩ := short_of_lt (ready_fill w) (.inl hpart) hs (by omega)
  simp only [next, hshort, last, hshort', if_neg hfill.1.ne']
  split
  · exact ⟨_, rfl⟩
  · split <;> exact ⟨_, rfl⟩

/-- At the end of the file nothing comes next. -/
theorem next_of_nothing (hw : w.Ready) (hrest : w.rest.toList = [])
    (hs : ∀ v : ByteView, v.size = 0 → ∃ missing < capacity, scan v = .short missing) :
    w.next scan = .finished := by
  have hsize : w.rest.size = 0 := by rw [← ByteView.length_toList, hrest, List.length_nil]
  have hheld : w.held = 0 := Nat.le_zero.mp (hsize ▸ hw.held_le_size)
  have hfill : w.fill.held = 0 := by
    simp only [fill]
    omega
  obtain ⟨missing, hlt, hshort⟩ := hs w.view (by rw [size_view hw.held_le_size, hheld])
  obtain ⟨missing', hlt', hshort'⟩ := hs w.fill.view
    (by rw [size_view (ready_fill w).held_le_size, hfill])
  simp only [next, hshort, last, hshort', hheld, hfill, Nat.zero_add, if_neg (Nat.not_le.mpr hlt),
    if_neg (Nat.not_le.mpr hlt'), if_true]

end Window

end PacketTree
