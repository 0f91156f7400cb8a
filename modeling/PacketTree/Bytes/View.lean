import PacketTree.Text.Hex

/-!
# Byte views

A view is a window on a buffer: every field of a packet is a range of the captured bytes, never a
copy of them. Ranges are kept relative to the buffer, operations take ranges relative to the view.

## The model

A buffer has an identity besides its bytes, so that views of two buffers with equal bytes are told
apart. A view lies within another if both look at one buffer and the range of the first lies inside
that of the second. `toList` is the content of a view; slicing a view is `take` and `drop` on it,
and joining views appends their contents.
-/

namespace PacketTree

/-- Where a buffer comes from. -/
inductive BufferId where
  /-- The buffer of no bytes that a missing payload looks at. -/
  | nothing
  /-- The n-th buffer that was handed in. -/
  | packet (n : Nat)
  /-- Bytes of a stream that were put together, from a position of the stream on. -/
  | joined (stream : String) (position : Nat)
deriving DecidableEq, Repr, Inhabited

/-- Bytes with an identity. -/
structure Buffer where
  /-- What tells it apart from a buffer with the same bytes. -/
  id : BufferId
  /-- The content. -/
  bytes : Array UInt8
deriving DecidableEq, Repr, Inhabited

/-- A window on a buffer. -/
@[ext] structure ByteView where
  /-- The buffer looked at. -/
  origin : Buffer
  /-- The place of the first byte. -/
  start : Nat
  /-- The place just past the last byte. -/
  stop : Nat
  /-- The range is not reversed. -/
  start_le_stop : start ≤ stop := by omega
  /-- The range ends inside the buffer. -/
  stop_le_size : stop ≤ origin.bytes.size := by omega
deriving DecidableEq, Repr

namespace ByteView

/-- The whole of a buffer. -/
def ofBuffer (b : Buffer) : ByteView where
  origin := b
  start := 0
  stop := b.bytes.size

/-- The whole of a new buffer. -/
def ofBytes (id : BufferId) (bytes : List UInt8) : ByteView := ofBuffer ⟨id, bytes.toArray⟩

/-- The view of nothing. -/
def empty : ByteView := ofBytes .nothing []

instance : Inhabited ByteView := ⟨empty⟩

/-- The number of bytes in view. -/
def size (v : ByteView) : Nat := v.stop - v.start

/-- No byte is in view. -/
def isEmpty (v : ByteView) : Bool := v.size = 0

/-- The bytes in view. -/
def toList (v : ByteView) : List UInt8 := (v.origin.bytes.extract v.start v.stop).toList

/-- The byte at a place of the view. -/
def get? (v : ByteView) (i : Nat) : Option UInt8 :=
  if i < v.size then v.origin.bytes[v.start + i]? else none

/-- The bytes in view, in hexadecimal. -/
def hex (v : ByteView) : String := Text.hex v.toList

/-- The range and the bytes of a view, for a reader. -/
def description (v : ByteView) : String :=
  "ByteView(" ++ toString v.start ++ ".." ++ toString v.stop ++ ", " ++ v.hex ++ ")"

/-- Both views look at one buffer. -/
def SameOrigin (v w : ByteView) : Prop := v.origin = w.origin

instance (v w : ByteView) : Decidable (SameOrigin v w) :=
  inferInstanceAs (Decidable (_ = _))

/-- Both views look at one buffer, the first nowhere outside the second. -/
def Within (v w : ByteView) : Prop := SameOrigin v w ∧ w.start ≤ v.start ∧ v.stop ≤ w.stop

instance (v w : ByteView) : Decidable (Within v w) :=
  inferInstanceAs (Decidable (_ ∧ _))

/-- Equal bytes in the whole buffer, and equal ranges: what equality of views means to a reader of
the bytes, who cannot tell equal buffers apart. -/
def Alike (v w : ByteView) : Prop :=
  v.start = w.start ∧ v.stop = w.stop ∧ v.origin.bytes = w.origin.bytes

instance (v w : ByteView) : Decidable (Alike v w) :=
  inferInstanceAs (Decidable (_ ∧ _ ∧ _))

/-! ### Windows on windows -/

/-- The part of a view from `a` to before `b`; `none` if that is no range of the view. -/
def slice? (v : ByteView) (a b : Nat) : Option ByteView :=
  if h : a ≤ b ∧ b ≤ v.size then
    some
      { origin := v.origin
        start := v.start + a
        stop := v.start + b
        start_le_stop := by omega
        stop_le_size := by
          have := v.stop_le_size
          have := v.start_le_stop
          simp only [size] at h
          omega }
  else none

/-- The part of a view from `a` on, the empty end of the view if `a` lies beyond it. -/
def drop (v : ByteView) (a : Nat) : ByteView where
  origin := v.origin
  start := v.start + min a v.size
  stop := v.stop
  start_le_stop := by have := v.start_le_stop; simp only [size]; omega
  stop_le_size := v.stop_le_size

/-- The empty end of a view. -/
def tail (v : ByteView) : ByteView := v.drop v.size

/-- The part of a view from `a` to before `b`, both moved to the nearest place that makes it a range
of the view. -/
def clamped (v : ByteView) (a b : Nat) : ByteView :=
  let a := min a v.size
  let b := max a (min b v.size)
  { origin := v.origin
    start := v.start + a
    stop := v.start + b
    start_le_stop := by omega
    stop_le_size := by
      have := v.stop_le_size
      have := v.start_le_stop
      simp only [b, a, size]
      omega }

/-- The views one behind the other: one view alone is itself, several fill a new buffer. -/
def join (id : BufferId) : List ByteView → ByteView
  | [] => empty
  | [v] => v
  | vs => ofBytes id (vs.flatMap toList)

/-! ### Content of each operation -/

variable {v w : ByteView}

@[simp] theorem length_toList (v : ByteView) : v.toList.length = v.size := by
  have := v.stop_le_size
  simp only [toList, size, Array.length_toList, Array.size_extract]
  omega

@[simp] theorem toList_ofBytes (id : BufferId) (bytes : List UInt8) :
    (ofBytes id bytes).toList = bytes := by
  simp [ofBytes, ofBuffer, toList]

@[simp] theorem toList_empty : empty.toList = [] := toList_ofBytes _ _

theorem slice?_isSome_iff {a b : Nat} : (v.slice? a b).isSome ↔ a ≤ b ∧ b ≤ v.size := by
  simp only [slice?]
  split <;> simp_all

theorem toList_of_slice?_eq_some {a b : Nat} (h : v.slice? a b = some w) :
    w.toList = (v.toList.take b).drop a := by
  simp only [slice?] at h
  split at h
  · next hab =>
    cases h
    have hs := v.start_le_stop
    simp only [size] at hab
    simp only [toList, Array.toList_extract, List.take_drop,
      List.drop_drop, List.take_take]
    congr 1
    congr 1
    omega
  · cases h

theorem range_of_slice?_eq_some {a b : Nat} (h : v.slice? a b = some w) : a ≤ b ∧ b ≤ v.size :=
  slice?_isSome_iff.mp (by rw [h, Option.isSome_some])

theorem exists_slice? {a b : Nat} (hab : a ≤ b) (hb : b ≤ v.size) :
    ∃ w, v.slice? a b = some w ∧ w.toList = (v.toList.take b).drop a := by
  obtain ⟨w, hw⟩ := Option.isSome_iff_exists.mp (slice?_isSome_iff.mpr ⟨hab, hb⟩)
  exact ⟨w, hw, toList_of_slice?_eq_some hw⟩

@[simp] theorem toList_drop (v : ByteView) (a : Nat) : (v.drop a).toList = v.toList.drop a := by
  have hs := v.start_le_stop
  have he := v.stop_le_size
  simp only [toList, drop, size, Array.toList_extract, List.take_drop, List.drop_drop]
  by_cases h : a ≤ v.stop - v.start
  · rw [Nat.min_eq_left h]
    congr 2
    omega
  · rw [List.drop_eq_nil_of_le, List.drop_eq_nil_of_le]
    · simp; omega
    · simp; omega

@[simp] theorem toList_clamped (v : ByteView) (a b : Nat) :
    (v.clamped a b).toList = (v.toList.take b).drop a := by
  have hs := v.start_le_stop
  have he := v.stop_le_size
  refine List.ext_getElem ?_ fun i _ _ => ?_
  · simp only [length_toList, clamped, List.length_drop, List.length_take, size]
    omega
  · simp only [toList, clamped, size, Array.toList_extract, List.extract_eq_take_drop,
      List.getElem_drop, List.getElem_take]
    congr 1
    simp only [length_toList, clamped, size] at *
    omega

theorem toList_join (id : BufferId) (vs : List ByteView) :
    (join id vs).toList = vs.flatMap toList := by
  match vs with
  | [] => simp [join]
  | [v] => simp [join]
  | v :: w :: rest => simp [join]

/-! ### Views within views -/

theorem Within.refl (v : ByteView) : v.Within v := ⟨rfl, Nat.le_refl _, Nat.le_refl _⟩

theorem Within.trans {u v w : ByteView} (h : u.Within v) (h' : v.Within w) : u.Within w :=
  ⟨h.1.trans h'.1, Nat.le_trans h'.2.1 h.2.1, Nat.le_trans h.2.2 h'.2.2⟩

theorem within_drop (v : ByteView) (a : Nat) : (v.drop a).Within v :=
  ⟨rfl, Nat.le_add_right _ _, Nat.le_refl _⟩

theorem within_clamped (v : ByteView) (a b : Nat) : (v.clamped a b).Within v := by
  refine ⟨rfl, Nat.le_add_right _ _, ?_⟩
  have hs := v.start_le_stop
  simp only [clamped, size]
  omega

/-- The tail of a view is empty and lies at its end. -/
theorem start_tail (v : ByteView) : v.tail.start = v.stop := by
  have hs := v.start_le_stop
  simp only [tail, drop, size]
  omega

theorem stop_tail (v : ByteView) : v.tail.stop = v.stop := rfl

end ByteView

end PacketTree
