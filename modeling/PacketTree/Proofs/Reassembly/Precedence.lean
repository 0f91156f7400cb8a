import PacketTree.Proofs.Reassembly.Conservation

/-!
# Which of two bytes is kept

Pieces of a stream may overlap and differ in the bytes that they have for one position. Only one of
these bytes waits, and it need not be the one that came first: the pieces are trimmed in the order of
their offsets, so that a piece that starts earlier cuts off those behind it, and of two pieces that
start together the longer takes the place of the other. This module says for every position whose byte
waits there after a piece was put in.

## What is proved

* `waiting?_trim`: trimming keeps, for every position, the byte of the first piece that has one.
* `waiting?_put_after`: a piece that is put in fills the positions that nothing waited for, and takes
  over the positions of the waiting pieces that it precedes; the buffer keeps all its bytes exactly if
  the piece has the same ones there.
* `not_waiting?_put`: otherwise they are not kept, as for one byte and two that start before it.

## The model

`waiting?` is the byte that waits for a position. `Precedes` compares pieces as they are sorted: one
comes before another if it starts earlier or, at the same offset, is longer.
-/

namespace PacketTree

namespace Piece

/-- The byte that the first of some pieces has for a position. -/
def waiting? (ps : List Piece) (pos : ℕ) : Option UInt8 := ps.findSome? (·.byte? pos)

/-- A piece that is put in comes before a waiting one: it starts earlier, or with it and is longer. -/
def Precedes (p q : Piece) : Prop :=
  p.offset < q.offset ∨ p.offset = q.offset ∧ q.data.size < p.data.size

instance (p q : Piece) : Decidable (p.Precedes q) := inferInstanceAs (Decidable (_ ∨ _))

variable {p q : Piece} {ps : List Piece} {pos start covered : ℕ} {b : UInt8}

/-! ### The byte of a position -/

@[simp] theorem waiting?_nil : waiting? [] pos = none := rfl

@[simp] theorem waiting?_cons :
    waiting? (p :: ps) pos = (p.byte? pos).or (waiting? ps pos) := by
  unfold waiting?
  rw [List.findSome?_cons]
  cases p.byte? pos <;> rfl

theorem byte?_eq_none_iff : p.byte? pos = none ↔ ¬p.Covers pos := by
  rw [covers_iff_exists_byte?, Option.eq_none_iff_forall_ne_some, not_exists]

theorem waiting?_eq_none_iff : waiting? ps pos = none ↔ ¬Covered ps pos := by
  simp only [waiting?, List.findSome?_eq_none_iff, byte?_eq_none_iff, Covered, not_exists, not_and]

theorem exists_mem_of_waiting? (h : waiting? ps pos = some b) : ∃ q ∈ ps, q.byte? pos = some b :=
  List.exists_of_findSome?_eq_some h

/-- Of pieces that are apart no two have a byte for one position. -/
theorem waiting?_of_mem (h : Apart start ps) (hq : q ∈ ps) (hb : q.byte? pos = some b) :
    waiting? ps pos = some b := by
  induction ps generalizing start with
  | nil => cases hq
  | cons r ps ih =>
    rw [waiting?_cons]
    rcases List.mem_cons.mp hq with rfl | hq
    · rw [hb, Option.some_or]
    · have hc := (covers_iff_exists_byte? (p := q)).mpr ⟨b, hb⟩
      have hle := h.2.2.start_le q hq
      have hr : r.byte? pos = none := byte?_eq_none_iff.mpr fun hr => by
        unfold Covers at hc hr
        omega
      rw [hr, Option.none_or, ih h.2.2 hq]

/-! ### The two steps of putting a piece in -/

/-- **Trimming keeps the byte of the first piece that has one.** -/
theorem waiting?_trim (hn : ∀ p ∈ ps, 0 < p.data.size) (hr : Rising ps) (hpos : covered ≤ pos) :
    waiting? (trim covered ps) pos = waiting? ps pos := by
  induction ps generalizing covered with
  | nil => rfl
  | cons p ps ih =>
    obtain ⟨hlt, hr⟩ := List.pairwise_cons.mp hr
    obtain ⟨-, hn⟩ := List.forall_mem_cons.mp hn
    rw [trim, waiting?_cons]
    split
    · next hle =>
      have hnone : p.byte? pos = none := byte?_eq_none_iff.mpr fun hc => by
        unfold Covers at hc
        omega
      rw [hnone, Option.none_or, ih hn hr hpos]
    · next hle =>
      rw [waiting?_cons, byte?_cut hpos, stop_cut (Nat.lt_of_not_le hle)]
      rcases Nat.lt_or_ge pos p.stop with hbefore | hbehind
      · -- The piece has the byte, or the position lies before all pieces.
        have htrim : ¬Covered (trim p.stop ps) pos := fun hc =>
          absurd ((apart_trim hn).start_le_of_covered hc) (Nat.not_le.mpr hbefore)
        rw [waiting?_eq_none_iff.mpr htrim, Option.or_none]
        cases hb : p.byte? pos with
        | some b => rfl
        | none =>
          have hrest : ¬Covered ps pos := by
            rintro ⟨q, hq, hle, -⟩
            exact byte?_eq_none_iff.mp hb ⟨(hlt q hq).le.trans hle, hbefore⟩
          rw [Option.none_or, waiting?_eq_none_iff.mpr hrest]
      · rw [ih hn hr hbehind]

/-- Of two pieces with one offset the longer is kept. Behind the one it is the other that counts. -/
theorem byte?_longer (heq : p.offset = q.offset) (hq : ¬q.Covers pos) :
    (if p.data.size ≤ q.data.size then q else p).byte? pos = p.byte? pos := by
  split
  · next hle =>
    have hp : ¬p.Covers pos := fun hc => hq (by
      unfold Covers stop at hc ⊢
      omega)
    rw [byte?_eq_none_iff.mpr hq, byte?_eq_none_iff.mpr hp]
  · rfl

/-- A piece that is put among others takes the positions that none of them has a byte for, -/
theorem waiting?_insert_of_not_covered (h : ¬Covered ps pos) :
    waiting? (insert p ps) pos = p.byte? pos := by
  induction ps with
  | nil => simp [insert]
  | cons r ps ih =>
    rw [covered_cons, not_or] at h
    obtain ⟨hr, hps⟩ := h
    have hnone := byte?_eq_none_iff.mpr hr
    have hrest := waiting?_eq_none_iff.mpr hps
    rw [insert]
    split
    · rw [waiting?_cons, waiting?_cons, hnone, hrest, Option.none_or, Option.or_none]
    · split
      · next heq => rw [waiting?_cons, hrest, Option.or_none, byte?_longer heq hr]
      · rw [waiting?_cons, hnone, Option.none_or, ih hps]

/-- those of the first of the others, if it precedes it, -/
theorem waiting?_insert_cons (hb : q.byte? pos = some b) :
    waiting? (insert p (q :: ps)) pos =
      if p.Precedes q then (p.byte? pos).or (some b) else some b := by
  have hc : q.Covers pos := covers_iff_exists_byte?.mpr ⟨b, hb⟩
  rw [insert]
  split
  · next hlt => rw [waiting?_cons, waiting?_cons, hb, Option.some_or, if_pos (.inl hlt)]
  split
  · next heq =>
    rw [waiting?_cons]
    split
    · next hle => rw [if_neg (by unfold Precedes; omega), hb, Option.some_or]
    · next hlt =>
      have hp : p.Covers pos := by
        unfold Covers stop at *
        omega
      obtain ⟨v, hv⟩ := covers_iff_exists_byte?.mp hp
      rw [if_pos (.inr ⟨heq, by omega⟩), hv, Option.some_or, Option.some_or]
  · rw [waiting?_cons, hb, Option.some_or, if_neg (by unfold Precedes; omega)]

/-- and of all others those of the ones that it precedes. -/
theorem waiting?_insert_of_mem (h : Apart start ps) (hq : q ∈ ps) (hb : q.byte? pos = some b) :
    waiting? (insert p ps) pos = if p.Precedes q then (p.byte? pos).or (some b) else some b := by
  induction ps generalizing start with
  | nil => cases hq
  | cons r ps ih =>
    obtain ⟨-, hsize, hrest⟩ := h
    rcases List.mem_cons.mp hq with rfl | hq
    · exact waiting?_insert_cons hb
    have hbehind : r.stop ≤ q.offset := hrest.start_le q hq
    have hc : q.Covers pos := covers_iff_exists_byte?.mpr ⟨b, hb⟩
    have hr : ¬r.Covers pos := by
      unfold Covers at hc ⊢
      omega
    have hnone := byte?_eq_none_iff.mpr hr
    have hwaits := waiting?_of_mem hrest hq hb
    unfold stop at hbehind
    rw [insert]
    split
    · have hprec : p.Precedes q := .inl (by omega)
      rw [waiting?_cons, waiting?_cons, hnone, hwaits, Option.none_or, if_pos hprec]
    split
    · next heq =>
      have hprec : p.Precedes q := .inl (by omega)
      rw [waiting?_cons, hwaits, if_pos hprec, byte?_longer heq hr]
    · rw [waiting?_cons, hnone, Option.none_or, ih hrest hq]

end Piece

namespace Reorder

open Piece

variable {r : Reorder} {offset pos : ℕ} {data : ByteView} {q : Piece} {b : UInt8}

/-- The byte that waits for a position. -/
def waiting? (r : Reorder) (pos : ℕ) : Option UInt8 := Piece.waiting? r.pending pos

/-! ### Putting a piece in -/

theorem waiting?_put (hr : r.Ordered) (hpos : r.cursor ≤ pos) (hsize : 0 < data.size) :
    (r.put offset data).waiting? pos = Piece.waiting? (Piece.insert ⟨offset, data⟩ r.pending) pos := by
  rw [waiting?, pending_put hsize]
  exact waiting?_trim (size_pos_of_mem_insert hr hsize) hr.rising.insert hpos

/-- A piece without bytes has none for any position. -/
theorem byte?_of_size_eq_zero (h : data.size = 0) : (Piece.mk offset data).byte? pos = none :=
  byte?_eq_none_iff.mpr fun hc => by
    unfold Covers stop at hc
    simp only [h] at hc
    omega

/-- **A piece fills the positions that nothing waits for**, from the cursor on. -/
theorem waiting?_put_of_none (hr : r.Ordered) (h : r.waiting? pos = none) :
    (r.put offset data).waiting? pos =
      if r.cursor ≤ pos then (Piece.mk offset data).byte? pos else none := by
  rcases Nat.eq_zero_or_pos data.size with hzero | hsize
  · rw [put_of_size_eq_zero hzero, h, byte?_of_size_eq_zero hzero, ite_self]
  split
  · next hpos =>
    rw [waiting?_put hr hpos hsize]
    exact waiting?_insert_of_not_covered (waiting?_eq_none_iff.mp h)
  · next hpos =>
    exact waiting?_eq_none_iff.mpr fun hc => hpos (cursor_put (r := r) ▸ hr.put.start_le_of_covered hc)

/-- **A piece takes over the positions of the waiting pieces that it precedes.** -/
theorem waiting?_put_of_mem (hr : r.Ordered) (hq : q ∈ r.pending) (hb : q.byte? pos = some b) :
    (r.put offset data).waiting? pos =
      if (Piece.mk offset data).Precedes q then ((Piece.mk offset data).byte? pos).or (some b)
      else some b := by
  rcases Nat.eq_zero_or_pos data.size with hzero | hsize
  · rw [put_of_size_eq_zero hzero, byte?_of_size_eq_zero hzero, Option.none_or, ite_self]
    exact waiting?_of_mem hr hq hb
  · have hpos : r.cursor ≤ pos :=
      (hr.start_le q hq).trans (covers_iff_exists_byte?.mpr ⟨b, hb⟩).1
    rw [waiting?_put hr hpos hsize, waiting?_insert_of_mem hr hq hb]

/-- All bytes that wait are kept exactly if the piece that is put in has the same ones wherever it
takes over. -/
theorem keeps_put_iff (hr : r.Ordered) :
    (∀ pos v, r.waiting? pos = some v → (r.put offset data).waiting? pos = some v) ↔
      ∀ q ∈ r.pending, (Piece.mk offset data).Precedes q → ∀ pos v w, q.byte? pos = some v →
        (Piece.mk offset data).byte? pos = some w → w = v := by
  constructor
  · intro hkeeps q hq hprec pos v w hv hw
    have hput : (r.put offset data).waiting? pos = some w := by
      rw [waiting?_put_of_mem hr hq hv, if_pos hprec, hw, Option.some_or]
    rw [hkeeps pos v (waiting?_of_mem hr hq hv)] at hput
    exact (Option.some.inj hput).symm
  · intro hsame pos v hv
    obtain ⟨q, hq, hqv⟩ := exists_mem_of_waiting? hv
    rw [waiting?_put_of_mem hr hq hqv]
    split
    · next hprec =>
      cases hw : (Piece.mk offset data).byte? pos with
      | none => rfl
      | some w => rw [hsame q hq hprec pos v w hqv hw, Option.some_or]
    · rfl

/-! ### Any calls -/

/-- **Which byte is kept**, after any calls and whatever is put in. No position stops waiting. What
nothing waited for waits with the new byte, if it was not delivered before. What waited keeps its byte
unless the new piece covers it and precedes the piece that it waits in. So all bytes are kept exactly if
the new piece has the same ones wherever it takes over. -/
theorem waiting?_put_after (calls : List Call) (offset : ℕ) (data : ByteView) :
    let r := (History.after calls).buffer
    let p : Piece := ⟨offset, data⟩
    let next := r.put offset data
    (∀ pos, r.waiting? pos = none →
      next.waiting? pos = if r.cursor ≤ pos then p.byte? pos else none) ∧
    (∀ q ∈ r.pending, ∀ pos v, q.byte? pos = some v → r.waiting? pos = some v ∧
      next.waiting? pos = if p.Precedes q then (p.byte? pos).or (some v) else some v) ∧
    ((∀ pos v, r.waiting? pos = some v → next.waiting? pos = some v) ↔
      ∀ q ∈ r.pending, p.Precedes q → ∀ pos v w, q.byte? pos = some v → p.byte? pos = some w →
        w = v) := by
  intro r p next
  have hr : r.Ordered := (History.sound_foldl History.sound_new calls).ordered
  exact ⟨fun pos => waiting?_put_of_none hr,
    fun q hq pos v hv => ⟨waiting?_of_mem hr hq hv, waiting?_put_of_mem hr hq hv⟩,
    keeps_put_iff hr⟩

/-- A byte that waits is not kept when two bytes come that start before it. -/
theorem not_waiting?_put : ¬∀ (calls : List Call) (offset : ℕ) (data : ByteView) (pos : ℕ) (v : UInt8),
    (History.after calls).buffer.waiting? pos = some v →
      ((History.after calls).buffer.put offset data).waiting? pos = some v := by
  intro h
  have hkept := h [.put 1 (.ofBytes (.packet 1) [98])] 0 (.ofBytes (.packet 2) [120, 121]) 1 98
    (by decide)
  exact absurd hkept (by decide)

end Reorder

end PacketTree
