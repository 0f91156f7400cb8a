import Mathlib.Order.Lattice
import Mathlib.Tactic.Tauto
import PacketTree.Reassembly.Reorder

/-!
# No byte is lost or invented

Ranges of a stream are put into a buffer in any order, with gaps, repetitions and overlaps, and
fetched from it whenever the next bytes are there. This module follows each position of the stream
through the calls: from the piece that brought it, over the time in which it waits, to the moment
at which it is delivered.

## What is proved

* `sound_after`: after any calls the waiting pieces are apart from each other and behind the cursor,
  the positions delivered or waiting are those of the pieces put in, the bytes delivered are those
  of the positions `0`, `1`, `2` and so on, and every byte comes from a piece that was put in there.
* `Shows.trim`, `covered_trim`, `covered_insert`: the two steps of `Reorder.put`, position by
  position; `run_bytes` and `covered_run`: what `Reorder.fetch` takes out and what it leaves.

## The model

`Piece.byte?` is the byte that a piece has for a position of the stream. `Piece.Shows` says that
some piece of a list has a certain byte there, `Piece.Covered` that some piece has any. Pieces may
differ in their bytes for one position, so neither is a function of the position alone.
-/

namespace PacketTree

namespace Piece

/-! ### Positions of the stream -/

/-- The byte of a piece for a position of the stream. -/
def byte? (p : Piece) (pos : Nat) : Option UInt8 :=
  if p.offset ≤ pos then p.data.toList[pos - p.offset]? else none

/-- The piece has a byte for a position. -/
def Covers (p : Piece) (pos : Nat) : Prop := p.offset ≤ pos ∧ pos < p.stop

instance (p : Piece) (pos : Nat) : Decidable (p.Covers pos) := inferInstanceAs (Decidable (_ ∧ _))

/-- Some piece has this byte for a position. -/
def Shows (ps : List Piece) (pos : Nat) (b : UInt8) : Prop := ∃ p ∈ ps, p.byte? pos = some b

/-- Some piece has a byte for a position. -/
def Covered (ps : List Piece) (pos : Nat) : Prop := ∃ p ∈ ps, p.Covers pos

/-- The pieces are not empty, follow each other without overlap and start at `start` or later. -/
def Apart (start : Nat) : List Piece → Prop
  | [] => True
  | p :: ps => start ≤ p.offset ∧ 0 < p.data.size ∧ Apart p.stop ps

/-- The pieces are in the order of their offsets, all different. -/
def Rising (ps : List Piece) : Prop := ps.Pairwise fun p q => p.offset < q.offset

variable {p q : Piece} {ps : List Piece} {pos start covered cursor : Nat} {b : UInt8}

theorem covers_iff_exists_byte? : p.Covers pos ↔ ∃ b, p.byte? pos = some b := by
  unfold Covers byte? stop
  by_cases h : p.offset ≤ pos
  · rw [if_pos h, ← Option.isSome_iff_exists, isSome_getElem?, ByteView.length_toList]
    omega
  · simp [h]

theorem covered_iff_exists_shows : Covered ps pos ↔ ∃ b, Shows ps pos b := by
  constructor
  · rintro ⟨p, hp, hc⟩
    obtain ⟨b, hb⟩ := covers_iff_exists_byte?.mp hc
    exact ⟨b, p, hp, hb⟩
  · rintro ⟨b, p, hp, hb⟩
    exact ⟨p, hp, covers_iff_exists_byte?.mpr ⟨b, hb⟩⟩

@[simp] theorem not_covered_nil : ¬ Covered [] pos := by simp [Covered]

@[simp] theorem covered_cons : Covered (p :: ps) pos ↔ p.Covers pos ∨ Covered ps pos := by
  simp [Covered]

@[simp] theorem not_shows_nil : ¬ Shows [] pos b := by simp [Shows]

@[simp] theorem shows_cons : Shows (p :: ps) pos b ↔ p.byte? pos = some b ∨ Shows ps pos b := by
  simp [Shows]

/-! ### Pieces that are apart -/

theorem Apart.start_le (h : Apart start ps) : ∀ p ∈ ps, start ≤ p.offset := by
  induction ps generalizing start with
  | nil => simp
  | cons p ps ih =>
    intro q hq
    rcases List.mem_cons.mp hq with rfl | hq
    · exact h.1
    · have := ih h.2.2 q hq
      have := h.1
      unfold stop at *
      omega

theorem Apart.size_pos (h : Apart start ps) : ∀ p ∈ ps, 0 < p.data.size := by
  induction ps generalizing start with
  | nil => simp
  | cons p ps ih =>
    intro q hq
    rcases List.mem_cons.mp hq with rfl | hq
    · exact h.2.1
    · exact ih h.2.2 q hq

theorem Apart.pairwise (h : Apart start ps) : ps.Pairwise fun p q => p.stop ≤ q.offset := by
  induction ps generalizing start with
  | nil => exact List.Pairwise.nil
  | cons p ps ih => exact List.pairwise_cons.mpr ⟨h.2.2.start_le, ih h.2.2⟩

theorem Apart.rising (h : Apart start ps) : Rising ps := by
  refine h.pairwise.imp_of_mem fun {p q} hp _ hpq => ?_
  have := h.size_pos p hp
  unfold stop at hpq
  omega

theorem Apart.start_le_of_covered (h : Apart start ps) (hc : Covered ps pos) : start ≤ pos := by
  obtain ⟨p, hp, hpos, -⟩ := hc
  exact (h.start_le p hp).trans hpos

/-! ### Cutting off what is covered -/

theorem offset_cut (p : Piece) (covered : Nat) : (p.cut covered).offset = max p.offset covered := by
  unfold cut
  split
  · simp only; omega
  · omega

theorem stop_cut (h : covered < p.stop) : (p.cut covered).stop = p.stop := by
  unfold cut stop at *
  split
  · have : (p.data.drop (covered - p.offset)).size = p.data.size - (covered - p.offset) := by
      rw [← ByteView.length_toList, ByteView.toList_drop, List.length_drop, ByteView.length_toList]
    simp only [this]
    omega
  · rfl

/-- Behind the covered part nothing changes. -/
theorem byte?_cut (h : covered ≤ pos) : (p.cut covered).byte? pos = p.byte? pos := by
  unfold cut byte?
  split
  · next hlt =>
    simp only
    rw [if_pos (by omega), ByteView.toList_drop, List.getElem?_drop]
    congr 1
    omega
  · rfl

theorem covers_cut (hp : covered < p.stop) (h : covered ≤ pos) :
    (p.cut covered).Covers pos ↔ p.Covers pos := by
  unfold Covers
  rw [offset_cut, stop_cut hp]
  omega

/-- What is left is apart, however the pieces overlapped. -/
theorem apart_trim (hn : ∀ p ∈ ps, 0 < p.data.size) : Apart covered (trim covered ps) := by
  induction ps generalizing covered with
  | nil => trivial
  | cons p ps ih =>
    obtain ⟨hp, hn⟩ := List.forall_mem_cons.mp hn
    rw [trim]
    split
    · exact ih hn
    · next h =>
      have hs : (p.cut covered).stop = p.stop := stop_cut (by omega)
      have ho := offset_cut p covered
      refine ⟨by omega, ?_, ih hn⟩
      unfold stop at hs h
      omega

/-- Trimming invents no byte. -/
theorem Shows.trim (hn : ∀ p ∈ ps, 0 < p.data.size) (h : Shows (Piece.trim covered ps) pos b) :
    Shows ps pos b := by
  have hpos : covered ≤ pos := (apart_trim hn).start_le_of_covered
    (covered_iff_exists_shows.mpr ⟨b, h⟩)
  induction ps generalizing covered with
  | nil => exact h
  | cons p ps ih =>
    obtain ⟨-, hn⟩ := List.forall_mem_cons.mp hn
    rw [Piece.trim] at h
    rw [shows_cons]
    split at h
    · exact .inr (ih hn h hpos)
    · rcases shows_cons.mp h with h | h
      · exact .inl (by rwa [byte?_cut hpos] at h)
      · exact .inr (ih hn h ((apart_trim hn).start_le_of_covered
          (covered_iff_exists_shows.mpr ⟨b, h⟩)))

/-- Trimming loses only positions before the covered part ends. -/
theorem covered_trim (hn : ∀ p ∈ ps, 0 < p.data.size) (hr : Rising ps) :
    Covered (trim covered ps) pos ↔ covered ≤ pos ∧ Covered ps pos := by
  constructor
  · intro h
    obtain ⟨b, hb⟩ := covered_iff_exists_shows.mp h
    exact ⟨(apart_trim hn).start_le_of_covered h, covered_iff_exists_shows.mpr ⟨b, hb.trim hn⟩⟩
  · rintro ⟨hpos, h⟩
    induction ps generalizing covered with
    | nil => exact h
    | cons p ps ih =>
      obtain ⟨hp, hr⟩ := List.pairwise_cons.mp hr
      obtain ⟨-, hn⟩ := List.forall_mem_cons.mp hn
      rw [covered_cons] at h
      rw [trim]
      split
      · next hle =>
        refine ih hn hr hpos (h.resolve_left fun hc => ?_)
        unfold Covers at hc
        omega
      · next hle =>
        rw [covered_cons, covers_cut (by omega) hpos]
        by_cases hc : p.Covers pos
        · exact .inl hc
        · obtain ⟨q, hq, hqc⟩ := h.resolve_left hc
          have hlt := hp q hq
          have hstop : p.stop ≤ pos := by
            unfold Covers at hc hqc
            omega
          exact .inr (ih hn hr (by rw [stop_cut (by omega)]; exact hstop) ⟨q, hq, hqc⟩)

/-! ### Putting a piece into its place -/

theorem mem_insert (h : q ∈ insert p ps) : q = p ∨ q ∈ ps := by
  induction ps with
  | nil => exact .inl (List.mem_singleton.mp h)
  | cons r ps ih =>
    rw [insert] at h
    split at h
    · exact List.mem_cons.mp h
    · split at h
      · rcases List.mem_cons.mp h with rfl | h
        · split
          · exact .inr (List.mem_cons_self ..)
          · exact .inl rfl
        · exact .inr (List.mem_cons_of_mem _ h)
      · rcases List.mem_cons.mp h with rfl | h
        · exact .inr (List.mem_cons_self ..)
        · exact (ih h).imp_right (List.mem_cons_of_mem _)

theorem Rising.insert (h : Rising ps) : Rising (Piece.insert p ps) := by
  induction ps with
  | nil => exact List.pairwise_singleton _ _
  | cons r ps ih =>
    obtain ⟨hr, hps⟩ := List.pairwise_cons.mp h
    rw [Piece.insert]
    split
    · next hlt =>
      refine List.pairwise_cons.mpr ⟨fun q hq => ?_, h⟩
      rcases List.mem_cons.mp hq with rfl | hq
      · exact hlt
      · exact hlt.trans (hr q hq)
    · split
      · next heq =>
        refine List.pairwise_cons.mpr ⟨fun q hq => ?_, hps⟩
        split
        · exact hr q hq
        · exact heq ▸ hr q hq
      · refine List.pairwise_cons.mpr ⟨fun q hq => ?_, ih hps⟩
        rcases mem_insert hq with rfl | hq
        · omega
        · exact hr q hq

/-- Of two pieces at one offset only the longer is kept, which covers what the other does. -/
theorem covered_insert : Covered (insert p ps) pos ↔ p.Covers pos ∨ Covered ps pos := by
  induction ps with
  | nil => simp [insert]
  | cons r ps ih =>
    rw [insert]
    split
    · rw [covered_cons]
    · split
      · next heq =>
        rw [covered_cons, covered_cons]
        split
        · next hle =>
          have : p.Covers pos → r.Covers pos := by
            unfold Covers stop
            omega
          tauto
        · next hle =>
          have : r.Covers pos → p.Covers pos := by
            unfold Covers stop
            omega
          tauto
      · rw [covered_cons, covered_cons, ih]
        tauto

/-! ### Taking out what follows the cursor -/

theorem run_cons (cursor : Nat) (p : Piece) (ps : List Piece) :
    run cursor (p :: ps) =
      if p.offset = cursor then (p.data :: (run p.stop ps).1, (run p.stop ps).2)
      else ([], cursor, p :: ps) := rfl

/-- The pieces left are the last ones of those there were. -/
theorem run_suffix (cursor : Nat) (ps : List Piece) : (run cursor ps).2.2 <:+ ps := by
  induction ps generalizing cursor with
  | nil => exact List.suffix_refl _
  | cons p ps ih =>
    rw [run_cons]
    split
    · exact (ih p.stop).trans (List.suffix_cons p ps)
    · exact List.suffix_refl _

/-- The pieces left lie behind the new cursor, and none of them starts there. -/
theorem apart_run (h : Apart cursor ps) :
    Apart (run cursor ps).2.1 (run cursor ps).2.2 ∧
      ∀ p ∈ (run cursor ps).2.2, p.offset ≠ (run cursor ps).2.1 := by
  induction ps generalizing cursor with
  | nil => exact ⟨trivial, by simp [run]⟩
  | cons p ps ih =>
    rw [run_cons]
    split
    · exact ih h.2.2
    · next hne =>
      refine ⟨h, fun q hq => ?_⟩
      rcases List.mem_cons.mp hq with rfl | hq
      · exact hne
      · have := h.2.2.start_le q hq
        have := h.1
        have := h.2.1
        simp only [stop] at *
        omega

theorem length_run (cursor : Nat) (ps : List Piece) :
    cursor + ((run cursor ps).1.flatMap ByteView.toList).length = (run cursor ps).2.1 := by
  induction ps generalizing cursor with
  | nil => rfl
  | cons p ps ih =>
    rw [run_cons]
    split
    · next heq =>
      have := ih p.stop
      simp only [List.flatMap_cons, List.length_append, ByteView.length_toList]
      rw [← this, ← heq, stop]
      omega
    · rfl

/-- Something is taken out only together with its bytes. -/
theorem run_eq_nil (h : Apart cursor ps) (hb : (run cursor ps).1.flatMap ByteView.toList = []) :
    (run cursor ps).1 = [] := by
  cases ps with
  | nil => rfl
  | cons p ps =>
    rw [run_cons] at hb ⊢
    split at hb
    · have := congrArg List.length hb
      have hp := h.2.1
      simp only [List.flatMap_cons, List.length_append, ByteView.length_toList,
        List.length_nil] at this
      omega
    · next hne => rw [if_neg hne]

/-- The bytes taken out are, in order, those that waited from the cursor on. -/
theorem run_bytes {i : Nat} (h : ((run cursor ps).1.flatMap ByteView.toList)[i]? = some b) :
    Shows ps (cursor + i) b := by
  induction ps generalizing cursor i with
  | nil => simp [run] at h
  | cons p ps ih =>
    rw [run_cons] at h
    split at h
    · next heq =>
      simp only [List.flatMap_cons] at h
      rw [shows_cons]
      by_cases hi : i < p.data.toList.length
      · rw [List.getElem?_append_left hi] at h
        refine .inl ?_
        rw [byte?, if_pos (by omega), ← h]
        congr 1
        omega
      · rw [List.getElem?_append_right (by omega)] at h
        have := ih h
        rw [ByteView.length_toList] at this hi
        refine .inr ?_
        rwa [stop, show p.offset + p.data.size + (i - p.data.size) = cursor + i by omega] at this
    · simp at h

/-- The positions that waited are those taken out and those that still wait. -/
theorem covered_run (h : Apart cursor ps) :
    Covered ps pos ↔
      (cursor ≤ pos ∧ pos < (run cursor ps).2.1) ∨ Covered (run cursor ps).2.2 pos := by
  induction ps generalizing cursor with
  | nil => simp [run]
  | cons p ps ih =>
    rw [run_cons]
    split
    · next heq =>
      have hle : p.stop ≤ (run p.stop ps).2.1 := by
        have := length_run p.stop ps
        omega
      simp only
      rw [covered_cons, ih h.2.2, Covers]
      have : p.stop = p.offset + p.data.size := rfl
      constructor
      · rintro (hc | hc | hc)
        · exact .inl ⟨by omega, by omega⟩
        · exact .inl ⟨by omega, hc.2⟩
        · exact .inr hc
      · rintro (hc | hc)
        · by_cases hp : pos < p.stop
          · exact .inl ⟨by omega, hp⟩
          · exact .inr (.inl ⟨by omega, hc.2⟩)
        · exact .inr (.inr hc)
    · simp only
      constructor
      · exact .inr
      · rintro (hc | hc)
        · omega
        · exact hc

end Piece

namespace Reorder

open Piece

variable {r : Reorder} {offset pos : Nat} {data : ByteView} {b : UInt8}

/-! ### One call -/

/-- The waiting pieces are apart and lie behind the cursor. -/
def Ordered (r : Reorder) : Prop := Apart r.cursor r.pending

theorem ordered_empty : Ordered empty := trivial

@[simp] theorem cursor_put : (r.put offset data).cursor = r.cursor := by
  unfold put
  split <;> rfl

/-- Bytes are put in: the pieces before they are trimmed. -/
theorem pending_put (h : 0 < data.size) :
    (r.put offset data).pending = trim r.cursor (Piece.insert ⟨offset, data⟩ r.pending) := by
  rw [put, if_neg (by simp only [ByteView.isEmpty, decide_eq_true_eq]; omega)]

theorem put_of_size_eq_zero (h : data.size = 0) : r.put offset data = r := by
  rw [put, if_pos (by simp only [ByteView.isEmpty, h, decide_true])]

theorem size_pos_of_mem_insert (hr : r.Ordered) (h : 0 < data.size) :
    ∀ p ∈ Piece.insert ⟨offset, data⟩ r.pending, 0 < p.data.size := by
  intro p hp
  rcases mem_insert hp with rfl | hp
  · exact h
  · exact hr.size_pos p hp

theorem Ordered.put (hr : r.Ordered) : (r.put offset data).Ordered := by
  rcases Nat.eq_zero_or_pos data.size with h | h
  · rwa [put_of_size_eq_zero h]
  · rw [Ordered, cursor_put, pending_put h]
    exact apart_trim (size_pos_of_mem_insert hr h)

/-- A waiting byte waited before or was put in. -/
theorem shows_of_put (hr : r.Ordered) (h : Shows (r.put offset data).pending pos b) :
    Shows r.pending pos b ∨ (Piece.mk offset data).byte? pos = some b := by
  rcases Nat.eq_zero_or_pos data.size with hz | hz
  · exact .inl (by rwa [put_of_size_eq_zero hz] at h)
  · rw [pending_put hz] at h
    obtain ⟨p, hp, hb⟩ := h.trim (size_pos_of_mem_insert hr hz)
    rcases mem_insert hp with rfl | hp
    · exact .inr hb
    · exact .inl ⟨p, hp, hb⟩

/-- What waits is what waited before and what was put in behind the cursor. -/
theorem covered_put (hr : r.Ordered) :
    Covered (r.put offset data).pending pos ↔
      Covered r.pending pos ∨ (r.cursor ≤ pos ∧ (Piece.mk offset data).Covers pos) := by
  rcases Nat.eq_zero_or_pos data.size with hz | hz
  · rw [put_of_size_eq_zero hz]
    simp only [Covers, stop, hz]
    exact ⟨.inl, fun h => h.resolve_right (by omega)⟩
  · rw [pending_put hz, covered_trim (size_pos_of_mem_insert hr hz) hr.rising.insert,
      covered_insert]
    have hstart : Covered r.pending pos → r.cursor ≤ pos := hr.start_le_of_covered
    tauto

theorem Ordered.fetch (hr : r.Ordered) : r.fetch.2.Ordered := (apart_run hr).1

/-- Right after fetching nothing is next. -/
theorem offset_ne_cursor_fetch (hr : r.Ordered) :
    ∀ p ∈ r.fetch.2.pending, p.offset ≠ r.fetch.2.cursor := (apart_run hr).2

/-- The cursor moves by the number of bytes that are delivered. -/
theorem cursor_fetch :
    r.fetch.2.cursor = r.cursor + (r.fetch.1.flatMap ByteView.toList).length :=
  (length_run r.cursor r.pending).symm

/-- No piece is delivered without a byte. -/
theorem Ordered.fetch_eq_nil (hr : r.Ordered) (h : r.fetch.1.flatMap ByteView.toList = []) :
    r.fetch.1 = [] := run_eq_nil hr h

/-- The bytes delivered are those that waited from the cursor on, in order. -/
theorem shows_of_fetch {i : Nat} (h : (r.fetch.1.flatMap ByteView.toList)[i]? = some b) :
    Shows r.pending (r.cursor + i) b := run_bytes h

theorem shows_pending_of_fetch (h : Shows r.fetch.2.pending pos b) : Shows r.pending pos b := by
  obtain ⟨p, hp, hb⟩ := h
  exact ⟨p, (run_suffix r.cursor r.pending).subset hp, hb⟩

/-- What waited is delivered or still waits. -/
theorem covered_fetch (hr : r.Ordered) :
    Covered r.pending pos ↔
      (r.cursor ≤ pos ∧ pos < r.fetch.2.cursor) ∨ Covered r.fetch.2.pending pos := covered_run hr

/-! ### Any calls -/

/-- A call. -/
inductive Call where
  /-- Bytes arrive for an offset. -/
  | put (offset : Nat) (data : ByteView)
  /-- The next bytes are asked for. -/
  | fetch

/-- A buffer with all that was put into it and all that it delivered. -/
structure History where
  /-- The buffer. -/
  buffer : Reorder := .empty
  /-- The pieces put in, the latest first. -/
  puts : List Piece := []
  /-- The bytes delivered, in order. -/
  delivered : List UInt8 := []

namespace History

/-- One call more. -/
def perform (h : History) : Call → History
  | .put offset data =>
    { h with buffer := h.buffer.put offset data, puts := ⟨offset, data⟩ :: h.puts }
  | .fetch =>
    { h with
      buffer := h.buffer.fetch.2
      delivered := h.delivered ++ h.buffer.fetch.1.flatMap ByteView.toList }

/-- What some calls on a new buffer lead to. -/
def after (calls : List Call) : History := calls.foldl perform {}

/-- Nothing is lost, invented or delivered twice. -/
structure Sound (h : History) : Prop where
  /-- The waiting pieces are not empty and lie behind the cursor. -/
  waiting : ∀ p ∈ h.buffer.pending, 0 < p.data.size ∧ h.buffer.cursor ≤ p.offset
  /-- They do not overlap. -/
  disjoint : h.buffer.pending.Pairwise fun p q => p.stop ≤ q.offset
  /-- A position is delivered or waits exactly if it was put in. -/
  positions : ∀ pos, pos < h.buffer.cursor ∨ Covered h.buffer.pending pos ↔ Covered h.puts pos
  /-- As many bytes were delivered as there are positions before the cursor. -/
  delivered : h.delivered.length = h.buffer.cursor
  /-- The byte delivered as number `pos` is one that was put in for the position `pos`, and so is
  every byte that waits there. -/
  bytes : ∀ pos b, h.delivered[pos]? = some b ∨ Shows h.buffer.pending pos b → Shows h.puts pos b

variable {h : History}

theorem Sound.ordered (hs : h.Sound) : h.buffer.Ordered := by
  have hw := hs.waiting
  have hd := hs.disjoint
  unfold Ordered
  generalize h.buffer.cursor = cursor at hw
  generalize h.buffer.pending = ps at hw hd
  induction ps generalizing cursor with
  | nil => trivial
  | cons p ps ih =>
    obtain ⟨⟨hp, hc⟩, hw⟩ := List.forall_mem_cons.mp hw
    obtain ⟨hlt, hd⟩ := List.pairwise_cons.mp hd
    exact ⟨hc, hp, ih p.stop (fun q hq => ⟨(hw q hq).1, hlt q hq⟩) hd⟩

theorem sound_new : Sound {} where
  waiting := by simp [empty]
  disjoint := List.Pairwise.nil
  positions := by simp [empty]
  delivered := rfl
  bytes := by simp [empty]

theorem Sound.put (hs : h.Sound) (offset : Nat) (data : ByteView) :
    (h.perform (.put offset data)).Sound where
  waiting p hp := ⟨hs.ordered.put.size_pos p hp, hs.ordered.put.start_le p hp⟩
  disjoint := hs.ordered.put.pairwise
  positions pos := by
    have hpos := hs.positions pos
    simp only [perform, cursor_put, covered_put hs.ordered, covered_cons]
    by_cases hc : pos < h.buffer.cursor
    · simp only [hc, true_or, true_iff]
      exact .inr (hpos.mp (.inl hc))
    · have : h.buffer.cursor ≤ pos := by omega
      tauto
  delivered := by rw [perform, cursor_put]; exact hs.delivered
  bytes pos b hb := by
    rw [perform, shows_cons]
    rcases hb with hb | hb
    · exact .inr (hs.bytes pos b (.inl hb))
    · rcases shows_of_put hs.ordered hb with hb | hb
      · exact .inr (hs.bytes pos b (.inr hb))
      · exact .inl hb

/-- What a fetch delivers are the bytes that waited from the cursor on. -/
theorem Sound.shows_of_fetch (hs : h.Sound) {pos : Nat} {b : UInt8} (hc : h.buffer.cursor ≤ pos)
    (hb : (h.perform .fetch).delivered[pos]? = some b) : Shows h.buffer.pending pos b := by
  have hl := hs.delivered
  rw [perform, List.getElem?_append_right (by omega)] at hb
  have := Reorder.shows_of_fetch hb
  rwa [hl, Nat.add_sub_cancel' hc] at this

theorem Sound.fetch (hs : h.Sound) : (h.perform .fetch).Sound where
  waiting p hp := ⟨hs.ordered.fetch.size_pos p hp, hs.ordered.fetch.start_le p hp⟩
  disjoint := hs.ordered.fetch.pairwise
  positions pos := by
    have hpos := hs.positions pos
    have hcur := cursor_fetch (r := h.buffer)
    rw [covered_fetch hs.ordered] at hpos
    rw [perform, ← hpos]
    by_cases hc : pos < h.buffer.cursor
    · have : pos < h.buffer.fetch.2.cursor := by omega
      tauto
    · have : h.buffer.cursor ≤ pos := by omega
      tauto
  delivered := by rw [perform, List.length_append, hs.delivered, cursor_fetch]
  bytes pos b hb := by
    rcases hb with hb | hb
    · by_cases hc : h.buffer.cursor ≤ pos
      · exact hs.bytes pos b (.inr (hs.shows_of_fetch hc hb))
      · have hl := hs.delivered
        rw [perform, List.getElem?_append_left (by omega)] at hb
        exact hs.bytes pos b (.inl hb)
    · exact hs.bytes pos b (.inr (shows_pending_of_fetch hb))

theorem Sound.perform (hs : h.Sound) (call : Call) : (h.perform call).Sound := by
  cases call with
  | put offset data => exact hs.put offset data
  | fetch => exact hs.fetch

theorem sound_foldl (hs : h.Sound) (calls : List Call) : (calls.foldl History.perform h).Sound := by
  induction calls generalizing h with
  | nil => exact hs
  | cons call calls ih => exact ih (hs.perform call)

/-- **Nothing is lost, invented or delivered twice**, whatever is put in and whenever it is fetched.
A fetch keeps all that was delivered before, goes on with the bytes that waited at the cursor, and
leaves nothing there. -/
theorem sound_after (calls : List Call) :
    let h := after calls
    let next := after (calls ++ [.fetch])
    h.Sound ∧ next.Sound ∧ h.delivered <+: next.delivered ∧
      (∀ pos b, h.buffer.cursor ≤ pos → next.delivered[pos]? = some b →
        Shows h.buffer.pending pos b) ∧
      ∀ p ∈ next.buffer.pending, p.offset ≠ next.buffer.cursor := by
  intro h next
  have hs : h.Sound := sound_foldl sound_new calls
  have hnext : next = h.perform .fetch := List.foldl_append ..
  rw [hnext]
  exact ⟨hs, hs.fetch, List.prefix_append _ _, fun pos b hc hb => hs.shows_of_fetch hc hb,
    offset_ne_cursor_fetch hs.ordered⟩

end History

end Reorder

end PacketTree
