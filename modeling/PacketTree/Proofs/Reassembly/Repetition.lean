import Mathlib.Data.List.Induction
import PacketTree.Proofs.Reassembly.Delivery

/-!
# A segment that comes twice

A segment that is sent again right after it was taken in says nothing new. This module proves when a
stream takes it so, and what it makes of the segment otherwise: seen from the anchor that the first
copy moved, the second copy lies behind, and a number that lies further behind than the window
announced in the segment is one that has wrapped around.

## What is proved

* `Reorder.put_twice_after`: bytes that were put in are put in again without any change, down to the
  cut of the waiting pieces, and so are bytes that were put in and fetched.
* `receive_again`: a second copy changes nothing if the first got ahead of the segment by no more than
  its window; otherwise the stream gets longer, and still nothing is delivered.
* `not_receive_again`: without that exception this fails, for three bytes that announce no window.
* `offsets_fit`: the offsets of all this stay below `2 ^ 64`, unless a stream has very many segments.

## The model

A stream is `after` some calls what they make of a new one. `receive` takes in a segment and fetches.
`lead` tells by how many sequence numbers the anchor gets ahead of a segment that moves it, and `Meets`
in which ways a segment can meet a stream. There are two kinds of steps: one with a lead puts in its
bytes where the stream ends from then on, and one without puts in the same bytes at the same place
whenever it is repeated.

The offsets are numbers without bound, and what is proved is meant for those that stay below `2 ^ 64`;
`offsets_fit` shows how many segments it takes to get there.
-/

namespace PacketTree

namespace Piece

variable {p : Piece} {ps : List Piece} {covered cursor : ℕ}

/-! ### Trimming again -/

theorem cut_of_le (h : covered ≤ p.offset) : p.cut covered = p := by
  rw [cut, if_neg (Nat.not_lt.mpr h)]

/-- Pieces that are apart lose nothing. -/
theorem trim_of_apart (h : Apart covered ps) : trim covered ps = ps := by
  induction ps generalizing covered with
  | nil => rfl
  | cons p ps ih =>
    obtain ⟨hstart, hsize, hrest⟩ := h
    have hstop : ¬p.stop ≤ covered := by
      unfold stop
      omega
    rw [trim, if_neg hstop, cut_of_le hstart, ih hrest]

/-- A piece that is delivered leaves no trace. -/
theorem trim_insert_of_stop_le (h : Apart covered ps) (hp : 0 < p.data.size)
    (hstop : p.stop ≤ covered) : trim covered (insert p ps) = ps := by
  have hlt : p.offset < covered := by
    unfold stop at hstop
    omega
  have hhead : trim covered (p :: ps) = ps := by rw [trim, if_pos hstop, trim_of_apart h]
  cases ps with
  | nil => exact hhead
  | cons q ps => rwa [insert, if_pos (hlt.trans_le h.1)]

/-- What is left of a piece that was cut off in front covers the piece. -/
theorem trim_insert_cut (h : Apart covered (p.cut covered :: ps)) (hstop : covered < p.stop) :
    trim covered (insert p (p.cut covered :: ps)) = p.cut covered :: ps := by
  have hoffset := offset_cut p covered
  by_cases hlt : p.offset < covered
  · have hrest : trim (p.cut covered).stop (p.cut covered :: ps) = ps := by
      rw [trim, if_pos le_rfl, trim_of_apart h.2.2]
    rw [insert, if_pos (by omega), trim, if_neg (by omega), hrest]
  · have hcut := cut_of_le (Nat.le_of_not_lt hlt)
    rw [hcut] at h ⊢
    rw [insert, if_neg (lt_irrefl _), if_pos rfl, if_pos le_rfl, trim_of_apart h]

/-- A piece that was put in among others is put in again without any change. -/
theorem trim_insert_again (h : Apart covered ps) (hp : 0 < p.data.size) :
    trim covered (insert p (trim covered (insert p ps))) = trim covered (insert p ps) := by
  induction ps generalizing covered with
  | nil =>
    rw [insert, trim]
    split
    · next hstop => exact trim_insert_of_stop_le trivial hp hstop
    · next hstop =>
      have hsize : Apart covered (trim covered [p]) := apart_trim (by simpa using hp)
      rw [trim, if_neg hstop] at hsize
      exact trim_insert_cut hsize (Nat.lt_of_not_le hstop)
  | cons q ps ih =>
    obtain ⟨hstart, hsize, hrest⟩ := h
    have hq : covered < q.stop := by
      unfold stop
      omega
    rw [insert]
    split
    · by_cases hstop : p.stop ≤ covered
      · have hqs : Apart covered (q :: ps) := ⟨hstart, hsize, hrest⟩
        rw [trim, if_pos hstop, trim_of_apart hqs]
        exact trim_insert_of_stop_le hqs hp hstop
      · have hapart : Apart covered (trim covered (p :: q :: ps)) :=
          apart_trim (List.forall_mem_cons.mpr
            ⟨hp, List.forall_mem_cons.mpr ⟨hsize, hrest.size_pos⟩⟩)
        rw [trim, if_neg hstop] at hapart ⊢
        exact trim_insert_cut hapart (Nat.lt_of_not_le hstop)
    · split
      · next heq =>
        -- The longer of two pieces at one offset stays, and is no shorter than the new one.
        have hkept : ∀ r : Piece, r.offset = q.offset → p.data.size ≤ r.data.size →
            trim covered (insert p (trim covered (r :: ps))) = trim covered (r :: ps) := by
          intro r hr hle
          have hcut : r.cut covered = r := cut_of_le (hr ▸ hstart)
          have hstop : ¬r.stop ≤ covered := by
            unfold stop
            omega
          have hapart : Apart covered (trim covered (r :: ps)) :=
            apart_trim (List.forall_mem_cons.mpr ⟨by omega, hrest.size_pos⟩)
          rw [trim, if_neg hstop, hcut] at hapart ⊢
          rw [insert, if_neg (by omega), if_pos (by omega), if_pos hle, trim_of_apart hapart]
        split
        · next hle => exact hkept q rfl hle
        · exact hkept p heq le_rfl
      · next hlt hne =>
        rw [trim, if_neg (Nat.not_le.mpr hq), cut_of_le hstart, insert, if_neg hlt, if_neg hne, trim,
          if_neg (Nat.not_le.mpr hq), cut_of_le hstart, ih hrest]

/-- A piece that waits, or is covered by others that do, is covered by what is left of them when the
first ones are taken out, and by the new cursor. -/
theorem trim_insert_run (h : Apart cursor ps) (hp : 0 < p.data.size)
    (hput : trim cursor (insert p ps) = ps) :
    trim (run cursor ps).2.1 (insert p (run cursor ps).2.2) = (run cursor ps).2.2 := by
  induction ps generalizing cursor with
  | nil => exact hput
  | cons q ps ih =>
    obtain ⟨hstart, hsize, hrest⟩ := h
    have hq : cursor < q.stop := by
      unfold stop
      omega
    rw [run_cons]
    split
    · next heq =>
      refine ih hrest ?_
      by_cases hstop : p.stop ≤ q.stop
      · exact trim_insert_of_stop_le hrest hp hstop
      · rw [insert] at hput
        split at hput
        · -- The piece itself would be the first one and end behind it.
          rw [trim, if_neg (by omega)] at hput
          obtain ⟨hhead, -⟩ := List.cons.inj hput
          have := stop_cut (show cursor < p.stop by omega)
          rw [hhead] at this
          omega
        · split at hput
          · next hoffset =>
            have hlonger : ¬p.data.size ≤ q.data.size := by
              unfold stop at hstop
              omega
            rw [if_neg hlonger, trim, if_neg (by omega), cut_of_le (by omega)] at hput
            obtain ⟨hhead, -⟩ := List.cons.inj hput
            exact absurd (hhead ▸ le_rfl) hstop
          · rw [trim, if_neg (Nat.not_le.mpr hq), cut_of_le hstart] at hput
            exact (List.cons.inj hput).2
    · exact hput

end Piece

namespace Reorder

open Piece

variable {r : Reorder} {offset : ℕ} {data : ByteView}

/-- Bytes change nothing if trimming takes away what they add. -/
theorem put_eq_self (hpos : 0 < data.size)
    (h : trim r.cursor (Piece.insert ⟨offset, data⟩ r.pending) = r.pending) :
    r.put offset data = r := by
  rw [Reorder.put, if_neg (by simp only [ByteView.isEmpty, decide_eq_true_eq]; omega)]
  exact congrArg (Reorder.mk _) h

/-- Trimming takes away what is put in a second time. -/
theorem Ordered.trim_insert_put (hr : r.Ordered) (hpos : 0 < data.size) :
    trim (r.put offset data).cursor (Piece.insert ⟨offset, data⟩ (r.put offset data).pending) =
      (r.put offset data).pending := by
  rw [cursor_put, pending_put hpos]
  exact trim_insert_again hr hpos

/-- Bytes that were put in are put in again without any change. -/
theorem Ordered.put_put (hr : r.Ordered) (offset : ℕ) (data : ByteView) :
    (r.put offset data).put offset data = r.put offset data := by
  rcases Nat.eq_zero_or_pos data.size with hzero | hpos
  · exact put_of_size_eq_zero hzero
  · exact put_eq_self hpos (hr.trim_insert_put hpos)

/-- Bytes that were put in and fetched are put in again without any change. -/
theorem Ordered.put_again (hr : r.Ordered) (offset : ℕ) (data : ByteView) :
    (r.put offset data).fetch.2.put offset data = (r.put offset data).fetch.2 := by
  rcases Nat.eq_zero_or_pos data.size with hzero | hpos
  · exact put_of_size_eq_zero hzero
  · have hput : (r.put offset data).Ordered := hr.put
    exact put_eq_self hpos (trim_insert_run hput hpos (hr.trim_insert_put hpos))

/-- Right after fetching nothing is fetched. -/
theorem Ordered.fetch_again (hr : r.Ordered) : r.fetch.2.fetch = ([], r.fetch.2) := by
  have hnext := offset_ne_cursor_fetch hr
  generalize r.fetch.2 = s at hnext
  obtain ⟨cursor, pending⟩ := s
  cases pending with
  | nil => rfl
  | cons p ps => rw [Reorder.fetch, run_cons, if_neg (hnext p List.mem_cons_self)]

/-- **The same bytes twice are the same as once**, after any calls: to put them in again right away
changes nothing, whatever else waits and however the first copy was cut. Nor does it once the first copy
was fetched, and nothing is then ready that was not ready before. -/
theorem put_twice_after (calls : List Call) (offset : ℕ) (data : ByteView) :
    let once := (History.after calls).buffer.put offset data
    let fetched := once.fetch.2
    once.put offset data = once ∧ fetched.put offset data = fetched ∧
      (fetched.put offset data).fetch = ([], fetched) := by
  intro once fetched
  have hr : (History.after calls).buffer.Ordered :=
    (History.sound_foldl History.sound_new calls).ordered
  have hagain : fetched.put offset data = fetched := hr.put_again offset data
  refine ⟨hr.put_put offset data, hagain, ?_⟩
  rw [hagain]
  exact hr.put.fetch_again

/-- Bytes that were all delivered change nothing. -/
theorem Ordered.put_of_le (hr : r.Ordered) (h : offset + data.size ≤ r.cursor) :
    r.put offset data = r := by
  rcases Nat.eq_zero_or_pos data.size with hzero | hpos
  · exact put_of_size_eq_zero hzero
  · exact put_eq_self hpos (trim_insert_of_stop_le hr hpos h)

/-- The first bytes of all are delivered at once. -/
theorem cursor_fetch_put_empty (data : ByteView) : (empty.put 0 data).fetch.2.cursor = data.size := by
  rcases Nat.eq_zero_or_pos data.size with hzero | hpos
  · rw [put_of_size_eq_zero hzero, hzero]
    rfl
  · have hpending : (empty.put 0 data).pending = [⟨0, data⟩] := by
      rw [pending_put hpos]
      exact trim_of_apart ⟨le_rfl, hpos, trivial⟩
    have hstart : (empty.put 0 data).cursor = 0 := cursor_put
    rw [Reorder.fetch, hpending, hstart, run_cons, if_pos rfl]
    exact Nat.zero_add _

/-! ### How far the bytes reach -/

/-- All bytes, delivered or waiting, lie before an offset. -/
def Below (n : ℕ) (r : Reorder) : Prop := ∀ pos, pos < r.cursor ∨ Covered r.pending pos → pos < n

theorem Below.mono {m n : ℕ} (h : r.Below m) (hmn : m ≤ n) : r.Below n :=
  fun pos hpos => (h pos hpos).trans_le hmn

theorem Below.put {n : ℕ} (h : r.Below n) (hr : r.Ordered) (hn : offset + data.size ≤ n) :
    (r.put offset data).Below n := by
  intro pos hpos
  rw [cursor_put, covered_put hr] at hpos
  rcases hpos with hcursor | hcovered | ⟨-, -, hstop⟩
  · exact h pos (.inl hcursor)
  · exact h pos (.inr hcovered)
  · exact hstop.trans_le hn

theorem Below.fetch {n : ℕ} (h : r.Below n) (hr : r.Ordered) : r.fetch.2.Below n := by
  intro pos hpos
  refine h pos ?_
  rw [covered_fetch hr]
  rcases hpos with hlt | hcovered
  · rcases Nat.lt_or_ge pos r.cursor with hbefore | hbefore
    · exact .inl hbefore
    · exact .inr (.inl ⟨hbefore, hlt⟩)
  · exact .inr (.inr hcovered)

theorem Below.cursor_le {n : ℕ} (h : r.Below n) : r.cursor ≤ n :=
  Nat.le_of_not_lt fun hlt => (h n (.inl hlt)).false

/-- Bytes that leave a gap wait. -/
theorem Ordered.fetch_put (hr : r.Ordered) (hlt : r.cursor < offset)
    (hnext : ∀ p ∈ r.pending, p.offset ≠ r.cursor) : (r.put offset data).fetch.1 = [] := by
  refine hr.put.fetch_eq_nil ?_
  by_contra hne
  obtain ⟨b, bs, hbytes⟩ := List.exists_cons_of_ne_nil hne
  have hb : ((r.put offset data).fetch.1.flatMap ByteView.toList)[0]? = some b := by rw [hbytes]; rfl
  obtain ⟨p, hp, hp'⟩ := shows_of_fetch hb
  have hcov : Covered (r.put offset data).pending r.cursor := by
    rw [cursor_put] at hp'
    exact ⟨p, hp, covers_iff_exists_byte?.mpr ⟨b, hp'⟩⟩
  rcases (covered_put hr).mp hcov with ⟨q, hq, hle, -⟩ | ⟨-, hle, -⟩
  · exact hnext q hq (le_antisymm hle (hr.start_le q hq))
  · exact absurd hle (Nat.not_le.mpr hlt)

end Reorder

namespace TcpStream

/-! ### Calls -/

/-- Takes in a segment. -/
def takeIn (s : TcpStream) (segment : Segment) : Admission × TcpStream :=
  s.accept segment.seq segment.flags.toNat segment.window.toNat segment.payload

/-- Takes in a segment and delivers what is then in order. -/
def receive (s : TcpStream) (segment : Segment) : List ByteView × TcpStream :=
  (s.takeIn segment).2.fetch

/-- A call. -/
inductive Call where
  /-- A segment arrives. -/
  | accept (segment : Segment)
  /-- The next bytes are asked for. -/
  | fetch

/-- Makes a call. -/
def perform (s : TcpStream) : Call → TcpStream
  | .accept segment => (s.takeIn segment).2
  | .fetch => s.fetch.2

/-- A new stream after some calls. -/
def after (midstream : Bool) (calls : List Call) : TcpStream :=
  calls.foldl perform (fresh midstream)

/-- By how many sequence numbers the anchor gets ahead of a segment that moves it. -/
def lead (s : TcpStream) (segment : Segment) : ℕ :=
  let size := segment.payload.size
  if size = 0 then 0
  else match s.anchor with
  | none =>
    if segment.flags.toNat &&& synFlag ≠ 0 then size + 1 else if s.midstream then size else 0
  | some anchor =>
    if distance anchor segment.seq < halfSpace ∨
      segment.window.toNat < distance segment.seq anchor then size else 0

/-! ### What calls preserve -/

/-- What holds of a stream after any calls. -/
structure Regular (s : TcpStream) : Prop where
  /-- The waiting pieces are apart and behind the cursor. -/
  ordered : s.buffer.Ordered
  /-- Before the start there is nothing. -/
  unstarted : s.anchor = none → s = fresh s.midstream

variable {s : TcpStream} {segment : Segment}

theorem regular_fresh (midstream : Bool) : Regular (fresh midstream) where
  ordered := Reorder.ordered_empty
  unstarted _ := rfl

theorem anchor_place_ne_none {anchor : UInt32} (h : s.anchor = some anchor) (seq : UInt32)
    (window : ℕ) (payload : ByteView) : (s.place anchor seq window payload).2.anchor ≠ none := by
  have hne : s.anchor ≠ none := by simp [h]
  unfold place
  dsimp only
  split
  · simp
  · split
    · exact hne
    · split <;> exact hne

/-- Only what is ignored leaves a stream without an anchor. -/
theorem takeIn_of_anchor_eq_none (h : (s.takeIn segment).2.anchor = none) :
    (s.takeIn segment).2 = s ∧ s.anchor = none := by
  revert h
  unfold takeIn accept
  split
  · next anchor hs =>
    split
    · exact fun h => absurd (hs.symm.trans h) (by simp)
    · exact fun h => absurd h (anchor_place_ne_none hs _ _ _)
  · next hs =>
    split
    · exact fun h => absurd h (by simp [start])
    · split
      · dsimp only
        split
        · exact fun h => absurd h (by simp)
        · exact fun h => absurd h (anchor_place_ne_none rfl _ _ _)
      · exact fun _ => ⟨rfl, hs⟩

theorem Regular.takeIn (hs : s.Regular) (segment : Segment) : (s.takeIn segment).2.Regular where
  ordered := ordered_accept hs.ordered _ _ _ _
  unstarted hnone := by
    obtain ⟨hsame, hanchor⟩ := takeIn_of_anchor_eq_none hnone
    rw [hsame]
    exact hs.unstarted hanchor

theorem Regular.fetch (hs : s.Regular) : s.fetch.2.Regular where
  ordered := hs.ordered.fetch
  unstarted hnone := by
    rw [hs.unstarted hnone]
    rfl

theorem regular_after (midstream : Bool) (calls : List Call) : (after midstream calls).Regular := by
  induction calls using List.reverseRecOn with
  | nil => exact regular_fresh midstream
  | append_singleton calls call ih =>
    rw [after, List.foldl_append]
    cases call with
    | accept segment => exact ih.takeIn segment
    | fetch => exact ih.fetch

/-! ### What a segment does to a stream -/

/-- New bytes are put in at their offset, and the stream ends behind them. -/
theorem place_of_new (s : TcpStream) {anchor seq : UInt32} {window : ℕ} (payload : ByteView)
    (h : distance anchor seq < halfSpace ∨ window < distance seq anchor) :
    s.place anchor seq window payload = (.data (s.length + distance anchor seq),
      { s with
        anchor := some (seq + UInt32.ofNat payload.size)
        length := s.length + distance anchor seq + payload.size
        buffer := s.buffer.put (s.length + distance anchor seq) payload }) :=
  if_pos h

/-- Bytes that were sent before are put in at their offset, without those from before the start. -/
theorem place_of_old (s : TcpStream) {anchor seq : UInt32} {window : ℕ} (payload : ByteView)
    (h : ¬(distance anchor seq < halfSpace ∨ window < distance seq anchor)) :
    ∃ offset data, offset + data.size ≤ s.length + payload.size ∧
      ∀ buffer, (({ s with buffer := buffer } : TcpStream).place anchor seq window payload).2 =
        { s with buffer := buffer.put offset data } := by
  by_cases hbehind : distance seq anchor ≤ s.length
  · refine ⟨s.length - distance seq anchor, payload, by omega, fun buffer => ?_⟩
    simp only [place, if_neg h, if_pos hbehind]
  · refine ⟨0, payload.drop (distance seq anchor - s.length), ?_, fun buffer => ?_⟩
    · rw [size_drop]
      omega
    · simp only [place, if_neg h, if_neg hbehind]
      split
      · next hearly =>
        have hzero : (payload.drop (distance seq anchor - s.length)).size = 0 := by
          rw [size_drop]
          omega
        rw [Reorder.put_of_size_eq_zero hzero]
      · rfl

/-- How a segment with bytes meets a stream: what its lead is and what comes of it. -/
inductive Meets (s : TcpStream) (segment : Segment) : ℕ → Admission × TcpStream → Prop where
  /-- It has new bytes, -/
  | new {anchor : UInt32} (started : s.anchor = some anchor)
      (new : distance anchor segment.seq < halfSpace ∨
        segment.window.toNat < distance segment.seq anchor) :
      Meets s segment segment.payload.size
        (s.place anchor segment.seq segment.window.toNat segment.payload)
  /-- or has bytes that were sent before; -/
  | old {anchor : UInt32} (started : s.anchor = some anchor)
      (old : ¬(distance anchor segment.seq < halfSpace ∨
        segment.window.toNat < distance segment.seq anchor)) :
      Meets s segment 0 (s.place anchor segment.seq segment.window.toNat segment.payload)
  /-- it starts the stream, -/
  | syn (unstarted : s.anchor = none) (syn : segment.flags.toNat &&& synFlag ≠ 0) :
      Meets s segment (segment.payload.size + 1) (.data 0, s.start segment.seq segment.payload)
  /-- does so in the middle of a connection, -/
  | midstream (unstarted : s.anchor = none) :
      Meets s segment segment.payload.size
        (({ s with anchor := some segment.seq } : TcpStream).place segment.seq segment.seq
          segment.window.toNat segment.payload)
  /-- or comes before the start. -/
  | early (unstarted : s.anchor = none) (syn : ¬segment.flags.toNat &&& synFlag ≠ 0)
      (midstream : ¬s.midstream = true) : Meets s segment 0 (.ignored, s)

/-- Bytes that come after the start have their place. -/
theorem takeIn_of_started {anchor : UInt32} (started : s.anchor = some anchor)
    (hsize : segment.payload.size ≠ 0) :
    s.takeIn segment = s.place anchor segment.seq segment.window.toNat segment.payload := by
  have hempty : segment.payload.isEmpty = false := by simpa [ByteView.isEmpty] using hsize
  simp only [takeIn, accept, started, hempty, Bool.false_eq_true, if_false]

/-- Bytes that come before the start are ignored. -/
theorem takeIn_of_early (unstarted : s.anchor = none) (syn : ¬segment.flags.toNat &&& synFlag ≠ 0)
    (midstream : ¬s.midstream = true) : s.takeIn segment = (.ignored, s) := by
  simp only [takeIn, accept, unstarted, if_neg syn, if_neg midstream]

theorem meets (s : TcpStream) {segment : Segment} (hsize : segment.payload.size ≠ 0) :
    s.Meets segment (s.lead segment) (s.takeIn segment) := by
  have hempty : segment.payload.isEmpty = false := by simpa [ByteView.isEmpty] using hsize
  cases started : s.anchor with
  | some anchor =>
    rw [takeIn_of_started started hsize]
    by_cases hnew : distance anchor segment.seq < halfSpace ∨
        segment.window.toNat < distance segment.seq anchor
    · simpa only [lead, started, if_neg hsize, if_pos hnew] using .new started hnew
    · simpa only [lead, started, if_neg hsize, if_neg hnew] using .old started hnew
  | none =>
    by_cases hsyn : segment.flags.toNat &&& synFlag ≠ 0
    · simpa only [lead, takeIn, accept, started, if_neg hsize, if_pos hsyn] using .syn started hsyn
    by_cases hmid : s.midstream = true
    · simpa only [lead, takeIn, accept, started, if_neg hsize, if_neg hsyn, if_pos hmid, hempty,
        Bool.false_eq_true, if_false] using .midstream started
    · rw [takeIn_of_early started hsyn hmid]
      simpa only [lead, started, if_neg hsize, if_neg hsyn, if_neg hmid] using
        .early started hsyn hmid

/-- A segment that moves the anchor is put in at some offset, and the stream ends behind it. -/
theorem takeIn_of_lead_pos (hs : s.Regular) (h : 0 < s.lead segment) :
    ∃ n, s.takeIn segment = (.data n,
        { s with
          anchor := some (segment.seq + UInt32.ofNat (s.lead segment))
          length := n + segment.payload.size
          buffer := s.buffer.put n segment.payload }) ∧
      s.length ≤ n ∧ 0 < segment.payload.size ∧ (s.lead segment = segment.payload.size ∨
        s.lead segment = segment.payload.size + 1 ∧ n = 0 ∧ s.buffer = .empty) := by
  have hsize : segment.payload.size ≠ 0 := by
    intro hzero
    simp only [lead, if_pos hzero, lt_irrefl] at h
  have hpos : 0 < segment.payload.size := Nat.pos_of_ne_zero hsize
  have hmeets := s.meets hsize
  generalize s.lead segment = lead, s.takeIn segment = taken at h hmeets ⊢
  cases hmeets with
  | new started new =>
    exact ⟨_, place_of_new s _ new, Nat.le_add_right _ _, hpos, .inl rfl⟩
  | syn unstarted =>
    have hfresh := hs.unstarted unstarted
    have hnext : segment.seq + 1 + UInt32.ofNat segment.payload.size =
        segment.seq + UInt32.ofNat (segment.payload.size + 1) := by
      rw [UInt32.ofNat_add, UInt32.add_assoc, UInt32.add_comm 1]
      rfl
    refine ⟨0, ?_, by rw [hfresh]; rfl, hpos, .inr ⟨rfl, rfl, by rw [hfresh]; rfl⟩⟩
    rw [start, hnext, Nat.zero_add]
  | midstream =>
    have hself : distance segment.seq segment.seq = 0 := by simp [distance]
    have hnew := place_of_new ({ s with anchor := some segment.seq } : TcpStream) segment.payload
      (.inl (by rw [hself]; decide) : distance segment.seq segment.seq < halfSpace ∨
        segment.window.toNat < distance segment.seq segment.seq)
    rw [hself] at hnew
    exact ⟨s.length, hnew, le_rfl, hpos, .inl rfl⟩
  | old | early => exact absurd h (lt_irrefl 0)

/-- A segment without bytes can only set the anchor. -/
theorem takeIn_of_size_eq_zero (hs : s.Regular) (h : segment.payload.size = 0) :
    ∃ anchor, (s.takeIn segment).2 = { s with anchor := anchor } ∧
      ∀ buffer, (({ s with anchor := anchor, buffer := buffer } : TcpStream).takeIn segment).2 =
        { s with anchor := anchor, buffer := buffer } := by
  have hempty : segment.payload.isEmpty = true := by simpa [ByteView.isEmpty] using h
  have hstarted (anchor : UInt32) (t : TcpStream) (ht : t.anchor = some anchor) :
      (t.takeIn segment).2 = t := by
    simp only [takeIn, accept, ht, hempty, if_true]
  cases hanchor : s.anchor with
  | some anchor =>
    refine ⟨some anchor, ?_, fun buffer => hstarted anchor _ rfl⟩
    rw [hstarted anchor s hanchor, ← hanchor]
  | none =>
    by_cases hsyn : segment.flags.toNat &&& synFlag ≠ 0
    · have hlength : s.length = 0 := by rw [hs.unstarted hanchor]; rfl
      refine ⟨some (segment.seq + 1 + UInt32.ofNat segment.payload.size), ?_,
        fun buffer => hstarted _ _ rfl⟩
      simp only [takeIn, accept, hanchor, if_pos hsyn, start, Reorder.put_of_size_eq_zero h]
      rw [h, hlength]
    by_cases hmid : s.midstream = true
    · refine ⟨some segment.seq, ?_, fun buffer => hstarted _ _ rfl⟩
      simp only [takeIn, accept, hanchor, if_neg hsyn, if_pos hmid, hempty, if_true]
    · refine ⟨none, ?_, fun buffer => ?_⟩
      · rw [takeIn_of_early hanchor hsyn hmid, ← hanchor]
      · exact congrArg Prod.snd
          (takeIn_of_early (s := { s with anchor := none, buffer := buffer }) rfl hsyn hmid)

/-- A segment that does not move the anchor puts in the same bytes when it comes again. -/
theorem takeIn_of_lead_eq_zero (hs : s.Regular) (h : s.lead segment = 0) :
    ∃ anchor offset data, offset + data.size ≤ s.length + segment.payload.size ∧
      (s.takeIn segment).2 = { s with anchor := anchor, buffer := s.buffer.put offset data } ∧
      ∀ buffer, (({ s with anchor := anchor, buffer := buffer } : TcpStream).takeIn segment).2 =
        { s with anchor := anchor, buffer := buffer.put offset data } := by
  by_cases hsize : segment.payload.size = 0
  · have hput : ∀ buffer : Reorder, buffer.put 0 segment.payload = buffer := fun _ =>
      Reorder.put_of_size_eq_zero hsize
    obtain ⟨anchor, hfirst, hagain⟩ := takeIn_of_size_eq_zero hs hsize
    refine ⟨anchor, 0, segment.payload, by omega, ?_, fun buffer => ?_⟩
    · rw [hput, hfirst]
    · rw [hput, hagain buffer]
  · have hmeets := s.meets hsize
    generalize s.lead segment = lead, s.takeIn segment = taken at h hmeets ⊢
    cases hmeets with
    | new | syn | midstream => omega
    | @old anchor started old =>
      obtain ⟨offset, data, hstop, hput⟩ := place_of_old s segment.payload old
      refine ⟨some anchor, offset, data, hstop, ?_, fun buffer => ?_⟩
      · rw [← started]
        exact hput s.buffer
      · rw [takeIn_of_started rfl hsize, ← started]
        exact hput buffer
    | early unstarted syn midstream =>
      have hput : ∀ buffer : Reorder,
          buffer.put 0 (segment.payload.drop segment.payload.size) = buffer := fun _ =>
        Reorder.put_of_size_eq_zero (by rw [size_drop, Nat.sub_self])
      refine ⟨none, 0, segment.payload.drop segment.payload.size, ?_, ?_, fun buffer => ?_⟩
      · rw [size_drop]
        omega
      · rw [hput, ← unstarted]
      · rw [hput]
        exact congrArg Prod.snd
          (takeIn_of_early (s := { s with anchor := none, buffer := buffer }) rfl syn midstream)

/-! ### How far the bytes of a stream reach -/

/-- Bytes that were sent before may end behind the furthest one, but by less than their number. -/
theorem below_takeIn {n : ℕ} (hs : s.Regular) (h : s.buffer.Below (s.length + n))
    (hn : segment.payload.size ≤ n) :
    (s.takeIn segment).2.buffer.Below ((s.takeIn segment).2.length + n) := by
  rcases Nat.eq_zero_or_pos (s.lead segment) with hlead | hlead
  · obtain ⟨anchor, offset, data, hstop, hfirst, -⟩ := takeIn_of_lead_eq_zero hs hlead
    rw [hfirst]
    exact h.put hs.ordered (hstop.trans (Nat.add_le_add_left hn _))
  · obtain ⟨offset, htaken, hle, -, -⟩ := takeIn_of_lead_pos hs hlead
    rw [htaken]
    dsimp only
    refine (h.mono ?_).put hs.ordered ?_ <;> omega

theorem below_fetch {n : ℕ} (hs : s.Regular) (h : s.buffer.Below (s.length + n)) :
    s.fetch.2.buffer.Below (s.fetch.2.length + n) :=
  h.fetch hs.ordered

/-- The segments that were taken in. -/
def segments (calls : List Call) : List Segment :=
  calls.filterMap fun
    | .accept segment => some segment
    | .fetch => none

theorem below_after {n : ℕ} (midstream : Bool) (calls : List Call)
    (hn : ∀ segment ∈ segments calls, segment.payload.size ≤ n) :
    (after midstream calls).buffer.Below ((after midstream calls).length + n) := by
  induction calls using List.reverseRecOn with
  | nil => simp [after, fresh, Reorder.Below]
  | append_singleton calls call ih =>
    rw [segments, List.filterMap_append, List.forall_mem_append] at hn
    obtain ⟨hbefore, hcall⟩ := hn
    have hs := regular_after midstream calls
    rw [after, List.foldl_append]
    cases call with
    | accept segment => exact below_takeIn hs (ih hbefore) (hcall segment (by simp))
    | fetch => exact below_fetch hs (ih hbefore)

/-- A number lies ahead of another by less than the count of all numbers. -/
theorem distance_lt (low high : UInt32) : distance low high < UInt32.size :=
  (high - low).toNat_lt

theorem length_place_le (s : TcpStream) (anchor seq : UInt32) (window : ℕ) (payload : ByteView) :
    (s.place anchor seq window payload).2.length ≤ s.length + (UInt32.size + payload.size) := by
  have hahead := distance_lt anchor seq
  unfold place
  dsimp only
  split
  · dsimp only
    omega
  · split
    · exact Nat.le_add_right _ _
    · split <;> exact Nat.le_add_right _ _

/-- A segment makes a stream longer by less than all numbers and its own bytes. -/
theorem length_takeIn_le (s : TcpStream) (segment : Segment) :
    (s.takeIn segment).2.length ≤ s.length + (UInt32.size + segment.payload.size) := by
  unfold takeIn accept
  split
  · split
    · exact Nat.le_add_right _ _
    · exact length_place_le s _ _ _ _
  · split
    · dsimp only [start]
      omega
    · split
      · dsimp only
        split
        · exact Nat.le_add_right _ _
        · exact length_place_le _ _ _ _ _
      · exact Nat.le_add_right _ _

theorem length_after_le {n : ℕ} (midstream : Bool) (calls : List Call)
    (hn : ∀ segment ∈ segments calls, segment.payload.size ≤ n) :
    (after midstream calls).length ≤ (segments calls).length * (UInt32.size + n) := by
  induction calls using List.reverseRecOn with
  | nil => exact Nat.zero_le _
  | append_singleton calls call ih =>
    rw [segments, List.filterMap_append, List.forall_mem_append] at hn
    obtain ⟨hbefore, hcall⟩ := hn
    rw [after, List.foldl_append, segments, List.filterMap_append, List.length_append, Nat.add_mul]
    cases call with
    | accept segment =>
      calc ((after midstream calls).takeIn segment).2.length
        _ ≤ (after midstream calls).length + (UInt32.size + segment.payload.size) :=
          length_takeIn_le _ segment
        _ ≤ (segments calls).length * (UInt32.size + n) + 1 * (UInt32.size + n) := by
          have := ih hbefore
          have := hcall segment (by simp)
          omega
    | fetch => exact (ih hbefore).trans (Nat.le_add_right _ _)

/-- **Offsets fit into 64 bits** for fewer than `2 ^ 31` segments of fewer than `2 ^ 31` bytes each,
however the numbers wrap around: neither the length of a stream nor the offset of a byte gets further. -/
theorem offsets_fit (midstream : Bool) (calls : List Call)
    (hfew : (segments calls).length < halfSpace)
    (hsmall : ∀ segment ∈ segments calls, segment.payload.size < halfSpace) :
    (after midstream calls).length < UInt64.size ∧ (after midstream calls).buffer.Below UInt64.size := by
  have hsize : ∀ segment ∈ segments calls, segment.payload.size ≤ halfSpace - 1 :=
    fun segment hsegment => Nat.le_sub_one_of_lt (hsmall segment hsegment)
  have hlength : (after midstream calls).length + halfSpace ≤ UInt64.size := by
    have := length_after_le midstream calls hsize
    unfold halfSpace UInt32.size UInt64.size at *
    omega
  refine ⟨?_, (below_after midstream calls hsize).mono ?_⟩ <;> unfold halfSpace at * <;> omega

/-! ### The second copy -/

/-- Seen from the anchor that a segment moved, the segment lies behind by its lead. -/
theorem distance_lead (seq : UInt32) {n : ℕ} (hpos : 0 < n) (hlt : n < UInt32.size) :
    distance seq (seq + UInt32.ofNat n) = n ∧
      distance (seq + UInt32.ofNat n) seq = UInt32.size - n := by
  have hseq := seq.toNat_lt
  simp only [distance, UInt32.toNat_sub, UInt32.toNat_add, UInt32.toNat_ofNat', UInt32.size] at *
  omega

/-- A second copy that changes nothing delivers nothing. -/
theorem receive_of_takeIn_eq (hs : s.Regular) {once : TcpStream} (hfetched : once = s.fetch.2)
    (h : (once.takeIn segment).2 = once) : once.receive segment = ([], once) := by
  rw [receive, h, hfetched]
  have hagain := hs.ordered.fetch_again
  simp only [TcpStream.fetch, hagain]

/-- A second copy changes nothing if the first did not get ahead of it by more than its window. -/
theorem takeIn_again (hs : s.Regular) (h : s.lead segment ≤ segment.window.toNat) :
    ((s.receive segment).2.takeIn segment).2 = (s.receive segment).2 := by
  rcases Nat.eq_zero_or_pos (s.lead segment) with hlead | hlead
  · obtain ⟨anchor, offset, data, -, hfirst, hagain⟩ := takeIn_of_lead_eq_zero hs hlead
    have honce : (s.receive segment).2 =
        { s with anchor := anchor, buffer := (s.buffer.put offset data).fetch.2 } := by
      rw [receive, hfirst]
      rfl
    rw [honce, hagain, hs.ordered.put_again]
  · have hwindow := segment.window.toNat_lt
    obtain ⟨n, htaken, -, hsize, hcase⟩ := takeIn_of_lead_pos hs hlead
    obtain ⟨hbehind, hahead⟩ := distance_lead segment.seq hlead (by
      rw [UInt32.size]
      omega)
    have honce : (s.receive segment).2 =
        { s with
          anchor := some (segment.seq + UInt32.ofNat (s.lead segment))
          length := n + segment.payload.size
          buffer := (s.buffer.put n segment.payload).fetch.2 } := by
      rw [receive, htaken]
      rfl
    have hold : ¬(UInt32.size - s.lead segment < halfSpace ∨
        segment.window.toNat < s.lead segment) := by
      rw [UInt32.size, halfSpace]
      omega
    rw [honce, takeIn_of_started rfl hsize.ne']
    simp only [place, hbehind, hahead, if_neg hold]
    rcases hcase with hcase | ⟨hcase, rfl, hbuffer⟩
    · rw [if_pos (by omega)]
      simp only [show n + segment.payload.size - s.lead segment = n by omega,
        hs.ordered.put_again]
    · -- The number of the SYN lies before the start, and all bytes behind it were delivered.
      have hcursor := Reorder.cursor_fetch_put_empty segment.payload
      have hput : ((s.buffer.put 0 segment.payload).fetch.2).put 0
          (segment.payload.drop (s.lead segment - (0 + segment.payload.size))) =
            (s.buffer.put 0 segment.payload).fetch.2 := by
        refine hs.ordered.put.fetch.put_of_le ?_
        rw [hbuffer, hcursor, size_drop]
        omega
      rw [if_neg (by omega)]
      split
      · rfl
      · simp only [hput]

/-- A second copy is new data if the first got ahead of it by more than its window. -/
theorem takeIn_wrapped (hs : s.Regular) (h : segment.window.toNat < s.lead segment)
    (hlead : s.lead segment < UInt32.size) :
    let once := (s.receive segment).2
    let offset := once.length + (UInt32.size - s.lead segment)
    once.takeIn segment = (.data offset,
      { once with
        anchor := some (segment.seq + UInt32.ofNat segment.payload.size)
        length := offset + segment.payload.size
        buffer := once.buffer.put offset segment.payload }) := by
  intro once offset
  obtain ⟨n, htaken, -, hsize, -⟩ := takeIn_of_lead_pos hs (Nat.zero_lt_of_lt h)
  obtain ⟨hbehind, hahead⟩ := distance_lead segment.seq (Nat.zero_lt_of_lt h) hlead
  have hanchor : once.anchor = some (segment.seq + UInt32.ofNat (s.lead segment)) := by
    simp only [once, receive, htaken]
    rfl
  have hnew := place_of_new once segment.payload (.inr (hbehind.symm ▸ h))
  rw [hahead] at hnew
  rw [takeIn_of_started hanchor hsize.ne']
  exact hnew

/-- **A segment that comes twice changes nothing**, unless the first copy got ahead of it by more than
the window it announces: then the stream gets longer, as its bytes are taken for those of the next
round of numbers. Either way the second copy delivers nothing, as long as the bytes of a segment are
fewer than half the numbers. -/
theorem receive_again (midstream : Bool) (calls : List Call) (segment : Segment) :
    let s := after midstream calls
    let once := (s.receive segment).2
    (s.lead segment ≤ segment.window.toNat → once.receive segment = ([], once)) ∧
      (segment.window.toNat < s.lead segment → s.lead segment < UInt32.size →
        (once.receive segment).2.length =
          once.length + (UInt32.size - s.lead segment) + segment.payload.size) ∧
      ((∀ earlier ∈ segments calls, earlier.payload.size < halfSpace) →
        segment.payload.size < halfSpace → (once.receive segment).1 = []) := by
  intro s once
  have hs : s.Regular := regular_after midstream calls
  have hsettled (h : s.lead segment ≤ segment.window.toNat) : once.receive segment = ([], once) :=
    receive_of_takeIn_eq (hs.takeIn segment) rfl (takeIn_again hs h)
  refine ⟨hsettled, fun h hlead => ?_, fun hsmall hsize => ?_⟩
  · rw [receive, takeIn_wrapped hs h hlead]
    rfl
  · rcases Nat.lt_or_ge segment.window.toNat (s.lead segment) with h | h
    · have hwindow := segment.window.toNat_lt
      obtain ⟨n, -, -, -, hcase⟩ := takeIn_of_lead_pos hs (Nat.zero_lt_of_lt h)
      -- The second copy is put in half the numbers or more behind the furthest byte received.
      have hlead : s.lead segment ≤ halfSpace := by omega
      have hbelow : once.buffer.Below (once.length + (halfSpace - 1)) :=
        below_fetch (hs.takeIn segment) (below_takeIn hs
          (below_after midstream calls fun g hg => Nat.le_sub_one_of_lt (hsmall g hg))
          (Nat.le_sub_one_of_lt hsize))
      have honce : once.buffer.Ordered := ((hs.takeIn segment).fetch).ordered
      have hcursor := hbelow.cursor_le
      rw [receive, takeIn_wrapped hs h (hlead.trans_lt (by decide))]
      refine honce.fetch_put ?_ (Reorder.offset_ne_cursor_fetch (hs.takeIn segment).ordered)
      change once.buffer.cursor < once.length + (UInt32.size - s.lead segment)
      unfold halfSpace at *
      rw [UInt32.size]
      omega
    · rw [hsettled h]

/-- A segment that only has a sequence number, flags, a window and bytes. -/
def plain (seq : UInt32) (flags window : UInt16) (bytes : List UInt8) : Segment :=
  ⟨1, 0, "", ⟨[.confirmed "tcp"]⟩, seq, 0, flags, window, .ofBytes (.packet 1) bytes⟩

/-- Three bytes that announce a window of three change nothing when they come again. -/
theorem receive_again_announced :
    let s := after false [.accept (plain 0 2 1000 [])]
    let once := (s.receive (plain 1 16 3 [97, 98, 99])).2
    s.lead (plain 1 16 3 [97, 98, 99]) = 3 ∧
      once.receive (plain 1 16 3 [97, 98, 99]) = ([], once) := by
  intro s once
  have hlead : s.lead (plain 1 16 3 [97, 98, 99]) = 3 := by decide
  exact ⟨hlead, (receive_again false [.accept (plain 0 2 1000 [])] (plain 1 16 3 [97, 98, 99])).1
    (by rw [hlead]; decide)⟩

/-- Three bytes that announce no window are taken for bytes of the next round of numbers when they
come again. -/
theorem not_receive_again : ¬∀ (midstream : Bool) (calls : List Call) (segment : Segment),
    let once := ((after midstream calls).receive segment).2
    once.receive segment = ([], once) := by
  intro h
  have hlength := congrArg (fun r => r.2.length)
    (h false [.accept (plain 0 2 1000 [])] (plain 1 16 0 [97, 98, 99]))
  exact absurd hlength (by decide)

end TcpStream

end PacketTree
