import PacketTree.Proofs.Reassembly.Anchor

/-!
# How far a stream reaches

The length of a stream is the offset just past its furthest byte, if only segments that move the
anchor bring such bytes. A segment that starts behind the anchor leaves anchor and length alone, and
its bytes are put in all the same; if it is long enough, they end behind the length. This module
proves how far the bytes of a stream reach and what its layers tell of that.

## What is proved

* `below_iff`: the bytes delivered or waiting reach to the length or to the end of the furthest
  segment that left the anchor alone, whichever is further.
* `extent_of_layer`: the layers of a stream tell its length and the sequence number of that offset,
  which cover what was delivered unless a segment that left the anchor alone ended behind them.
* `not_has_lt_length`: without that exception this fails, for six bytes that are sent when the first
  three of them have arrived.

## The model

`Has` says that the byte of an offset was delivered or waits, and `oldStop` where the bytes of a
segment end that leaves the anchor alone. The calls of a stream that is read segment by segment are
`receiving`. As elsewhere, offsets stay below `2 ^ 64` (`offsets_fit`).
-/

namespace PacketTree

namespace Reorder

open Piece

variable {r : Reorder} {offset pos n : ℕ} {data : ByteView}

/-- The byte of an offset was delivered or waits. -/
def Has (r : Reorder) (pos : ℕ) : Prop := pos < r.cursor ∨ Covered r.pending pos

theorem has_put (hr : r.Ordered) :
    (r.put offset data).Has pos ↔ r.Has pos ∨ offset ≤ pos ∧ pos < offset + data.size := by
  rw [Has, Has, cursor_put, covered_put hr, Covers, stop]
  have := Nat.lt_or_ge pos r.cursor
  tauto

theorem has_fetch (hr : r.Ordered) : r.fetch.2.Has pos ↔ r.Has pos := by
  have hcursor : r.cursor ≤ r.fetch.2.cursor := by
    rw [cursor_fetch]
    exact Nat.le_add_right _ _
  rw [Has, Has, covered_fetch hr]
  have := Nat.lt_or_ge pos r.cursor
  have : pos < r.cursor → pos < r.fetch.2.cursor := fun h => h.trans_le hcursor
  tauto

/-- Bytes that are put in reach as far as those before or end themselves. -/
theorem below_put_iff (hr : r.Ordered) :
    (r.put offset data).Below n ↔ r.Below n ∧ (0 < data.size → offset + data.size ≤ n) := by
  constructor
  · intro h
    refine ⟨fun pos hpos => h pos ((has_put hr).mpr (.inl hpos)), fun hsize => ?_⟩
    have hlast := h (offset + data.size - 1) ((has_put hr).mpr (.inr (by omega)))
    omega
  · rintro ⟨hbefore, hstop⟩ pos hpos
    rcases (has_put hr).mp hpos with hhas | ⟨hle, hlt⟩
    · exact hbefore pos hhas
    · exact hlt.trans_le (hstop (by omega))

theorem below_fetch_iff (hr : r.Ordered) : r.fetch.2.Below n ↔ r.Below n :=
  forall_congr' fun _ => imp_congr_left (has_fetch hr)

end Reorder

namespace TcpStream

variable {s : TcpStream} {segment : Segment} {midstream : Bool} {calls : List Call} {n : ℕ}

/-! ### One segment -/

/-- Where the bytes of a segment end that leaves the anchor alone; `0` for any other. -/
def oldStop (s : TcpStream) (segment : Segment) : ℕ :=
  match s.anchor with
  | none => 0
  | some anchor =>
    if 0 < segment.payload.size ∧ s.lead segment = 0 then
      s.length + segment.payload.size - distance segment.seq anchor
    else 0

theorem oldStop_of_lead_pos (h : 0 < s.lead segment) : s.oldStop segment = 0 := by
  unfold oldStop
  split
  · rfl
  · rw [if_neg (by omega)]

theorem oldStop_of_size_eq_zero (h : segment.payload.size = 0) : s.oldStop segment = 0 := by
  unfold oldStop
  split
  · rfl
  · rw [if_neg (by omega)]

/-- A segment that leaves the anchor alone leaves the length alone too. Its bytes are put in so that
they end where they should, and left out only if they all come before the start. -/
theorem takeIn_of_old (hs : s.Regular) (h : s.lead segment = 0) :
    ∃ offset data, (s.takeIn segment).2.length = s.length ∧
      (s.takeIn segment).2.buffer = s.buffer.put offset data ∧
      (0 < data.size → offset + data.size = s.oldStop segment) ∧
      (data.size = 0 → s.oldStop segment = 0) := by
  by_cases hsize : segment.payload.size = 0
  · obtain ⟨anchor, htaken, -⟩ := takeIn_of_size_eq_zero hs hsize
    refine ⟨0, segment.payload, by rw [htaken], ?_, by omega, fun _ => oldStop_of_size_eq_zero hsize⟩
    rw [htaken, Reorder.put_of_size_eq_zero hsize]
  have hstop (anchor : UInt32) (started : s.anchor = some anchor) :
      s.oldStop segment = s.length + segment.payload.size - distance segment.seq anchor := by
    rw [oldStop, started]
    exact if_pos ⟨Nat.pos_of_ne_zero hsize, h⟩
  have hmeets := s.meets hsize
  generalize s.lead segment = lead, s.takeIn segment = taken at h hmeets ⊢
  cases hmeets with
  | new | syn | midstream => omega
  | @old anchor started old =>
    rw [hstop anchor started, place]
    simp only [if_neg old]
    split
    · exact ⟨_, segment.payload, rfl, rfl, by omega, by omega⟩
    · refine ⟨0, segment.payload.drop (distance segment.seq anchor - s.length), ?_, ?_, ?_, ?_⟩
      · split <;> rfl
      · split
        · next hearly =>
          rw [Reorder.put_of_size_eq_zero]
          rw [size_drop]
          omega
        · rfl
      all_goals
        rw [size_drop]
        omega
  | early unstarted =>
    refine ⟨0, segment.payload.drop segment.payload.size, rfl, ?_, ?_, ?_⟩
    · rw [Reorder.put_of_size_eq_zero]
      rw [size_drop, Nat.sub_self]
    · rw [size_drop]
      omega
    · intro
      rw [oldStop, unstarted]

/-- **How far one segment reaches.** If the bytes of a stream reach to its length and to some other
offsets, they do so afterwards, with the end of the segment as one more if it left the anchor alone. -/
theorem below_takeIn_iff (hs : s.Regular) {others : Prop}
    (h : s.buffer.Below n ↔ s.length ≤ n ∧ others) :
    (s.takeIn segment).2.buffer.Below n ↔
      (s.takeIn segment).2.length ≤ n ∧ others ∧ s.oldStop segment ≤ n := by
  rcases Nat.eq_zero_or_pos (s.lead segment) with hlead | hlead
  · obtain ⟨offset, data, hlength, hbuffer, hstop, hnone⟩ := takeIn_of_old hs hlead
    rw [hlength, hbuffer, Reorder.below_put_iff hs.ordered, h, and_assoc]
    refine and_congr_right fun _ => and_congr_right fun _ => ?_
    rcases Nat.eq_zero_or_pos data.size with hdata | hdata
    · have := hnone hdata
      omega
    · rw [hstop hdata, imp_iff_right hdata]
  · obtain ⟨offset, htaken, hle, hsize, -⟩ := takeIn_of_lead_pos hs hlead
    rw [htaken, oldStop_of_lead_pos hlead]
    simp only [Reorder.below_put_iff hs.ordered, h, imp_iff_right hsize, Nat.zero_le, and_true]
    have : offset + segment.payload.size ≤ n → s.length ≤ n := by omega
    tauto

/-! ### Any calls -/

/-- Something holds of every segment that is taken in, together with the calls before it. -/
def Throughout (P : List Call → Segment → Prop) (calls : List Call) : Prop :=
  ∀ before segment, before ++ [.accept segment] <+: calls → P before segment

variable {P : List Call → Segment → Prop}

theorem throughout_nil : Throughout P [] := fun before segment h => by
  simp at h

theorem throughout_accept :
    Throughout P (calls ++ [.accept segment]) ↔ Throughout P calls ∧ P calls segment := by
  simp only [Throughout, List.prefix_concat_iff]
  constructor
  · exact fun h => ⟨fun before segment hp => h before segment (.inr hp), h _ _ (.inl rfl)⟩
  · rintro ⟨hbefore, hlast⟩ before segment (heq | hp)
    · obtain ⟨rfl, hcall⟩ := List.append_inj' heq rfl
      obtain ⟨rfl⟩ := hcall
      exact hlast
    · exact hbefore before segment hp

theorem throughout_fetch : Throughout P (calls ++ [.fetch]) ↔ Throughout P calls := by
  simp only [Throughout, List.prefix_concat_iff]
  refine forall_congr' fun before => forall_congr' fun segment => imp_congr_left ?_
  refine or_iff_right fun heq => ?_
  obtain ⟨-, hcall⟩ := List.append_inj' heq rfl
  simp at hcall

theorem Throughout.of_prefix {before : List Call} (h : Throughout P calls) (hp : before <+: calls) :
    Throughout P before := fun _ _ hbefore => h _ _ (hbefore.trans hp)

/-- All segments that left the anchor alone end before an offset. -/
def OldWithin (midstream : Bool) (calls : List Call) (n : ℕ) : Prop :=
  ∀ before segment, before ++ [.accept segment] <+: calls →
    (after midstream before).oldStop segment ≤ n

theorem oldWithin_nil : OldWithin midstream [] n := throughout_nil

theorem oldWithin_accept : OldWithin midstream (calls ++ [.accept segment]) n ↔
    OldWithin midstream calls n ∧ (after midstream calls).oldStop segment ≤ n := throughout_accept

theorem oldWithin_fetch :
    OldWithin midstream (calls ++ [.fetch]) n ↔ OldWithin midstream calls n := throughout_fetch

/-- **How far the bytes of a stream reach**: to its length and to the end of the furthest segment
that left the anchor alone, and no further. -/
theorem below_iff (midstream : Bool) (calls : List Call) (n : ℕ) :
    (after midstream calls).buffer.Below n ↔
      (after midstream calls).length ≤ n ∧ OldWithin midstream calls n := by
  induction calls using List.reverseRecOn with
  | nil => simp [after, fresh, Reorder.Below, oldWithin_nil]
  | append_singleton calls call ih =>
    have hs := regular_after midstream calls
    rw [after_concat]
    cases call with
    | accept segment =>
      rw [oldWithin_accept]
      exact below_takeIn_iff hs ih
    | fetch =>
      rw [oldWithin_fetch]
      exact (Reorder.below_fetch_iff hs.ordered).trans ih

/-- Some byte at the end of the length was received. -/
theorem has_of_length_pos (midstream : Bool) (calls : List Call)
    (h : 0 < (after midstream calls).length) :
    ∃ pos, (after midstream calls).buffer.Has pos ∧ (after midstream calls).length ≤ pos + 1 := by
  by_contra! hnone
  have hbelow : (after midstream calls).buffer.Below ((after midstream calls).length - 1) :=
    fun pos hpos => by
      have := hnone pos hpos
      omega
  have := ((below_iff midstream calls _).mp hbelow).1
  omega

/-! ### Reading segment by segment -/

/-- The calls that take in segments, with the bytes fetched behind each. -/
def receiving (segments : List Segment) : List Call :=
  segments.flatMap fun segment => [.accept segment, .fetch]

theorem receiving_concat (segments : List Segment) (segment : Segment) :
    receiving (segments ++ [segment]) = receiving segments ++ [.accept segment] ++ [.fetch] := by
  simp [receiving]

theorem reading_concat (midstream : Bool) (segments : List Segment) (segment : Segment) :
    Reading.after midstream (segments ++ [segment]) =
      (Reading.after midstream segments).take segment := by
  rw [Reading.after, List.foldl_append]
  rfl

/-- A reader makes the calls of the segments it reads. -/
theorem stream_after (midstream : Bool) (segments : List Segment) :
    (Reading.after midstream segments).stream = after midstream (receiving segments) := by
  induction segments using List.reverseRecOn with
  | nil => rfl
  | append_singleton segments segment ih =>
    rw [reading_concat, receiving_concat, after_concat, after_concat, ← ih]
    rfl

/-- Taking in a segment delivers nothing. -/
theorem cursor_takeIn (hs : s.Regular) (segment : Segment) :
    (s.takeIn segment).2.buffer.cursor = s.buffer.cursor := by
  rcases Nat.eq_zero_or_pos (s.lead segment) with hlead | hlead
  · obtain ⟨offset, data, -, hbuffer, -⟩ := takeIn_of_old hs hlead
    rw [hbuffer, Reorder.cursor_put]
  · obtain ⟨offset, htaken, -⟩ := takeIn_of_lead_pos hs hlead
    rw [htaken, Reorder.cursor_put]

/-- The cursor counts the bytes of the layers. -/
theorem length_bytes (midstream : Bool) (segments : List Segment) :
    (Reading.after midstream segments).bytes.length =
      (Reading.after midstream segments).stream.buffer.cursor := by
  induction segments using List.reverseRecOn with
  | nil => rfl
  | append_singleton segments segment ih =>
    have hs := regular_after midstream (receiving segments)
    rw [← stream_after] at hs
    have hcursor := cursor_takeIn hs segment
    rw [reading_concat, bytes_take, List.length_append, ih, stream_take, ← hcursor]
    exact Reorder.cursor_fetch.symm

/-- A layer is found where bytes are delivered, and made of the stream behind them. -/
theorem exists_of_analyze_eq_some {l : Layer} (h : (s.analyze segment).2 = some l) :
    (s.receive segment).1 ≠ [] ∧
      ∃ start, l = layer segment start (s.receive segment).1 (s.receive segment).2 := by
  change (if (s.receive segment).1.isEmpty then none else some _) = some l at h
  split at h
  · simp at h
  · next hrun => exact ⟨mt List.isEmpty_iff.mpr hrun, _, (Option.some.inj h).symm⟩

/-- Nothing is delivered before the start. -/
theorem base?_of_receive_ne_nil {segments : List Segment}
    (h : ((after midstream (receiving segments)).receive segment).1 ≠ []) :
    ∃ b, base? midstream (receiving (segments ++ [segment])) = some b := by
  by_contra! hnone
  rw [receiving_concat] at hnone
  have hbase := Option.eq_none_iff_forall_ne_some.mpr hnone
  rw [base?_concat, Option.or_eq_none_iff] at hbase
  have hstream := after_of_base?_eq_none hbase.1
  rw [after_concat] at hstream
  refine h ?_
  rw [receive, show ((after midstream (receiving segments)).takeIn segment).2 = _ from hstream]
  rfl

/-- What is delivered has bytes. -/
theorem cursor_pos_of_receive_ne_nil (hs : s.Regular) (h : (s.receive segment).1 ≠ []) :
    0 < (s.receive segment).2.buffer.cursor := by
  have hbytes := mt (hs.takeIn segment).ordered.fetch_eq_nil h
  have hcursor : (s.receive segment).2.buffer.cursor = _ := Reorder.cursor_fetch
  have := List.length_pos_iff.mpr hbytes
  omega

/-- **What the layers of a stream tell of its extent.** The bytes delivered or waiting reach to the
length and to the end of the furthest segment that left the anchor alone. Each layer tells the length
and the sequence number of that offset; if no segment that left the anchor alone ended behind the
length, this covers all bytes delivered, and the number follows that of the furthest byte received. -/
theorem extent_of_layer (midstream : Bool) :
    (∀ calls n, (after midstream calls).buffer.Below n ↔
      (after midstream calls).length ≤ n ∧ OldWithin midstream calls n) ∧
    ∀ segments segment l, ((Reading.after midstream segments).stream.analyze segment).2 = some l →
      let calls := receiving (segments ++ [segment])
      let r := Reading.after midstream (segments ++ [segment])
      r.stream = after midstream calls ∧ r.layers = (Reading.after midstream segments).layers ++ [l] ∧
      r.bytes.length = r.stream.buffer.cursor ∧
      l.property? "length" = some { id := "length", value := .ofNat r.stream.length } ∧
      ∃ b, base? midstream calls = some b ∧
        l.property? "lastSeq" = some
          { id := "lastSeq", value := .ofNat (b + UInt32.ofNat r.stream.length).toNat } ∧
        (OldWithin midstream calls r.stream.length →
          r.bytes.length ≤ r.stream.length ∧
            IsGreatest {pos | r.stream.buffer.Has pos} (r.stream.length - 1)) := by
  refine ⟨below_iff midstream, fun segments segment l hlayer => ?_⟩
  intro calls r
  have hstream : r.stream = after midstream calls := stream_after midstream _
  have hreceive : r.stream = ((Reading.after midstream segments).stream.receive segment).2 := by
    rw [show r = _ from reading_concat midstream segments segment]
    rfl
  have hbytes : r.bytes.length = r.stream.buffer.cursor := length_bytes midstream _
  have hlayers : r.layers = (Reading.after midstream segments).layers ++ [l] := by
    rw [show r = _ from reading_concat midstream segments segment, Reading.take, hlayer]
    rfl
  obtain ⟨hrun, start, hl⟩ := exists_of_analyze_eq_some hlayer
  rw [← hreceive] at hl
  rw [stream_after] at hrun
  obtain ⟨b, hb⟩ := base?_of_receive_ne_nil hrun
  have hanchor : r.stream.anchor = some (b + UInt32.ofNat r.stream.length) := by
    rw [hstream]
    exact anchored_of_base? hb
  have hcursor : 0 < r.stream.buffer.cursor := by
    rw [hreceive, stream_after]
    exact cursor_pos_of_receive_ne_nil (regular_after _ _) hrun
  refine ⟨hstream, hlayers, hbytes, by rw [hl]; rfl, b, hb, ?_, fun hold => ?_⟩
  · rw [hl, Layer.property?, layer, hanchor]
    rfl
  · rw [hstream] at hold hcursor hbytes ⊢
    have hbelow := (below_iff midstream calls _).mpr ⟨le_rfl, hold⟩
    have hcovers := hbelow.cursor_le
    obtain ⟨pos, hpos, hle⟩ := has_of_length_pos midstream calls (hcursor.trans_le hcovers)
    have hlt := hbelow pos hpos
    refine ⟨hbytes.trans_le hcovers, ?_, fun other hother => Nat.le_sub_one_of_lt (hbelow other hother)⟩
    rwa [show (after midstream calls).length - 1 = pos by omega]

/-- The layer of the first three bytes of a stream. -/
theorem extent_of_layer_three :
    let r := Reading.after false ([plain 0 2 1000 []] ++ [plain 1 16 1000 [97, 98, 99]])
    ∃ l, ((Reading.after false [plain 0 2 1000 []]).stream.analyze
        (plain 1 16 1000 [97, 98, 99])).2 = some l ∧
      l.property? "length" = some { id := "length", value := .ofNat 3 } ∧
      l.property? "lastSeq" = some { id := "lastSeq", value := .ofNat 4 } ∧
      r.bytes.length ≤ 3 ∧ IsGreatest {pos | r.stream.buffer.Has pos} 2 := by
  intro r
  obtain ⟨-, hlayer⟩ := extent_of_layer false
  obtain ⟨-, -, -, hlength, b, hbase, hseq, hcovers⟩ :=
    hlayer [plain 0 2 1000 []] (plain 1 16 1000 [97, 98, 99]) _ rfl
  have hold : OldWithin false (receiving ([plain 0 2 1000 []] ++ [plain 1 16 1000 [97, 98, 99]])) 3 := by
    rw [receiving_concat, oldWithin_fetch, oldWithin_accept, ← List.nil_append [plain 0 2 1000 []],
      receiving_concat, oldWithin_fetch, oldWithin_accept]
    exact ⟨⟨oldWithin_nil, by decide⟩, by decide⟩
  obtain rfl : (1 : UInt32) = b := Option.some.inj hbase
  exact ⟨_, rfl, hlength, hseq, hcovers hold⟩

/-- Six bytes that are sent when the first three of them have arrived leave the anchor alone, and
three of them are delivered behind the length. -/
theorem not_has_lt_length : ¬∀ (midstream : Bool) (calls : List Call) (pos : ℕ),
    (after midstream calls).buffer.Has pos → pos < (after midstream calls).length := by
  intro h
  have hlt := h false [.accept (plain 0 2 1000 []), .accept (plain 1 16 1000 [97, 98, 99]),
    .accept (plain 1 16 1000 [97, 98, 99, 100, 101, 102]), .fetch] 5 (.inl (by decide))
  exact absurd hlt (by decide)

end TcpStream

end PacketTree
