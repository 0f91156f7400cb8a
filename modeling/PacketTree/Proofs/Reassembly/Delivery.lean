import Mathlib.Order.Bounds.Basic
import PacketTree.Proofs.Reassembly.Conservation
import PacketTree.Reassembly.TcpWorker

/-!
# A stream delivers what was sent

A sender has a byte for every offset, also for those before the start of the stream, and sends
stretches of its bytes in segments: in any order, again and again, overlapping and with gaps. A
segment says where its stretch lies by a sequence number of thirty-two bits only. This module proves
that the layers found in the stream carry the bytes of the sender from offset `0` on, and as many of
them as are there without a gap.

## What is proved

* `delivered_sent`: after every segment the bytes of all layers are the sender's, up to the first
  offset that no segment covered; and a segment gives a layer exactly if it moves that offset.
* `accept_placed`: a segment that lies in the window is put in at its true offset, the part before
  the start of the stream cut off.

## The model

`Sent` says which segments may come after which: each carries a stretch of the sender, and lies
ahead of the furthest byte received by less than the space of sequence numbers, or behind it by at
most the window it announces, as the numbers could not tell more. `Reading` is a stream together
with the layers found in it. Its invariant `Reading.Faithful` says that the anchor is the sequence
number of the offset `length`, and that every byte, delivered or waiting, is the sender's.
-/

namespace PacketTree

namespace TcpStream

/-! ### What is sent -/

/-- The bytes of the sender from an offset on. -/
def stretch (T : ℤ → UInt8) (a : ℤ) (n : ℕ) : List UInt8 := (List.range n).map fun i : ℕ => T (a + i)

/-- A segment carries the bytes of the sender from the offset `a` on, if those from `0` on have the
sequence number `b`. -/
structure Carries (T : ℤ → UInt8) (b : UInt32) (a : ℤ) (segment : Segment) : Prop where
  /-- The sequence number is that of the first byte. -/
  seq : (segment.seq.toNat : ℤ) = (b.toNat + a) % UInt32.size
  /-- The bytes are the sender's. -/
  payload : segment.payload.toList = stretch T a segment.payload.size

/-- A segment lies close enough to the furthest byte received for its number to tell its offset. -/
def InWindow (received : ℕ) (a : ℤ) (segment : Segment) : Prop :=
  -(segment.window.toNat : ℤ) ≤ a - received ∧
    a - received < UInt32.size - (segment.window.toNat : ℤ)

instance (received : ℕ) (a : ℤ) (segment : Segment) : Decidable (InWindow received a segment) :=
  inferInstanceAs (Decidable (_ ∧ _))

/-- A stream and the layers found in it. -/
structure Reading where
  /-- The stream. -/
  stream : TcpStream
  /-- The layers in the order in which they were found. -/
  layers : List Layer := []

namespace Reading

/-- Takes in a segment. -/
def take (r : Reading) (segment : Segment) : Reading where
  stream := (r.stream.analyze segment).1
  layers := r.layers ++ (r.stream.analyze segment).2.toList

/-- What a new stream makes of some segments. -/
def after (midstream : Bool) (segments : List Segment) : Reading :=
  segments.foldl take ⟨fresh midstream, []⟩

/-- The bytes of all layers, one behind the other. -/
def bytes (r : Reading) : List UInt8 := r.layers.flatMap fun l => l.payload.toList

end Reading

/-- Segments, with the offsets of their bytes, that a stream may be given one after the other. -/
inductive Sent (T : ℤ → UInt8) (b : UInt32) (midstream : Bool) : List (ℤ × Segment) → Prop where
  /-- The first segment of a connection, whose number counts for one byte before the others. -/
  | opening {segment : Segment} (flags : segment.flags.toNat &&& synFlag ≠ 0)
      (seq : segment.seq + 1 = b)
      (payload : segment.payload.toList = stretch T 0 segment.payload.size) :
      Sent T b midstream [(0, segment)]
  /-- The first segment that is seen of a connection. -/
  | joining {segment : Segment} (allowed : midstream = true)
      (flags : segment.flags.toNat &&& synFlag = 0) (carries : Carries T b 0 segment) :
      Sent T b midstream [(0, segment)]
  /-- A further segment. -/
  | more {sent : List (ℤ × Segment)} {a : ℤ} {segment : Segment} (before : Sent T b midstream sent)
      (carries : Carries T b a segment)
      (near : InWindow (Reading.after midstream (sent.map Prod.snd)).stream.length a segment) :
      Sent T b midstream (sent ++ [(a, segment)])

/-- Some segment carried the byte of an offset. -/
def Received (sent : List (ℤ × Segment)) (pos : ℕ) : Prop :=
  ∃ x ∈ sent, x.1 ≤ pos ∧ (pos : ℤ) < x.1 + x.2.payload.size

/-- The numbers of bytes from the start of the stream on that were all received. -/
def receivedPrefixes (sent : List (ℤ × Segment)) : Set ℕ := {n | ∀ pos < n, Received sent pos}

/-! ### Stretches -/

variable {T : ℤ → UInt8} {b : UInt32} {a : ℤ} {midstream : Bool}

@[simp] theorem length_stretch (T : ℤ → UInt8) (a : ℤ) (n : ℕ) : (stretch T a n).length = n := by
  simp [stretch]

theorem getElem?_stretch {n i : ℕ} (h : i < n) : (stretch T a n)[i]? = some (T (a + i)) := by
  simp [stretch, h]

theorem stretch_add (T : ℤ → UInt8) (a : ℤ) (m n : ℕ) :
    stretch T a (m + n) = stretch T a m ++ stretch T (a + m) n := by
  rw [stretch, List.range_add, List.map_append, List.map_map]
  congr 1
  refine List.map_congr_left fun i _ => ?_
  simp only [Function.comp, Int.natCast_add, Int.add_assoc]

/-- Bytes that are the sender's one by one are a stretch. -/
theorem eq_stretch {l : List UInt8} (h : ∀ (i : ℕ) v, l[i]? = some v → v = T (a + i)) :
    l = stretch T a l.length := by
  refine List.ext_getElem (by simp) fun i hi _ => ?_
  rw [h i l[i] (List.getElem?_eq_getElem hi)]
  exact (Option.some.inj ((List.getElem?_eq_getElem _).symm.trans (getElem?_stretch hi))).symm

/-! ### Placing a segment -/

/-- The piece of the stream that a segment from the offset `a` on brings: the part of its bytes that
lies in the stream. -/
def pieceAt (a : ℤ) (payload : ByteView) : Piece := ⟨a.toNat, payload.drop (-a).toNat⟩

theorem size_drop (v : ByteView) (n : ℕ) : (v.drop n).size = v.size - n := by
  rw [← ByteView.length_toList, ByteView.toList_drop, List.length_drop, ByteView.length_toList]

@[simp] theorem drop_zero (v : ByteView) : v.drop 0 = v := by
  ext <;> simp [ByteView.drop]

theorem covers_pieceAt {payload : ByteView} {pos : ℕ} :
    (pieceAt a payload).Covers pos ↔ a ≤ pos ∧ (pos : ℤ) < a + payload.size := by
  unfold Piece.Covers Piece.stop pieceAt
  simp only [size_drop]
  omega

/-- Every byte of such a piece is the sender's. -/
theorem byte?_pieceAt {payload : ByteView} (hp : payload.toList = stretch T a payload.size)
    {pos : ℕ} {v : UInt8} (h : (pieceAt a payload).byte? pos = some v) : v = T pos := by
  have hcov := Piece.covers_iff_exists_byte?.mpr ⟨v, h⟩
  have hc := covers_pieceAt.mp hcov
  have hbytes : (pieceAt a payload).data.toList = (stretch T a payload.size).drop (-a).toNat := by
    rw [pieceAt, ByteView.toList_drop, hp]
  have hoffset : (pieceAt a payload).offset = a.toNat := rfl
  rw [Piece.byte?, if_pos hcov.1, hbytes, hoffset, List.getElem?_drop,
    getElem?_stretch (by omega), Option.some.injEq] at h
  rw [← h]
  congr 1
  omega

/-- A stream whose anchor is the sequence number of the offset `length`. -/
def Anchored (b : UInt32) (s : TcpStream) : Prop := s.anchor = some (b + UInt32.ofNat s.length)

theorem distance_cast (low high : UInt32) :
    (distance low high : ℤ) = ((high.toNat : ℤ) - low.toNat) % UInt32.size := by
  have h₁ := low.toNat_lt
  have h₂ := high.toNat_lt
  rw [distance, UInt32.toNat_sub, UInt32.size]
  omega

theorem toNat_anchor (b : UInt32) (n : ℕ) :
    ((b + UInt32.ofNat n).toNat : ℤ) = ((b.toNat : ℤ) + n) % UInt32.size := by
  rw [UInt32.toNat_add, UInt32.toNat_ofNat', UInt32.size]
  omega

/-- Behind a segment that lies ahead, the anchor is again the number of the furthest offset. -/
theorem anchor_ahead {seq : UInt32} {n : ℕ} (hseq : (seq.toNat : ℤ) = (b.toNat + a) % UInt32.size)
    (ha : 0 ≤ a) : seq + UInt32.ofNat n = b + UInt32.ofNat (a.toNat + n) := by
  refine UInt32.toNat_inj.mp ?_
  have h := toNat_anchor b (a.toNat + n)
  rw [UInt32.toNat_add, UInt32.toNat_ofNat']
  rw [UInt32.size] at h hseq
  omega

/-- A segment is placed at its true offset, whatever its number wraps around, and the anchor stays
the number of the furthest offset. -/
theorem place_placed {s : TcpStream} {anchor seq : UInt32} {window : ℕ} {payload : ByteView}
    (hanchor : anchor = b + UInt32.ofNat s.length) (hs : s.anchor = some anchor)
    (hseq : (seq.toNat : ℤ) = (b.toNat + a) % UInt32.size)
    (hw : window < halfSpace) (hlow : -(window : ℤ) ≤ a - s.length)
    (hhigh : a - s.length < UInt32.size - (window : ℤ)) :
    (s.place anchor seq window payload).2.buffer =
        s.buffer.put (pieceAt a payload).offset (pieceAt a payload).data ∧
      Anchored b (s.place anchor seq window payload).2 := by
  have hn := toNat_anchor b s.length
  have hahead := distance_cast anchor seq
  have hbehind := distance_cast seq anchor
  rw [← hanchor] at hn
  rw [hseq, hn] at hahead hbehind
  unfold halfSpace at hw
  rw [UInt32.size] at *
  unfold place halfSpace pieceAt
  dsimp only
  rcases le_or_gt 0 (a - s.length) with hd | hd
  · -- The segment lies ahead, by `a - s.length`.
    have : (distance anchor seq : ℤ) = a - s.length := by omega
    rw [if_pos (by omega), show s.length + distance anchor seq = a.toNat by omega,
      show (-a).toNat = 0 by omega, drop_zero]
    exact ⟨rfl, congrArg some (anchor_ahead hseq (by omega))⟩
  · -- It lies behind, by `s.length - a`.
    have : (distance seq anchor : ℤ) = s.length - a := by omega
    rw [if_neg (by omega)]
    have hanch : Anchored b s := hs.trans (congrArg some hanchor)
    split
    · rw [show s.length - distance seq anchor = a.toNat by omega,
        show (-a).toNat = 0 by omega, drop_zero]
      exact ⟨rfl, hanch⟩
    · rw [show distance seq anchor - s.length = (-a).toNat by omega, show a.toNat = 0 by omega]
      split
      · exact ⟨(Reorder.put_of_size_eq_zero (by rw [size_drop]; omega)).symm, hanch⟩
      · exact ⟨rfl, hanch⟩

/-- A segment in the window is taken in at its true offset. -/
theorem accept_placed {s : TcpStream} {segment : Segment} (hs : Anchored b s)
    (hc : Carries T b a segment) (hw : InWindow s.length a segment) :
    let next := (s.accept segment.seq segment.flags.toNat segment.window.toNat segment.payload).2
    next.buffer =
        s.buffer.put (pieceAt a segment.payload).offset (pieceAt a segment.payload).data ∧
      Anchored b next := by
  intro next
  have hnext : next =
      (if segment.payload.isEmpty then (Admission.empty, s)
        else s.place (b + UInt32.ofNat s.length) segment.seq segment.window.toNat
          segment.payload).2 := by
    rw [Anchored] at hs
    simp only [next, accept, hs]
  rw [hnext]
  split
  · next he =>
    have hz : segment.payload.size = 0 := by simpa [ByteView.isEmpty] using he
    refine ⟨(Reorder.put_of_size_eq_zero ?_).symm, hs⟩
    rw [pieceAt, size_drop]
    omega
  · have := segment.window.toNat_lt
    exact place_placed rfl hs hc.seq (by unfold halfSpace; omega) hw.1 hw.2

/-! ### Taking in a segment -/

theorem stream_take (r : Reading) (segment : Segment) :
    (r.take segment).stream = (r.stream.accept segment.seq segment.flags.toNat
      segment.window.toNat segment.payload).2.fetch.2 := rfl

/-- Taking in a segment keeps the waiting pieces apart. -/
theorem ordered_accept {s : TcpStream} (h : s.buffer.Ordered) (seq : UInt32) (flags window : ℕ)
    (payload : ByteView) : (s.accept seq flags window payload).2.buffer.Ordered := by
  have hplace : ∀ (t : TcpStream) (anchor : UInt32), t.buffer.Ordered →
      (t.place anchor seq window payload).2.buffer.Ordered := by
    intro t anchor ht
    rw [place]
    dsimp only
    split
    · exact ht.put
    · split
      · exact ht.put
      · split
        · exact ht
        · exact ht.put
  unfold accept
  split
  · split
    · exact h
    · exact hplace s _ h
  · split
    · exact h.put
    · split
      · dsimp only
        split
        · exact h
        · exact hplace _ _ h
      · exact h

/-- A segment gives a layer of what is fetched behind it, if that is anything. -/
theorem layers_take (r : Reading) (segment : Segment) :
    let run := (r.stream.accept segment.seq segment.flags.toNat segment.window.toNat
      segment.payload).2.buffer.fetch.1
    (run = [] ∧ (r.take segment).layers = r.layers) ∨
      (run ≠ [] ∧ ∃ l, (r.take segment).layers = r.layers ++ [l] ∧
        l.payload.toList = run.flatMap ByteView.toList) := by
  intro run
  by_cases h : run = []
  · refine .inl ⟨h, ?_⟩
    have hnone : (r.stream.analyze segment).2 = none := if_pos (List.isEmpty_iff.mpr h)
    rw [Reading.take, hnone]
    exact List.append_nil _
  · refine .inr ⟨h, ?_⟩
    have hsome : (r.stream.analyze segment).2 = some _ := if_neg (mt List.isEmpty_iff.mp h)
    rw [Reading.take, hsome]
    exact ⟨_, rfl, ByteView.toList_join _ _⟩

theorem bytes_take (r : Reading) (segment : Segment) :
    (r.take segment).bytes = r.bytes ++ (r.stream.accept segment.seq segment.flags.toNat
      segment.window.toNat segment.payload).2.buffer.fetch.1.flatMap ByteView.toList := by
  unfold Reading.bytes
  rcases layers_take r segment with ⟨hrun, h⟩ | ⟨-, l, h, hl⟩
  · rw [h, hrun, List.flatMap_nil, List.append_nil]
  · rw [h, List.flatMap_append, List.flatMap_singleton, hl]

/-! ### The invariant -/

/-- All bytes of a stream are the sender's, and none that was received is missing. -/
structure Reading.Faithful (T : ℤ → UInt8) (sent : List (ℤ × Segment)) (r : Reading) : Prop where
  /-- The waiting pieces are apart and behind the cursor. -/
  ordered : r.stream.buffer.Ordered
  /-- None of them is next. -/
  fetched : ∀ p ∈ r.stream.buffer.pending, p.offset ≠ r.stream.buffer.cursor
  /-- The layers carry the sender's bytes up to the cursor. -/
  bytes : r.bytes = stretch T 0 r.stream.buffer.cursor
  /-- The waiting bytes are the sender's. -/
  waiting : ∀ pos v, Piece.Shows r.stream.buffer.pending pos v → v = T pos
  /-- What was received was delivered or waits. -/
  positions : ∀ pos, pos < r.stream.buffer.cursor ∨ Piece.Covered r.stream.buffer.pending pos ↔
    Received sent pos

variable {r : Reading} {sent before : List (ℤ × Segment)} {segment : Segment}

theorem received_append {x : ℤ × Segment} {pos : ℕ} :
    Received (sent ++ [x]) pos ↔ Received sent pos ∨ (pieceAt x.1 x.2.payload).Covers pos := by
  rw [covers_pieceAt]
  simp only [Received, List.mem_append, List.mem_singleton, or_and_right, exists_or,
    exists_eq_left]

theorem Reading.faithful_fresh : Reading.Faithful T [] ⟨fresh midstream, []⟩ where
  ordered := Reorder.ordered_empty
  fetched := by simp [fresh]
  bytes := rfl
  waiting := by simp [fresh]
  positions := by simp [fresh, Received]

/-- The cursor is the number of bytes that were received without a gap. -/
theorem Reading.Faithful.isGreatest (hr : r.Faithful T sent) :
    IsGreatest (receivedPrefixes sent) r.stream.buffer.cursor := by
  refine ⟨fun pos hpos => (hr.positions pos).mp (.inl hpos), fun n hn => ?_⟩
  by_contra hlt
  rcases (hr.positions _).mpr (hn r.stream.buffer.cursor (by omega)) with h | ⟨p, hp, hle, -⟩
  · omega
  · exact hr.fetched p hp (le_antisymm hle (hr.ordered.start_le p hp))

/-- What was received with the next segment, taken in at its offset and fetched from. -/
theorem Reading.Faithful.take {next : TcpStream} {x : ℤ × Segment} (hr : r.Faithful T sent)
    (hp : x.2.payload.toList = stretch T x.1 x.2.payload.size)
    (hnext : (r.stream.accept x.2.seq x.2.flags.toNat x.2.window.toNat x.2.payload).2 = next)
    (hbuffer : next.buffer =
      r.stream.buffer.put (pieceAt x.1 x.2.payload).offset (pieceAt x.1 x.2.payload).data) :
    (r.take x.2).Faithful T (sent ++ [x]) := by
  have ho : next.buffer.Ordered := hbuffer ▸ hr.ordered.put
  have hc : next.buffer.cursor = r.stream.buffer.cursor := by rw [hbuffer, Reorder.cursor_put]
  have hw : ∀ pos v, Piece.Shows next.buffer.pending pos v → v = T pos := by
    intro pos v hv
    rw [hbuffer] at hv
    rcases Reorder.shows_of_put hr.ordered hv with hv | hv
    · exact hr.waiting pos v hv
    · exact byte?_pieceAt hp hv
  have hstream : (r.take x.2).stream.buffer = next.buffer.fetch.2 := by
    rw [stream_take, hnext]
    rfl
  have hbytes := bytes_take r x.2
  rw [hnext] at hbytes
  have hcur : next.buffer.fetch.2.cursor = r.stream.buffer.cursor +
      (next.buffer.fetch.1.flatMap ByteView.toList).length := hc ▸ Reorder.cursor_fetch
  constructor
  · rw [hstream]
    exact ho.fetch
  · rw [hstream]
    exact Reorder.offset_ne_cursor_fetch ho
  · rw [hbytes, hstream, hr.bytes, hcur]
    rw [stretch_add, ← eq_stretch fun i v hv => ?_]
    have := hw _ v (Reorder.shows_of_fetch hv)
    rw [this, hc]
    congr 1
    omega
  · intro pos v hv
    rw [hstream] at hv
    exact hw pos v (Reorder.shows_pending_of_fetch hv)
  · intro pos
    have hput : Piece.Covered (r.stream.buffer.put (pieceAt x.1 x.2.payload).offset
        (pieceAt x.1 x.2.payload).data).pending pos ↔ _ := Reorder.covered_put hr.ordered
    rw [← hbuffer, Reorder.covered_fetch ho, hc] at hput
    rw [hstream, received_append, ← hr.positions pos]
    by_cases hlt : pos < r.stream.buffer.cursor
    · have : pos < next.buffer.fetch.2.cursor := by omega
      tauto
    · have : r.stream.buffer.cursor ≤ pos := by omega
      tauto

/-! ### Runs -/

theorem after_append (midstream : Bool) (before : List (ℤ × Segment)) (x : ℤ × Segment) :
    Reading.after midstream ((before ++ [x]).map Prod.snd) =
      (Reading.after midstream (before.map Prod.snd)).take x.2 := by
  rw [Reading.after, List.map_append, List.foldl_append]
  rfl

/-- The first segment of a connection is taken in at offset `0`. -/
theorem accept_opening (midstream : Bool) (hf : segment.flags.toNat &&& synFlag ≠ 0)
    (hs : segment.seq + 1 = b) :
    let next := ((fresh midstream).accept segment.seq segment.flags.toNat segment.window.toNat
      segment.payload).2
    next.buffer = (fresh midstream).buffer.put (pieceAt 0 segment.payload).offset
        (pieceAt 0 segment.payload).data ∧
      Anchored b next := by
  intro next
  have hnext : next = (fresh midstream).start segment.seq segment.payload := by
    simp only [next, accept, fresh, if_pos hf]
  have hdata : (pieceAt 0 segment.payload).data = segment.payload := drop_zero segment.payload
  rw [hnext, hdata, Anchored, start, ← hs]
  exact ⟨rfl, rfl⟩

/-- In the middle of a connection the first segment sets the anchor and is then taken in. -/
theorem accept_joining (hf : segment.flags.toNat &&& synFlag = 0) (hc : Carries T b 0 segment) :
    let next := ((fresh true).accept segment.seq segment.flags.toNat segment.window.toNat
      segment.payload).2
    next.buffer = (fresh true).buffer.put (pieceAt 0 segment.payload).offset
        (pieceAt 0 segment.payload).data ∧
      Anchored b next := by
  intro next
  have hb : segment.seq = b := by
    have := b.toNat_lt
    have hseq := hc.seq
    rw [UInt32.size] at hseq
    exact UInt32.toNat_inj.mp (by omega)
  have hw := segment.window.toNat_lt
  have hnear : InWindow 0 0 segment := by
    rw [InWindow, UInt32.size]
    omega
  have hanchored : Anchored b { fresh true with anchor := some segment.seq } := by
    rw [hb]
    exact congrArg some (UInt32.add_zero b).symm
  have hnext : next = (({ fresh true with anchor := some segment.seq } : TcpStream).accept
      segment.seq segment.flags.toNat segment.window.toNat segment.payload).2 := by
    simp only [next, accept, fresh, hf, ne_eq, not_true_eq_false, if_false, if_true]
  rw [hnext]
  exact accept_placed hanchored hc hnear

/-- A stream that was given what may come has all its bytes from the sender, and knows where it is. -/
theorem Sent.faithful (h : Sent T b midstream sent) :
    let r := Reading.after midstream (sent.map Prod.snd)
    r.Faithful T sent ∧ Anchored b r.stream := by
  induction h with
  | opening flags seq payload =>
    obtain ⟨hbuffer, hanchor⟩ := accept_opening midstream flags seq
    exact ⟨Reading.faithful_fresh.take (x := (0, _)) payload rfl hbuffer, hanchor⟩
  | joining allowed flags carries =>
    subst allowed
    obtain ⟨hbuffer, hanchor⟩ := accept_joining flags carries
    exact ⟨Reading.faithful_fresh.take (x := (0, _)) carries.payload rfl hbuffer, hanchor⟩
  | more before carries near ih =>
    obtain ⟨hr, hs⟩ := ih
    obtain ⟨hbuffer, hanchor⟩ := accept_placed hs carries near
    intro r
    rw [show r = _ from after_append ..]
    exact ⟨hr.take carries.payload rfl hbuffer, hanchor⟩

/-- What may come one after the other may also stop early. -/
theorem Sent.of_prefix (h : Sent T b midstream sent) (hp : before <+: sent) (hne : before ≠ []) :
    Sent T b midstream before := by
  induction h with
  | opening flags seq payload =>
    rw [hp.eq_of_length_le (List.length_pos_iff.mpr hne)]
    exact .opening flags seq payload
  | joining allowed flags carries =>
    rw [hp.eq_of_length_le (List.length_pos_iff.mpr hne)]
    exact .joining allowed flags carries
  | more hsent carries near ih =>
    rcases List.prefix_concat_iff.mp hp with rfl | hp
    · exact .more hsent carries near
    · exact ih hp

theorem Sent.faithful_of_isPrefix (h : Sent T b midstream sent) (hp : before <+: sent) :
    (Reading.after midstream (before.map Prod.snd)).Faithful T before := by
  by_cases hne : before = []
  · rw [hne]
    exact Reading.faithful_fresh
  · exact (h.of_prefix hp hne).faithful.1

/-- **A stream delivers what was sent.** However the bytes of a sender are cut into segments and in
whatever order these arrive, at every moment the layers found so far carry the sender's bytes up to
the first that is missing. A segment gives no layer if that stays where it is, and otherwise one,
with the bytes in between. -/
theorem delivered_sent (h : Sent T b midstream sent) (hp : before <+: sent) :
    let r := Reading.after midstream (before.map Prod.snd)
    ∃ c, IsGreatest (receivedPrefixes before) c ∧ r.bytes = stretch T 0 c ∧
      ∀ x, before ++ [x] <+: sent → ∃ c', IsGreatest (receivedPrefixes (before ++ [x])) c' ∧
        (c' = c ∧ (r.take x.2).layers = r.layers ∨
          c < c' ∧ ∃ l, (r.take x.2).layers = r.layers ++ [l] ∧
            l.payload.toList = stretch T c (c' - c)) := by
  intro r
  have hr : r.Faithful T before := h.faithful_of_isPrefix hp
  refine ⟨_, hr.isGreatest, hr.bytes, fun x hx => ?_⟩
  have hr' : (r.take x.2).Faithful T (before ++ [x]) :=
    after_append midstream before x ▸ h.faithful_of_isPrefix hx
  refine ⟨_, hr'.isGreatest, ?_⟩
  have hbytes := hr'.bytes
  rcases layers_take r x.2 with ⟨-, hl⟩ | ⟨hrun, l, hl, hpay⟩
  · refine .inl ⟨?_, hl⟩
    have hlen : (r.take x.2).bytes.length = r.bytes.length := by rw [Reading.bytes, hl, Reading.bytes]
    rw [hbytes, hr.bytes, length_stretch, length_stretch] at hlen
    exact hlen
  · have hpos := List.length_pos_iff.mpr (mt (ordered_accept hr.ordered _ _ _ _).fetch_eq_nil hrun)
    rw [bytes_take, hr.bytes, ← hpay] at hbytes
    have hlen := congrArg List.length hbytes
    rw [List.length_append, length_stretch, length_stretch] at hlen
    rw [← hpay] at hpos
    refine .inr ⟨by omega, l, hl, ?_⟩
    rw [← hlen, stretch_add, List.append_cancel_left_eq, Int.zero_add] at hbytes
    rwa [← hlen, Nat.add_sub_cancel_left]

/-- The segment in which a sender sends `n` bytes from the offset `a` on. -/
def sending (T : ℤ → UInt8) (b : UInt32) (window : UInt16) (a : ℤ) (n : ℕ) : Segment where
  frame := 1
  layer := 0
  stream := ""
  ns := ⟨[.confirmed "tcp"]⟩
  seq := UInt32.ofNat ((b.toNat + a) % UInt32.size).toNat
  ack := 0
  flags := 0
  window := window
  payload := .ofBytes (.packet 1) (stretch T a n)

/-- Every stretch of a sender can be sent. -/
theorem carries_sending (T : ℤ → UInt8) (b : UInt32) (window : UInt16) (a : ℤ) (n : ℕ) :
    Carries T b a (sending T b window a n) where
  seq := by
    simp only [sending, UInt32.toNat_ofNat']
    rw [UInt32.size]
    omega
  payload := by
    have h : (sending T b window a n).payload.toList = stretch T a n := ByteView.toList_ofBytes _ _
    rw [h, ← ByteView.length_toList, h, length_stretch]

/-- Bytes that come too early, bytes from before the start whose numbers wrap around, and bytes that
overlap what is there. -/
theorem delivered_sent_reordered :
    let T : ℤ → UInt8 := fun k => UInt8.ofNat k.toNat
    let sent : List (ℤ × Segment) :=
      [(0, { sending T 1 0 0 2 with seq := 0, flags := 2 }), (5, sending T 1 10 5 2),
        (-2, sending T 1 10 (-2) 4), (1, sending T 1 10 1 5)]
    Sent T 1 false sent ∧ sent <+: sent ∧
      ∃ c, IsGreatest (receivedPrefixes sent) c ∧
        (Reading.after false (sent.map Prod.snd)).bytes = stretch T 0 c := by
  intro T sent
  have h₁ : Sent T 1 false [(0, { sending T 1 0 0 2 with seq := 0, flags := 2 })] :=
    .opening (by decide) (by decide) (carries_sending T 1 0 0 2).payload
  have h₂ := h₁.more (carries_sending T 1 10 5 2) (by decide)
  have h₃ := h₂.more (carries_sending T 1 10 (-2) 4) (by decide)
  have h₄ : Sent T 1 false sent := h₃.more (carries_sending T 1 10 1 5) (by decide)
  obtain ⟨c, hc, hbytes, -⟩ := delivered_sent h₄ (List.prefix_refl sent)
  exact ⟨h₄, List.prefix_refl sent, c, hc, hbytes⟩

end TcpStream

end PacketTree
