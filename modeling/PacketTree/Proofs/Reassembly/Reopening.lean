import PacketTree.Proofs.Reassembly.Extent
import PacketTree.Proofs.Reassembly.Precedence

/-!
# A connection that is opened again

The first segment of a connection has the number before that of its first byte, and may carry bytes.
It may be sent again, with more bytes or with fewer. A stream that has started takes it like any other
segment: the first byte counts as one from before the start and is cut off, and the others are put in
one offset too early. This module proves when that does no harm and what comes of it otherwise.

## What is proved

* `takeIn_reopening`: what a stream makes of a segment that opens the connection again.
* `fetched_reopened`: everything fetched is what the sender has from offset `0` on, as long as the
  bytes behind the first of each such segment are there; the first one that brings more of them puts a
  wrong byte at the cursor.
* `not_fetched_reopened`: without that condition this fails, for three bytes in the second opening
  segment and none in the first.

## The model

`Tap` is a stream together with the bytes fetched from it. `Reopened` lists the calls: an opening
segment first, then any fetches, segments of the sender in the window, and opening segments that
announce a window back to their number. `Settled` says that the first bytes of a stream cannot be
replaced: they were delivered, or the first waiting piece has them all.
-/

namespace PacketTree

namespace Reorder

open Piece

variable {r : Reorder} {n : ℕ} {data : ByteView} {b : UInt8}

/-- The first bytes of a stream were delivered, or wait in one piece. -/
def Settled (r : Reorder) (n : ℕ) : Prop := n ≤ r.cursor ∨ ∃ p ∈ r.pending, p.offset = 0 ∧ n ≤ p.data.size

instance (r : Reorder) (n : ℕ) : Decidable (r.Settled n) := inferInstanceAs (Decidable (_ ∨ _))

/-- Where the first bytes are settled no others take their place. -/
theorem Ordered.put_of_settled (hr : r.Ordered) (h : r.Settled data.size) :
    Reorder.put r 0 data = r := by
  rcases h with hle | ⟨p, hp, hoffset, hle⟩
  · exact hr.put_of_le (by omega)
  rcases Nat.eq_zero_or_pos data.size with hzero | hsize
  · exact put_of_size_eq_zero hzero
  obtain ⟨cursor, pending⟩ := r
  have hpending : Piece.insert ⟨0, data⟩ pending = pending := by
    cases pending with
    | nil => cases hp
    | cons q ps =>
      -- Only the first piece can start at the offset `0`.
      rcases List.mem_cons.mp hp with rfl | hp
      · rw [Piece.insert, if_neg (by omega), if_pos hoffset.symm, if_pos hle]
      · have := hr.2.2.start_le p hp
        have := hr.2.1
        unfold stop at *
        omega
  rw [Reorder.put, if_neg (by simpa [ByteView.isEmpty] using hsize.ne'), hpending, trim_of_apart hr]

/-- Where they are not, the byte at the cursor is the one that is put in. -/
theorem Ordered.waiting?_put_of_not_settled (hr : r.Ordered) (h : ¬r.Settled data.size) :
    (Reorder.put r 0 data).waiting? r.cursor = data.toList[r.cursor]? := by
  simp only [Settled, not_or, not_le, not_exists, not_and] at h
  obtain ⟨hcursor, hpieces⟩ := h
  have hbyte : (Piece.mk 0 data).byte? r.cursor = data.toList[r.cursor]? := if_pos (Nat.zero_le _)
  cases hwaits : r.waiting? r.cursor with
  | none => rw [waiting?_put_of_none hr hwaits, if_pos le_rfl, hbyte]
  | some v =>
    obtain ⟨q, hq, hv⟩ := exists_mem_of_waiting? hwaits
    have hstart : q.offset = r.cursor :=
      le_antisymm (covers_iff_exists_byte?.mpr ⟨v, hv⟩).1 (hr.start_le q hq)
    have hprec : (Piece.mk 0 data).Precedes q := by
      rcases Nat.eq_zero_or_pos q.offset with hzero | hpos
      · exact .inr ⟨hzero.symm, hpieces q hq hzero⟩
      · exact .inl hpos
    rw [waiting?_put_of_mem hr hq hv, if_pos hprec, hbyte,
      List.getElem?_eq_getElem (by rwa [ByteView.length_toList]), Option.some_or]

/-- The byte that waits at the cursor is fetched first. -/
theorem Ordered.getElem?_fetch (hr : r.Ordered) (h : r.waiting? r.cursor = some b) :
    (r.fetch.1.flatMap ByteView.toList)[0]? = some b := by
  have hcov : Covered r.pending r.cursor := by
    by_contra hnone
    rw [waiting?, waiting?_eq_none_iff.mpr hnone] at h
    cases h
  have hlt : r.cursor < r.fetch.2.cursor := by
    rcases (covered_fetch hr).mp hcov with ⟨-, hlt⟩ | ⟨p, hp, hle, -⟩
    · exact hlt
    · refine lt_of_le_of_ne ?_ fun heq => ?_
      · rw [cursor_fetch]
        exact Nat.le_add_right _ _
      · exact offset_ne_cursor_fetch hr p hp (le_antisymm (heq ▸ hle) (hr.fetch.start_le p hp))
  have hlength : 0 < (r.fetch.1.flatMap ByteView.toList).length := by
    have := cursor_fetch (r := r)
    omega
  obtain ⟨q, hq, hv⟩ := shows_of_fetch (List.getElem?_eq_getElem hlength)
  rw [List.getElem?_eq_getElem hlength, ← h]
  exact (waiting?_of_mem hr hq hv).symm

end Reorder

namespace TcpStream

/-! ### Opening and opening again -/

/-- A segment that opens the connection: its number is the one before that of the first byte. -/
structure Opens (T : ℤ → UInt8) (b : UInt32) (segment : Segment) : Prop where
  /-- It says so. -/
  flags : segment.flags.toNat &&& synFlag ≠ 0
  /-- Its number counts for one byte. -/
  seq : segment.seq + 1 = b
  /-- It carries the first bytes of the sender, if any. -/
  payload : segment.payload.toList = stretch T 0 segment.payload.size

/-- A stream and the bytes fetched from it. -/
structure Tap where
  /-- The stream. -/
  stream : TcpStream
  /-- The bytes in the order in which they were fetched. -/
  bytes : List UInt8 := []

namespace Tap

/-- One call more. -/
def perform (t : Tap) : Call → Tap
  | .accept segment => { t with stream := (t.stream.takeIn segment).2 }
  | .fetch => ⟨t.stream.fetch.2, t.bytes ++ t.stream.fetch.1.flatMap ByteView.toList⟩

/-- A new stream after some calls. -/
def after (midstream : Bool) (calls : List Call) : Tap := calls.foldl perform ⟨fresh midstream, []⟩

end Tap

/-- The calls of a connection that is opened, possibly again and again. -/
inductive Reopened (T : ℤ → UInt8) (b : UInt32) (midstream : Bool) : List Call → Prop where
  /-- The connection is opened. -/
  | opening {segment : Segment} (opens : Opens T b segment) :
      Reopened T b midstream [.accept segment]
  /-- Bytes of the sender arrive. -/
  | data {calls : List Call} {a : ℤ} {segment : Segment} (before : Reopened T b midstream calls)
      (flags : segment.flags.toNat &&& synFlag = 0) (carries : Carries T b a segment)
      (near : InWindow (TcpStream.after midstream calls).length a segment) :
      Reopened T b midstream (calls ++ [.accept segment])
  /-- The connection is opened again, by a segment whose window reaches back to its number. -/
  | again {calls : List Call} {segment : Segment} (before : Reopened T b midstream calls)
      (opens : Opens T b segment)
      (near : (TcpStream.after midstream calls).length < segment.window.toNat) :
      Reopened T b midstream (calls ++ [.accept segment])
  /-- The next bytes are asked for. -/
  | fetch {calls : List Call} (before : Reopened T b midstream calls) :
      Reopened T b midstream (calls ++ [.fetch])

/-- Whenever the connection is opened again, the bytes behind the first are settled. -/
def Harmless (midstream : Bool) : List Call → Prop :=
  Throughout fun before segment => before ≠ [] → segment.flags.toNat &&& synFlag ≠ 0 →
    (TcpStream.after midstream before).buffer.Settled (segment.payload.size - 1)

variable {T : ℤ → UInt8} {b : UInt32} {a : ℤ} {midstream : Bool} {s : TcpStream} {segment : Segment}
  {calls before : List Call}

/-- **A segment that opens the connection again** changes nothing but the buffer: it puts in its bytes
without the first, each one offset before its own. -/
theorem takeIn_reopening (hs : Anchored b s) (ho : Opens T b segment)
    (near : s.length < segment.window.toNat) :
    (s.takeIn segment).2 = { s with buffer := s.buffer.put 0 (segment.payload.drop 1) } := by
  by_cases hsize : segment.payload.size = 0
  · have hempty : segment.payload.isEmpty = true := by simpa [ByteView.isEmpty] using hsize
    have hkeeps : (s.takeIn segment).2 = s := by
      rw [Anchored] at hs
      simp only [takeIn, accept, hs, hempty, if_true]
    rw [hkeeps, Reorder.put_of_size_eq_zero (by rw [size_drop, hsize])]
  have hwindow := segment.window.toNat_lt
  have hahead := distance_cast (b + UInt32.ofNat s.length) segment.seq
  have hbehind := distance_cast segment.seq (b + UInt32.ofNat s.length)
  have hseq := congrArg UInt32.toNat ho.seq
  rw [toNat_anchor] at hahead hbehind
  rw [UInt32.toNat_add, UInt32.toNat_one] at hseq
  have hlt := segment.seq.toNat_lt
  simp only [UInt32.size] at hahead hbehind
  have hdistance : distance segment.seq (b + UInt32.ofNat s.length) = s.length + 1 := by omega
  have hold : ¬(distance (b + UInt32.ofNat s.length) segment.seq < halfSpace ∨
      segment.window.toNat < distance segment.seq (b + UInt32.ofNat s.length)) := by
    unfold halfSpace
    omega
  rw [takeIn_of_started hs hsize, place]
  dsimp only
  rw [if_neg hold, hdistance, if_neg (by omega), Nat.add_sub_cancel_left]
  split
  · next hle => rw [Reorder.put_of_size_eq_zero (by rw [size_drop]; omega)]
  · rfl

/-! ### What is fetched -/

namespace Tap

theorem after_concat (midstream : Bool) (calls : List Call) (call : Call) :
    after midstream (calls ++ [call]) = (after midstream calls).perform call := by
  rw [after, List.foldl_append]
  rfl

theorem stream_after (midstream : Bool) (calls : List Call) :
    (after midstream calls).stream = TcpStream.after midstream calls := by
  induction calls using List.reverseRecOn with
  | nil => rfl
  | append_singleton calls call ih =>
    rw [after_concat, TcpStream.after_concat, ← ih]
    cases call <;> rfl

/-- All bytes, fetched or waiting, are the sender's at their offsets. -/
structure Faithful (T : ℤ → UInt8) (t : Tap) : Prop where
  /-- The waiting pieces are apart and behind the cursor. -/
  ordered : t.stream.buffer.Ordered
  /-- The bytes fetched are the sender's up to the cursor. -/
  bytes : t.bytes = stretch T 0 t.stream.buffer.cursor
  /-- The waiting bytes are the sender's. -/
  waiting : ∀ pos v, Piece.Shows t.stream.buffer.pending pos v → v = T pos

variable {t : Tap}

theorem faithful_fresh : Faithful T ⟨fresh midstream, []⟩ where
  ordered := Reorder.ordered_empty
  bytes := rfl
  waiting _ _ h := by
    obtain ⟨p, hp, -⟩ := h
    cases hp

/-- A segment that is put in at its offset keeps this. -/
theorem Faithful.accept (h : t.Faithful T)
    (hp : segment.payload.toList = stretch T a segment.payload.size)
    (hbuffer : (t.stream.takeIn segment).2.buffer =
      t.stream.buffer.put (pieceAt a segment.payload).offset (pieceAt a segment.payload).data) :
    (t.perform (.accept segment)).Faithful T where
  ordered := by
    rw [perform, hbuffer]
    exact h.ordered.put
  bytes := by
    rw [perform, hbuffer, Reorder.cursor_put]
    exact h.bytes
  waiting pos v hv := by
    rw [perform, hbuffer] at hv
    rcases Reorder.shows_of_put h.ordered hv with hv | hv
    · exact h.waiting pos v hv
    · exact byte?_pieceAt hp hv

/-- A fetch keeps it. -/
theorem Faithful.fetch (h : t.Faithful T) : (t.perform .fetch).Faithful T where
  ordered := h.ordered.fetch
  bytes := by
    have hcursor : t.stream.fetch.2.buffer.cursor = t.stream.buffer.cursor +
        (t.stream.fetch.1.flatMap ByteView.toList).length := Reorder.cursor_fetch
    have hbytes : ∀ (i : ℕ) v, (t.stream.fetch.1.flatMap ByteView.toList)[i]? = some v →
        v = T ((0 + t.stream.buffer.cursor : ℤ) + i) := fun i v hv => by
      rw [h.waiting _ v (Reorder.shows_of_fetch hv), Int.zero_add, Int.natCast_add]
    rw [perform, hcursor, stretch_add, ← eq_stretch hbytes, h.bytes]
  waiting pos v hv := h.waiting pos v (Reorder.shows_pending_of_fetch hv)

end Tap

/-! ### Runs -/

/-- A run may also stop early. -/
theorem Reopened.of_prefix (h : Reopened T b midstream calls) (hp : before <+: calls)
    (hne : before ≠ []) : Reopened T b midstream before := by
  induction h with
  | opening opens =>
    rw [hp.eq_of_length_le (List.length_pos_iff.mpr hne)]
    exact .opening opens
  | data hcalls flags carries near ih =>
    rcases List.prefix_concat_iff.mp hp with rfl | hp
    · exact .data hcalls flags carries near
    · exact ih hp
  | again hcalls opens near ih =>
    rcases List.prefix_concat_iff.mp hp with rfl | hp
    · exact .again hcalls opens near
    · exact ih hp
  | fetch hcalls ih =>
    rcases List.prefix_concat_iff.mp hp with rfl | hp
    · exact .fetch hcalls
    · exact ih hp

theorem Reopened.ne_nil (h : Reopened T b midstream calls) : calls ≠ [] := by
  cases h <;> simp

/-- The anchor never loses its base. -/
theorem Reopened.anchored (h : Reopened T b midstream calls) :
    Anchored b (TcpStream.after midstream calls) := by
  refine anchored_of_base? ?_
  induction h with
  | opening opens => simp [base?, opening?, opens.flags, opens.seq]
  | data _ _ _ _ ih => exact base?_append ih _
  | again _ _ _ ih => exact base?_append ih _
  | fetch _ ih => exact base?_append ih _

/-- As long as no opening segment does harm, every byte is where it belongs. -/
theorem Reopened.faithful (h : Reopened T b midstream calls) (hh : Harmless midstream calls) :
    (Tap.after midstream calls).Faithful T := by
  induction h with
  | opening opens =>
    exact Tap.faithful_fresh.accept opens.payload (accept_opening midstream opens.flags opens.seq).1
  | @data calls a segment hcalls flags carries near ih =>
    rw [Tap.after_concat]
    refine (ih (throughout_accept.mp hh).1).accept carries.payload ?_
    rw [Tap.stream_after]
    exact (accept_placed hcalls.anchored carries near).1
  | @again calls segment hcalls opens near ih =>
    obtain ⟨hbefore, hsettled⟩ := throughout_accept.mp hh
    have hsize : (TcpStream.after midstream calls).buffer.Settled (segment.payload.drop 1).size := by
      rw [size_drop]
      exact hsettled hcalls.ne_nil opens.flags
    have hput := (regular_after midstream calls).ordered.put_of_settled hsize
    have hsame : (Tap.after midstream calls).perform (.accept segment) =
        Tap.after midstream calls := by
      rw [Tap.perform, Tap.stream_after, takeIn_reopening hcalls.anchored opens near, hput,
        ← Tap.stream_after]
    rw [Tap.after_concat, hsame]
    exact ih hbefore
  | fetch hcalls ih =>
    rw [Tap.after_concat]
    exact (ih (throughout_fetch.mp hh)).fetch

/-- What is fetched right after the connection was opened again. -/
theorem Reopened.bytes_again_fetch (h : Reopened T b midstream calls) (opens : Opens T b segment)
    (near : (TcpStream.after midstream calls).length < segment.window.toNat) :
    (Tap.after midstream (calls ++ [.accept segment, .fetch])).bytes =
      (Tap.after midstream calls).bytes ++
        ((TcpStream.after midstream calls).buffer.put 0 (segment.payload.drop 1)).fetch.1.flatMap
          ByteView.toList := by
  rw [Tap.after, List.foldl_append, ← Tap.after, List.foldl_cons, List.foldl_cons, List.foldl_nil]
  simp only [Tap.perform, Tap.stream_after, takeIn_reopening h.anchored opens near]
  rfl

/-- The first opening segment that brings other bytes does harm. -/
theorem Reopened.harm (h : Reopened T b midstream calls) (hh : Harmless midstream calls)
    (opens : Opens T b segment)
    (near : (TcpStream.after midstream calls).length < segment.window.toNat)
    (hsettled : ¬(TcpStream.after midstream calls).buffer.Settled (segment.payload.size - 1)) :
    (Tap.after midstream (calls ++ [.accept segment, .fetch])).bytes[
      (Tap.after midstream calls).bytes.length]? =
        some (T ((Tap.after midstream calls).bytes.length + 1)) := by
  have hbytes := (h.faithful hh).bytes
  rw [Tap.stream_after] at hbytes
  have hordered := (regular_after midstream calls).ordered
  have hcursor : (TcpStream.after midstream calls).buffer.cursor + 1 < segment.payload.size := by
    have := (not_or.mp hsettled).1
    omega
  rw [← size_drop] at hsettled
  have hwaits := hordered.waiting?_put_of_not_settled hsettled
  have hbyte : (segment.payload.drop 1).toList[(TcpStream.after midstream calls).buffer.cursor]? =
      some (T ((TcpStream.after midstream calls).buffer.cursor + 1)) := by
    rw [ByteView.toList_drop, List.getElem?_drop, opens.payload, Nat.add_comm,
      getElem?_stretch hcursor, Int.zero_add, Int.natCast_add]
    rfl
  have hfetched := hordered.put.getElem?_fetch (by rw [Reorder.cursor_put, hwaits, hbyte])
  rw [h.bytes_again_fetch opens near, List.getElem?_append_right le_rfl, Nat.sub_self, hfetched,
    hbytes, length_stretch]

/-- **What a stream delivers that is opened again.** An opening segment is put in one offset too
early, without its first byte. That does no harm where the bytes behind the first are settled: then
everything fetched is what the sender has from the offset `0` on. The first opening segment that
brings other bytes does harm: where the sender's next byte belongs, the one behind it is fetched. -/
theorem fetched_reopened (h : Reopened T b midstream calls) :
    (∀ segment, Opens T b segment →
        (TcpStream.after midstream calls).length < segment.window.toNat →
        ((TcpStream.after midstream calls).takeIn segment).2 =
          { TcpStream.after midstream calls with
            buffer := (TcpStream.after midstream calls).buffer.put 0 (segment.payload.drop 1) }) ∧
      (Harmless midstream calls →
        (∀ before, before <+: calls → ∃ n, (Tap.after midstream before).bytes = stretch T 0 n) ∧
        ∀ segment, Opens T b segment →
          (TcpStream.after midstream calls).length < segment.window.toNat →
          ¬(TcpStream.after midstream calls).buffer.Settled (segment.payload.size - 1) →
          (Tap.after midstream (calls ++ [.accept segment, .fetch])).bytes[
            (Tap.after midstream calls).bytes.length]? =
              some (T ((Tap.after midstream calls).bytes.length + 1))) := by
  refine ⟨fun segment opens near => takeIn_reopening h.anchored opens near, fun hh => ⟨?_, ?_⟩⟩
  · intro before hp
    by_cases hne : before = []
    · exact ⟨0, by rw [hne]; rfl⟩
    · exact ⟨_, ((h.of_prefix hp hne).faithful (hh.of_prefix hp)).bytes⟩
  · intro segment opens near hsettled
    exact h.harm hh opens near hsettled

/-- The segment in which a sender opens the connection with `n` bytes. -/
def openingWith (T : ℤ → UInt8) (b : UInt32) (n : ℕ) : Segment :=
  { sending T b 1000 0 n with seq := b - 1, flags := 2 }

theorem opens_openingWith (T : ℤ → UInt8) (b : UInt32) (n : ℕ) : Opens T b (openingWith T b n) where
  flags := by simp [openingWith, synFlag]
  seq := UInt32.sub_add_cancel b 1
  payload := (carries_sending T b 1000 0 n).payload

/-- Three bytes where the first two were delivered bring one that comes too early by one. -/
theorem fetched_reopened_twice :
    let T : ℤ → UInt8 := fun k => UInt8.ofNat k.toNat
    let calls : List Call := [.accept (openingWith T 1 2), .fetch, .accept (openingWith T 1 3),
      .accept (sending T 1 10 2 2), .fetch]
    Reopened T 1 false calls ∧ Harmless false calls ∧
      (∃ n, (Tap.after false calls).bytes = stretch T 0 n) ∧
      (Tap.after false (calls ++ [.accept (openingWith T 1 6), .fetch])).bytes[
        (Tap.after false calls).bytes.length]? = some (T ((Tap.after false calls).bytes.length + 1)) := by
  intro T calls
  have h₁ : Reopened T 1 false [.accept (openingWith T 1 2)] := .opening (opens_openingWith T 1 2)
  have h₂ := h₁.fetch.again (opens_openingWith T 1 3) (by decide)
  have h₃ := h₂.data (by decide) (carries_sending T 1 10 2 2) (by decide)
  have h₄ : Reopened T 1 false calls := h₃.fetch
  have g₁ : Harmless false ([] ++ [.accept (openingWith T 1 2)]) :=
    throughout_accept.mpr ⟨throughout_nil, fun hne => absurd rfl hne⟩
  have g₂ : Harmless false
      ([.accept (openingWith T 1 2)] ++ [.fetch] ++ [.accept (openingWith T 1 3)]) :=
    throughout_accept.mpr ⟨throughout_fetch.mpr g₁, fun _ _ => by decide⟩
  have g₃ : Harmless false ([.accept (openingWith T 1 2)] ++ [.fetch] ++
      [.accept (openingWith T 1 3)] ++ [.accept (sending T 1 10 2 2)]) :=
    throughout_accept.mpr ⟨g₂, fun _ hsyn => (hsyn (by decide)).elim⟩
  have g₄ : Harmless false calls := throughout_fetch.mpr g₃
  obtain ⟨-, hrun⟩ := fetched_reopened h₄
  obtain ⟨hfetched, hharm⟩ := hrun g₄
  exact ⟨h₄, g₄, hfetched calls (List.prefix_refl calls),
    hharm (openingWith T 1 6) (opens_openingWith T 1 6) (by decide) (by decide)⟩

/-- Three bytes in the second opening segment, and none in the first: the first of them is lost. -/
theorem not_fetched_reopened : ¬∀ (T : ℤ → UInt8) (b : UInt32) (midstream : Bool) (calls : List Call),
    Reopened T b midstream calls → ∃ n, (Tap.after midstream calls).bytes = stretch T 0 n := by
  intro h
  let T : ℤ → UInt8 := fun k => UInt8.ofNat (97 + k).toNat
  have hrun : Reopened T 1 false
      [.accept (openingWith T 1 0), .accept (openingWith T 1 3), .fetch] :=
    ((Reopened.opening (opens_openingWith T 1 0)).again (opens_openingWith T 1 3) (by decide)).fetch
  obtain ⟨n, hn⟩ := h T 1 false _ hrun
  have hbytes : (Tap.after false
      [.accept (openingWith T 1 0), .accept (openingWith T 1 3), .fetch]).bytes = [98, 99] := by
    decide
  rw [hbytes] at hn
  have hlength := congrArg List.length hn
  rw [length_stretch] at hlength
  obtain rfl : 2 = n := hlength
  exact absurd hn (by decide)

end TcpStream

end PacketTree
