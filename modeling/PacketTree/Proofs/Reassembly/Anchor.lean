import PacketTree.Proofs.Reassembly.Repetition

/-!
# The anchor of a stream

A stream keeps two numbers for the furthest byte it received: a sequence number of thirty-two bits,
and an offset that grows without bound. Segments with any numbers move them together or leave them
alone, also when numbers wrap around or only seem to. This module proves that the two never drift
apart: the number of offset `0`, once it is set, is the base of all that follows.

## What is proved

* `anchor_after`: before the start nothing happens; from then on the anchor is the base plus the
  length, the length never falls, and bytes are put in at offsets that have their sequence numbers.
* `Anchored.takeIn`: one segment keeps this, whatever it says.

## The model

`opening?` tells the base that a call sets if it starts the stream, and `base?` takes the first of
them. `Places` lists what may come of a segment behind the start, with the offset of its bytes and the
part of them that is cut off, all measured from the base and not from the anchor.
-/

namespace PacketTree

namespace TcpStream

/-! ### The base -/

/-- The sequence number of the offset `0`, if a call starts the stream. -/
def opening? (midstream : Bool) : Call → Option UInt32
  | .accept segment =>
    if segment.flags.toNat &&& synFlag ≠ 0 then some (segment.seq + 1)
    else if midstream then some segment.seq
    else none
  | .fetch => none

/-- The sequence number of the offset `0`, as the first call sets it that starts the stream. -/
def base? (midstream : Bool) (calls : List Call) : Option UInt32 :=
  calls.findSome? (opening? midstream)

/-- What comes of a segment behind the start, if the offset `0` has the sequence number `b`. -/
inductive Places (b : UInt32) (s : TcpStream) (segment : Segment) : Admission × TcpStream → Prop where
  /-- All bytes are put in at an offset that has the number of the segment, -/
  | whole {offset : ℕ} {next : TcpStream} (number : offset % UInt32.size = distance b segment.seq)
      (buffer : next.buffer = s.buffer.put offset segment.payload) :
      Places b s segment (.data offset, next)
  /-- or those from before the base are cut off and the others put in at the start; -/
  | cut {next : TcpStream} (before : 0 < distance segment.seq b)
      (left : distance segment.seq b < segment.payload.size)
      (buffer : next.buffer = s.buffer.put 0 (segment.payload.drop (distance segment.seq b))) :
      Places b s segment (.data 0, next)
  /-- all bytes come before the base, which is no further ahead than the window, -/
  | stale (before : segment.payload.size ≤ distance segment.seq b)
      (near : distance segment.seq b ≤ segment.window.toNat) : Places b s segment (.stale, s)
  /-- or there are no bytes. -/
  | empty (size : segment.payload.size = 0) : Places b s segment (.empty, s)

variable {b : UInt32} {s : TcpStream} {segment : Segment} {midstream : Bool}

/-! ### One segment -/

/-- The numbers of a segment, seen from the anchor, lie where the base says. -/
theorem distances (b seq : UInt32) (n : ℕ) :
    (n + distance (b + UInt32.ofNat n) seq) % UInt32.size = distance b seq ∧
      (distance seq (b + UInt32.ofNat n) ≤ n →
        (n - distance seq (b + UInt32.ofNat n)) % UInt32.size = distance b seq) ∧
      (n < distance seq (b + UInt32.ofNat n) →
        distance seq (b + UInt32.ofNat n) - n = distance seq b) := by
  have hahead := distance_cast (b + UInt32.ofNat n) seq
  have hbehind := distance_cast seq (b + UInt32.ofNat n)
  have hfrom := distance_cast b seq
  have hto := distance_cast seq b
  rw [toNat_anchor] at hahead hbehind
  rw [UInt32.size] at *
  omega

/-- The anchor behind new bytes is again the base plus the length. -/
theorem anchored_ahead (b seq : UInt32) (n size : ℕ) :
    seq + UInt32.ofNat size =
      b + UInt32.ofNat (n + distance (b + UInt32.ofNat n) seq + size) := by
  obtain ⟨hahead, -, -⟩ := distances b seq n
  generalize distance (b + UInt32.ofNat n) seq = ahead at hahead
  have hfrom := distance_cast b seq
  have hseq := seq.toNat_lt
  refine UInt32.toNat_inj.mp ?_
  simp only [UInt32.toNat_add, UInt32.toNat_ofNat', UInt32.size] at *
  omega

/-- **A segment behind the start is placed as the base says.** It moves the anchor together with the
length, or neither. -/
theorem Anchored.takeIn (hs : Anchored b s) (segment : Segment) :
    Places b s segment (s.takeIn segment) ∧ Anchored b (s.takeIn segment).2 ∧
      s.length ≤ (s.takeIn segment).2.length := by
  obtain ⟨hahead, hbehind, hearly⟩ := distances b segment.seq s.length
  by_cases hsize : segment.payload.size = 0
  · have hempty : segment.payload.isEmpty = true := by simpa [ByteView.isEmpty] using hsize
    have htaken : s.takeIn segment = (.empty, s) := by
      rw [Anchored] at hs
      simp only [TcpStream.takeIn, accept, hs, hempty, if_true]
    rw [htaken]
    exact ⟨.empty hsize, hs, le_rfl⟩
  rw [takeIn_of_started hs hsize, place]
  dsimp only
  split
  · exact ⟨.whole hahead rfl, congrArg some (anchored_ahead b segment.seq s.length _),
      by dsimp only; omega⟩
  · next hold =>
    split
    · next hle => exact ⟨.whole (hbehind hle) rfl, hs, le_rfl⟩
    · next hlt =>
      have hcut := hearly (Nat.lt_of_not_le hlt)
      rw [hcut]
      split
      · next hall => exact ⟨.stale hall (by omega), hs, le_rfl⟩
      · next hleft => exact ⟨.cut (by omega) (Nat.lt_of_not_le hleft) rfl, hs, le_rfl⟩

/-! ### The first segment -/

theorem fetch_fresh (midstream : Bool) : (fresh midstream).fetch = ([], fresh midstream) := rfl

/-- A segment that does not start the stream is ignored. -/
theorem takeIn_of_opening?_eq_none (h : opening? midstream (.accept segment) = none) :
    (fresh midstream).takeIn segment = (.ignored, fresh midstream) := by
  rw [opening?] at h
  split at h
  · simp at h
  · next hsyn =>
    split at h
    · simp at h
    · next hmid => exact takeIn_of_early rfl hsyn hmid

/-- A segment that starts the stream sets the anchor behind its bytes. -/
theorem anchored_of_opening? (h : opening? midstream (.accept segment) = some b) :
    Anchored b ((fresh midstream).takeIn segment).2 := by
  rw [opening?] at h
  split at h
  · next hsyn =>
    obtain rfl := Option.some.inj h
    have htaken : ((fresh midstream).takeIn segment).2 =
        (fresh midstream).start segment.seq segment.payload := by
      simp only [TcpStream.takeIn, accept, fresh, if_pos hsyn]
    rw [htaken]
    rfl
  · next hsyn =>
    split at h
    · next hmid =>
      obtain rfl := Option.some.inj h
      -- The segment sets the anchor to its own number, and is then taken in like any other.
      have hset : Anchored segment.seq { fresh midstream with anchor := some segment.seq } :=
        congrArg some (UInt32.add_zero segment.seq).symm
      have htaken : (fresh midstream).takeIn segment =
          ({ fresh midstream with anchor := some segment.seq } : TcpStream).takeIn segment := by
        subst hmid
        simp only [TcpStream.takeIn, accept, fresh, if_neg hsyn, if_true]
      rw [htaken]
      exact (hset.takeIn segment).2.1
    · simp at h

/-! ### Runs -/

theorem after_concat (midstream : Bool) (calls : List Call) (call : Call) :
    after midstream (calls ++ [call]) = (after midstream calls).perform call := by
  rw [after, List.foldl_append]
  rfl

theorem base?_concat (midstream : Bool) (calls : List Call) (call : Call) :
    base? midstream (calls ++ [call]) = (base? midstream calls).or (opening? midstream call) := by
  rw [base?, List.findSome?_append, List.findSome?_singleton]
  rfl

/-- Once it is set, the base stays. -/
theorem base?_append (h : base? midstream calls = some b) (more : List Call) :
    base? midstream (calls ++ more) = some b := by
  rw [base?] at h ⊢
  rw [List.findSome?_append, h, Option.some_or]

/-- Without a base a stream is as it was at first. -/
theorem after_of_base?_eq_none {calls : List Call} (h : base? midstream calls = none) :
    after midstream calls = fresh midstream := by
  induction calls using List.reverseRecOn with
  | nil => rfl
  | append_singleton calls call ih =>
    rw [base?_concat, Option.or_eq_none_iff] at h
    rw [after_concat, ih h.1]
    cases call with
    | accept segment => exact congrArg Prod.snd (takeIn_of_opening?_eq_none h.2)
    | fetch => exact congrArg Prod.snd (fetch_fresh midstream)

/-- With a base the anchor is the base plus the length. -/
theorem anchored_of_base? {calls : List Call} (h : base? midstream calls = some b) :
    Anchored b (after midstream calls) := by
  induction calls using List.reverseRecOn with
  | nil => simp [base?] at h
  | append_singleton calls call ih =>
    rw [base?_concat, Option.or_eq_some_iff] at h
    rw [after_concat]
    rcases h with hbase | ⟨hnone, hopens⟩
    · cases call with
      | accept segment => exact ((ih hbase).takeIn segment).2.1
      | fetch => exact ih hbase
    · rw [after_of_base?_eq_none hnone]
      cases call with
      | accept segment => exact anchored_of_opening? hopens
      | fetch => simp [opening?] at hopens

/-- The length never falls. -/
theorem length_le_after_append (midstream : Bool) (calls more : List Call) :
    (after midstream calls).length ≤ (after midstream (calls ++ more)).length := by
  induction more using List.reverseRecOn with
  | nil => rw [List.append_nil]
  | append_singleton more call ih =>
    refine ih.trans ?_
    rw [← List.append_assoc, after_concat]
    cases hbase : base? midstream (calls ++ more) with
    | none =>
      rw [after_of_base?_eq_none hbase]
      exact Nat.zero_le _
    | some b =>
      cases call with
      | accept segment => exact ((anchored_of_base? hbase).takeIn segment).2.2
      | fetch => exact le_rfl

/-- **The anchor is the base plus the length.** Before the start nothing changes and segments are
ignored. From the start on there is one base: the anchor is its number plus the length, however
segments come and whatever they say; each is put in at an offset that has its number, or without just
the bytes from before the base; and none is stale but for bytes that all come before it. -/
theorem anchor_after (midstream : Bool) (calls : List Call) :
    (base? midstream calls = none → after midstream calls = fresh midstream ∧
      ∀ segment, opening? midstream (.accept segment) = none →
        (after midstream calls).takeIn segment = (.ignored, after midstream calls)) ∧
    ∀ more, (after midstream calls).length ≤ (after midstream (calls ++ more)).length ∧
      ∀ b, base? midstream calls = some b →
        Anchored b (after midstream (calls ++ more)) ∧
          ∀ segment, Places b (after midstream (calls ++ more)) segment
            ((after midstream (calls ++ more)).takeIn segment) := by
  refine ⟨fun hnone => ?_, fun more => ⟨length_le_after_append midstream calls more, ?_⟩⟩
  · rw [after_of_base?_eq_none hnone]
    exact ⟨rfl, fun segment => takeIn_of_opening?_eq_none⟩
  · intro b hbase
    have hs : Anchored b (after midstream (calls ++ more)) := anchored_of_base? (base?_append hbase more)
    exact ⟨hs, fun segment => (hs.takeIn segment).1⟩

/-- A stream whose numbers wrap around right behind its start, and bytes from before it. -/
theorem anchor_after_wrapped :
    let calls := [.fetch, .accept (plain 7 16 9 [1]), .accept (plain 0xfffffffe 2 9 [97, 98])]
    let early := plain 0xfffffffd 16 9 [1, 2, 97]
    base? false calls = some 0xffffffff ∧ Anchored 0xffffffff (after false (calls ++ [.fetch])) ∧
      Places 0xffffffff (after false (calls ++ [.fetch])) early
        ((after false (calls ++ [.fetch])).takeIn early) := by
  intro calls early
  have hbase : base? false calls = some 0xffffffff := by decide
  obtain ⟨hs, hplaces⟩ := ((anchor_after false calls).2 [.fetch]).2 0xffffffff hbase
  exact ⟨hbase, hs, hplaces early⟩

end TcpStream

end PacketTree
