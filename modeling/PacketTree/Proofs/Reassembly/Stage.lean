import PacketTree.Proofs.Flow.Progress
import PacketTree.Proofs.Flow.Queue
import PacketTree.Proofs.Frame.Store
import PacketTree.Proofs.Lists.Replacement
import PacketTree.Proofs.Reassembly.Sequential
import PacketTree.Reassembly.Stage

/-!
# No segment is lost between the store and the streams

The feeder cuts the frames into runs and spreads the segments of each run over the contexts. At every
moment the segments that a context has worked on, those it has in hand or in its queue, and those
that the feeder still has for it are the segments of its streams in the frames taken so far, in order.

## What is proved

* `Sound.feed`: every turn of the feeder keeps `Sound`.
* `Sound.grown_of_offset_le`: frames that the feeder did not take are as they were taken apart.

## The model

`done` gives for each context the segments that it has worked on; the stage itself does not keep
them. `Sound` says how they, the stage and the store belong together: a stored frame is the frame as
it was taken apart with the answers to those of its segments that were worked on.
-/

namespace PacketTree

variable {τ : Type}

/-! ### What is still ahead -/

namespace StreamContext

/-- The segments in hand, and the end of their run. -/
def inHand (c : StreamContext τ) : List StreamBatch :=
  match c.phase with
  | .working segments last => [⟨segments, 0, last⟩]
  | _ => []

/-- The segments that the context was given and has not worked on. -/
def ahead (c : StreamContext τ) : List Segment :=
  (c.inHand ++ c.queue.items).flatMap StreamBatch.segments

/-- The ends of the runs that the context was given and has not reported. -/
def owed (c : StreamContext τ) : List ℕ := (c.inHand ++ c.queue.items).map StreamBatch.last

end StreamContext

namespace FeederPhase

/-- The batch that the feeder still has for a context. -/
def batch? : FeederPhase → ℕ → Option StreamBatch
  | .announcing place batches, j | .handing place batches, j =>
    if place ≤ j then batches[j - place]? else none
  | _, _ => none

@[simp] theorem batch?_waiting (j : ℕ) : waiting.batch? j = none := rfl

@[simp] theorem batch?_left (j : ℕ) : left.batch? j = none := rfl

@[simp] theorem batch?_announcing (place : ℕ) (batches : List StreamBatch) (j : ℕ) :
    (announcing place batches).batch? j = if place ≤ j then batches[j - place]? else none := rfl

@[simp] theorem batch?_handing (place : ℕ) (batches : List StreamBatch) (j : ℕ) :
    (handing place batches).batch? j = if place ≤ j then batches[j - place]? else none := rfl

/-- The end of the run that a context was told of and not yet given. -/
def owed : FeederPhase → ℕ → List ℕ
  | .handing place (b :: _), j => if j = place then [b.last] else []
  | _, _ => []

/-- A context was told of the run of frames that was taken last. -/
def Told : FeederPhase → ℕ → Prop
  | .announcing place _, j => j < place
  | .handing place _, j => j ≤ place
  | _, _ => True

/-- The feeder has a batch for every context that did not get one. -/
def Ready (contexts offset : ℕ) : FeederPhase → Prop
  | .announcing place batches =>
    place + batches.length = contexts ∧ ∀ b ∈ batches, b.last = offset
  | .handing place batches =>
    batches ≠ [] ∧ place + batches.length = contexts ∧ ∀ b ∈ batches, b.last = offset
  | _ => True

end FeederPhase

namespace StreamDissector

variable (d : StreamDissector τ) (contexts : ℕ)

/-- The segments of some frames that one of the contexts works on. -/
def routed (frames : List Frame) (j : ℕ) : List Segment :=
  (frames.flatMap (Segment.ofFrame [d])).filter fun s => route s.stream contexts = j

/-- The context that works on the segments of a frame, if they are all of one stream. -/
def home (f : Frame) : ℕ :=
  ((Segment.ofFrame [d] f).head?.map fun s => route s.stream contexts).getD 0

/-- A frame with the answers to the segments that its context has worked on. -/
def grown (done : ℕ → List Segment) (f : Frame) : Frame :=
  f.graft ((d.answersFrom [] (done (d.home contexts f))).filter (·.1.frame = f.index))

variable {d contexts} {frames more : List Frame} {f : Frame} {s : Segment} {i j : ℕ}
  {done : ℕ → List Segment}

theorem routed_append : d.routed contexts (frames ++ more) j =
    d.routed contexts frames j ++ d.routed contexts more j := by
  rw [routed, List.flatMap_append, List.filter_append]
  rfl

theorem mem_routed : s ∈ d.routed contexts frames j ↔
    (∃ f ∈ frames, s ∈ Segment.ofFrame [d] f) ∧ route s.stream contexts = j := by
  rw [routed, List.mem_filter, List.mem_flatMap, decide_eq_true_eq]

theorem home_lt (h : 0 < contexts) : d.home contexts f < contexts := by
  rw [home]
  cases (Segment.ofFrame [d] f).head? with
  | none => exact h
  | some s => exact route_lt h

/-- All segments of a frame of one stream go to its home. -/
theorem home_eq (hone : ∀ t ∈ Segment.ofFrame [d] f, s.stream = t.stream)
    (hs : s ∈ Segment.ofFrame [d] f) : d.home contexts f = route s.stream contexts := by
  rw [home]
  cases hf : (Segment.ofFrame [d] f).head? with
  | none =>
    rw [List.head?_eq_none_iff.mp hf] at hs
    cases hs
  | some t => rw [hone t (List.mem_of_head? hf)]; rfl

/-- A frame without segments worked on stays as it is. -/
theorem grown_of_forall_ne (h : ∀ s ∈ done (d.home contexts f), s.frame ≠ f.index) :
    d.grown contexts done f = f := by
  rw [grown, d.filter_answersFrom_other h]
  rfl

/-- An answer is added to the frame of its segment, -/
theorem grown_update_self (hhome : d.home contexts f = i) (hframe : s.frame = f.index) :
    d.grown contexts (Function.update done i (done i ++ [s])) f =
      (d.grown contexts done f).graft [(s, d.answer (done i) s)] := by
  have hown : [(s, d.answer (done i) s)].filter (·.1.frame = f.index) =
      [(s, d.answer (done i) s)] := by simp [hframe]
  rw [grown, grown, hhome, Function.update_self, d.answersFrom_append_singleton, List.filter_append,
    hown, Frame.graft_append]

/-- and all other frames stay as they are. -/
theorem grown_update_other (hframe : s.frame ≠ f.index) :
    d.grown contexts (Function.update done i (done i ++ [s])) f = d.grown contexts done f := by
  rw [grown, grown]
  by_cases hhome : d.home contexts f = i
  · have hnone : [(s, d.answer (done i) s)].filter (·.1.frame = f.index) = [] := by simp [hframe]
    rw [hhome, Function.update_self, d.answersFrom_append_singleton, List.filter_append, hnone,
      List.append_nil]
  · rw [Function.update_of_ne hhome]

end StreamDissector

namespace StreamStage

/-! ### Turns of the feeder -/

/-- What a turn of the feeder can be. -/
inductive Feed (s : StreamStage τ) (store : Store) : StreamStage τ → Prop where
  /-- It takes frames. -/
  | take {frames : List Frame} (waiting : s.feeder = .waiting)
      (ready : store.wait s.offset s.batchSize = .done frames) :
      Feed s store
        { s with
          offset := s.offset + frames.length
          feeder := .announcing 0
            (batches s.dissectors s.contexts.length frames ((frames.head?.map Frame.index).getD 0)
              ((frames.getLast?.map Frame.index).getD 0)) }
  /-- It leaves and closes all queues. -/
  | leave (waiting : s.feeder = .waiting) (ended : store.wait s.offset s.batchSize = .closed) :
      Feed s store
        { s with
          feeder := .left
          contexts := s.contexts.map fun c => { c with queue := c.queue.close } }
  /-- It has given every context its batch. -/
  | turn {place : ℕ}
      (done : s.feeder = .announcing place [] ∨ s.feeder = .handing place []) :
      Feed s store { s with feeder := .waiting }
  /-- It announces a batch. -/
  | announce {place : ℕ} {b : StreamBatch} {bs : List StreamBatch}
      (announcing : s.feeder = .announcing place (b :: bs)) :
      Feed s store
        { s with
          feeder := .handing place (b :: bs)
          progress := s.progress.begin place b.first b.last }
  /-- It gives a context its batch. -/
  | hand {place : ℕ} {b : StreamBatch} {bs : List StreamBatch} {c : StreamContext τ}
      {queue : Queue StreamBatch} (handing : s.feeder = .handing place (b :: bs))
      (here : s.contexts[place]? = some c) (push : c.queue.push b = .done queue) :
      Feed s store
        { s with
          feeder := .announcing (place + 1) bs
          contexts := s.contexts.set place { c with queue := queue } }
  /-- It leaves because a queue is closed. -/
  | quit {place : ℕ} {b : StreamBatch} {bs : List StreamBatch} {c : StreamContext τ}
      (handing : s.feeder = .handing place (b :: bs)) (here : s.contexts[place]? = some c)
      (closed : c.queue.closed = true) : Feed s store { s with feeder := .left }

variable {s s' : StreamStage τ} {store : Store}

theorem feed_of_feed? (h : s.feed? store = some s') : s.Feed store s' := by
  unfold feed? at h
  split at h
  · next waiting =>
    split at h
    · next ready =>
      cases h
      exact .take waiting ready
    · next ended =>
      cases h
      exact .leave waiting ended
    · cases h
  · next done =>
    cases h
    exact .turn (.inl done)
  · next announcing =>
    cases h
    exact .announce announcing
  · next done =>
    cases h
    exact .turn (.inr done)
  · next handing =>
    rw [Option.bind_eq_bind, Option.bind_eq_some_iff] at h
    obtain ⟨c, here, h⟩ := h
    split at h
    · next push =>
      cases h
      exact .hand handing here push
    · next closed =>
      cases h
      exact .quit handing here (Queue.push_eq_closed_iff.mp closed)
    · cases h
  · cases h

/-! ### All segments -/

/-- The stage has lost no segment of the frames it took, and the store has all answers. -/
structure Sound (d : StreamDissector τ) (frames : List Frame) (done : ℕ → List Segment)
    (s : StreamStage τ) (store : Store) : Prop where
  /-- One dissector looks at streams. -/
  dissectors : s.dissectors = [d]
  /-- There is a context. -/
  contexts_pos : 0 < s.contexts.length
  /-- The feeder takes only what is there. -/
  offset_le : s.offset ≤ store.size
  /-- Every stored frame has the answers to its segments. -/
  stored : store.frames.toList =
    (frames.take store.size).map (d.grown s.contexts.length done)
  /-- The segments for a context, in order: worked on, given to it, still to be given. -/
  kept : ∀ (j : ℕ) (c : StreamContext τ), s.contexts[j]? = some c →
    done j ++ (c.ahead ++ (s.feeder.batch? j).toList.flatMap StreamBatch.segments) =
      d.routed s.contexts.length (frames.take s.offset) j
  /-- A context remembers what it has worked on. -/
  holds : ∀ (j : ℕ) (c : StreamContext τ), s.contexts[j]? = some c → c.table.Holds d (done j)
  /-- Every context has a share, -/
  shares : s.progress.shares.length = s.contexts.length
  /-- which owes the runs that the context was told of and did not report. -/
  owes : ∀ (j : ℕ) (c : StreamContext τ) (sh : Share), s.contexts[j]? = some c →
    s.progress.shares[j]? = some sh → sh.Owes (c.owed ++ s.feeder.owed j)
  /-- Contexts that were told of the last run were given it. -/
  told : ∀ (j : ℕ) (sh : Share), s.progress.shares[j]? = some sh → s.feeder.Told j →
    sh.given = s.offset
  /-- Nobody owes more than was taken, -/
  owed_le : ∀ c ∈ s.contexts, ∀ last ∈ c.owed, last ≤ s.offset
  /-- nor is more known to be safe. -/
  within : s.progress.Within s.offset
  /-- The feeder has a batch for each of the contexts that come next. -/
  ready : s.feeder.Ready s.contexts.length s.offset
  /-- Queues are open until the feeder leaves, -/
  isOpen : s.feeder ≠ .left → ∀ c ∈ s.contexts, c.queue.closed = false
  /-- which it does when it has taken all frames. -/
  ended : s.feeder = .left → s.offset = frames.length ∧ ∀ c ∈ s.contexts, c.queue.closed = true
  /-- A context leaves only when it will get nothing more. -/
  left : ∀ c ∈ s.contexts, c.phase = .left → c.queue.items = [] ∧ c.queue.closed = true

variable {d : StreamDissector τ} {frames : List Frame} {done : ℕ → List Segment}

theorem sound_create (d : StreamDissector τ) (frames : List Frame)
    (contexts batchSize capacity sweepInterval : ℕ) :
    (create [d] contexts batchSize capacity sweepInterval).Sound d frames (fun _ => []) .empty := by
  have hcontext : ∀ c ∈ (create [d] contexts batchSize capacity sweepInterval).contexts,
      c = { queue := .ofCapacity capacity } := fun c hc => List.eq_of_mem_replicate hc
  have hshare : ∀ sh ∈ (create [d] contexts batchSize capacity sweepInterval).progress.shares,
      sh = {} := fun sh hs => List.eq_of_mem_replicate hs
  constructor
  · rfl
  · simp [create]
  · exact le_rfl
  · rfl
  · intro j c hc
    rw [hcontext c (List.mem_of_getElem? hc)]
    rfl
  · intro j c hc
    rw [hcontext c (List.mem_of_getElem? hc)]
    exact StreamTable.holds_empty d
  · simp [create, Progress.ofWorkers]
  · intro j c sh _ hs
    rw [hshare sh (List.mem_of_getElem? hs)]
    exact .inl le_rfl
  · intro j sh hs _
    rw [hshare sh (List.mem_of_getElem? hs)]
    rfl
  · intro c hc last hlast
    rw [hcontext c hc] at hlast
    cases hlast
  · exact Progress.within_ofWorkers _
  · trivial
  · intro _ c hc
    rw [hcontext c hc]
    rfl
  · nofun
  · intro c hc hleft
    rw [hcontext c hc] at hleft
    cases hleft

theorem Sound.size_le (h : s.Sound d frames done store) : store.size ≤ frames.length := by
  have hlen : store.size = _ := congrArg List.length h.stored
  rw [List.length_map, List.length_take] at hlen
  omega

/-- What was worked on or is ahead of a context lies in the frames that were taken. -/
theorem Sound.exists_frame {j : ℕ} {t : Segment} (h : s.Sound d frames done store)
    (hnum : Frame.Numbered frames) (hj : j < s.contexts.length)
    (ht : t ∈ done j ∨ t ∈ s.contexts[j].ahead) :
    ∃ k f, k < s.offset ∧ frames[k]? = some f ∧ t ∈ Segment.ofFrame [d] f ∧ t.frame = k + 1 ∧
      route t.stream s.contexts.length = j := by
  have hmem : t ∈ d.routed s.contexts.length (frames.take s.offset) j := by
    rw [← h.kept j _ (List.getElem?_eq_getElem hj)]
    rcases ht with ht | ht
    · exact List.mem_append_left _ ht
    · exact List.mem_append_right _ (List.mem_append_left _ ht)
  obtain ⟨⟨f, hf, hof⟩, hroute⟩ := StreamDissector.mem_routed.mp hmem
  obtain ⟨k, hk⟩ := List.mem_iff_getElem?.mp hf
  rw [List.getElem?_take] at hk
  split at hk
  · next hlt =>
    exact ⟨k, f, hlt, hk, hof, (Segment.frame_of_mem_ofFrame hof).trans (hnum k f hk), hroute⟩
  · cases hk

/-- Frames that were not taken are as they were taken apart. -/
theorem Sound.grown_of_offset_le {k : ℕ} {f : Frame} (h : s.Sound d frames done store)
    (hnum : Frame.Numbered frames) (hk : s.offset ≤ k) (hf : frames[k]? = some f) :
    d.grown s.contexts.length done f = f := by
  refine StreamDissector.grown_of_forall_ne fun t ht heq => ?_
  obtain ⟨m, -, hm, -, -, hframe, -⟩ :=
    h.exists_frame hnum (StreamDissector.home_lt h.contexts_pos) (.inl ht)
  rw [heq, hnum k f hf] at hframe
  omega

/-! ### The feeder keeps everything -/

/-- The frames that the feeder takes are the next ones, as they were taken apart. -/
theorem Sound.drop_offset {most : ℕ} {out : List Frame} (h : s.Sound d frames done store)
    (hnum : Frame.Numbered frames) (hwait : store.wait s.offset most = .done out) :
    out ≠ [] ∧ s.offset + out.length ≤ store.size ∧ ∃ rest, frames.drop s.offset = out ++ rest := by
  obtain ⟨hlt, hout⟩ := Store.wait_eq_done_iff.mp hwait
  have hsame : ((frames.take store.size).drop s.offset).map (d.grown s.contexts.length done) =
      (frames.take store.size).drop s.offset := by
    refine (List.map_congr_left fun f hf => ?_).trans (List.map_id _)
    obtain ⟨k, hk⟩ := List.mem_iff_getElem?.mp hf
    rw [List.getElem?_drop, List.getElem?_take] at hk
    split at hk
    · exact h.grown_of_offset_le hnum (Nat.le_add_right _ _) hk
    · cases hk
  rw [h.stored, ← List.map_drop, hsame, List.drop_take, List.take_take] at hout
  have hsize := h.size_le
  have hlen := congrArg List.length hout
  rw [List.length_take, List.length_drop] at hlen
  refine ⟨List.length_pos_iff.mp (by omega), by omega,
    (frames.drop s.offset).drop (min (max most 1) (store.size - s.offset)), ?_⟩
  rw [hout, List.take_append_drop]

/-- The batch for a context holds the segments of its streams. -/
theorem getElem?_batches (d : StreamDissector τ) (frames : List Frame) (first last : ℕ)
    {contexts j : ℕ} (hj : j < contexts) :
    (batches [d] contexts frames first last)[j]? =
      some ⟨d.routed contexts frames j, first, last⟩ := by
  rw [batches, List.getElem?_map, List.getElem?_range hj, Option.map_some, List.filter_map,
    List.map_map, StreamDissector.routed]
  simp [Function.comp_def]

theorem Sound.take {out : List Frame} (h : s.Sound d frames done store)
    (hnum : Frame.Numbered frames) (waiting : s.feeder = .waiting)
    (hwait : store.wait s.offset s.batchSize = .done out) :
    { s with
      offset := s.offset + out.length
      feeder := .announcing 0
        (batches s.dissectors s.contexts.length out ((out.head?.map Frame.index).getD 0)
          ((out.getLast?.map Frame.index).getD 0)) }.Sound d frames done store := by
  obtain ⟨hne, hle, rest, hdrop⟩ := h.drop_offset hnum hwait
  have hlast := hnum.index_getLast? hdrop hne
  have htake : frames.take (s.offset + out.length) = frames.take s.offset ++ out := by
    rw [List.take_add, hdrop, List.take_left]
  have hbatches : batches s.dissectors s.contexts.length out
      ((out.head?.map Frame.index).getD 0) ((out.getLast?.map Frame.index).getD 0) =
      batches [d] s.contexts.length out ((out.head?.map Frame.index).getD 0)
        (s.offset + out.length) := by rw [h.dissectors, hlast]
  rw [hbatches]
  refine
    { h with
      offset_le := hle
      kept := fun j c hc => ?_
      owes := fun j c sh hc hs => ?_
      told := fun j sh _ htold => absurd htold (Nat.not_lt_zero j)
      owed_le := fun c hc last hl => (h.owed_le c hc last hl).trans (Nat.le_add_right _ _)
      within := ⟨fun sh hs => (h.within.given sh hs).trans (Nat.le_add_right _ _),
        h.within.mark.trans (Nat.le_add_right _ _)⟩
      ready := ⟨?_, fun b hb => ?_⟩
      isOpen := fun _ => h.isOpen fun hlast => by cases waiting.symm.trans hlast
      ended := fun hlast => by cases hlast }
  · have hj : j < s.contexts.length := (List.getElem?_eq_some_iff.mp hc).1
    have hkept := h.kept j c hc
    rw [waiting, FeederPhase.batch?_waiting, Option.toList_none, List.flatMap_nil,
      List.append_nil] at hkept
    rw [FeederPhase.batch?_announcing, if_pos (Nat.zero_le j), Nat.sub_zero,
      getElem?_batches d _ _ _ hj, htake, StreamDissector.routed_append, ← hkept,
      List.append_assoc, Option.toList_some, List.flatMap_singleton]
  · have howes := h.owes j c sh hc hs
    rwa [waiting] at howes
  · rw [batches, List.length_map, List.length_range, Nat.zero_add]
  · obtain ⟨place, -, rfl⟩ := List.mem_map.mp hb
    rfl

theorem Sound.leave (h : s.Sound d frames done store) (waiting : s.feeder = .waiting)
    (hall : store.size = frames.length) (hover : store.size ≤ s.offset) :
    { s with
      feeder := .left
      contexts := s.contexts.map fun c : StreamContext τ =>
        { c with queue := c.queue.close } }.Sound d frames done store := by
  have hoffset : s.offset = frames.length := by
    have := h.offset_le
    omega
  have hget : ∀ {j : ℕ} {c : StreamContext τ},
      (s.contexts.map fun c : StreamContext τ => { c with queue := c.queue.close })[j]? = some c →
        ∃ c', s.contexts[j]? = some c' ∧ c = { c' with queue := c'.queue.close } := by
    intro j c hc
    rw [List.getElem?_map, Option.map_eq_some_iff] at hc
    obtain ⟨c', hc', rfl⟩ := hc
    exact ⟨c', hc', rfl⟩
  refine
    { h with
      contexts_pos := by simpa using h.contexts_pos
      stored := by simpa using h.stored
      kept := fun j c hc => ?_
      holds := fun j c hc => ?_
      shares := by simpa using h.shares
      owes := fun j c sh hc hs => ?_
      told := fun j sh hs _ => h.told j sh hs (by rw [waiting]; trivial)
      owed_le := ?_
      ready := trivial
      isOpen := fun hne => absurd rfl hne
      ended := fun _ => ⟨hoffset, ?_⟩
      left := ?_ }
  · obtain ⟨c', hc', rfl⟩ := hget hc
    have hkept := h.kept j c' hc'
    rw [waiting] at hkept
    simp only [List.length_map]
    exact hkept
  · obtain ⟨c', hc', rfl⟩ := hget hc
    exact h.holds j c' hc'
  · obtain ⟨c', hc', rfl⟩ := hget hc
    have howes := h.owes j c' sh hc' hs
    rwa [waiting] at howes
  · intro c hc
    obtain ⟨c', hc', rfl⟩ := List.mem_map.mp hc
    exact h.owed_le c' hc'
  · intro c hc
    obtain ⟨c', -, rfl⟩ := List.mem_map.mp hc
    rfl
  · intro c hc hleft
    obtain ⟨c', hc', rfl⟩ := List.mem_map.mp hc
    exact ⟨(h.left c' hc' hleft).1, rfl⟩

theorem Sound.turn {place : ℕ} (h : s.Sound d frames done store)
    (hdone : s.feeder = .announcing place [] ∨ s.feeder = .handing place []) :
    { s with feeder := .waiting }.Sound d frames done store := by
  have hready := h.ready
  rcases hdone with hdone | hdone <;> rw [hdone] at hready
  · obtain ⟨hplace, -⟩ := hready
    rw [List.length_nil, Nat.add_zero] at hplace
    refine
      { h with
        kept := fun j c hc => ?_
        owes := fun j c sh hc hs => ?_
        told := fun j sh hs _ => h.told j sh hs ?_
        ready := trivial
        isOpen := fun _ => h.isOpen fun hlast => by cases hdone.symm.trans hlast
        ended := fun hlast => by cases hlast }
    · have hkept := h.kept j c hc
      rw [hdone] at hkept
      simpa using hkept
    · have howes := h.owes j c sh hc hs
      rwa [hdone] at howes
    · have hj := (List.getElem?_eq_some_iff.mp hs).1
      rw [hdone]
      exact lt_of_lt_of_eq hj (h.shares.trans hplace.symm)
  · exact absurd rfl hready.1

theorem Sound.announce {place : ℕ} {b : StreamBatch} {bs : List StreamBatch}
    (h : s.Sound d frames done store) (announcing : s.feeder = .announcing place (b :: bs)) :
    { s with
      feeder := .handing place (b :: bs)
      progress := s.progress.begin place b.first b.last }.Sound d frames done store := by
  have hready := h.ready
  rw [announcing] at hready
  obtain ⟨hplace, hlast⟩ := hready
  have hb : b.last = s.offset := hlast b List.mem_cons_self
  refine
    { h with
      kept := fun j c hc => ?_
      shares := by simp [Progress.begin, h.shares]
      owes := fun j c sh hc hs => ?_
      told := fun j sh hs htold => ?_
      within := h.within.begin le_rfl hb.le
      ready := ⟨List.cons_ne_nil b bs, hplace, hlast⟩
      isOpen := fun _ => h.isOpen fun hlast => by cases announcing.symm.trans hlast
      ended := fun hlast => by cases hlast }
  · have hkept := h.kept j c hc
    rwa [announcing] at hkept
  · rw [Progress.getElem?_shares_begin] at hs
    split at hs
    · next heq =>
      subst heq
      obtain ⟨t, ht, rfl⟩ := Option.map_eq_some_iff.mp hs
      refine Share.Owes.begin (hb ▸ h.within.given t (List.mem_of_getElem? ht)) ?_
      simp [FeederPhase.owed]
    · next hne =>
      have howes := h.owes j c sh hc hs
      rw [announcing] at howes
      simpa [FeederPhase.owed, Ne.symm hne] using howes
  · rw [Progress.getElem?_shares_begin] at hs
    split at hs
    · obtain ⟨t, ht, rfl⟩ := Option.map_eq_some_iff.mp hs
      rw [Share.begin, hb]
      exact max_eq_right (h.within.given t (List.mem_of_getElem? ht))
    · next hne =>
      refine h.told j sh hs ?_
      rw [announcing]
      exact lt_of_le_of_ne htold (Ne.symm hne)

theorem Sound.hand {place : ℕ} {b : StreamBatch} {bs : List StreamBatch} {c : StreamContext τ}
    {queue : Queue StreamBatch} (h : s.Sound d frames done store)
    (handing : s.feeder = .handing place (b :: bs)) (here : s.contexts[place]? = some c)
    (push : c.queue.push b = .done queue) :
    { s with
      feeder := .announcing (place + 1) bs
      contexts := s.contexts.set place { c with queue := queue } }.Sound d frames done store := by
  obtain ⟨hopen, -, rfl⟩ := Queue.push_eq_done_iff.mp push
  have hready := h.ready
  rw [handing] at hready
  obtain ⟨-, hplace, hlast⟩ := hready
  have hc := List.mem_of_getElem? here
  -- What the feeder has for the other contexts does not change.
  have hother : ∀ j, j ≠ place → (FeederPhase.announcing (place + 1) bs).batch? j =
      (FeederPhase.handing place (b :: bs)).batch? j := by
    intro j hj
    rw [FeederPhase.batch?_announcing, FeederPhase.batch?_handing]
    by_cases hle : place + 1 ≤ j
    · rw [if_pos hle, if_pos (by omega), show j - place = j - (place + 1) + 1 by omega,
        List.getElem?_cons_succ]
    · rw [if_neg hle, if_neg (by omega)]
  have hahead : StreamContext.ahead { c with queue := { c.queue with items := c.queue.items ++ [b] } } =
      c.ahead ++ b.segments := by
    simp [StreamContext.ahead, StreamContext.inHand]
  have howed : StreamContext.owed { c with queue := { c.queue with items := c.queue.items ++ [b] } } =
      c.owed ++ [b.last] := by
    simp [StreamContext.owed, StreamContext.inHand]
  refine
    { h with
      contexts_pos := by simpa using h.contexts_pos
      stored := by simpa using h.stored
      kept := fun j e he => ?_
      holds := fun j e he => ?_
      shares := by simpa using h.shares
      owes := fun j e sh he hs => ?_
      told := fun j sh hs htold => h.told j sh hs ?_
      owed_le := ?_
      ready := ⟨?_, fun k hk => hlast k (List.mem_cons_of_mem b hk)⟩
      isOpen := fun _ => ?_
      ended := fun hlast => by cases hlast
      left := ?_ }
  · simp only [List.length_set]
    rcases List.of_getElem?_set_eq_some he with ⟨rfl, rfl⟩ | ⟨hj, he⟩
    · have hkept := h.kept j c here
      rw [handing, FeederPhase.batch?_handing, if_pos le_rfl, Nat.sub_self] at hkept
      rw [← hkept, hahead, FeederPhase.batch?_announcing, if_neg (by omega)]
      simp
    · rw [hother j hj, ← handing]
      exact h.kept j e he
  · rcases List.of_getElem?_set_eq_some he with ⟨rfl, rfl⟩ | ⟨-, he⟩
    · exact h.holds j c here
    · exact h.holds j e he
  · rcases List.of_getElem?_set_eq_some he with ⟨rfl, rfl⟩ | ⟨hj, he⟩
    · have howes := h.owes j c sh here hs
      rw [handing] at howes
      rw [howed]
      simpa [FeederPhase.owed] using howes
    · have howes := h.owes j e sh he hs
      rw [handing] at howes
      simpa [FeederPhase.owed, hj] using howes
  · rw [handing]
    exact Nat.le_of_lt_succ htold
  · refine List.forall_mem_set h.owed_le ?_
    rw [howed]
    intro last hl
    rcases List.mem_append.mp hl with hl | hl
    · exact h.owed_le c hc last hl
    · rw [List.mem_singleton.mp hl]
      exact (hlast b List.mem_cons_self).le
  · rw [List.length_set, ← hplace, List.length_cons]
    omega
  · exact List.forall_mem_set (h.isOpen fun hlast => by cases handing.symm.trans hlast) hopen
  · refine List.forall_mem_set h.left fun hleft => ?_
    have hclosed := (h.left c hc hleft).2
    rw [hopen] at hclosed
    cases hclosed

/-- **Every turn of the feeder keeps the segments together.** When it leaves, all frames were
stored. -/
theorem Sound.feed (h : s.Sound d frames done store) (hnum : Frame.Numbered frames)
    (hall : store.closed = true → store.size = frames.length) (ht : s.Feed store s') :
    s'.Sound d frames done store := by
  cases ht with
  | take waiting ready => exact h.take hnum waiting ready
  | leave waiting ended =>
    obtain ⟨hover, hclosed⟩ := Store.wait_eq_closed_iff.mp ended
    exact h.leave waiting (hall hclosed) hover
  | turn hdone => exact h.turn hdone
  | announce announcing => exact h.announce announcing
  | hand handing here push => exact h.hand handing here push
  | quit handing here closed =>
    have hopen := h.isOpen (fun hlast => by cases handing.symm.trans hlast) _
      (List.mem_of_getElem? here)
    rw [closed] at hopen
    cases hopen

end StreamStage

end PacketTree
