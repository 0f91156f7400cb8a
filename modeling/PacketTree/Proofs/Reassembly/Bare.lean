import PacketTree.Proofs.Reassembly.SafeIndex

/-!
# Streams without segments

How far the feeder and its contexts are does not depend on what is in the frames: a `bare` stage, whose
only dissector takes no segments, takes the same turns but for those in which a segment is looked at.

## What is proved

* `Feed.bare`, `Work.bare`: the turns of a stage are turns of the bare one, or they leave it as it is.
* `feed?_bare_eq_none`, `work?_bare_eq_none`: whoever has to wait in a stage has to wait in the bare
  one.

## The model

The bare stage takes its frames from a store of its own. The two stores are `Alike`: they hold and park
frames of the same numbers.
-/

namespace PacketTree

variable {τ : Type}

/-! ### Stores of frames of the same numbers -/

namespace Store

/-- Two stores hold and park frames of the same numbers. -/
structure Alike (s t : Store) : Prop where
  /-- The frames are numbered from one on, -/
  numbered : Frame.Numbered s.frames.toList
  /-- in both stores, -/
  numbered_right : Frame.Numbered t.frames.toList
  /-- and are as many. -/
  size : t.size = s.size
  /-- Frames of the same numbers are parked. -/
  parked : t.parked.map Frame.index = s.parked.map Frame.index
  /-- Both are open, or none is. -/
  closed : t.closed = s.closed

theorem alike_empty : Alike empty empty := ⟨nofun, nofun, rfl, rfl, rfl⟩

variable {s t : Store} {f g : Frame} {batch fs gs hs : List Frame} {offset most : ℕ}

/-- Where a frame is parked depends on the numbers only. -/
theorem map_index_park (hf : g.index = f.index) (hgs : hs.map Frame.index = gs.map Frame.index) :
    (park g hs).map Frame.index = (park f gs).map Frame.index := by
  induction gs generalizing hs with
  | nil => simpa [List.map_eq_nil_iff.mp hgs, park] using hf
  | cons k gs ih =>
    cases hs with
    | nil => cases hgs
    | cons m hs =>
      obtain ⟨hm, hgs⟩ := List.cons.inj hgs
      rw [park, park, hf, hm]
      split
      · simp [hf, hm, hgs]
      · split
        · simp [hf, hgs]
        · simp [hm, ih hgs]

theorem map_index_parkAll (hbatch : fs.map Frame.index = batch.map Frame.index)
    (hgs : hs.map Frame.index = gs.map Frame.index) :
    (fs.foldl (fun hs f => park f hs) hs).map Frame.index =
      (batch.foldl (fun gs f => park f gs) gs).map Frame.index := by
  induction batch generalizing fs gs hs with
  | nil =>
    rw [List.map_nil, List.map_eq_nil_iff] at hbatch
    rwa [hbatch]
  | cons f batch ih =>
    cases fs with
    | nil => cases hbatch
    | cons g fs =>
      obtain ⟨hf, hbatch⟩ := List.cons.inj hbatch
      rw [List.foldl_cons, List.foldl_cons]
      exact ih hbatch (map_index_park hf hgs)

/-- Which frames are given out depends on the numbers only. -/
theorem release_alike {frames frames' : Array Frame} (hsize : frames'.size = frames.size)
    (hgs : hs.map Frame.index = gs.map Frame.index) :
    (release frames' hs).1.size = (release frames gs).1.size ∧
      (release frames' hs).2.map Frame.index = (release frames gs).2.map Frame.index := by
  induction gs generalizing frames frames' hs with
  | nil =>
    rw [List.map_nil, List.map_eq_nil_iff] at hgs
    rw [hgs]
    exact ⟨hsize, rfl⟩
  | cons g gs ih =>
    cases hs with
    | nil => cases hgs
    | cons h hs =>
      obtain ⟨hg, hgs⟩ := List.cons.inj hgs
      rw [release, release, hg, hsize]
      split
      · exact ih (by rw [Array.size_push, Array.size_push, hsize]) hgs
      · obtain ⟨hfst, hsnd⟩ := ih hsize hgs
        exact ⟨hfst, by rw [List.map_cons, List.map_cons, hg, hsnd]⟩

theorem Alike.insert (h : s.Alike t) (hbatch : fs.map Frame.index = batch.map Frame.index) :
    (s.insert batch).Alike (t.insert fs) := by
  obtain ⟨hsize, hparked⟩ := release_alike h.size (map_index_parkAll hbatch h.parked)
  exact ⟨numbered_insert h.numbered batch, numbered_insert h.numbered_right fs, hsize, hparked,
    h.closed⟩

theorem Alike.close (h : s.Alike t) : s.close.Alike t.close := { h with closed := rfl }

/-- The frames that are given out have the same numbers. -/
theorem Alike.wait_eq_done (h : s.Alike t) (hwait : s.wait offset most = .done fs) :
    ∃ gs, t.wait offset most = .done gs ∧ gs.map Frame.index = fs.map Frame.index := by
  obtain ⟨hlt, rfl⟩ := wait_eq_done_iff.mp hwait
  refine ⟨_, wait_eq_done_iff.mpr ⟨h.size ▸ hlt, rfl⟩, ?_⟩
  have hlength : t.frames.toList.length = s.frames.toList.length := by
    rw [Array.length_toList, Array.length_toList]
    exact h.size
  rw [List.map_take, List.map_take, List.map_drop, List.map_drop, h.numbered.map_index,
    h.numbered_right.map_index, hlength]

theorem Alike.wait_eq_closed (h : s.Alike t) (hwait : s.wait offset most = .closed) :
    t.wait offset most = .closed := by
  rw [wait_eq_closed_iff] at hwait ⊢
  rwa [h.size, h.closed]

theorem Alike.wait_eq_blocked (h : s.Alike t) (hwait : s.wait offset most = .blocked) :
    t.wait offset most = .blocked := by
  rw [wait_eq_blocked_iff] at hwait ⊢
  rwa [h.size, h.closed]

end Store

/-! ### Nothing to look at -/

/-- A dissector that takes no segments. -/
def StreamDissector.deaf : StreamDissector Unit where
  name := "deaf"
  patterns := []
  fresh := ()
  analyze _ _ := ((), none)
  expired _ _ := false

theorem Segment.ofFrame_deaf (f : Frame) : ofFrame [.deaf] f = [] := by
  simp [ofFrame, StreamDissector.selects, StreamDissector.deaf]

/-- The batch without its segments. -/
def StreamBatch.bare (b : StreamBatch) : StreamBatch := { b with segments := [] }

/-- What the feeder does next, without segments. -/
def FeederPhase.bare : FeederPhase → FeederPhase
  | .waiting => .waiting
  | .announcing place batches => .announcing place (batches.map StreamBatch.bare)
  | .handing place batches => .handing place (batches.map StreamBatch.bare)
  | .left => .left

/-- What a context does next, without segments. -/
def StreamPhase.bare : StreamPhase → StreamPhase
  | .idle => .idle
  | .working _ last => .working [] last
  | .left => .left

/-- The context without segments and streams. -/
def StreamContext.bare (c : StreamContext τ) : StreamContext Unit where
  queue := { c.queue with items := c.queue.items.map StreamBatch.bare }
  batches := c.batches
  phase := c.phase.bare

namespace StreamStage

/-- The stage without segments and streams. -/
def bare (s : StreamStage τ) : StreamStage Unit where
  dissectors := [.deaf]
  batchSize := s.batchSize
  sweepInterval := s.sweepInterval
  offset := s.offset
  feeder := s.feeder.bare
  progress := s.progress
  contexts := s.contexts.map StreamContext.bare

/-- The segments that the contexts have in hand. -/
def load (s : StreamStage τ) : ℕ :=
  (s.contexts.map fun c => (c.inHand.flatMap StreamBatch.segments).length).sum

variable {s s' : StreamStage τ} {store store' stored : Store} {c : StreamContext τ} {i now : ℕ}

theorem bare_create (ds : List (StreamDissector τ)) (contexts batchSize capacity sweepInterval : ℕ) :
    (create ds contexts batchSize capacity sweepInterval).bare =
      create [.deaf] contexts batchSize capacity sweepInterval := by
  simp [create, bare, StreamContext.bare, StreamPhase.bare, FeederPhase.bare, Queue.ofCapacity]

theorem getElem?_contexts_bare (here : s.contexts[i]? = some c) :
    s.bare.contexts[i]? = some c.bare := by
  rw [bare, List.getElem?_map, here, Option.map_some]

theorem bare_batches (ds : List (StreamDissector τ)) (contexts first last : ℕ)
    (frames frames' : List Frame) :
    (batches ds contexts frames first last).map StreamBatch.bare =
      batches [.deaf] contexts frames' first last := by
  simp [batches, StreamBatch.bare, Segment.ofFrame_deaf]

/-! ### Turns -/

/-- The turns of the feeder are turns of the bare one. -/
theorem Feed.bare (hstore : store.Alike store') (ht : s.Feed store s') :
    s.bare.Feed store' s'.bare := by
  cases ht with
  | @take frames waiting ready =>
    obtain ⟨gs, hwait, hindex⟩ := hstore.wait_eq_done ready
    have hturn := Feed.take (s := s.bare) (by rw [StreamStage.bare, waiting]; rfl) hwait
    have hlength : gs.length = frames.length := by simpa using congrArg List.length hindex
    rw [← List.head?_map, ← List.getLast?_map, hindex, List.head?_map, List.getLast?_map,
      hlength] at hturn
    simpa only [StreamStage.bare, FeederPhase.bare, List.length_map,
      bare_batches s.dissectors s.contexts.length _ _ frames gs] using hturn
  | leave waiting ended =>
    have hturn := Feed.leave (s := s.bare) (by rw [StreamStage.bare, waiting]; rfl)
      (hstore.wait_eq_closed ended)
    simpa [StreamStage.bare, FeederPhase.bare, StreamContext.bare, Queue.close, Function.comp_def]
      using hturn
  | @turn place hdone =>
    have hbare : s.bare.feeder = .announcing place [] ∨ s.bare.feeder = .handing place [] := by
      rcases hdone with hdone | hdone
      · exact .inl (by rw [StreamStage.bare, hdone, FeederPhase.bare, List.map_nil])
      · exact .inr (by rw [StreamStage.bare, hdone, FeederPhase.bare, List.map_nil])
    exact Feed.turn hbare
  | announce announcing =>
    exact Feed.announce (s := s.bare) (by rw [StreamStage.bare, announcing]; rfl)
  | @hand place b bs c queue handing here push =>
    obtain ⟨hopen, hroom, rfl⟩ := Queue.push_eq_done_iff.mp push
    have hpush : c.bare.queue.push b.bare =
        .done { c.bare.queue with items := c.bare.queue.items ++ [b.bare] } := by
      refine Queue.push_eq_done_iff.mpr ⟨hopen, ?_, rfl⟩
      rwa [Queue.size, StreamContext.bare, List.length_map]
    have hturn : s.bare.Feed store' _ := Feed.hand (by rw [StreamStage.bare, handing]; rfl)
      (getElem?_contexts_bare here) hpush
    simpa [StreamStage.bare, FeederPhase.bare, StreamContext.bare, List.map_set] using hturn
  | quit handing here closed =>
    exact Feed.quit (s := s.bare) (by rw [StreamStage.bare, handing]; rfl)
      (getElem?_contexts_bare here) closed

/-- The turns of a context are turns of the bare one, unless it looks at a segment: then the bare one
stays as it is. -/
theorem Work.bare (ht : s.Work store i now s' stored) (store' : Store) :
    (s'.bare = s.bare ∧ s'.load < s.load) ∨ s.bare.Work store' i now s'.bare store' := by
  cases ht with
  | @pull c b rest here idle items =>
    have hitems : c.bare.queue.items = b.bare :: rest.map StreamBatch.bare := by
      rw [StreamContext.bare, items, List.map_cons]
    have hturn : s.bare.Work store' i now _ store' := Work.pull (getElem?_contexts_bare here)
      (by rw [StreamContext.bare, idle]; rfl) hitems
    refine .inr ?_
    simpa [StreamStage.bare, StreamContext.bare, StreamPhase.bare, StreamBatch.bare, List.map_set]
      using hturn
  | leave here idle empty closed =>
    have hturn : s.bare.Work store' i now _ store' := Work.leave (getElem?_contexts_bare here)
      (by rw [StreamContext.bare, idle]; rfl) (by rw [StreamContext.bare, empty, List.map_nil]) closed
    refine .inr ?_
    simpa [StreamStage.bare, StreamContext.bare, StreamPhase.bare, List.map_set] using hturn
  | @look c segment rest last here working =>
    refine .inl ⟨?_, List.sum_map_set_lt here ?_⟩
    · obtain ⟨xs, ys, hcontexts, hset⟩ := List.exists_around here
      rw [StreamStage.bare, hset, StreamStage.bare, hcontexts]
      simp [StreamContext.bare, StreamPhase.bare, working]
    · simp [StreamContext.inHand, working]
  | @report c last here working =>
    have hphase : c.bare.phase = .working [] last := by rw [StreamContext.bare, working]; rfl
    have hturn : s.bare.Work store' i now _ store' :=
      Work.report (getElem?_contexts_bare here) hphase
    refine .inr ?_
    have hswept : ∀ now, StreamTable.sweep (τ := Unit) {} now = {} := fun _ => rfl
    simpa [StreamStage.bare, StreamContext.bare, StreamPhase.bare, List.map_set, hswept] using hturn

/-- Looking at segments moves no frame. -/
theorem Work.alike (ht : s.Work store i now s' stored) (h : store.Alike store') :
    stored.Alike store' := by
  obtain ⟨hparked, hclosed, hsize⟩ := ht.kept
  exact ⟨ht.numbered h.numbered, h.numbered_right, h.size.trans hsize.symm, by rw [hparked, h.parked],
    h.closed.trans hclosed.symm⟩

/-! ### Waiting -/

/-- A feeder that cannot take a turn has left, or waits for frames or for room in a queue. -/
theorem feed?_eq_none_iff :
    s.feed? store = none ↔
      s.feeder = .left ∨ (s.feeder = .waiting ∧ store.wait s.offset s.batchSize = .blocked) ∨
        ∃ place b bs, s.feeder = .handing place (b :: bs) ∧
          ∀ c ∈ s.contexts[place]?, c.queue.push b = .blocked := by
  unfold feed?
  cases hfeeder : s.feeder with
  | waiting => cases hwait : store.wait s.offset s.batchSize <;> simp
  | announcing place batches => cases batches <;> simp
  | handing place batches =>
    cases batches with
    | nil => simp
    | cons b bs =>
      cases here : s.contexts[place]? with
      | none => simp [here]
      | some c => cases hpush : c.queue.push b <;> simp [here, hpush]
  | left => simp

theorem feed?_bare_eq_none (h : store.Alike store') (hfeed : s.feed? store = none) :
    s.bare.feed? store' = none := by
  rw [feed?_eq_none_iff] at hfeed ⊢
  rcases hfeed with hleft | ⟨hwaiting, hwait⟩ | ⟨place, b, bs, handing, hpush⟩
  · exact .inl (by rw [bare, hleft]; rfl)
  · exact .inr (.inl ⟨by rw [bare, hwaiting]; rfl, h.wait_eq_blocked hwait⟩)
  · refine .inr (.inr ⟨place, b.bare, bs.map StreamBatch.bare, by rw [bare, handing]; rfl, ?_⟩)
    intro e he
    rw [bare, List.getElem?_map] at he
    obtain ⟨c, hc, rfl⟩ := Option.map_eq_some_iff.mp he
    obtain ⟨hopen, hfull⟩ := Queue.push_eq_blocked_iff.mp (hpush c hc)
    refine Queue.push_eq_blocked_iff.mpr ⟨hopen, ?_⟩
    simpa [Queue.size, Queue.limit, StreamContext.bare] using hfull

theorem work?_bare_eq_none (store' : Store) (hwork : s.work? store i now = none) :
    s.bare.work? store' i now = none := by
  cases here : s.contexts[i]? with
  | none => simp [work?, bare, here]
  | some c =>
    rw [work?_eq_none_iff (getElem?_contexts_bare here)]
    rcases (work?_eq_none_iff here).mp hwork with hleft | ⟨hidle, hempty, hopen⟩
    · exact .inl (by rw [StreamContext.bare, hleft]; rfl)
    · exact .inr ⟨by rw [StreamContext.bare, hidle]; rfl,
        by rw [StreamContext.bare, hempty, List.map_nil], hopen⟩

end StreamStage

end PacketTree
