import PacketTree.Proofs.Dissection.Pool
import PacketTree.Proofs.Reassembly.Work
import PacketTree.Session.Pipeline

/-!
# Runs of a pipeline

All who work at a pipeline take turns in any order: the producer, who pushes frames, closes the queue
and waits; the contexts that take frames apart; the one who waits for these and closes the store; the
feeder; and the contexts that work on streams.

## What is proved

* `Sound.turn`: no turn loses a frame or a segment, unless a stream is given up.
* `Sound.finished_of_stuck`: unless all work is done, someone can take a turn.
* `Sound.result`: what the store holds when all work is done.

## The model

`Traffic` is a pipeline with the frames that were not pushed yet. A schedule is a list of those who
take turns. `Sound` joins the invariants of the stages: what the pool has handed on is what is stored,
as it was taken apart, and what is parked.
-/

namespace PacketTree

variable {σ τ : Type}

/-- A pipeline, and the frames that the producer has still to push. -/
structure Traffic (σ τ : Type) where
  /-- The frames to push, in order. -/
  upcoming : List Frame
  /-- The pipeline. -/
  pipeline : Pipeline σ τ

/-- Someone who takes turns. -/
inductive Party where
  /-- The one who pushes frames. -/
  | producer
  /-- One of those who work in the pipeline. -/
  | actor (a : Actor)

/-- Everyone in the pipeline has left. -/
structure Pipeline.Finished (p : Pipeline σ τ) : Prop where
  /-- The contexts that take frames apart have left, -/
  pool : p.pool.isDrained = true
  /-- the store is closed, -/
  store : p.store.closed = true
  /-- the feeder has left, -/
  feeder : ∀ stage ∈ p.streams, stage.feeder = .left
  /-- and so have the contexts that work on streams. -/
  streams : ∀ stage ∈ p.streams, ∀ c ∈ stage.contexts, c.phase = .left

theorem Pipeline.isFinished_iff {p : Pipeline σ τ} : p.isFinished = true ↔ p.Finished := by
  simp only [isFinished, Bool.and_eq_true, Option.all_eq_true, List.all_eq_true]
  constructor
  · rintro ⟨⟨hpool, hstore⟩, hstreams⟩
    refine ⟨hpool, hstore, fun stage hs => ?_, fun stage hs c hc => ?_⟩
    · have hfeeder := (hstreams stage hs).1
      split at hfeeder
      · assumption
      · cases hfeeder
    · have hphase := (hstreams stage hs).2 c hc
      split at hphase
      · assumption
      · cases hphase
  · intro h
    refine ⟨⟨h.pool, h.store⟩, fun stage hs => ⟨?_, fun c hc => ?_⟩⟩
    · rw [h.feeder stage hs]
    · rw [h.streams stage hs c hc]

instance (p : Pipeline σ τ) : Decidable p.Finished := decidable_of_iff _ Pipeline.isFinished_iff

/-! ### Turns -/

namespace Pipeline

/-- What a turn in the pipeline can be. -/
inductive Turn (p : Pipeline σ τ) : Actor → Pipeline σ τ → Prop where
  /-- A context that takes frames apart hands on nothing. -/
  | dissect {i : ℕ} {pool : Pool σ} (turn : p.pool.Turn i pool []) :
      Turn p (.dissector i) { p with pool := pool }
  /-- It hands a batch on to the store. -/
  | hand {i : ℕ} {pool : Pool σ} {batch : List Frame} (turn : p.pool.Turn i pool batch) :
      Turn p (.dissector i)
        { p with pool := pool, store := p.store.insert batch, handed := batch :: p.handed }
  /-- All frames were taken apart. -/
  | close (drained : p.pool.isDrained = true) (isOpen : p.store.closed = false) :
      Turn p .joiner { p with store := p.store.close }
  /-- The feeder takes a turn. -/
  | feed {stage stage' : StreamStage τ} (here : p.streams = some stage)
      (turn : stage.Feed p.store stage') : Turn p .feeder { p with streams := some stage' }
  /-- A context that works on streams takes a turn. -/
  | work {i now : ℕ} {stage stage' : StreamStage τ} {store : Store} (here : p.streams = some stage)
      (turn : stage.Work p.store i now stage' store) :
      Turn p (.stream i now) { p with streams := some stage', store := store }

theorem turn_of_step? {p q : Pipeline σ τ} {a : Actor} (h : p.step? a = some q) : p.Turn a q := by
  cases a with
  | dissector i =>
    unfold step? at h
    dsimp only at h
    split at h
    · cases h
    · next hpool =>
      cases h
      exact .dissect (Pool.turn_of_step? hpool)
    · next hpool =>
      cases h
      exact .hand (Pool.turn_of_step? hpool)
  | joiner =>
    unfold step? at h
    dsimp only at h
    split at h
    · next hready =>
      cases h
      rw [Bool.and_eq_true, Bool.and_eq_true, Bool.not_eq_true'] at hready
      exact .close hready.1.2 hready.2
    · cases h
  | feeder =>
    obtain ⟨stage, here, h⟩ := Option.bind_eq_some_iff.mp h
    obtain ⟨stage', hfeed, h⟩ := Option.bind_eq_some_iff.mp h
    cases h
    exact .feed here (StreamStage.feed_of_feed? hfeed)
  | stream i now =>
    obtain ⟨stage, here, h⟩ := Option.bind_eq_some_iff.mp h
    obtain ⟨⟨stage', store⟩, hwork, h⟩ := Option.bind_eq_some_iff.mp h
    cases h
    exact .work here (StreamStage.work_of_work? hwork)

/-! ### Who has to wait -/

variable {p : Pipeline σ τ} {stage : StreamStage τ} {i now : ℕ}

theorem step?_pool_eq_none (h : p.step? (.dissector i) = none) : p.pool.step? i = none := by
  unfold step? at h
  cases hi : p.pool.step? i with
  | none => rfl
  | some r => obtain ⟨pool, _ | ⟨f, fs⟩⟩ := r <;> simp [hi] at h

/-- The store stays open only as long as frames are taken apart. -/
theorem store_closed_of_stuck (h : p.step? .joiner = none) (hjoining : p.joining = true)
    (hdrained : p.pool.isDrained = true) : p.store.closed = true := by
  by_contra hopen
  simp [step?, hjoining, hdrained, hopen] at h

theorem feed?_eq_none (here : p.streams = some stage) (h : p.step? .feeder = none) :
    stage.feed? p.store = none := by
  cases hfeed : stage.feed? p.store with
  | none => rfl
  | some s => simp [step?, here, hfeed] at h

theorem work?_eq_none (here : p.streams = some stage) (h : p.step? (.stream i now) = none) :
    stage.work? p.store i now = none := by
  cases hwork : stage.work? p.store i now with
  | none => rfl
  | some r => simp [step?, here, hwork] at h

end Pipeline

namespace Traffic

/-- A turn of the producer: it pushes the next frame if the number behind it has 32 bits, closes the queue
behind the last one, and then waits for the others; `none` if the queue is full or nothing is left to
do. -/
def produce? (t : Traffic σ τ) : Option (Traffic σ τ) :=
  match t.upcoming with
  | f :: upcoming =>
    if f.index + 1 < UInt32.size then
      match t.pipeline.pool.push f with
      | .done pool => some ⟨upcoming, { t.pipeline with pool := pool }⟩
      | _ => none
    else none
  | [] =>
    if t.pipeline.pool.queue.closed = false then
      some ⟨[], { t.pipeline with pool := t.pipeline.pool.close }⟩
    else if t.pipeline.joining = false then some ⟨[], { t.pipeline with joining := true }⟩
    else none

/-- A turn; `none` if it has to wait or there is nothing left to do. -/
def step? (t : Traffic σ τ) : Party → Option (Traffic σ τ)
  | .producer => t.produce?
  | .actor a => (t.pipeline.step? a).map fun p => { t with pipeline := p }

/-- A turn, or nothing if it has to wait. -/
def step (t : Traffic σ τ) (party : Party) : Traffic σ τ := (t.step? party).getD t

/-- The turns of a schedule, one after the other. -/
def run (t : Traffic σ τ) (schedule : List Party) : Traffic σ τ := schedule.foldl step t

/-- What a turn can be. -/
inductive Turn (t : Traffic σ τ) : Party → Traffic σ τ → Prop where
  /-- The producer pushes the next frame. -/
  | push {f : Frame} {upcoming : List Frame} {queue : Queue Frame} (next : t.upcoming = f :: upcoming)
      (push : t.pipeline.pool.queue.push f = .done queue) (fits : f.index + 1 < UInt32.size) :
      Turn t .producer
        ⟨upcoming, { t.pipeline with pool := { t.pipeline.pool with queue := queue } }⟩
  /-- The producer closes the queue. -/
  | close (pushed : t.upcoming = []) (isOpen : t.pipeline.pool.queue.closed = false) :
      Turn t .producer ⟨[], { t.pipeline with pool := t.pipeline.pool.close }⟩
  /-- The producer waits for the others. -/
  | join (pushed : t.upcoming = []) (closed : t.pipeline.pool.queue.closed = true)
      (here : t.pipeline.joining = false) :
      Turn t .producer ⟨[], { t.pipeline with joining := true }⟩
  /-- One of those who work in the pipeline takes a turn. -/
  | actor {a : Actor} {p : Pipeline σ τ} (turn : t.pipeline.Turn a p) :
      Turn t (.actor a) { t with pipeline := p }

variable {t t' : Traffic σ τ} {party : Party}

theorem turn_of_step? (h : t.step? party = some t') : t.Turn party t' := by
  cases party with
  | producer =>
    change t.produce? = some t' at h
    unfold produce? at h
    split at h
    · next next =>
      split at h
      · next fits =>
        split at h
        · next pool hpush =>
          cases h
          obtain ⟨queue, push, rfl⟩ := Pool.exists_of_push hpush
          exact .push next push fits
        · cases h
      · cases h
    · next pushed =>
      split at h
      · next isOpen =>
        cases h
        exact .close pushed isOpen
      · next closed =>
        split at h
        · next here =>
          cases h
          exact .join pushed (Bool.not_eq_false _ ▸ closed) here
        · cases h
  | actor a =>
    obtain ⟨p, hp, rfl⟩ := Option.map_eq_some_iff.mp h
    exact .actor (Pipeline.turn_of_step? hp)

/-- No stream is given up from one state to another. -/
def Keeps (t t' : Traffic σ τ) : Prop :=
  ∀ stage ∈ t.pipeline.streams, ∀ stage' ∈ t'.pipeline.streams, stage.Keeps stage'

/-- No stream is given up in any turn of a schedule. -/
def KeepsAll (t : Traffic σ τ) : List Party → Prop
  | [] => True
  | party :: schedule => t.Keeps (t.step party) ∧ (t.step party).KeepsAll schedule

/-! ### What is never lost -/

/-- Every frame that was pushed is in the hands of someone, and no stage lost any of it. -/
structure Sound (ds : List (Dissector σ)) (d : StreamDissector τ) (threshold : Threshold)
    (frames : List Frame) (t : Traffic σ τ) : Prop where
  /-- There is room for a batch of frames. -/
  room : t.pipeline.pool.HasRoom
  /-- The workers of the dissectors never change. -/
  steady : ∀ d ∈ ds, d.IsSteady
  /-- The frames are numbered from one on. -/
  numbered : Frame.Numbered frames
  /-- Each frame has segments of one stream. -/
  oneStream : ∀ f ∈ frames.map (alone threshold ds), ∀ s ∈ Segment.ofFrame [d] f,
    ∀ u ∈ Segment.ofFrame [d] f, s.stream = u.stream
  /-- The confidence that a layer needs. -/
  threshold_eq : t.pipeline.pool.threshold = threshold
  /-- There are contexts that take frames apart. -/
  contexts_pos : 0 < t.pipeline.pool.contexts.length
  /-- What they handed on is stored or parked. -/
  pool : ∃ claimed, t.pipeline.pool.Sound ds frames t.upcoming
    ((frames.map (alone threshold ds)).take t.pipeline.store.size ++ t.pipeline.store.parked) claimed
  /-- Parked frames wait for others. -/
  line : t.pipeline.store.InLine
  /-- The streams of all stored frames are worked on. -/
  streams : ∃ stage done, t.pipeline.streams = some stage ∧
    stage.Sound d (frames.map (alone threshold ds)) done t.pipeline.store
  /-- The producer waits only when it has closed the queue. -/
  joining : t.pipeline.joining = true → t.pipeline.pool.queue.closed = true
  /-- The store is closed when all frames were taken apart. -/
  closed : t.pipeline.store.closed = true → t.pipeline.pool.isDrained = true

variable {ds : List (Dissector σ)} {d : StreamDissector τ} {threshold : Threshold}
  {frames upcoming : List Frame} {f : Frame} {i now : ℕ}

theorem Sound.stored_numbered (h : t.Sound ds d threshold frames) :
    Frame.Numbered (frames.map (alone threshold ds)) :=
  h.numbered.map (index_alone threshold _)

/-- Once all frames were taken apart, all of them are stored. -/
theorem Sound.full (h : t.Sound ds d threshold frames) (hdrained : t.pipeline.pool.isDrained = true) :
    t.upcoming = [] ∧ t.pipeline.store.size = frames.length ∧ t.pipeline.store.parked = [] ∧
      t.pipeline.pool.progress.safe.1 = frames.length := by
  obtain ⟨claimed, hpool⟩ := h.pool
  obtain ⟨stage, done, -, hstage⟩ := h.streams
  obtain ⟨hup, hperm, hsafe⟩ := hpool.drained h.room (List.ne_nil_of_length_pos h.contexts_pos) hdrained
  rw [h.threshold_eq] at hperm
  obtain ⟨hsize, hparked⟩ :=
    h.line.parked_eq_nil h.stored_numbered hstage.size_le hperm
  exact ⟨hup, by rw [hsize, List.length_map], hparked, hsafe⟩

/-! ### No turn loses anything -/

theorem Sound.push {queue : Queue Frame} (h : t.Sound ds d threshold frames)
    (next : t.upcoming = f :: upcoming) (push : t.pipeline.pool.queue.push f = .done queue) :
    Sound ds d threshold frames
      ⟨upcoming, { t.pipeline with pool := { t.pipeline.pool with queue := queue } }⟩ := by
  obtain ⟨claimed, hpool⟩ := h.pool
  rw [next] at hpool
  have hopen := (Queue.push_eq_done_iff.mp push).1
  refine { h with pool := ⟨claimed, hpool.push push⟩, joining := fun hj => ?_ }
  have hclosed := h.joining hj
  rw [hopen] at hclosed
  cases hclosed

/-- Frames that were taken apart are put into the store. -/
theorem Sound.hand (h : t.Sound ds d threshold frames) {pool : Pool σ} {batch : List Frame}
    (ht : t.pipeline.pool.Turn i pool batch) (handed : List (List Frame)) :
    Sound ds d threshold frames { t with pipeline := { t.pipeline with
      pool := pool
      store := t.pipeline.store.insert batch
      handed := handed } } := by
  obtain ⟨hthreshold, hbatch, hclosed, hlength⟩ := ht.same
  obtain ⟨claimed, hpool⟩ := h.pool
  obtain ⟨claimed', hpool⟩ := hpool.turn h.steady h.numbered ht
  obtain ⟨stage, done, hstreams, hstage⟩ := h.streams
  have hsub : (batch ++ ((frames.map (alone threshold ds)).take t.pipeline.store.size ++
      t.pipeline.store.parked)).Subperm (frames.map (alone threshold ds)) := by
    have hkept := hpool.kept
    rw [hthreshold, h.threshold_eq] at hkept
    exact ((List.sublist_append_left _ _).subperm.trans hkept.subperm).trans
      ((List.take_sublist claimed' frames).map _).subperm
  obtain ⟨taken, rest, hframes, hrest, hperm, hline⟩ := h.line.insert h.stored_numbered hsub
  exact
    { h with
      room := (congrArg (Memory.Fits · Pool.frameBytes) hbatch).mpr h.room
      threshold_eq := hthreshold.trans h.threshold_eq
      contexts_pos := hlength ▸ h.contexts_pos
      pool := ⟨claimed', hpool.of_perm hperm⟩
      line := hline
      streams := ⟨stage, done, hstreams, hstage.insert h.stored_numbered hframes hrest⟩
      joining := fun hj => hclosed.trans (h.joining hj)
      closed := fun hc => absurd (h.closed hc) ht.not_isDrained }

/-- The feeder takes frames or hands out segments. -/
theorem Sound.feed (h : t.Sound ds d threshold frames) {stage stage' : StreamStage τ}
    (here : t.pipeline.streams = some stage) (ht : stage.Feed t.pipeline.store stage') :
    Sound ds d threshold frames { t with pipeline := { t.pipeline with streams := some stage' } } := by
  obtain ⟨_, done, hstage, hsound⟩ := h.streams
  obtain rfl := Option.some.inj (here.symm.trans hstage)
  refine
    { h with
      streams := ⟨stage', done, rfl, hsound.feed h.stored_numbered (fun hclosed => ?_) ht⟩ }
  rw [(h.full (h.closed hclosed)).2.1, List.length_map]

/-- A context works on a stream. -/
theorem Sound.work (h : t.Sound ds d threshold frames) {stage stage' : StreamStage τ} {store : Store}
    (here : t.pipeline.streams = some stage) (hkeeps : stage.Keeps stage')
    (ht : stage.Work t.pipeline.store i now stage' store) :
    Sound ds d threshold frames
      { t with pipeline := { t.pipeline with streams := some stage', store := store } } := by
  obtain ⟨_, done, hstage, hsound⟩ := h.streams
  obtain rfl := Option.some.inj (here.symm.trans hstage)
  obtain ⟨hparked, hclosed, hsize⟩ := ht.kept
  obtain ⟨done', hsound'⟩ := hsound.work h.stored_numbered h.oneStream hkeeps ht
  exact
    { h with
      pool := by simpa only [hparked, hsize] using h.pool
      line := ⟨hparked ▸ h.line.lined, by simpa only [hparked, hsize] using h.line.later⟩
      streams := ⟨stage', done', rfl, hsound'⟩
      closed := fun hc => h.closed (hclosed ▸ hc) }

/-- **No turn loses anything**, unless a stream is given up. -/
theorem Sound.turn (h : t.Sound ds d threshold frames) (hkeeps : t.Keeps t')
    (ht : t.Turn party t') : t'.Sound ds d threshold frames := by
  cases ht with
  | push next push => exact h.push next push
  | close pushed =>
    obtain ⟨claimed, hpool⟩ := h.pool
    rw [pushed] at hpool
    exact { h with pool := ⟨claimed, hpool.close⟩, joining := fun _ => rfl }
  | join pushed closed => exact { h with pool := pushed ▸ h.pool, joining := fun _ => closed }
  | actor turn =>
    cases turn with
    | dissect turn =>
      have hhand := h.hand turn t.pipeline.handed
      rwa [h.line.insert_nil] at hhand
    | hand turn => exact h.hand turn _
    | close drained =>
      obtain ⟨stage, done, hstreams, hstage⟩ := h.streams
      exact
        { h with
          line := ⟨h.line.lined, h.line.later⟩
          streams := ⟨stage, done, hstreams, hstage.of_frames rfl⟩
          closed := fun _ => drained }
    | feed here turn => exact h.feed here turn
    | work here turn => exact h.work here (hkeeps _ here _ rfl) turn

/-- **No schedule loses anything**, unless a stream is given up. -/
theorem Sound.run (h : t.Sound ds d threshold frames) {schedule : List Party}
    (hkeeps : t.KeepsAll schedule) : (t.run schedule).Sound ds d threshold frames := by
  induction schedule generalizing t with
  | nil => exact h
  | cons party schedule ih =>
    obtain ⟨hkeep, hkeeps⟩ := hkeeps
    refine ih ?_ hkeeps
    unfold step at hkeep ⊢
    cases ht : t.step? party with
    | none => exact h
    | some t' =>
      rw [ht] at hkeep
      exact h.turn hkeep (turn_of_step? ht)

/-! ### Time -/

/-- A turn gives up no stream if no worker can have been idle for too long. -/
theorem Sound.keeps (h : t.Sound ds d threshold frames) (ht : t.Turn party t')
    (halive : ∀ i now, party = .actor (.stream i now) →
      ∀ m, ∀ idle ≤ now, d.expired m idle = false) : t.Keeps t' := by
  have hsame : t'.pipeline.streams = t.pipeline.streams → t.Keeps t' := by
    intro heq stage hstage stage' hstage'
    rw [heq] at hstage'
    rw [Option.some.inj (hstage.symm.trans hstage')]
    exact .of_contexts_eq rfl
  cases ht with
  | push | close | join => exact hsame rfl
  | actor turn =>
    cases turn with
    | dissect | hand | close => exact hsame rfl
    | feed here turn =>
      intro stage hstage stage' hstage'
      cases hstage'
      obtain rfl := Option.some.inj (here.symm.trans hstage)
      exact turn.keeps
    | work here turn =>
      intro stage hstage stage' hstage'
      cases hstage'
      obtain ⟨_, done, hsome, hsound⟩ := h.streams
      obtain rfl := Option.some.inj (here.symm.trans hstage)
      obtain rfl := Option.some.inj (here.symm.trans hsome)
      exact turn.keeps hsound (halive _ _ rfl)

/-- **A run that is shorter than the time after which streams are given up gives up none.** -/
theorem Sound.keepsAll (h : t.Sound ds d threshold frames) {schedule : List Party}
    (halive : ∀ i now, .actor (.stream i now) ∈ schedule →
      ∀ m, ∀ idle ≤ now, d.expired m idle = false) : t.KeepsAll schedule := by
  induction schedule generalizing t with
  | nil => trivial
  | cons party schedule ih =>
    have hrest : ∀ i now, .actor (.stream i now) ∈ schedule →
        ∀ m, ∀ idle ≤ now, d.expired m idle = false := fun i now hmem =>
      halive i now (List.mem_cons_of_mem _ hmem)
    have hkeep : t.Keeps (t.step party) ∧ (t.step party).Sound ds d threshold frames := by
      unfold step
      cases ht : t.step? party with
      | none =>
        refine ⟨fun stage hstage stage' hstage' => ?_, h⟩
        rw [Option.some.inj (hstage.symm.trans hstage')]
        exact .of_contexts_eq rfl
      | some t' =>
        have hturn := turn_of_step? ht
        have hkeep := h.keeps hturn fun i now hparty =>
          halive i now (hparty ▸ List.mem_cons_self)
        exact ⟨hkeep, h.turn hkeep hturn⟩
    exact ⟨hkeep.1, ih hkeep.2 hrest⟩

/-! ### The end -/

/-- The producer waits because the queue is full, or it has closed the queue, unless it has no number
for the next frame. -/
theorem of_produce?_eq_none (hfits : ∀ f ∈ t.upcoming, f.index + 1 < UInt32.size)
    (ht : t.produce? = none) :
    t.pipeline.pool.queue.items ≠ [] ∨ t.pipeline.pool.queue.closed = true ∧
      (t.upcoming = [] → t.pipeline.joining = true) := by
  unfold produce? at ht
  split at ht
  · next f upcoming hup =>
    rw [if_pos (hfits f (hup ▸ List.mem_cons_self))] at ht
    unfold Pool.push at ht
    cases hpush : t.pipeline.pool.queue.push f with
    | done queue => simp [hpush] at ht
    | closed => exact .inr ⟨Queue.push_eq_closed_iff.mp hpush, by simp [hup]⟩
    | blocked =>
      refine .inl fun hitems => ?_
      have hfull := (Queue.push_eq_blocked_iff.mp hpush).2
      have hpos := t.pipeline.pool.queue.limit_pos
      rw [Queue.size, hitems, List.length_nil] at hfull
      omega
  · split at ht
    · cases ht
    · next hclosed =>
      split at ht
      · cases ht
      · next hjoining =>
        exact .inr ⟨Bool.not_eq_false _ ▸ hclosed, fun _ => Bool.not_eq_false _ ▸ hjoining⟩

/-- No frame that is still to be pushed has a number beyond the number of all frames. -/
theorem Sound.index_le (h : t.Sound ds d threshold frames) (hf : f ∈ t.upcoming) :
    f.index ≤ frames.length := by
  obtain ⟨claimed, hsound⟩ := h.pool
  have hmem : f ∈ frames := List.mem_of_mem_drop (i := claimed)
    (hsound.waiting ▸ List.mem_append_right _ hf)
  obtain ⟨k, hk⟩ := List.mem_iff_getElem?.mp hmem
  rw [h.numbered k f hk]
  exact (List.getElem?_eq_some_iff.mp hk).1

/-- **Unless all work is done, someone can take a turn**, if the dissectors come to an end with every
frame and there are numbers for all. -/
theorem Sound.finished_of_stuck (h : t.Sound ds d threshold frames)
    (hends : ∀ f ∈ frames, Dissection.Ends threshold ds f) (hcount : frames.length + 1 < UInt32.size)
    (hstuck : ∀ party, t.step? party = none) : t.pipeline.Finished := by
  have hactor : ∀ a, t.pipeline.step? a = none := fun a =>
    Option.map_eq_none_iff.mp (hstuck (.actor a))
  have hproducer := of_produce?_eq_none (fun f hf => (Nat.succ_le_succ (h.index_le hf)).trans_lt hcount)
    (hstuck .producer)
  have hpool : ∀ i, t.pipeline.pool.step? i = none := fun i =>
    Pipeline.step?_pool_eq_none (hactor (.dissector i))
  obtain ⟨claimed, hsound⟩ := h.pool
  have hdrained : t.pipeline.pool.isDrained = true := by
    have hbatches := hsound.batchesEnd h.steady (h.threshold_eq.symm ▸ hends)
    refine (Pool.drained_of_stuck hbatches hpool).resolve_right fun ⟨hitems, hopen⟩ => ?_
    rcases hproducer with hfull | ⟨hclosed, -⟩
    · exact hfull hitems
    · rw [hclosed] at hopen
      cases hopen
  have hjoining : t.pipeline.joining = true := by
    obtain ⟨hempty, -⟩ := hsound.left h.room _ (List.getElem_mem h.contexts_pos)
      (Pool.phase_of_isDrained hdrained (List.getElem_mem h.contexts_pos))
    exact (hproducer.resolve_left fun hfull => hfull hempty).2 (h.full hdrained).1
  have hstore := Pipeline.store_closed_of_stuck (hactor .joiner) hjoining hdrained
  obtain ⟨stage, done, hstreams, hstage⟩ := h.streams
  have hfeed := Pipeline.feed?_eq_none hstreams (hactor .feeder)
  have hwork : ∀ i, stage.work? t.pipeline.store i 0 = none := fun i =>
    Pipeline.work?_eq_none hstreams (hactor (.stream i 0))
  obtain ⟨hfeeder, hcontexts⟩ := (hstage.left_of_stuck hfeed hwork).resolve_right fun hwaits => by
    rw [hstore] at hwaits
    cases hwaits.2
  have hsame : ∀ stage' ∈ t.pipeline.streams, stage' = stage := fun stage' hstage' =>
    Option.some.inj (hstage'.symm.trans hstreams)
  exact ⟨hdrained, hstore, fun stage' hs => hsame stage' hs ▸ hfeeder,
    fun stage' hs => hsame stage' hs ▸ hcontexts⟩

/-- **When all work is done**, the store holds what working on one stream after the other gives. -/
theorem Sound.result (h : t.Sound ds d threshold frames) (hfinished : t.pipeline.Finished) :
    t.pipeline.store.frames.toList =
        d.sequential (fun _ => d.fresh) (frames.map (alone threshold ds)) ∧
      t.pipeline.store.parked = [] ∧ t.pipeline.pool.progress.safe.1 = frames.length ∧
      ∀ stage ∈ t.pipeline.streams, stage.progress.safe.1 = frames.length := by
  obtain ⟨-, -, hparked, hsafe⟩ := h.full hfinished.pool
  obtain ⟨stage, done, hstreams, hstage⟩ := h.streams
  obtain ⟨hframes, hstreamSafe⟩ := hstage.finished h.stored_numbered h.oneStream
    (hfinished.feeder stage hstreams) (hfinished.streams stage hstreams)
  refine ⟨hframes, hparked, hsafe, fun stage' hstage' => ?_⟩
  obtain rfl := Option.some.inj (hstreams.symm.trans hstage')
  rw [hstreamSafe, List.length_map]

end Traffic

end PacketTree
