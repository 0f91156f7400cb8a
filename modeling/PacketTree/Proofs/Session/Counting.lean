import PacketTree.Proofs.Dissection.SafeIndex
import PacketTree.Proofs.Reassembly.Bare
import PacketTree.Proofs.Session.Orderly

/-!
# Counting frames

Dissectors may remember what they saw and break down, and any number of them may look at streams: what
they find depends on the order of the turns, but how many frames there are does not. Each pipeline has
a shadow that finds nothing, and of that it is known that no turn loses a frame.

## What is proved

* `Intact.turn`, `Intact.push`: whatever the dissectors, no turn loses a frame.
* `Intact.size_makeRoom_lt`: in three turns of any context there is room in a full queue, and
* `Intact.exists_finished`: whatever turns were taken, some more bring the work to its end, if the
  dissectors come to an end with every frame.
* `Intact.counts`: then the store and both safe indices tell how many frames were pushed.

## The model

`Shadows` relates a pipeline to one without workers, segments and streams that takes the same turns, for
which `Traffic.Sound` holds. A pipeline is `Intact` if it has such a shadow.
-/

namespace PacketTree

variable {σ τ : Type}

/-! ### The pool -/

namespace Pool

variable {p q : Pool σ} {c : DissectionContext σ} {i : ℕ} {batch handed : List Frame} {last : ℕ}

/-- No turn makes the queue longer. -/
theorem Turn.size_le (ht : p.Turn i q handed) :
    q.queue.size ≤ p.queue.size ∧ q.queue.limit = p.queue.limit := by
  cases ht with
  | claim here idle pop =>
    obtain ⟨-, hitems, -, hcapacity⟩ := Queue.popBatch_eq_done pop
    exact ⟨by simp [Queue.size, hitems], by rw [Queue.limit, hcapacity, Queue.limit]⟩
  | leave | hand | report => exact ⟨le_rfl, rfl⟩

theorem turn_size_le (p : Pool σ) (i : ℕ) :
    (p.turn i).queue.size ≤ p.queue.size ∧ (p.turn i).queue.limit = p.queue.limit := by
  rw [turn]
  cases h : p.step? i with
  | none => exact ⟨le_rfl, rfl⟩
  | some r => exact (turn_of_step? h).size_le

theorem hasRoom_turn (room : p.HasRoom) (i : ℕ) : (p.turn i).HasRoom := by
  rw [turn]
  cases h : p.step? i with
  | none => exact room
  | some r =>
    rw [HasRoom]
    exact (turn_of_step? h).same.2.1 ▸ room

/-- An idle context takes frames out of the queue, if there are any and it has room for them. -/
theorem turn_size_lt (room : p.HasRoom) (here : p.contexts[i]? = some c) (idle : c.phase = .idle)
    (hne : p.queue.items ≠ []) : (p.turn i).queue.size < p.queue.size := by
  cases hpop : p.queue.popBatch p.batchSize [] with
  | done r =>
    obtain ⟨queue, batch⟩ := r
    obtain ⟨hbatch, hitems, -⟩ := Queue.popBatch_eq_done hpop
    have hqueue : (p.turn i).queue = queue := by simp [turn, step?, here, idle, room, hpop]
    have hpos := List.length_pos_iff.mpr hbatch
    rw [hqueue, Queue.size, Queue.size, hitems, List.length_append]
    omega
  | closed => exact absurd (Queue.popBatch_eq_closed_iff.mp hpop).1 hne
  | blocked => exact absurd (Queue.popBatch_eq_blocked_iff.mp hpop).1 hne

/-- A context that is done with a batch is idle after its next turn. -/
theorem turn_handed (here : p.contexts[i]? = some c) (handed : c.phase = .handed last) :
    (p.turn i).queue = p.queue ∧ (p.turn i).contexts[i]? = some { c with phase := .idle } := by
  have hturn : p.turn i = { p with
      progress := p.progress.finish i last
      contexts := p.contexts.set i { c with phase := .idle } } := by
    simp [turn, step?, here, handed]
  rw [hturn]
  exact ⟨rfl, List.getElem?_set_self (List.getElem?_eq_some_iff.mp here).1⟩

/-- A context with a batch in hand is done with it after its next turn, if it comes to an end. -/
theorem turn_holding (hends : p.BatchesEnd) (here : p.contexts[i]? = some c)
    (holding : c.phase = .holding batch) :
    (p.turn i).queue = p.queue ∧ ∃ d : DissectionContext σ, (p.turn i).contexts[i]? = some d ∧
      d.phase = .handed (lastIndex batch) := by
  obtain ⟨⟨workers, frames⟩, hdissect⟩ :=
    Option.isSome_iff_exists.mp (hends c (List.mem_of_getElem? here) batch holding)
  have hturn : p.turn i = { p with
      contexts := p.contexts.set i { workers := workers, phase := .handed (lastIndex batch) } } := by
    simp [turn, step?, here, holding, hdissect]
  rw [hturn]
  exact ⟨rfl, _, List.getElem?_set_self (List.getElem?_eq_some_iff.mp here).1, rfl⟩

/-- **Three turns of a context make room**: in one of them it takes frames out of the queue. -/
theorem after_size_lt (room : p.HasRoom) (hends : p.BatchesEnd) (here : p.contexts[i]? = some c) (hleft : c.phase ≠ .left)
    (hne : p.queue.items ≠ []) :
    (p.after [i, i, i]).queue.size < p.queue.size ∧
      (p.after [i, i, i]).queue.limit = p.queue.limit := by
  obtain ⟨hle₁, hlimit₁⟩ := p.turn_size_le i
  obtain ⟨hle₂, hlimit₂⟩ := (p.turn i).turn_size_le i
  obtain ⟨hle₃, hlimit₃⟩ := ((p.turn i).turn i).turn_size_le i
  refine ⟨?_, hlimit₃.trans (hlimit₂.trans hlimit₁)⟩
  change (((p.turn i).turn i).turn i).queue.size < _
  cases hphase : c.phase with
  | idle =>
    have hlt := turn_size_lt room here hphase hne
    omega
  | holding batch =>
    obtain ⟨hqueue, d, hd, hhanded⟩ := turn_holding hends here hphase
    obtain ⟨hqueue', hidle⟩ := turn_handed hd hhanded
    have hsame : ((p.turn i).turn i).queue = p.queue := hqueue'.trans hqueue
    have hlt := turn_size_lt (hasRoom_turn (hasRoom_turn room i) i) hidle rfl (hsame ▸ hne)
    rwa [hsame] at hlt
  | handed last =>
    obtain ⟨hqueue, hidle⟩ := turn_handed here hphase
    have hlt := turn_size_lt (hasRoom_turn room i) hidle rfl (hqueue ▸ hne)
    rw [hqueue] at hlt
    omega
  | left => exact absurd hphase hleft

end Pool

/-! ### One frame more -/

/-- Those who have left in the bare stage have left. -/
theorem StreamStage.left_of_bare {stage : StreamStage τ} (hfeeder : stage.bare.feeder = .left)
    (hcontexts : ∀ c ∈ stage.bare.contexts, c.phase = .left) :
    stage.feeder = .left ∧ ∀ c ∈ stage.contexts, c.phase = .left := by
  refine ⟨?_, fun c hc => ?_⟩
  · change stage.feeder.bare = .left at hfeeder
    cases hphase : stage.feeder <;> rw [hphase] at hfeeder <;> cases hfeeder
  · have hbare : c.phase.bare = .left := hcontexts c.bare (List.mem_map_of_mem hc)
    cases hphase : c.phase <;> rw [hphase] at hbare <;> cases hbare

theorem StreamStage.Sound.append {d : StreamDissector τ} {frames : List Frame}
    {done : ℕ → List Segment} {s : StreamStage τ} {store : Store} (h : s.Sound d frames done store)
    (hleft : s.feeder ≠ .left) (f : Frame) : s.Sound d (frames ++ [f]) done store :=
  { h with
    stored := by rw [List.take_append_of_le_length h.size_le]; exact h.stored
    kept := fun j c hc => by
      rw [List.take_append_of_le_length (h.offset_le.trans h.size_le)]
      exact h.kept j c hc
    ended := fun hl => absurd hl hleft }

/-- As long as the queue is open, there may be one frame more to push. -/
theorem Traffic.Sound.append {ds : List (Dissector σ)} {d : StreamDissector τ} {threshold : Threshold}
    {frames : List Frame} {t : Traffic σ τ} {f : Frame} (h : t.Sound ds d threshold frames)
    (hopen : t.pipeline.pool.queue.closed = false)
    (hleft : ∀ stage ∈ t.pipeline.streams, stage.feeder ≠ .left) (hindex : f.index = frames.length + 1)
    (hone : ∀ s ∈ Segment.ofFrame [d] (alone threshold ds f),
      ∀ u ∈ Segment.ofFrame [d] (alone threshold ds f), s.stream = u.stream) :
    Sound ds d threshold (frames ++ [f]) { t with upcoming := t.upcoming ++ [f] } := by
  obtain ⟨claimed, hpool⟩ := h.pool
  obtain ⟨stage, done, hstreams, hstage⟩ := h.streams
  have hsize : t.pipeline.store.size ≤ (frames.map (alone threshold ds)).length := hstage.size_le
  refine
    { h with
      numbered := h.numbered.concat hindex
      oneStream := ?_
      pool := ⟨claimed, ?_⟩
      streams := ⟨stage, done, hstreams, ?_⟩ }
  · rw [List.map_append, List.forall_mem_append]
    exact ⟨h.oneStream, List.forall_mem_singleton.mpr hone⟩
  · rw [List.map_append, List.take_append_of_le_length hsize]
    exact hpool.append hopen f
  · rw [List.map_append]
    exact hstage.append (hleft stage hstreams) _

/-! ### The shadow of a pipeline -/

namespace Pipeline

/-- A pipeline that finds nothing takes the turns of another one, and has lost none of some frames. -/
structure Shadows (threshold : Threshold) (frames : List Frame) (q : Pipeline σ Unit)
    (p : Pipeline σ τ) : Prop where
  /-- Its contexts are where the other ones are, -/
  pool : q.pool = p.pool.bare
  /-- and so are the frames, -/
  store : p.store.Alike q.store
  /-- and those who work on streams. -/
  streams : ∀ stage ∈ p.streams, q.streams = some stage.bare
  /-- Someone waits for both to finish, or for none. -/
  joining : q.joining = p.joining
  /-- It has lost no frame, -/
  sound : Traffic.Sound ([] : List (Dissector σ)) .deaf threshold frames ⟨[], q⟩
  /-- and its feeder leaves only when no more frames will come. -/
  ended : ∀ stage ∈ q.streams, stage.feeder = .left → q.store.closed = true

/-- The segments that the contexts have in hand. -/
def load (p : Pipeline σ τ) : ℕ := (p.streams.map StreamStage.load).getD 0

/-- The turns that a shadow needs at most. -/
def shadowEffort (threshold : Threshold) (frames : List Frame) (q : Pipeline σ Unit) : ℕ :=
  Traffic.effort .deaf (frames.map (alone threshold ([] : List (Dissector σ)))) ⟨[], q⟩

variable {threshold : Threshold} {frames : List Frame} {p p' : Pipeline σ τ} {q q' : Pipeline σ Unit}
  {a : Actor} {f : Frame} {n : ℕ}

/-- What no turn changes. -/
theorem Turn.same (ht : p.Turn a p') :
    p'.pool.queue.closed = p.pool.queue.closed ∧ p'.joining = p.joining := by
  cases ht with
  | dissect turn | hand turn => exact ⟨turn.same.2.2.1, rfl⟩
  | close | feed | work => exact ⟨rfl, rfl⟩

/-- All turns keep what the contexts keep of the pool. -/
theorem Turn.keeps_pool {motive : Pool σ → Prop}
    (hturn : ∀ i pool pool' handed, Pool.Turn pool i pool' handed → motive pool → motive pool')
    (ht : p.Turn a p') (h : motive p.pool) : motive p'.pool := by
  cases ht with
  | dissect turn | hand turn => exact hturn _ _ _ _ turn h
  | close | feed | work => exact h

theorem Turn.alwaysEnds (ht : p.Turn a p') (h : p.pool.AlwaysEnds) : p'.pool.AlwaysEnds :=
  ht.keeps_pool (fun _ _ _ _ turn => turn.alwaysEnds) h

/-- No turn makes the feeder of the shadow leave too early. -/
theorem Shadows.ended_of_turn (h : q.Shadows threshold frames p) (ht : q.Turn a q') :
    ∀ stage ∈ q'.streams, stage.feeder = .left → q'.store.closed = true := by
  cases ht with
  | dissect | hand => exact h.ended
  | close => exact fun _ _ _ => rfl
  | feed here turn =>
    intro stage hstage hleft
    cases hstage
    cases turn with
    | take | turn | announce | hand => cases hleft
    | leave waiting ended => exact (Store.wait_eq_closed_iff.mp ended).2
    | quit handing hc closed =>
      -- The queues are open until the feeder leaves.
      obtain ⟨_, done, hsome, hsound⟩ := h.sound.streams
      obtain rfl := Option.some.inj (here.symm.trans hsome)
      have hopen := hsound.isOpen (fun hlast => by cases handing.symm.trans hlast) _
        (List.mem_of_getElem? hc)
      cases closed.symm.trans hopen
  | work here turn =>
    intro stage hstage hleft
    cases hstage
    rw [turn.kept.2.1]
    refine h.ended _ here ?_
    cases turn <;> exact hleft

/-- A turn of the shadow keeps all frames and costs some effort. -/
theorem Shadows.of_turn (h : q.Shadows threshold frames p) (ht : q.Turn a q')
    (hpool : q'.pool = p'.pool.bare) (hstore : p'.store.Alike q'.store)
    (hstreams : ∀ stage ∈ p'.streams, q'.streams = some stage.bare)
    (hjoining : q'.joining = p'.joining) :
    ∃ q' : Pipeline σ Unit, q'.Shadows threshold frames p' ∧
      q'.shadowEffort threshold frames < q.shadowEffort threshold frames := by
  have hturn : Traffic.Turn ⟨[], q⟩ (.actor a) ⟨[], q'⟩ := .actor ht
  have hkeeps := h.sound.keeps hturn fun _ _ _ _ _ _ => rfl
  exact ⟨q', ⟨hpool, hstore, hstreams, hjoining, h.sound.turn hkeeps hturn, h.ended_of_turn ht⟩,
    h.sound.effort_lt hturn⟩

/-- **The shadow takes the same turn**, unless a context looks at a segment. -/
theorem Shadows.turn (h : q.Shadows threshold frames p) (ht : p.Turn a p') :
    (q.Shadows threshold frames p' ∧ p'.load < p.load) ∨
      ∃ q' : Pipeline σ Unit, q'.Shadows threshold frames p' ∧
        q'.shadowEffort threshold frames < q.shadowEffort threshold frames := by
  have hpool : ∀ {i : ℕ} {pool : Pool σ} {batch : List Frame}, p.pool.Turn i pool batch →
      ∃ fs : List Frame, q.pool.Turn i pool.bare fs ∧
        fs.map Frame.index = batch.map Frame.index := fun turn => h.pool ▸ turn.bare
  cases ht with
  | dissect turn =>
    obtain ⟨fs, hturn, hfs⟩ := hpool turn
    obtain rfl := List.map_eq_nil_iff.mp hfs
    exact .inr (h.of_turn (.dissect hturn) rfl h.store h.streams h.joining)
  | hand turn =>
    obtain ⟨fs, hturn, hfs⟩ := hpool turn
    exact .inr (h.of_turn (.hand hturn) rfl (h.store.insert hfs) h.streams h.joining)
  | close drained isOpen =>
    have hdrained : q.pool.isDrained = true := by rw [h.pool, Pool.isDrained_bare, drained]
    exact .inr (h.of_turn (.close hdrained (h.store.closed.trans isOpen)) h.pool h.store.close h.streams
      h.joining)
  | feed here turn =>
    refine .inr (h.of_turn (.feed (h.streams _ here) (turn.bare h.store)) h.pool h.store
      (fun stage hstage => ?_) h.joining)
    cases hstage
    rfl
  | work here turn =>
    rcases turn.bare q.store with ⟨hsame, hload⟩ | hturn
    · refine .inl ⟨⟨h.pool, turn.alike h.store, fun stage hstage => ?_, h.joining, h.sound,
        h.ended⟩, ?_⟩
      · cases hstage
        rw [hsame]
        exact h.streams _ here
      · simpa only [load, here, Option.map_some, Option.getD_some] using hload
    · refine .inr (h.of_turn (.work (h.streams _ here) hturn) h.pool (turn.alike h.store)
        (fun stage hstage => ?_) h.joining)
      cases hstage
      rfl

/-- **Unless all work is done, someone can take a turn**, if the dissectors come to an end. -/
theorem Shadows.finished_of_stuck (h : q.Shadows threshold frames p) (hends : p.pool.AlwaysEnds)
    (hclosed : p.pool.queue.closed = true) (hjoining : p.joining = true)
    (hstuck : ∀ a, p.step? a = none) : p.Finished := by
  have hdrained : p.pool.isDrained = true := by
    refine (Pool.drained_of_stuck hends.batchesEnd fun i =>
      step?_pool_eq_none (hstuck (.dissector i))).resolve_right fun ⟨_, hopen⟩ => ?_
    rw [hclosed] at hopen
    cases hopen
  have hstore := store_closed_of_stuck (hstuck .joiner) hjoining hdrained
  have hstreams : ∀ stage ∈ p.streams, stage.feeder = .left ∧ ∀ c ∈ stage.contexts, c.phase = .left := by
    intro stage hstage
    obtain ⟨bare, done, hbare, hsound⟩ := h.sound.streams
    obtain rfl := Option.some.inj ((h.streams stage hstage).symm.trans hbare)
    have hfeed := feed?_eq_none hstage (hstuck .feeder)
    have hwork : ∀ i, stage.work? p.store i 0 = none := fun i =>
      work?_eq_none hstage (hstuck (.stream i 0))
    obtain ⟨hfeeder, hcontexts⟩ := (hsound.left_of_stuck (StreamStage.feed?_bare_eq_none h.store hfeed)
      fun i => StreamStage.work?_bare_eq_none _ (hwork i)).resolve_right fun hwaits => by
        rw [h.store.closed, hstore] at hwaits
        cases hwaits.2
    exact stage.left_of_bare hfeeder hcontexts
  exact ⟨hdrained, hstore, fun stage hstage => (hstreams stage hstage).1,
    fun stage hstage => (hstreams stage hstage).2⟩

/-- Some turns bring the work to its end: each of them costs the shadow some effort or lets a context
look at one of the segments that it has in hand. -/
theorem Shadows.exists_finished (h : q.Shadows threshold frames p) (hends : p.pool.AlwaysEnds)
    (hclosed : p.pool.queue.closed = true) (hjoining : p.joining = true) :
    ∃ turns, (p.run turns).Finished := by
  induction heffort : q.shadowEffort threshold frames using Nat.strong_induction_on
    generalizing p q with
  | _ effort ih =>
    induction hload : p.load using Nat.strong_induction_on generalizing p with
    | _ load ihload =>
      by_cases hstuck : ∀ a, p.step? a = none
      · exact ⟨[], h.finished_of_stuck hends hclosed hjoining hstuck⟩
      · obtain ⟨a, ha⟩ := not_forall.mp hstuck
        obtain ⟨p', hstep⟩ := Option.ne_none_iff_exists'.mp ha
        have ht := turn_of_step? hstep
        obtain ⟨hqueue, hjoin⟩ := ht.same
        obtain ⟨turns, hfinished⟩ : ∃ turns, (p'.run turns).Finished := by
          rcases h.turn ht with ⟨h', hlt⟩ | ⟨q', h', hlt⟩
          · exact ihload _ (hload ▸ hlt) h' (ht.alwaysEnds hends) (hqueue.trans hclosed)
              (hjoin.trans hjoining) rfl
          · exact ih _ (heffort ▸ hlt) h' (ht.alwaysEnds hends) (hqueue.trans hclosed)
              (hjoin.trans hjoining) rfl
        refine ⟨a :: turns, ?_⟩
        rwa [run, List.foldl_cons, step, hstep, Option.getD_some]

/-! ### Pipelines that have lost no frame -/

/-- A pipeline has lost none of the first `n` frames. -/
structure Intact (n : ℕ) (p : Pipeline σ τ) : Prop where
  /-- It has a shadow that has lost none of them. -/
  shadowed : ∃ threshold frames, ∃ q : Pipeline σ Unit, frames.length = n ∧
    q.Shadows threshold frames p
  /-- The queue holds no more frames than it can. -/
  size_le : p.pool.queue.size ≤ p.pool.queue.limit

theorem Shadows.hasRoom (h : q.Shadows threshold frames p) : p.pool.HasRoom := by
  have room : q.pool.HasRoom := h.sound.room
  rw [h.pool] at room
  exact room

/-- As long as packets are taken, no context has left. -/
theorem Shadows.not_left (h : q.Shadows threshold frames p) (hopen : p.pool.queue.closed = false) :
    ∀ c ∈ p.pool.contexts, c.phase ≠ .left := by
  obtain ⟨claimed, hsound⟩ := h.sound.pool
  intro c hc hleft
  rw [h.pool] at hsound
  have hclosed : p.pool.queue.closed = true :=
    (hsound.left h.hasRoom _ (List.mem_map_of_mem hc) hleft).2
  rw [hopen] at hclosed
  cases hclosed

theorem Shadows.contexts_pos (h : q.Shadows threshold frames p) : 0 < p.pool.contexts.length := by
  simpa [h.pool, Pool.bare] using h.sound.contexts_pos

/-- As long as packets are taken, the feeder waits for more frames. -/
theorem Shadows.feeder_ne_left (h : q.Shadows threshold frames p)
    (hopen : p.pool.queue.closed = false) : ∀ stage ∈ q.streams, stage.feeder ≠ .left := by
  intro stage hstage hleft
  have hdrained := h.sound.closed (h.ended stage hstage hleft)
  rw [h.pool, Pool.isDrained_bare] at hdrained
  exact h.not_left hopen _ (List.getElem_mem h.contexts_pos)
    (Pool.phase_of_isDrained hdrained (List.getElem_mem h.contexts_pos))

/-- **Whatever the dissectors, no turn loses a frame.** -/
theorem Intact.turn (h : p.Intact n) (ht : p.Turn a p') : p'.Intact n := by
  obtain ⟨threshold, frames, q, hlength, hq⟩ := h.shadowed
  refine ⟨?_, ?_⟩
  · rcases hq.turn ht with ⟨hq', -⟩ | ⟨q', hq', -⟩
    · exact ⟨threshold, frames, q, hlength, hq'⟩
    · exact ⟨threshold, frames, q', hlength, hq'⟩
  · cases ht with
    | dissect turn | hand turn =>
      obtain ⟨hle, hlimit⟩ := turn.size_le
      exact hle.trans (h.size_le.trans hlimit.ge)
    | close | feed | work => exact h.size_le

theorem Intact.step (h : p.Intact n) (a : Actor) : (p.step a).Intact n := by
  rw [Pipeline.step]
  cases hstep : p.step? a with
  | none => exact h
  | some p' => exact h.turn (turn_of_step? hstep)

/-- **No schedule loses a frame.** -/
theorem Intact.run (h : p.Intact n) (turns : List Actor) : (p.run turns).Intact n := by
  induction turns generalizing p with
  | nil => exact h
  | cons a turns ih => exact ih (h.step a)

theorem step_same (p : Pipeline σ τ) (a : Actor) :
    (p.step a).pool.queue.closed = p.pool.queue.closed ∧ (p.step a).joining = p.joining := by
  rw [step]
  cases hstep : p.step? a with
  | none => exact ⟨rfl, rfl⟩
  | some p' => exact (turn_of_step? hstep).same

theorem run_same (p : Pipeline σ τ) (turns : List Actor) :
    (p.run turns).pool.queue.closed = p.pool.queue.closed ∧ (p.run turns).joining = p.joining := by
  induction turns generalizing p with
  | nil => exact ⟨rfl, rfl⟩
  | cons a turns ih =>
    obtain ⟨hclosed, hjoining⟩ := p.step_same a
    obtain ⟨hclosed', hjoining'⟩ := ih (p.step a)
    exact ⟨hclosed'.trans hclosed, hjoining'.trans hjoining⟩

/-- **A frame that is pushed is one more.** -/
theorem Intact.push {pool : Pool σ} (h : p.Intact n) (hindex : f.index = n + 1)
    (hpush : p.pool.push f = .done pool) : { p with pool := pool }.Intact (n + 1) := by
  obtain ⟨threshold, frames, q, rfl, hq⟩ := h.shadowed
  obtain ⟨queue, hqueue, rfl⟩ := Pool.exists_of_push hpush
  have hopen := (Queue.push_eq_done_iff.mp hqueue).1
  have hsame : q.pool.queue = p.pool.queue := by rw [hq.pool, Pool.bare]
  have hone : ∀ s ∈ Segment.ofFrame [.deaf] (alone threshold ([] : List (Dissector σ)) f),
      ∀ u ∈ Segment.ofFrame [.deaf] (alone threshold ([] : List (Dissector σ)) f),
        s.stream = u.stream := by
    simp [Segment.ofFrame_deaf]
  have hsound := (hq.sound.append (by rw [hsame, hopen]) (hq.feeder_ne_left hopen) hindex hone).push
    rfl (hsame ▸ hqueue)
  exact ⟨⟨threshold, frames ++ [f], { q with pool := { q.pool with queue := queue } }, by simp,
    by rw [hq.pool]; rfl, hq.store, hq.streams, hq.joining, hsound, hq.ended⟩,
    Queue.size_le_limit_of_push_eq_done hqueue⟩

theorem Intact.close (h : p.Intact n) : { p with pool := p.pool.close }.Intact n := by
  obtain ⟨threshold, frames, q, hlength, hq⟩ := h.shadowed
  obtain ⟨claimed, hpool⟩ := hq.sound.pool
  exact ⟨⟨threshold, frames, { q with pool := q.pool.close }, hlength, by rw [hq.pool]; rfl, hq.store,
    hq.streams, hq.joining,
    { hq.sound with pool := ⟨claimed, hpool.close⟩, joining := fun _ => rfl }, hq.ended⟩, h.size_le⟩

/-- No more frames are taken, and someone waits for the pipeline to finish. -/
def shut (p : Pipeline σ τ) : Pipeline σ τ := { p with pool := p.pool.close, joining := true }

theorem Intact.shut (h : p.Intact n) : p.shut.Intact n := by
  obtain ⟨threshold, frames, q, hlength, hq⟩ := h.close.shadowed
  exact ⟨⟨threshold, frames, { q with joining := true }, hlength, hq.pool, hq.store, hq.streams, rfl,
    { hq.sound with joining := fun _ => by rw [hq.pool]; rfl }, hq.ended⟩, h.size_le⟩

theorem makeRoom_same (p : Pipeline σ τ) (round : ℕ) :
    (p.makeRoom round).pool.queue.closed = p.pool.queue.closed ∧
      (p.makeRoom round).joining = p.joining := by
  obtain ⟨turns, hturns⟩ := p.exists_run_makeRoom round
  exact hturns ▸ p.run_same _

theorem Intact.makeRoom (h : p.Intact n) (round : ℕ) : (p.makeRoom round).Intact n := by
  obtain ⟨turns, hturns⟩ := p.exists_run_makeRoom round
  exact hturns ▸ h.run _

/-- **There is room in the queue after the turns that make room**, if the dissectors come to an end. -/
theorem Intact.size_makeRoom_lt (h : p.Intact n) (hends : p.pool.AlwaysEnds)
    (hopen : p.pool.queue.closed = false) (round : ℕ) :
    (p.makeRoom round).pool.queue.size < (p.makeRoom round).pool.queue.limit := by
  by_cases hspace : p.hasSpace = true
  · rw [makeRoom_of_hasSpace hspace]
    exact of_decide_eq_true hspace
  · obtain ⟨threshold, frames, q, -, hq⟩ := h.shadowed
    let i := round % p.pool.contexts.length
    have hi : i < p.pool.contexts.length := Nat.mod_lt round hq.contexts_pos
    have hpool : (p.run (p.batchTurns round)).pool = p.pool.after [i, i, i] :=
      (p.run_dissectors [i, i, i]).1
    have hfull : ¬p.pool.queue.size < p.pool.queue.limit := fun hlt => hspace (decide_eq_true hlt)
    have hne : p.pool.queue.items ≠ [] := by
      intro hitems
      have := p.pool.queue.limit_pos
      rw [Queue.size, hitems, List.length_nil] at hfull
      omega
    obtain ⟨hlt, hlimit⟩ := Pool.after_size_lt hq.hasRoom hends.batchesEnd
      (List.getElem?_eq_getElem hi) (hq.not_left hopen _ (List.getElem_mem hi)) hne
    have hroom : (p.run (p.batchTurns round)).pool.queue.size <
        (p.run (p.batchTurns round)).pool.queue.limit := by
      rw [hpool, hlimit]
      exact hlt.trans_le h.size_le
    rwa [makeRoom_eq_run hq.contexts_pos hspace (decide_eq_true hroom)]

/-- So does every run. -/
theorem keeps_pool_run {motive : Pool σ → Prop}
    (hturn : ∀ i pool pool' handed, Pool.Turn pool i pool' handed → motive pool → motive pool')
    (h : motive p.pool) (turns : List Actor) : motive (p.run turns).pool := by
  induction turns generalizing p with
  | nil => exact h
  | cons a turns ih =>
    refine ih ?_
    rw [Pipeline.step]
    cases hstep : p.step? a with
    | none => exact h
    | some p' => exact (turn_of_step? hstep).keeps_pool hturn h

/-- **Whatever turns were taken, some more bring the work to its end**, if the dissectors come to one. -/
theorem Intact.exists_finished (h : p.Intact n) (hends : p.pool.AlwaysEnds) (turns : List Actor) :
    ∃ more, (p.shut.run (turns ++ more)).Finished := by
  obtain ⟨threshold, frames, q, -, hq⟩ := (h.shut.run turns).shadowed
  obtain ⟨hclosed, hjoining⟩ := p.shut.run_same turns
  have hends' : (p.shut.run turns).pool.AlwaysEnds :=
    keeps_pool_run (p := p.shut) (fun _ _ _ _ turn => turn.alwaysEnds) hends turns
  obtain ⟨more, hfinished⟩ := hq.exists_finished hends' hclosed hjoining
  refine ⟨more, ?_⟩
  rwa [Pipeline.run, List.foldl_append]

/-- **When all work is done, every frame was counted.** -/
theorem Intact.counts (h : p.Intact n) (hfinished : p.Finished) :
    p.store.size = n ∧ p.pool.progress.safe.1 = n ∧
      ∀ stage ∈ p.streams, stage.progress.safe.1 = n := by
  obtain ⟨threshold, frames, q, rfl, hq⟩ := h.shadowed
  have hdrained : q.pool.isDrained = true := by rw [hq.pool, Pool.isDrained_bare, hfinished.pool]
  obtain ⟨-, hsize, -, hsafe⟩ := hq.sound.full hdrained
  rw [hq.pool] at hsafe
  refine ⟨hq.store.size.symm.trans hsize, hsafe, fun stage hstage => ?_⟩
  obtain ⟨bare, done, hbare, hsound⟩ := hq.sound.streams
  obtain rfl := Option.some.inj ((hq.streams stage hstage).symm.trans hbare)
  have hfeeder : stage.bare.feeder = .left := by
    rw [StreamStage.bare, hfinished.feeder stage hstage]
    rfl
  have hcontexts : ∀ c ∈ stage.bare.contexts, c.phase = .left := by
    intro c hc
    obtain ⟨d, hd, rfl⟩ := List.mem_map.mp hc
    rw [StreamContext.bare, hfinished.streams stage hstage d hd]
    rfl
  have hcount := (hsound.finished hq.sound.stored_numbered hq.sound.oneStream hfeeder hcontexts).2
  rwa [List.length_map] at hcount

end Pipeline

end PacketTree
