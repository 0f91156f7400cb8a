import Mathlib.Data.List.Induction
import PacketTree.Proofs.Dissection.Pool

/-!
# What the pool says is safe

Whoever asks a pool how far it is gets the number of a frame. This module proves that all frames up to
this number were handed on, whenever the question is put, and that the numbers never go down.

## What is proved

* `Watch.safe_spec`: all frames up to the safe index were handed on, no later answer is smaller than
  an earlier one, and once all contexts have left it is the number of the last frame pushed, if there is
  room for a batch.
* `Watch.not_safe_of_huge`: without room for a batch it is not.
* `Watch.Guarded.step`: what every event keeps.

## The model

A `Watch` is a pool together with what happened to it: the frames pushed, those handed on and the
answers given. Frames are pushed with the numbers one, two, three and so on; a frame with another
number is not. What the workers make of a frame plays no part: a `bare` pool, all of whose contexts
have lost their workers, takes the same turns and hands on frames of the same numbers.
-/

namespace PacketTree

variable {σ : Type}

namespace Pool

open DissectionContext

variable {p q : Pool σ} {i : ℕ} {handed : List Frame} {c : DissectionContext σ}

/-! ### Pools without workers -/

/-- The pool with contexts that find nothing. -/
def bare (p : Pool σ) : Pool σ :=
  { p with contexts := p.contexts.map fun c => { c with workers := [] } }

theorem getElem?_contexts_bare (here : p.contexts[i]? = some c) :
    p.bare.contexts[i]? = some { c with workers := [] } := by
  rw [bare, List.getElem?_map, here, Option.map_some]

theorem bare_create (ds : List (Dissector σ)) (threshold : Threshold)
    (contexts batchSize capacity : ℕ) :
    (create ds threshold contexts batchSize capacity).bare =
      create [] threshold contexts batchSize capacity := by
  simp [create, bare]

theorem isDrained_bare (p : Pool σ) : p.bare.isDrained = p.isDrained := by
  simp [isDrained, bare, Function.comp_def]

/-- A pool without workers takes the same turns, with frames of the same numbers. -/
theorem Turn.bare (ht : p.Turn i q handed) :
    ∃ handed', p.bare.Turn i q.bare handed' ∧
      handed'.map Frame.index = handed.map Frame.index := by
  cases ht with
  | claim here idle pop room =>
    refine ⟨[], ?_, rfl⟩
    have hturn := Turn.claim (p := p.bare) (getElem?_contexts_bare here) idle pop room
    simpa only [Pool.bare, List.map_set] using hturn
  | leave here idle gone =>
    refine ⟨[], ?_, rfl⟩
    have hturn := Turn.leave (p := p.bare) (getElem?_contexts_bare here) idle gone
    simpa only [Pool.bare, List.map_set] using hturn
  | @hand c batch workers frames here holding dissected =>
    have hnone : dissectAll p.threshold ([] : List (Worker σ)) batch =
        some ([], batch.map (alone p.threshold [])) :=
      dissectAll_of_isSteady (List.forall_mem_nil _) fun f _ => Dissection.ends_nil p.threshold f
    refine ⟨batch.map (alone p.threshold ([] : List (Dissector σ))), ?_, ?_⟩
    · have hturn := Turn.hand (p := p.bare) (getElem?_contexts_bare here) holding hnone
      simpa only [Pool.bare, List.map_set] using hturn
    · rw [map_index_dissectAll hnone, map_index_dissectAll dissected]
  | report here handed =>
    refine ⟨[], ?_, rfl⟩
    have hturn := Turn.report (p := p.bare) (getElem?_contexts_bare here) handed
    simpa only [Pool.bare, List.map_set] using hturn

/-! ### What is in hand is not safe -/

/-- Frames in hand were given to the context, which is not done with them. -/
def Held (p : Pool σ) : Prop :=
  ∀ (i : ℕ) (c : DissectionContext σ) (s : Share), p.contexts[i]? = some c →
    p.progress.shares[i]? = some s → ∀ f ∈ c.inHand, s.done < f.index ∧ f.index ≤ s.given

/-- Frames in hand lie behind what the shares tell. -/
theorem Held.candidate_lt (h : p.Held) (hshares : p.progress.shares.length = p.contexts.length)
    (hc : c ∈ p.contexts) {f : Frame} (hf : f ∈ c.inHand) : p.progress.candidate < f.index := by
  obtain ⟨i, hi⟩ := List.mem_iff_getElem?.mp hc
  have hlt : i < p.progress.shares.length := hshares ▸ (List.getElem?_eq_some_iff.mp hi).1
  obtain ⟨hdone, hgiven⟩ := h i c _ hi (List.getElem?_eq_getElem hlt) f hf
  exact (Progress.candidate_le_done (List.getElem_mem hlt) (hdone.trans_le hgiven)).trans_lt hdone

/-- No frame in hand is done or was said to be safe. -/
structure Guards (p : Pool σ) : Prop where
  /-- No context is done with more than it was given, -/
  fair : p.progress.Fair
  /-- nor with what it has in hand, -/
  held : p.Held
  /-- and none of that was said to be safe. -/
  mark : ∀ c ∈ p.contexts, ∀ f ∈ c.inHand, p.progress.mark < f.index

theorem guards_create (ds : List (Dissector σ)) (threshold : Threshold)
    (contexts batchSize capacity : ℕ) :
    (create ds threshold contexts batchSize capacity).Guards := by
  have hnone : ∀ c ∈ (create ds threshold contexts batchSize capacity).contexts, c.inHand = [] := by
    intro c hc
    rw [List.eq_of_mem_replicate hc]
    rfl
  refine ⟨Progress.fair_ofWorkers _, fun i c s hc _ f hf => ?_, fun c hc f hf => ?_⟩
  · simp [hnone c (List.mem_of_getElem? hc)] at hf
  · simp [hnone c hc] at hf

/-- The shares may be asked how far they are. -/
theorem Guards.refresh (h : p.Guards) (hshares : p.progress.shares.length = p.contexts.length) :
    { p with progress := p.progress.refresh }.Guards :=
  { h with
    mark := fun _ hc _ hf => max_lt (h.mark _ hc _ hf) (h.held.candidate_lt hshares hc hf) }

/-- A context goes on with no frame in its hands that it did not have. -/
theorem Guards.move {d : DissectionContext σ} (h : p.Guards) (here : p.contexts[i]? = some c)
    (hsub : d.inHand ⊆ c.inHand) : { p with contexts := p.contexts.set i d }.Guards where
  fair := h.fair
  held j e s he hs f hf := by
    rcases List.of_getElem?_set_eq_some he with ⟨rfl, rfl⟩ | ⟨-, he⟩
    · exact h.held j c s here hs f (hsub hf)
    · exact h.held j e s he hs f hf
  mark := List.forall_mem_set h.mark fun f hf => h.mark c (List.mem_of_getElem? here) f (hsub hf)

/-- A context takes the next frames. -/
theorem Guards.claim {queue : Queue Frame} {batch : List Frame} {claimed : ℕ} (h : p.Guards)
    (hwithin : p.progress.Within claimed) (hfirst : firstIndex batch = claimed + 1)
    (hlast : claimed < lastIndex batch)
    (hbatch : ∀ f ∈ batch, claimed < f.index ∧ f.index ≤ lastIndex batch) :
    { p with
      queue := queue
      progress := p.progress.begin i (firstIndex batch) (lastIndex batch)
      contexts := p.contexts.set i { c with phase := .holding batch } }.Guards where
  fair := h.fair.begin (by omega)
  held j e s he hs f hf := by
    rcases Progress.of_getElem?_shares_begin hs with ⟨rfl, t, ht, rfl⟩ | ⟨hj, hs⟩
    · have hmem := List.mem_of_getElem? ht
      have hdone := (h.fair t hmem).trans (hwithin.given t hmem)
      rcases List.of_getElem?_set_eq_some he with ⟨-, rfl⟩ | ⟨hne, -⟩
      · have hf := hbatch f hf
        simp only [Share.begin, hfirst]
        omega
      · exact absurd rfl hne
    · rw [List.getElem?_set_ne (Ne.symm hj)] at he
      exact h.held j e s he hs f hf
  mark := List.forall_mem_set h.mark fun f hf => hwithin.mark.trans_lt (hbatch f hf).1

/-- A context that holds no frame reports. -/
theorem Guards.report {d : DissectionContext σ} {last : ℕ} (h : p.Guards)
    (hshares : p.progress.shares.length = p.contexts.length) (hd : d.inHand = []) :
    { p with
      progress := p.progress.finish i last
      contexts := p.contexts.set i d }.Guards := by
  have hnone : ∀ {f : Frame}, f ∉ d.inHand := by simp [hd]
  have hheld : { p with
      progress := p.progress.finish i last
      contexts := p.contexts.set i d }.Held := by
    intro j e s he hs f hf
    rcases List.of_getElem?_set_eq_some he with ⟨rfl, rfl⟩ | ⟨hj, he⟩
    · exact absurd hf hnone
    · rcases Progress.of_getElem?_shares_finish hs with ⟨rfl, -⟩ | ⟨-, hs⟩
      · exact absurd rfl hj
      · exact h.held j e s he hs f hf
  have hmark : ∀ e ∈ p.contexts.set i d, ∀ f ∈ e.inHand, p.progress.mark < f.index :=
    List.forall_mem_set h.mark fun f hf => absurd hf hnone
  refine ⟨h.fair.finish, hheld, fun e he f hf => ?_⟩
  rw [Progress.mark_finish]
  refine max_lt (hmark e he f hf) (hheld.candidate_lt ?_ he hf)
  simpa [Progress.finish, Progress.refresh] using hshares

/-! ### Frames that are pushed one by one -/

variable {ds : List (Dissector σ)} {frames upcoming out : List Frame} {claimed : ℕ}

/-- As long as the queue is open, there may be one frame more to push. -/
theorem Sound.append (h : p.Sound ds frames upcoming out claimed) (hopen : p.queue.closed = false)
    (f : Frame) : p.Sound ds (frames ++ [f]) (upcoming ++ [f]) out claimed :=
  { h with
    waiting := by
      rw [← List.append_assoc, h.waiting, List.drop_append_of_le_length h.claimed_le]
    claimed_le := h.claimed_le.trans (by simp)
    kept := by
      rw [List.take_append_of_le_length h.claimed_le]
      exact h.kept
    known := fun c hc _ hf => List.mem_append_left _ (h.known c hc hf)
    closed := fun hclosed => by
      rw [hopen] at hclosed
      cases hclosed }

/-- What a context claims are the next frames. -/
theorem Sound.guards_claim {queue : Queue Frame} {batch : List Frame}
    (h : p.bare.Sound ds frames upcoming out claimed) (hnum : Frame.Numbered frames)
    (hguards : p.Guards) (pop : p.queue.popBatch p.batchSize [] = .done (queue, batch)) :
    { p with
      queue := queue
      progress := p.progress.begin i (firstIndex batch) (lastIndex batch)
      contexts := p.contexts.set i { c with phase := .holding batch } }.Guards := by
  obtain ⟨hne, hitems, -, -⟩ := Queue.popBatch_eq_done pop
  have hdrop : frames.drop claimed = batch ++ (queue.items ++ upcoming) := by
    rw [← h.waiting, show p.bare.queue.items = _ from hitems, List.append_assoc]
  have hlast : lastIndex batch = claimed + batch.length := hnum.index_getLast? hdrop hne
  have hpos := List.length_pos_iff.mpr hne
  have hfirst : firstIndex batch = claimed + 1 := by
    have hhead : batch[0]? = some batch[0] := List.getElem?_eq_getElem hpos
    rw [firstIndex, List.head?_eq_getElem?, hhead]
    exact hnum.index_of_drop hdrop hhead
  refine hguards.claim h.within hfirst (by omega) fun f hf => ?_
  obtain ⟨k, hk⟩ := List.mem_iff_getElem?.mp hf
  have hlt := (List.getElem?_eq_some_iff.mp hk).1
  have hindex := hnum.index_of_drop hdrop hk
  omega

/-- Every turn of a context keeps what is in hand from being safe. -/
theorem Guards.turn (hguards : p.Guards) (h : p.bare.Sound ds frames upcoming out claimed)
    (hnum : Frame.Numbered frames) (ht : p.Turn i q handed) : q.Guards := by
  have hshares : p.progress.shares.length = p.contexts.length := by
    simpa [bare] using h.shares
  cases ht with
  | claim here idle pop => exact h.guards_claim hnum hguards pop
  | leave here idle => exact hguards.move here (by simp [inHand])
  | hand here holding => exact hguards.move here (by simp [inHand])
  | report here handed => exact hguards.report hshares (by simp [inHand])

/-- No turn lowers the mark. -/
theorem Turn.mark_le (ht : p.Turn i q handed) : p.progress.mark ≤ q.progress.mark := by
  cases ht with
  | claim | leave | hand => exact le_rfl
  | report => exact Progress.mark_le_finish ..

/-- Frames that were claimed and are not in hand were handed on, by their numbers. -/
theorem Sound.mem_out (h : p.bare.Sound [] frames upcoming out claimed)
    (hnum : Frame.Numbered frames) {k : ℕ} (hk : 1 ≤ k) (hle : k ≤ claimed)
    (hfree : ∀ c ∈ p.contexts, ∀ f ∈ c.inHand, f.index ≠ k) : k ∈ out.map Frame.index := by
  have hindex : ∀ l : List Frame, (l.map (alone p.bare.threshold ([] : List (Dissector σ)))).map
      Frame.index = l.map Frame.index := fun l => by
    rw [List.map_map]
    exact List.map_congr_left fun f _ => index_alone _ _ f
  have hkept := h.kept.map Frame.index
  rw [List.map_append, hindex, hindex] at hkept
  have hmem : k ∈ (frames.take claimed).map Frame.index := by
    have hlt : k - 1 < frames.length := by
      have := h.claimed_le
      omega
    have hget := List.getElem?_eq_getElem hlt
    refine List.mem_map.mpr ⟨frames[k - 1], ?_, ?_⟩
    · refine List.mem_of_getElem? (i := k - 1) ?_
      rw [List.getElem?_take_of_lt (by omega), hget]
    · rw [hnum _ _ hget]
      omega
  rcases List.mem_append.mp (hkept.mem_iff.mpr hmem) with hout | hhand
  · exact hout
  · obtain ⟨f, hf, rfl⟩ := List.mem_map.mp hhand
    obtain ⟨c, hc, hfc⟩ := List.mem_flatMap.mp hf
    obtain ⟨c', hc', rfl⟩ := List.mem_map.mp hc
    exact absurd rfl (hfree c' hc' f hfc)

/-! ### Events -/

/-- A pool and what happened to it. -/
structure Watch (σ : Type) where
  /-- The pool. -/
  pool : Pool σ
  /-- The frames that were pushed. -/
  pushed : List Frame := []
  /-- The frames that were handed on. -/
  out : List Frame := []
  /-- The safe indices that were given as answers. -/
  answers : List ℕ := []

namespace Watch

/-- What can happen. -/
inductive Event where
  /-- A frame is pushed. -/
  | push (f : Frame)
  /-- No more frames will come. -/
  | close
  /-- A context takes a turn. -/
  | turn (i : ℕ)
  /-- The safe index is asked for. -/
  | ask

/-- What comes of an event; one that has to wait does not happen, and neither does a push out of
order. -/
def step (w : Watch σ) : Event → Watch σ
  | .push f =>
    if f.index = w.pushed.length + 1 then
      match w.pool.push f with
      | .done pool => { w with pool := pool, pushed := w.pushed ++ [f] }
      | _ => w
    else w
  | .close => { w with pool := w.pool.close }
  | .turn i =>
    match w.pool.step? i with
    | some (pool, handed) => { w with pool := pool, out := w.out ++ handed }
    | none => w
  | .ask =>
    { w with
      pool := { w.pool with progress := w.pool.progress.safe.2 }
      answers := w.answers ++ [w.pool.progress.safe.1] }

/-- What comes of some events from a new pool on. -/
def after (pool : Pool σ) (events : List Event) : Watch σ := events.foldl step { pool := pool }

variable {w : Watch σ} {event : Event}

/-- What all events keep. -/
structure Guarded (w : Watch σ) : Prop where
  /-- Frames were pushed with the numbers from one on. -/
  numbered : Frame.Numbered w.pushed
  /-- The pool has lost none of them. -/
  sound : ∃ out claimed, w.pool.bare.Sound [] w.pushed [] out claimed ∧
    out.map Frame.index = w.out.map Frame.index
  /-- No frame in hand is done or was said to be safe. -/
  guards : w.pool.Guards
  /-- There is a context. -/
  contexts_ne_nil : w.pool.contexts ≠ []
  /-- Answers never went down, -/
  rising : w.answers.Pairwise (· ≤ ·)
  /-- and the mark is beyond all of them. -/
  answered : ∀ a ∈ w.answers, a ≤ w.pool.progress.mark

theorem guarded_create (ds : List (Dissector σ)) (threshold : Threshold)
    (contexts batchSize capacity : ℕ) :
    Guarded { pool := .create ds threshold contexts batchSize capacity } where
  numbered := nofun
  sound := by
    refine ⟨[], 0, ?_, rfl⟩
    rw [Pool.bare_create]
    exact Pool.sound_create ([] : List (Dissector σ)) [] threshold contexts batchSize capacity
  guards := Pool.guards_create ds threshold contexts batchSize capacity
  contexts_ne_nil := by simp [Pool.create]
  rising := .nil
  answered := nofun

theorem Guarded.push {f : Frame} {pool : Pool σ} (h : w.Guarded)
    (hindex : f.index = w.pushed.length + 1) (hpush : w.pool.push f = .done pool) :
    { w with pool := pool, pushed := w.pushed ++ [f] }.Guarded := by
  obtain ⟨queue, hqueue, rfl⟩ := Pool.exists_of_push hpush
  obtain ⟨hopen, -, -⟩ := Queue.push_eq_done_iff.mp hqueue
  obtain ⟨out, claimed, hsound, hout⟩ := h.sound
  refine
    { h with
      numbered := h.numbered.concat hindex
      sound := ⟨out, claimed, (hsound.append hopen f).push hqueue, hout⟩
      guards := { h.guards with } }

theorem Guarded.turn {i : ℕ} {pool : Pool σ} {handed : List Frame} (h : w.Guarded)
    (hstep : w.pool.step? i = some (pool, handed)) :
    { w with pool := pool, out := w.out ++ handed }.Guarded := by
  have ht := Pool.turn_of_step? hstep
  obtain ⟨out, claimed, hsound, hout⟩ := h.sound
  obtain ⟨handed', ht', hhanded⟩ := ht.bare
  obtain ⟨claimed', hsound'⟩ := hsound.turn nofun h.numbered ht'
  refine
    { h with
      sound := ⟨out ++ handed', claimed', hsound'.of_perm List.perm_append_comm, ?_⟩
      guards := h.guards.turn hsound h.numbered ht
      contexts_ne_nil := ?_
      answered := fun a ha => (h.answered a ha).trans ht.mark_le }
  · simp only [List.map_append, hout, hhanded]
  · have hpos := List.length_pos_iff.mpr h.contexts_ne_nil
    exact List.length_pos_iff.mp (ht.same.2.2.2 ▸ hpos)

theorem Guarded.ask (h : w.Guarded) :
    { w with
      pool := { w.pool with progress := w.pool.progress.safe.2 }
      answers := w.answers ++ [w.pool.progress.safe.1] }.Guarded := by
  obtain ⟨out, claimed, hsound, hout⟩ := h.sound
  have hshares : w.pool.progress.shares.length = w.pool.contexts.length := by
    simpa [Pool.bare] using hsound.shares
  have hmark : w.pool.progress.mark ≤ w.pool.progress.safe.1 := Progress.mark_le_refresh _
  refine
    { h with
      sound := ⟨out, claimed, { hsound with within := ?_ }, hout⟩
      guards := h.guards.refresh hshares
      rising := ?_
      answered := ?_ }
  · exact ⟨hsound.within.given, max_le hsound.within.mark (Progress.candidate_le hsound.within.given)⟩
  · refine List.pairwise_append.mpr ⟨h.rising, List.pairwise_singleton _ _, fun a ha b hb => ?_⟩
    rw [List.mem_singleton.mp hb]
    exact (h.answered a ha).trans hmark
  · intro a ha
    rcases List.mem_append.mp ha with ha | ha
    · exact (h.answered a ha).trans hmark
    · exact (List.mem_singleton.mp ha).le

/-- **What every event keeps.** -/
theorem Guarded.step (h : w.Guarded) (event : Event) : (w.step event).Guarded := by
  cases event with
  | push f =>
    rw [Watch.step]
    split
    · next hindex =>
      split
      · next hpush => exact h.push hindex hpush
      · exact h
    · exact h
  | close =>
    obtain ⟨out, claimed, hsound, hout⟩ := h.sound
    exact { h with sound := ⟨out, claimed, hsound.close, hout⟩, guards := { h.guards with } }
  | turn i =>
    rw [Watch.step]
    split
    · next hstep => exact h.turn hstep
    · exact h
  | ask => exact h.ask

theorem batchSize_step (w : Watch σ) (event : Event) :
    (w.step event).pool.batchSize = w.pool.batchSize := by
  cases event with
  | push f =>
    rw [Watch.step]
    split
    · split
      · next hpush =>
        obtain ⟨queue, -, rfl⟩ := Pool.exists_of_push hpush
        rfl
      · rfl
    · rfl
  | close | ask => rfl
  | turn i =>
    rw [Watch.step]
    split
    · next hstep => exact (Pool.turn_of_step? hstep).same.2.1
    · rfl

theorem batchSize_after (pool : Pool σ) (events : List Event) :
    (after pool events).pool.batchSize = pool.batchSize := by
  induction events using List.reverseRecOn with
  | nil => rfl
  | append_singleton events event ih =>
    rw [after, List.foldl_append]
    exact (batchSize_step _ event).trans ih

variable {ds : List (Dissector σ)} {threshold : Threshold} {contexts batchSize capacity : ℕ}
  {pool : Pool σ}

theorem guarded_after (hstart : Pool.start? ds threshold contexts batchSize capacity = some pool)
    (events : List Event) : (after pool events).Guarded := by
  rw [Pool.eq_create_of_start? hstart]
  induction events using List.reverseRecOn with
  | nil => exact guarded_create ds threshold contexts batchSize capacity
  | append_singleton events event ih =>
    rw [after, List.foldl_append]
    exact ih.step event

/-- **What the pool says is safe was handed on.** Whatever the dissectors are, however many contexts
there are and whatever happens in whatever order, once a pool was started: all frames up to the safe
index were handed on, and it is no smaller than any answer given before. If there is room for a batch,
then once the queue is closed and all contexts have left it is the number of the last frame pushed, or
zero. -/
theorem safe_spec (hstart : Pool.start? ds threshold contexts batchSize capacity = some pool)
    (events : List Event) :
    let w := after pool events
    (∀ k, 1 ≤ k → k ≤ w.pool.progress.safe.1 → k ∈ w.out.map Frame.index) ∧
      (w.answers ++ [w.pool.progress.safe.1]).Pairwise (· ≤ ·) ∧
      (Memory.Fits batchSize Pool.frameBytes → w.pool.queue.closed = true →
        w.pool.isDrained = true → w.pool.progress.safe.1 = lastIndex w.pushed) := by
  intro w
  have h : w.Guarded := guarded_after hstart events
  obtain ⟨out, claimed, hsound, hout⟩ := h.sound
  refine ⟨fun k hk hsafe => ?_, h.ask.rising, fun hfits _ hdrained => ?_⟩
  · have hle : w.pool.progress.safe.1 ≤ claimed :=
      max_le hsound.within.mark (Progress.candidate_le hsound.within.given)
    rw [← hout]
    refine hsound.mem_out h.numbered hk (hsafe.trans hle) fun c hc f hf heq => ?_
    exact absurd (h.ask.guards.mark c hc f hf) (Nat.not_lt.mpr (heq ▸ hsafe))
  · have hroom : w.pool.bare.HasRoom := by
      have hsize : w.pool.batchSize = batchSize := by
        rw [batchSize_after, Pool.eq_create_of_start? hstart]
        rfl
      change Memory.Fits w.pool.batchSize Pool.frameBytes
      rwa [hsize]
    have hne : w.pool.bare.contexts ≠ [] := by simpa [Pool.bare] using h.contexts_ne_nil
    have hbare : w.pool.bare.isDrained = true := by rw [Pool.isDrained_bare, hdrained]
    have hlength : w.pool.progress.safe.1 = w.pushed.length := (hsound.drained hroom hne hbare).2.2
    rw [hlength]
    by_cases hpushed : w.pushed = []
    · rw [hpushed]
      rfl
    · have hlast := h.numbered.index_getLast? (k := 0) (List.append_nil w.pushed).symm hpushed
      rw [lastIndex, hlast, Nat.zero_add]

/-- A frame with a number and no bytes. -/
def blank (n : ℕ) : Frame := .ofRoot n .epoch 0 0 default

/-- Two contexts claim three frames. -/
def crossed : List Event :=
  [.push (blank 1), .turn 0, .push (blank 2), .push (blank 3), .ask, .turn 1, .close,
    .turn 1, .turn 1, .turn 1, .ask, .turn 0, .turn 0, .turn 0]

/-- The second batch is done before the first. -/
theorem safe_spec_crossed :
    ∃ pool, Pool.start? ([] : List (Dissector Unit)) Confidence.full.value 2 2 4 = some pool ∧
      Memory.Fits 2 Pool.frameBytes ∧ (after pool crossed).pool.queue.closed = true ∧
      (after pool crossed).pool.isDrained = true ∧ (after pool crossed).answers = [0, 0] ∧
      (after pool crossed).pool.progress.safe.1 = 3 := by
  have hstart : Pool.start? ([] : List (Dissector Unit)) Confidence.full.value 2 2 4 =
      some (.create [] Confidence.full.value 2 2 4) := if_pos (by decide)
  have hfits : Memory.Fits 2 Pool.frameBytes := by decide
  obtain ⟨-, -, hlast⟩ := safe_spec hstart crossed
  exact ⟨_, hstart, hfits, by decide +kernel, by decide +kernel, by decide +kernel,
    (hlast hfits (by decide +kernel) (by decide +kernel)).trans (by decide +kernel)⟩

/-- **Without room for a batch nothing is safe**: the context leaves before it claims a frame. -/
theorem not_safe_of_huge :
    ∃ pool, Pool.start? ([] : List (Dissector Unit)) Confidence.full.value 1 (2 ^ 64 - 1) 1 =
        some pool ∧
      let w := after pool [.push (blank 1), .close, .turn 0]
      w.pool.queue.closed = true ∧ w.pool.isDrained = true ∧ lastIndex w.pushed = 1 ∧
        w.pool.progress.safe.1 = 0 := by
  refine ⟨.create [] Confidence.full.value 1 (2 ^ 64 - 1) 1, if_pos (by decide), ?_, ?_, ?_, ?_⟩ <;>
    decide +kernel

end Watch

end Pool

end PacketTree
