import PacketTree.Proofs.Dissection.Breakdown
import PacketTree.Proofs.Dissection.SafeIndex

/-!
# Every frame comes out once

Frames go into a pool one by one and come out in batches. Each comes out in one batch and once, taken
apart as if it were alone, also if workers break down in it or in others.

## What is proved

* `Ledger.Balanced.step`: what every event keeps, and so `Ledger.balanced_after`.
* `Ledger.comes_out_once`: what came out when all contexts have left, and that they do leave; and what
  comes out for a frame in which a worker breaks down.

## The model

A `Ledger` is a pool together with the frames that went in, of any numbers and in any order, and the
batches that came out. The contexts claim the frames in segments: of the frames that went in, the first
some, then the next some, and so on. A claimed segment is in the hands of one context or came out.
-/

namespace PacketTree

open scoped List

variable {σ : Type}

/-- The batch that the context claimed and did not hand on. -/
def DissectionContext.held (c : DissectionContext σ) : List (List Frame) :=
  match c.phase with
  | .holding batch => [batch]
  | _ => []

namespace Pool

open DissectionContext

/-- A pool with what went in and what came out. -/
structure Ledger (σ : Type) where
  /-- The pool. -/
  pool : Pool σ
  /-- The frames that were pushed. -/
  pushed : List Frame := []
  /-- The batches that were handed on. -/
  batches : List (List Frame) := []

namespace Ledger

/-- What comes of an event; one that has to wait does not happen, and neither does a push once the
queue is closed. Only a turn that hands on frames hands on a batch. -/
def step (w : Ledger σ) : Watch.Event → Ledger σ
  | .push f =>
    match w.pool.push f with
    | .done pool => { w with pool := pool, pushed := w.pushed ++ [f] }
    | _ => w
  | .close => { w with pool := w.pool.close }
  | .turn i =>
    match w.pool.step? i with
    | some (pool, handed) =>
      { w with pool := pool, batches := w.batches ++ if handed.isEmpty then [] else [handed] }
    | none => w
  | .ask => { w with pool := { w.pool with progress := w.pool.progress.safe.2 } }

/-- What comes of some events from a new pool on. -/
def after (pool : Pool σ) (events : List Watch.Event) : Ledger σ := events.foldl step { pool := pool }

variable {ds : List (Dissector σ)} {threshold : Threshold} {batchSize : ℕ} {w : Ledger σ}

/-- What all events keep. -/
structure Balanced (ds : List (Dissector σ)) (threshold : Threshold) (batchSize : ℕ) (w : Ledger σ) :
    Prop where
  /-- The settings are those of the pool, -/
  settings : w.pool.threshold = threshold ∧ w.pool.batchSize = batchSize
  /-- and every context has new workers of its dissectors. -/
  workers : ∀ c ∈ w.pool.contexts, c.workers = ds.map Dissector.worker
  /-- The frames that went in are segments that were claimed, and what the queue holds. -/
  segments : ∃ segments : List (List Frame), segments.flatten ++ w.pool.queue.items = w.pushed ∧
    (∀ s ∈ segments, s ≠ [] ∧ s.length ≤ max batchSize 1) ∧
    w.batches ++ (w.pool.contexts.flatMap held).map (List.map (alone threshold ds)) ~
      segments.map (List.map (alone threshold ds))
  /-- Contexts have nothing else in hand than frames that went in. -/
  known : ∀ c ∈ w.pool.contexts, c.inHand ⊆ w.pushed
  /-- There is a context. -/
  contexts_ne_nil : w.pool.contexts ≠ []
  /-- If there is room for a batch, a context leaves only when no more frames will come. -/
  left : w.pool.HasRoom → ∀ c ∈ w.pool.contexts, c.phase = .left →
    w.pool.queue.items = [] ∧ w.pool.queue.closed = true

theorem balanced_create (ds : List (Dissector σ)) (threshold : Threshold)
    (contexts batchSize capacity : ℕ) :
    Balanced ds threshold batchSize { pool := .create ds threshold contexts batchSize capacity } := by
  have hcontext : ∀ c ∈ (create ds threshold contexts batchSize capacity).contexts,
      c = { workers := ds.map Dissector.worker } := fun c hc => List.eq_of_mem_replicate hc
  have hnone : (create ds threshold contexts batchSize capacity).contexts.flatMap held = [] :=
    List.flatMap_eq_nil_iff.mpr fun c hc => by rw [hcontext c hc]; rfl
  refine ⟨⟨rfl, rfl⟩, fun c hc => by rw [hcontext c hc], ⟨[], rfl, nofun, ?_⟩, fun c hc => ?_, ?_,
    fun _ c hc hleft => ?_⟩
  · rw [hnone]
    exact .refl _
  · rw [hcontext c hc]
    exact List.nil_subset _
  · simp [create]
  · rw [hcontext c hc] at hleft
    cases hleft

theorem Balanced.push {f : Frame} {pool : Pool σ} (h : w.Balanced ds threshold batchSize)
    (hpush : w.pool.push f = .done pool) :
    Balanced ds threshold batchSize { w with pool := pool, pushed := w.pushed ++ [f] } := by
  obtain ⟨queue, hqueue, rfl⟩ := Pool.exists_of_push hpush
  obtain ⟨hopen, -, rfl⟩ := Queue.push_eq_done_iff.mp hqueue
  obtain ⟨segments, hsplit, hsegments, hperm⟩ := h.segments
  refine
    { h with
      segments := ⟨segments, ?_, hsegments, hperm⟩
      known := fun c hc _ hf => List.mem_append_left _ (h.known c hc hf)
      left := fun room c hc hleft => ?_ }
  · rw [← hsplit, List.append_assoc]
  · rw [(h.left room c hc hleft).2] at hopen
    cases hopen

theorem Balanced.close (h : w.Balanced ds threshold batchSize) :
    Balanced ds threshold batchSize { w with pool := w.pool.close } :=
  { h with left := fun room c hc hleft => ⟨(h.left room c hc hleft).1, rfl⟩ }

/-- No context holds a batch without frames. -/
theorem Balanced.ne_nil_of_mem_held (h : w.Balanced ds threshold batchSize) {batch : List Frame}
    (hbatch : batch ∈ w.pool.contexts.flatMap held) : batch ≠ [] := by
  obtain ⟨segments, -, hsegments, hperm⟩ := h.segments
  obtain ⟨s, hs, heq⟩ := List.mem_map.mp
    (hperm.mem_iff.mp (List.mem_append_right w.batches (List.mem_map_of_mem hbatch)))
  rintro rfl
  exact (hsegments s hs).1 (List.map_eq_nil_iff.mp heq)

/-- A context claims the next segment. -/
theorem Balanced.claim {i : ℕ} {c : DissectionContext σ} {queue : Queue Frame} {batch : List Frame}
    {progress : Progress} (h : w.Balanced ds threshold batchSize)
    (here : w.pool.contexts[i]? = some c) (idle : c.phase = .idle)
    (pop : w.pool.queue.popBatch w.pool.batchSize [] = .done (queue, batch)) :
    Balanced ds threshold batchSize
      { w with
        pool :=
          { w.pool with
            queue := queue
            progress := progress
            contexts := w.pool.contexts.set i { c with phase := .holding batch } } } := by
  obtain ⟨segments, hsplit, hsegments, hperm⟩ := h.segments
  obtain ⟨hne, hitems, -, -⟩ := Queue.popBatch_eq_done pop
  have hlen : batch.length ≤ max batchSize 1 := h.settings.2 ▸ Queue.length_le_of_popBatch pop
  refine ⟨h.settings, List.forall_mem_set h.workers (h.workers c (List.mem_of_getElem? here)),
    ⟨segments ++ [batch], ?_, ?_, ?_⟩, List.forall_mem_set h.known fun f hf => ?_, ?_,
    fun room => List.forall_mem_set (fun d hd hleft => ?_) nofun⟩
  · rw [List.flatten_append, List.flatten_singleton, List.append_assoc, ← hitems, hsplit]
  · exact List.forall_mem_append.mpr ⟨hsegments, List.forall_mem_singleton.mpr ⟨hne, hlen⟩⟩
  · have hset : ((w.pool.contexts.set i { c with phase := .holding batch }).flatMap held).Perm
        (w.pool.contexts.flatMap held ++ [batch]) := by
      simpa only [held, idle, List.append_nil] using
        List.flatMap_set_perm here held { c with phase := .holding batch }
    refine ((hset.map _).append_left w.batches).trans ?_
    rw [List.map_append, List.map_append, ← List.append_assoc]
    exact hperm.append_right _
  · rw [← hsplit, hitems]
    exact List.mem_append_right _ (List.mem_append_left _ hf)
  · exact mt (fun hnil => by simpa using hnil) h.contexts_ne_nil
  · have hempty := (h.left room d hd hleft).1
    rw [hitems] at hempty
    exact absurd (List.append_eq_nil_iff.mp hempty).1 hne

/-- A context goes on, and what it does not hold any more comes out. -/
theorem Balanced.move {i : ℕ} {c d : DissectionContext σ} {out : List (List Frame)}
    {progress : Progress} (h : w.Balanced ds threshold batchSize)
    (here : w.pool.contexts[i]? = some c) (hworkers : d.workers = ds.map Dissector.worker)
    (hout : (w.batches ++ out ++ d.held.map (List.map (alone threshold ds))).Perm
      (w.batches ++ c.held.map (List.map (alone threshold ds))))
    (hknown : d.inHand ⊆ c.inHand)
    (hleft : w.pool.HasRoom → d.phase = .left →
      w.pool.queue.items = [] ∧ w.pool.queue.closed = true) :
    Balanced ds threshold batchSize
      { w with
        pool := { w.pool with progress := progress, contexts := w.pool.contexts.set i d }
        batches := w.batches ++ out } := by
  obtain ⟨segments, hsplit, hsegments, hperm⟩ := h.segments
  refine ⟨h.settings, List.forall_mem_set h.workers hworkers,
    ⟨segments, hsplit, hsegments, (List.perm_out_set here hout).trans hperm⟩,
    List.forall_mem_set h.known fun f hf => h.known c (List.mem_of_getElem? here) (hknown hf), ?_,
    fun room => List.forall_mem_set (h.left room) (hleft room)⟩
  exact mt (fun hnil => by simpa using hnil) h.contexts_ne_nil

/-- **Every turn keeps the ledger in balance.** -/
theorem Balanced.turn {i : ℕ} {pool : Pool σ} {handed : List Frame}
    (h : w.Balanced ds threshold batchSize) (hds : ∀ d ∈ ds, d.IsSteady)
    (ht : w.pool.Turn i pool handed) :
    Balanced ds threshold batchSize
      { w with
        pool := pool
        batches := w.batches ++ if handed.isEmpty then [] else [handed] } := by
  cases ht with
  | claim here idle pop =>
    rw [List.isEmpty_nil, if_pos rfl, List.append_nil]
    exact h.claim here idle pop
  | @leave c here idle gone =>
    exact h.move here (h.workers c (List.mem_of_getElem? here)) (by simp [held, idle])
      (List.nil_subset _) fun room _ => gone.resolve_right (not_not_intro room)
  | @hand c batch workers frames here holding dissected =>
    rw [h.workers c (List.mem_of_getElem? here), h.settings.1] at dissected
    obtain ⟨hworkers, rfl⟩ := eq_of_dissectAll_of_isSteady hds dissected
    have hsome : (batch.map (alone threshold ds)).isEmpty = false := by
      have hheld : batch ∈ w.pool.contexts.flatMap held :=
        List.mem_flatMap.mpr ⟨c, List.mem_of_getElem? here, by simp [held, holding]⟩
      simpa using h.ne_nil_of_mem_held hheld
    rw [hsome, if_neg Bool.false_ne_true]
    exact h.move here hworkers (by simp [held, holding]) (List.nil_subset _) nofun
  | @report c last here handed =>
    exact h.move here (h.workers c (List.mem_of_getElem? here)) (by simp [held, handed])
      (List.nil_subset _) nofun

/-- **What every event keeps.** -/
theorem Balanced.step (h : w.Balanced ds threshold batchSize) (hds : ∀ d ∈ ds, d.IsSteady)
    (event : Watch.Event) : (w.step event).Balanced ds threshold batchSize := by
  cases event with
  | push f =>
    rw [Ledger.step]
    split
    · next hpush => exact h.push hpush
    · exact h
  | close => exact h.close
  | turn i =>
    rw [Ledger.step]
    split
    · next hstep => exact h.turn hds (turn_of_step? hstep)
    · exact h
  | ask => exact { h with }

variable {contexts capacity : ℕ} {pool : Pool σ}

theorem balanced_after (hds : ∀ d ∈ ds, d.IsSteady)
    (hstart : Pool.start? ds threshold contexts batchSize capacity = some pool)
    (events : List Watch.Event) : (after pool events).Balanced ds threshold batchSize := by
  rw [Pool.eq_create_of_start? hstart]
  induction events using List.reverseRecOn with
  | nil => exact balanced_create ds threshold contexts batchSize capacity
  | append_singleton events event ih =>
    rw [after, List.foldl_append]
    exact ih.step hds event

/-- Batches that are in hand come to an end if every frame does that went in. -/
theorem Balanced.batchesEnd (h : w.Balanced ds threshold batchSize) (hds : ∀ d ∈ ds, d.IsSteady)
    (hends : ∀ f ∈ w.pushed, Dissection.Ends threshold ds f) : w.pool.BatchesEnd := by
  intro c hc batch holding
  have hbatch : batch ⊆ w.pushed := by simpa [inHand, holding] using h.known c hc
  rw [h.workers c hc, h.settings.1, dissectAll_of_isSteady hds fun f hf => hends f (hbatch hf)]
  rfl

/-- **Every frame comes out once, and no breakdown goes beyond its frame.** Whatever steady dissectors
there are, however many contexts, and whatever happens in whatever order, once a pool was started that
has room for a batch: when all contexts have left, what went in is what was claimed in segments, and
each of these came out as one batch, its frames in order and each taken apart as if it were alone. When
the queue is closed and the dissectors come to an end with every frame, some context can take a turn
unless all have left; every turn brings them nearer to that. A frame in which a worker breaks down is as
it was when that worker was called; in every other one that comes to an end no worker breaks down. -/
theorem comes_out_once (hds : ∀ d ∈ ds, d.IsSteady)
    (hstart : Pool.start? ds threshold contexts batchSize capacity = some pool)
    (hfits : Memory.Fits batchSize Pool.frameBytes) (events : List Watch.Event) :
    let w := after pool events
    (w.pool.isDrained = true → w.pool.queue.closed = true ∧ ∃ segments : List (List Frame),
      segments.flatten = w.pushed ∧ (∀ s ∈ segments, s ≠ [] ∧ s.length ≤ max batchSize 1) ∧
      w.batches ~ segments.map (List.map (alone threshold ds))) ∧
    (w.pool.queue.closed = true →
      ((∀ f ∈ w.pushed, Dissection.Ends threshold ds f) →
        w.pool.isDrained = true ∨ ∃ i, (w.pool.step? i).isSome) ∧
      ∀ i pool handed, w.pool.step? i = some (pool, handed) → pool.effort < w.pool.effort) ∧
    ∀ f, (∀ g, Dissection.BreaksDown threshold ds f g → alone threshold ds f = g) ∧
      ((∃ g, Dissection.BreaksDown threshold ds f g) ↔
        ∃ d, Dissection.complete threshold f (ds.map Dissector.worker) = some d ∧
          d.faulted = true) := by
  intro w
  have h : w.Balanced ds threshold batchSize := balanced_after hds hstart events
  have room : w.pool.HasRoom := by
    change Memory.Fits w.pool.batchSize Pool.frameBytes
    rwa [h.settings.2]
  refine ⟨fun hdrained => ?_, fun hclosed => ⟨fun hends => ?_, fun i pool handed hstep =>
    (turn_of_step? hstep).effort_lt⟩, fun f => ⟨fun g hg => ?_, ?_⟩⟩
  · have hphase : ∀ c ∈ w.pool.contexts, c.phase = .left := fun _ hc => phase_of_isDrained hdrained hc
    obtain ⟨c, hc⟩ := List.exists_mem_of_ne_nil _ h.contexts_ne_nil
    obtain ⟨hempty, hclosed⟩ := h.left room c hc (hphase c hc)
    obtain ⟨segments, hsplit, hsegments, hperm⟩ := h.segments
    have hnone : w.pool.contexts.flatMap held = [] :=
      List.flatMap_eq_nil_iff.mpr fun c hc => by rw [held, hphase c hc]
    rw [hempty, List.append_nil] at hsplit
    rw [hnone, List.map_nil, List.append_nil] at hperm
    exact ⟨hclosed, segments, hsplit, hsegments, hperm⟩
  · by_contra hstuck
    rw [not_or, not_exists] at hstuck
    rcases drained_of_stuck (h.batchesEnd hds hends) fun i =>
      Option.not_isSome_iff_eq_none.mp (hstuck.2 i) with hd | hopen
    · exact hstuck.1 hd
    · rw [hopen.2] at hclosed
      cases hclosed
  · obtain ⟨d, hd, -, rfl⟩ := (Dissection.breaksDown_iff hds).mp hg
    exact alone_of_complete_eq_some hd
  · simp only [Dissection.breaksDown_iff hds]
    constructor
    · rintro ⟨g, d, hd, hfault, -⟩
      exact ⟨d, hd, hfault⟩
    · rintro ⟨d, hd, hfault⟩
      exact ⟨_, d, hd, hfault, rfl⟩

/-- A dissector whose workers find nothing, and break down in the second frame. -/
def fragile : Dissector Unit where
  name := "fragile"
  patterns := [.suffix ⟨[]⟩]
  fresh := ()
  analyze := fun s f _ => (s, if f.index = 2 then .fault else .nothing)

/-- The worker breaks down in the first frame of the second batch. -/
theorem comes_out_once_fragile :
    ∃ pool, Pool.start? [fragile] Confidence.full.value 2 2 4 = some pool ∧
      (∀ d ∈ [fragile], d.IsSteady) ∧ Memory.Fits 2 Pool.frameBytes ∧
      (∃ segments : List (List Frame), segments.flatten.map Frame.index = [1, 2, 3] ∧
        (∀ s ∈ segments, s ≠ [] ∧ s.length ≤ 2) ∧
        (after pool Watch.crossed).batches ~
          segments.map (List.map (alone Confidence.full.value [fragile]))) ∧
      ∃ g, Dissection.BreaksDown Confidence.full.value [fragile] (Watch.blank 2) g := by
  let pool := Pool.create [fragile] Confidence.full.value 2 2 4
  have hds : ∀ d ∈ [fragile], d.IsSteady := List.forall_mem_singleton.mpr fun _ _ _ => rfl
  have hstart : Pool.start? [fragile] Confidence.full.value 2 2 4 = some pool := if_pos (by decide)
  have hfits : Memory.Fits 2 Pool.frameBytes := by decide
  have hdrained : (after pool Watch.crossed).pool.isDrained = true := by decide +kernel
  have hpushed : (after pool Watch.crossed).pushed.map Frame.index = [1, 2, 3] := by decide +kernel
  have hfault : (Dissection.complete Confidence.full.value (Watch.blank 2)
      ([fragile].map Dissector.worker)).any (·.faulted) = true := by decide +kernel
  obtain ⟨hout, -, hframe⟩ := comes_out_once hds hstart hfits Watch.crossed
  obtain ⟨-, segments, hsplit, hsegments, hperm⟩ := hout hdrained
  refine ⟨pool, hstart, hds, hfits, ⟨segments, hsplit ▸ hpushed, hsegments, hperm⟩,
    (hframe (Watch.blank 2)).2.mpr ?_⟩
  simpa [Option.any_eq_true] using hfault

/-- **Without room for a batch no frame comes out, nor does one with which the dissectors come to no
end.** In the one pool the context leaves before it claims the frame, in the other it never hands the
frame on. -/
theorem not_comes_out_once :
    (∃ pool, Pool.start? ([] : List (Dissector Unit)) Confidence.full.value 1 (2 ^ 64 - 1) 1 =
        some pool ∧
      let w := after pool [.push (Watch.blank 1), .close, .turn 0]
      w.pool.queue.closed = true ∧ w.pool.isDrained = true ∧ w.pushed = [Watch.blank 1] ∧
        w.batches = []) ∧
    ∃ pool, Pool.start? [Dissection.nesting] Confidence.full.value 1 1 1 = some pool ∧
      let w := after pool [.push Dissection.nested, .close, .turn 0]
      w.pool.queue.closed = true ∧ w.pool.isDrained = false ∧ (∀ i, w.pool.step? i = none) ∧
        w.batches = [] := by
  constructor
  · exact ⟨.create [] Confidence.full.value 1 (2 ^ 64 - 1) 1, if_pos (by decide), by decide +kernel,
      by decide +kernel, rfl, by decide +kernel⟩
  · refine ⟨.create [Dissection.nesting] Confidence.full.value 1 1 1, if_pos (by decide), rfl, rfl,
      fun i => ?_, rfl⟩
    let pool := Pool.create [Dissection.nesting] Confidence.full.value 1 1 1
    let w := after pool [.push Dissection.nested, .close, .turn 0]
    have hcontexts : w.pool.contexts =
        [{ workers := [Dissection.nesting.worker], phase := .holding [Dissection.nested] }] := rfl
    have hendless : dissectAll w.pool.threshold [Dissection.nesting.worker] [Dissection.nested] =
        none := by
      change dissectAll Confidence.full.value _ _ = none
      rw [dissectAll, Dissection.complete_nesting rfl]
      rfl
    cases i with
    | zero =>
      exact (step?_eq_none_iff (by rw [hcontexts]; rfl)).mpr (.inr (.inr ⟨_, rfl, hendless⟩))
    | succ i =>
      change w.pool.step? (i + 1) = none
      rw [step?, hcontexts]
      rfl

end Ledger

end Pool

end PacketTree
