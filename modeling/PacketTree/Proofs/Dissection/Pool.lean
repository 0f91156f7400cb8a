import Mathlib.Data.List.Perm.Basic
import PacketTree.Proofs.Dissection.Alone
import PacketTree.Proofs.Flow.Progress
import PacketTree.Proofs.Flow.Queue
import PacketTree.Proofs.Frame.Store
import PacketTree.Proofs.Lists.Replacement

/-!
# No frame is lost in the pool

Contexts claim frames in order and hand them on in any order. At every moment each frame that was
claimed is in the hands of exactly one context or was handed on, taken apart as if it were alone.

## What is proved

* `Sound.turn`: every turn of a context keeps `Sound`.
* `Sound.drained`: once all contexts have left, every frame was handed on and all are safe, if there was
  room for a batch.
* `drained_of_stuck`: some context can take a turn unless all have left or the queue is open and empty,
  if every batch comes to an end.
* `Turn.effort_lt`: every turn brings the contexts nearer to the end.

## The model

`Turn` says what a turn of a context can be. `Sound` relates a pool to all frames of a session: those
still to be pushed, those handed on and the number of those claimed.
-/

namespace PacketTree

open scoped List

variable {σ : Type}

namespace DissectionContext

/-- The frames that the context claimed and did not hand on. -/
def inHand (c : DissectionContext σ) : List Frame :=
  match c.phase with
  | .holding batch => batch
  | _ => []

/-- The end of the run of frames that the context did not report. -/
def owed (c : DissectionContext σ) : List ℕ :=
  match c.phase with
  | .holding batch => [lastIndex batch]
  | .handed last => [last]
  | _ => []

/-- The turns that the context needs for the frames in hand and to leave. -/
def effort (c : DissectionContext σ) : ℕ :=
  match c.phase with
  | .idle => 1
  | .holding _ => 3
  | .handed _ => 2
  | .left => 0

end DissectionContext

namespace Pool

open DissectionContext

/-! ### Turns -/

/-- What a turn of a context does to the pool, and the frames that it hands on. -/
inductive Turn (p : Pool σ) (i : ℕ) : Pool σ → List Frame → Prop where
  /-- It claims a batch. -/
  | claim {c : DissectionContext σ} {queue : Queue Frame} {batch : List Frame}
      (here : p.contexts[i]? = some c) (idle : c.phase = .idle)
      (pop : p.queue.popBatch p.batchSize [] = .done (queue, batch)) (room : p.HasRoom) :
      Turn p i
        { p with
          queue := queue
          progress := p.progress.begin i (firstIndex batch) (lastIndex batch)
          contexts := p.contexts.set i { c with phase := .holding batch } } []
  /-- It leaves. -/
  | leave {c : DissectionContext σ} (here : p.contexts[i]? = some c) (idle : c.phase = .idle)
      (gone : (p.queue.items = [] ∧ p.queue.closed = true) ∨ ¬p.HasRoom) :
      Turn p i { p with contexts := p.contexts.set i { c with phase := .left } } []
  /-- It hands on the batch that it claimed. -/
  | hand {c : DissectionContext σ} {batch : List Frame} {workers : List (Worker σ)}
      {frames : List Frame} (here : p.contexts[i]? = some c) (holding : c.phase = .holding batch)
      (dissected : dissectAll p.threshold c.workers batch = some (workers, frames)) :
      Turn p i
        { p with
          contexts := p.contexts.set i { workers := workers, phase := .handed (lastIndex batch) } }
        frames
  /-- It reports. -/
  | report {c : DissectionContext σ} {last : ℕ} (here : p.contexts[i]? = some c)
      (handed : c.phase = .handed last) :
      Turn p i
        { p with
          progress := p.progress.finish i last
          contexts := p.contexts.set i { c with phase := .idle } } []

variable {p q : Pool σ} {i : ℕ} {handed : List Frame}

theorem turn_of_step? (h : p.step? i = some (q, handed)) : p.Turn i q handed := by
  rw [step?, Option.bind_eq_bind, Option.bind_eq_some_iff] at h
  obtain ⟨c, here, h⟩ := h
  split at h
  · next idle =>
    split at h
    · next room =>
      split at h
      · next pop =>
        cases h
        exact .claim here idle pop room
      · next hclosed =>
        cases h
        exact .leave here idle (.inl (Queue.popBatch_eq_closed_iff.mp hclosed))
      · cases h
    · next hroom =>
      cases h
      exact .leave here idle (.inr hroom)
  · next holding =>
    simp only [Option.bind_eq_bind, Option.bind_eq_some_iff, Option.some.injEq, Prod.mk.injEq,
      Prod.exists] at h
    obtain ⟨workers, frames, dissected, rfl, rfl⟩ := h
    exact .hand here holding dissected
  · next hreport =>
    cases h
    exact .report here hreport
  · cases h

/-- What no turn changes. -/
theorem Turn.same (ht : p.Turn i q handed) :
    q.threshold = p.threshold ∧ q.batchSize = p.batchSize ∧ q.queue.closed = p.queue.closed ∧
      q.contexts.length = p.contexts.length := by
  cases ht with
  | claim here idle pop => exact ⟨rfl, rfl, (Queue.popBatch_eq_done pop).2.2.1, List.length_set⟩
  | leave | hand | report => exact ⟨rfl, rfl, rfl, List.length_set⟩

/-- No turn exchanges the dissectors. -/
theorem Turn.forall_dissectors {motive : List (Dissector σ) → Prop} (ht : p.Turn i q handed)
    (h : ∀ c ∈ p.contexts, motive (c.workers.map Worker.dissector)) :
    ∀ c ∈ q.contexts, motive (c.workers.map Worker.dissector) := by
  cases ht with
  | claim here | leave here | report here =>
    have hsame := h _ (List.mem_of_getElem? here)
    exact List.forall_mem_set h hsame
  | hand here holding dissected =>
    refine List.forall_mem_set h ?_
    rw [map_dissector_dissectAll dissected]
    exact h _ (List.mem_of_getElem? here)

/-- A context that cannot take a turn has left, waits for frames or comes to no end with a batch. -/
theorem step?_eq_none_iff {c : DissectionContext σ} (here : p.contexts[i]? = some c) :
    p.step? i = none ↔
      c.phase = .left ∨
      (c.phase = .idle ∧ p.HasRoom ∧ p.queue.items = [] ∧ p.queue.closed = false) ∨
      ∃ batch, c.phase = .holding batch ∧ dissectAll p.threshold c.workers batch = none := by
  rw [step?, here, Option.bind_eq_bind, Option.bind_some]
  cases hphase : c.phase with
  | idle =>
    by_cases hroom : p.HasRoom
    · cases hpop : p.queue.popBatch p.batchSize [] with
      | done r =>
        have hblocked : ¬(p.queue.items = [] ∧ p.queue.closed = false) := fun h => by
          rw [Queue.popBatch_eq_blocked_iff.mpr h] at hpop
          cases hpop
        simpa [hroom] using hblocked
      | closed =>
        obtain ⟨-, hclosed⟩ := Queue.popBatch_eq_closed_iff.mp hpop
        simp [hroom, hclosed]
      | blocked => simp [hroom, Queue.popBatch_eq_blocked_iff.mp hpop]
    · simp [hroom]
  | holding batch =>
    dsimp only
    cases hdissect : dissectAll p.threshold c.workers batch <;> simp [hdissect]
  | handed last => simp
  | left => simp

/-! ### All frames -/

/-- The pool has lost no frame of a session. -/
structure Sound (ds : List (Dissector σ)) (frames upcoming out : List Frame) (claimed : ℕ)
    (p : Pool σ) : Prop where
  /-- Every context has new workers. -/
  workers : ∀ c ∈ p.contexts, c.workers = ds.map Dissector.worker
  /-- Frames that were not claimed are in the queue or not pushed yet. -/
  waiting : p.queue.items ++ upcoming = frames.drop claimed
  /-- No more frames were claimed than there are. -/
  claimed_le : claimed ≤ frames.length
  /-- Frames that were claimed are in some hands or were handed on. -/
  kept : (out ++ (p.contexts.flatMap inHand).map (alone p.threshold ds)).Perm
    ((frames.take claimed).map (alone p.threshold ds))
  /-- Nobody has anything else in hand. -/
  known : ∀ c ∈ p.contexts, c.inHand ⊆ frames
  /-- Every context has a share, -/
  shares : p.progress.shares.length = p.contexts.length
  /-- which owes what the context has in hand. -/
  owes : ∀ (i : ℕ) (c : DissectionContext σ) (s : Share), p.contexts[i]? = some c →
    p.progress.shares[i]? = some s → s.Owes c.owed
  /-- Nobody owes more than was claimed, -/
  owed_le : ∀ c ∈ p.contexts, ∀ last ∈ c.owed, last ≤ claimed
  /-- nor is more known to be safe, -/
  within : p.progress.Within claimed
  /-- and someone was given the last frame claimed. -/
  reached : claimed = 0 ∨ ∃ s ∈ p.progress.shares, s.given = claimed
  /-- If there is room for a batch, a context leaves only when no more frames will come. -/
  left : p.HasRoom → ∀ c ∈ p.contexts, c.phase = .left →
    p.queue.items = [] ∧ p.queue.closed = true
  /-- The queue is closed only when all frames were pushed. -/
  closed : p.queue.closed = true → upcoming = []

variable {ds : List (Dissector σ)} {frames upcoming out : List Frame} {claimed : ℕ} {f : Frame}

theorem sound_create (ds : List (Dissector σ)) (frames : List Frame) (threshold : Threshold)
    (contexts batchSize capacity : ℕ) :
    (create ds threshold contexts batchSize capacity).Sound ds frames frames [] 0 := by
  have hcontext : ∀ c ∈ (create ds threshold contexts batchSize capacity).contexts,
      c = { workers := ds.map Dissector.worker } := fun c hc => List.eq_of_mem_replicate hc
  have hshare : ∀ s ∈ (create ds threshold contexts batchSize capacity).progress.shares, s = {} :=
    fun s hs => List.eq_of_mem_replicate hs
  constructor
  · intro c hc
    rw [hcontext c hc]
  · rfl
  · exact Nat.zero_le _
  · have hnone : (create ds threshold contexts batchSize capacity).contexts.flatMap inHand = [] :=
      List.flatMap_eq_nil_iff.mpr fun c hc => by rw [hcontext c hc]; rfl
    rw [hnone]
    exact .refl _
  · intro c hc
    rw [hcontext c hc]
    exact List.nil_subset _
  · simp [create, Progress.ofWorkers]
  · intro i c s _ hs
    rw [hshare s (List.mem_of_getElem? hs)]
    exact .inl le_rfl
  · intro c hc last hlast
    rw [hcontext c hc] at hlast
    cases hlast
  · exact Progress.within_ofWorkers _
  · exact .inl rfl
  · intro _ c hc hleft
    rw [hcontext c hc] at hleft
    cases hleft
  · nofun

/-- A pool that was started is a new one. -/
theorem eq_create_of_start? {threshold : Threshold} {contexts batchSize capacity : ℕ}
    (h : start? ds threshold contexts batchSize capacity = some p) :
    p = create ds threshold contexts batchSize capacity := by
  rw [start?] at h
  split at h <;> cases h
  rfl

theorem Sound.of_perm {out' : List Frame} (h : p.Sound ds frames upcoming out claimed)
    (hperm : out'.Perm out) : p.Sound ds frames upcoming out' claimed :=
  { h with kept := (hperm.append_right _).trans h.kept }

/-! ### The producer -/

/-- A push changes the queue only. -/
theorem exists_of_push {pool : Pool σ} (h : p.push f = .done pool) :
    ∃ queue, p.queue.push f = .done queue ∧ pool = { p with queue := queue } := by
  rw [push] at h
  split at h <;> cases h
  exact ⟨_, ‹_›, rfl⟩

theorem Sound.push {queue : Queue Frame} (h : p.Sound ds frames (f :: upcoming) out claimed)
    (hpush : p.queue.push f = .done queue) :
    { p with queue := queue }.Sound ds frames upcoming out claimed := by
  obtain ⟨hopen, -, rfl⟩ := Queue.push_eq_done_iff.mp hpush
  refine { h with waiting := ?_, left := ?_, closed := ?_ }
  · rw [← h.waiting, List.append_assoc, List.singleton_append]
  · intro room c hc hleft
    rw [(h.left room c hc hleft).2] at hopen
    cases hopen
  · intro hclosed
    rw [show p.queue.closed = true from hclosed] at hopen
    cases hopen

theorem Sound.close (h : p.Sound ds frames [] out claimed) : p.close.Sound ds frames [] out claimed :=
  { h with
    left := fun room c hc hleft => ⟨(h.left room c hc hleft).1, rfl⟩
    closed := fun _ => rfl }

/-! ### The contexts -/

theorem Sound.claim {c : DissectionContext σ} {queue : Queue Frame} {batch : List Frame}
    (h : p.Sound ds frames upcoming out claimed) (hnum : Frame.Numbered frames)
    (here : p.contexts[i]? = some c) (idle : c.phase = .idle)
    (pop : p.queue.popBatch p.batchSize [] = .done (queue, batch)) :
    { p with
      queue := queue
      progress := p.progress.begin i (firstIndex batch) (lastIndex batch)
      contexts := p.contexts.set i { c with phase := .holding batch } }.Sound ds frames upcoming out
        (claimed + batch.length) := by
  obtain ⟨hne, hitems, hclosed, -⟩ := Queue.popBatch_eq_done pop
  have hdrop : frames.drop claimed = batch ++ (queue.items ++ upcoming) := by
    rw [← h.waiting, hitems, List.append_assoc]
  have hlast : lastIndex batch = claimed + batch.length := hnum.index_getLast? hdrop hne
  have hle : claimed + batch.length ≤ frames.length := by
    have := congrArg List.length hdrop
    rw [List.length_drop, List.length_append] at this
    have := h.claimed_le
    omega
  have hi : i < p.contexts.length := (List.getElem?_eq_some_iff.mp here).1
  constructor
  · exact List.forall_mem_set h.workers (h.workers c (List.mem_of_getElem? here))
  · rw [← List.drop_drop, hdrop, List.drop_left]
  · exact hle
  · -- The batch goes from the frames that wait to the hands of the context.
    have hset : ((p.contexts.set i { c with phase := .holding batch }).flatMap inHand).Perm
        (p.contexts.flatMap inHand ++ batch) := by
      simpa only [inHand, idle, List.append_nil] using
        List.flatMap_set_perm here inHand { c with phase := .holding batch }
    rw [List.take_add, hdrop, List.take_left, List.map_append]
    refine ((hset.map _).append_left out).trans ?_
    rw [List.map_append, ← List.append_assoc]
    exact h.kept.append_right _
  · refine List.forall_mem_set h.known fun f hf => List.mem_of_mem_drop (i := claimed) ?_
    exact hdrop ▸ List.mem_append_left _ hf
  · simp [Progress.begin, h.shares]
  · intro j d s hd hs
    rw [Progress.getElem?_shares_begin] at hs
    rcases List.of_getElem?_set_eq_some hd with ⟨rfl, rfl⟩ | ⟨hj, hd⟩
    · rw [if_pos rfl, Option.map_eq_some_iff] at hs
      obtain ⟨t, ht, rfl⟩ := hs
      refine Share.Owes.begin ?_ (List.mem_singleton.mpr rfl)
      have := h.within.given t (List.mem_of_getElem? ht)
      omega
    · rw [if_neg (Ne.symm hj)] at hs
      exact h.owes j d s hd hs
  · refine List.forall_mem_set (fun d hd last hl => ?_) fun last hl => ?_
    · exact (h.owed_le d hd last hl).trans (Nat.le_add_right _ _)
    · rw [List.mem_singleton.mp hl, hlast]
  · exact h.within.begin (Nat.le_add_right _ _) hlast.le
  · obtain ⟨t, ht⟩ : ∃ t, p.progress.shares[i]? = some t :=
      ⟨_, List.getElem?_eq_getElem (h.shares ▸ hi)⟩
    refine .inr ⟨t.begin (firstIndex batch) (lastIndex batch), List.mem_of_getElem? (i := i) ?_, ?_⟩
    · rw [Progress.getElem?_shares_begin, if_pos rfl, ht, Option.map_some]
    · have := h.within.given t (List.mem_of_getElem? ht)
      rw [Share.begin, hlast]
      exact max_eq_right (by omega)
  · refine fun room => List.forall_mem_set (fun d hd hleft => ?_) fun hleft => by cases hleft
    have hempty := (h.left room d hd hleft).1
    rw [hitems] at hempty
    exact absurd (List.append_eq_nil_iff.mp hempty).1 hne
  · exact fun hq => h.closed (hclosed ▸ hq)

/-- A context goes on and owes as much as before. -/
theorem Sound.move {c d : DissectionContext σ} {out' : List Frame}
    (h : p.Sound ds frames upcoming out claimed) (here : p.contexts[i]? = some c)
    (hworkers : d.workers = c.workers) (howed : d.owed = c.owed)
    (hkept : (out' ++ d.inHand.map (alone p.threshold ds)).Perm
      (out ++ c.inHand.map (alone p.threshold ds)))
    (hknown : d.inHand ⊆ c.inHand)
    (hleft : p.HasRoom → d.phase = .left → p.queue.items = [] ∧ p.queue.closed = true) :
    { p with contexts := p.contexts.set i d }.Sound ds frames upcoming out' claimed := by
  have hc := List.mem_of_getElem? here
  refine
    { h with
      workers := List.forall_mem_set h.workers (hworkers ▸ h.workers c hc)
      kept := (List.perm_out_set here hkept).trans h.kept
      known := List.forall_mem_set h.known fun f hf => h.known c hc (hknown hf)
      shares := ?_, owes := ?_, owed_le := ?_, left := ?_ }
  · exact h.shares.trans List.length_set.symm
  · intro j e s he hs
    rcases List.of_getElem?_set_eq_some he with ⟨rfl, rfl⟩ | ⟨-, he⟩
    · exact howed ▸ h.owes j c s here hs
    · exact h.owes j e s he hs
  · exact List.forall_mem_set h.owed_le (howed ▸ h.owed_le c hc)
  · exact fun room => List.forall_mem_set (h.left room) (hleft room)

theorem Sound.report {c : DissectionContext σ} {last : ℕ}
    (h : p.Sound ds frames upcoming out claimed) (here : p.contexts[i]? = some c)
    (hphase : c.phase = .handed last) :
    { p with
      progress := p.progress.finish i last
      contexts := p.contexts.set i { c with phase := .idle } }.Sound ds frames upcoming out
        claimed := by
  have hc := List.mem_of_getElem? here
  have howed : c.owed = [last] := by rw [owed, hphase]
  have hlast : last ≤ claimed := h.owed_le c hc last (by simp [howed])
  refine
    { h with
      workers := List.forall_mem_set h.workers (h.workers c hc)
      kept := (List.perm_out_set here (by simp [inHand, hphase])).trans h.kept
      known := List.forall_mem_set h.known (List.nil_subset _)
      shares := by simp [Progress.finish, Progress.refresh, h.shares]
      owes := ?_
      owed_le := List.forall_mem_set h.owed_le fun _ hl => by cases hl
      within := h.within.finish hlast
      reached := ?_
      left := fun room => List.forall_mem_set (h.left room) fun hleft => by cases hleft }
  · intro j e s he hs
    rw [Progress.getElem?_shares_finish] at hs
    rcases List.of_getElem?_set_eq_some he with ⟨rfl, rfl⟩ | ⟨hj, he⟩
    · rw [if_pos rfl, Option.map_eq_some_iff] at hs
      obtain ⟨t, ht, rfl⟩ := hs
      exact (howed ▸ h.owes j c t here ht).finish
    · rw [if_neg (Ne.symm hj)] at hs
      exact h.owes j e s he hs
  · rcases h.reached with hnone | ⟨s, hs, hgiven⟩
    · exact .inl hnone
    refine .inr ?_
    obtain ⟨j, hj⟩ := List.mem_iff_getElem?.mp hs
    have hget := Progress.getElem?_shares_finish p.progress i last j
    rw [hj] at hget
    split at hget
    · exact ⟨_, List.mem_of_getElem? hget, (max_eq_left (hgiven ▸ hlast)).trans hgiven⟩
    · exact ⟨s, List.mem_of_getElem? hget, hgiven⟩

/-- **Every turn of a context keeps the frames together.** -/
theorem Sound.turn (h : p.Sound ds frames upcoming out claimed) (hds : ∀ d ∈ ds, d.IsSteady)
    (hnum : Frame.Numbered frames) (ht : p.Turn i q handed) :
    ∃ claimed', q.Sound ds frames upcoming (handed ++ out) claimed' := by
  cases ht with
  | claim here idle pop => exact ⟨_, h.claim hnum here idle pop⟩
  | leave here idle gone =>
    exact ⟨claimed, h.move here rfl (by simp [owed, idle]) (by simp [inHand, idle])
      (List.nil_subset _) fun room _ => gone.resolve_right (not_not_intro room)⟩
  | @hand c batch workers frames here holding dissected =>
    have hworkers := h.workers c (List.mem_of_getElem? here)
    rw [hworkers] at dissected
    obtain ⟨rfl, rfl⟩ := eq_of_dissectAll_of_isSteady hds dissected
    refine ⟨claimed, h.move here hworkers.symm (by simp [owed, holding]) ?_ (List.nil_subset _)
      fun _ hleft => by cases hleft⟩
    simp only [inHand, holding, List.map_nil, List.append_nil]
    exact List.perm_append_comm
  | report here handed => exact ⟨claimed, h.report here handed⟩

/-! ### The end -/

theorem phase_of_isDrained (h : p.isDrained = true) {c : DissectionContext σ} (hc : c ∈ p.contexts) :
    c.phase = .left := by
  have := List.all_eq_true.mp h c hc
  cases hp : c.phase <;> simp_all

/-- **Once all contexts have left, all frames were handed on**, if there was room for a batch. -/
theorem Sound.drained (h : p.Sound ds frames upcoming out claimed) (room : p.HasRoom)
    (hne : p.contexts ≠ []) (hdrained : p.isDrained = true) :
    upcoming = [] ∧ out.Perm (frames.map (alone p.threshold ds)) ∧
      p.progress.safe.1 = frames.length := by
  have hphase : ∀ c ∈ p.contexts, c.phase = .left := fun _ hc => phase_of_isDrained hdrained hc
  obtain ⟨c, hc⟩ := List.exists_mem_of_ne_nil _ hne
  obtain ⟨hempty, hclosed⟩ := h.left room c hc (hphase c hc)
  have hup := h.closed hclosed
  have hclaimed : claimed = frames.length := by
    have hlen := congrArg List.length h.waiting
    rw [hempty, hup, List.append_nil, List.length_nil, List.length_drop] at hlen
    have := h.claimed_le
    omega
  have hnone : p.contexts.flatMap inHand = [] :=
    List.flatMap_eq_nil_iff.mpr fun c hc => by rw [inHand, hphase c hc]
  have hkept := h.kept
  rw [hnone, List.map_nil, List.append_nil, hclaimed, List.take_length] at hkept
  refine ⟨hup, hkept, hclaimed ▸ Progress.safe_eq h.within (fun s hs => ?_) h.reached⟩
  obtain ⟨i, hi⟩ := List.mem_iff_getElem?.mp hs
  have hlt : i < p.contexts.length := h.shares ▸ (List.getElem?_eq_some_iff.mp hi).1
  have hown := h.owes i _ s (List.getElem?_eq_getElem hlt) hi
  rwa [owed, hphase _ (List.getElem_mem hlt)] at hown

/-- Every batch that is in hand comes to an end. -/
def BatchesEnd (p : Pool σ) : Prop :=
  ∀ c ∈ p.contexts, ∀ batch, c.phase = .holding batch →
    (dissectAll p.threshold c.workers batch).isSome

/-- The workers of all contexts come to an end with every frame, whatever they remember. -/
def AlwaysEnds (p : Pool σ) : Prop :=
  ∀ c ∈ p.contexts, Dissection.AlwaysEnds p.threshold (c.workers.map Worker.dissector)

theorem AlwaysEnds.batchesEnd (h : p.AlwaysEnds) : p.BatchesEnd := by
  intro c hc batch _
  obtain ⟨us, frames, hdissect⟩ := exists_dissectAll (h c hc) rfl batch
  rw [hdissect]
  rfl

theorem Turn.alwaysEnds (ht : p.Turn i q handed) (h : p.AlwaysEnds) : q.AlwaysEnds := by
  rw [AlwaysEnds, ht.same.1]
  exact ht.forall_dissectors h

/-- Batches come to an end if every frame does. -/
theorem Sound.batchesEnd (h : p.Sound ds frames upcoming out claimed) (hds : ∀ d ∈ ds, d.IsSteady)
    (hends : ∀ f ∈ frames, Dissection.Ends p.threshold ds f) : p.BatchesEnd := by
  intro c hc batch holding
  have hbatch : batch ⊆ frames := by simpa [inHand, holding] using h.known c hc
  rw [h.workers c hc, dissectAll_of_isSteady hds fun f hf => hends f (hbatch hf)]
  rfl

/-- Unless all contexts have left, one can take a turn or they wait for frames. -/
theorem drained_of_stuck (hends : p.BatchesEnd) (hstuck : ∀ i, p.step? i = none) :
    p.isDrained = true ∨ (p.queue.items = [] ∧ p.queue.closed = false) := by
  refine or_iff_not_imp_right.mpr fun hwait => List.all_eq_true.mpr fun c hc => ?_
  obtain ⟨i, here⟩ := List.mem_iff_getElem?.mp hc
  rcases (step?_eq_none_iff here).mp (hstuck i) with hleft | ⟨-, -, hwaits⟩ | ⟨batch, holding, hnone⟩
  · rw [hleft]
  · exact absurd hwaits hwait
  · have hsome := hends c hc batch holding
    rw [hnone] at hsome
    cases hsome

/-- A context is at work on a batch that never ends. -/
def NeverEnds (p : Pool σ) : Prop :=
  ∃ c ∈ p.contexts, ∃ batch, c.phase = .holding batch ∧
    dissectAll p.threshold c.workers batch = none

/-- It remains so, whoever takes a turn, -/
theorem Turn.neverEnds (ht : p.Turn i q handed) (h : p.NeverEnds) : q.NeverEnds := by
  obtain ⟨c, hc, batch, holding, hnone⟩ := h
  cases ht with
  | @claim d _ _ here hphase | @leave d here hphase | @report d _ here hphase =>
    have hne : c ≠ d := by
      rintro rfl
      rw [holding] at hphase
      cases hphase
    exact ⟨c, List.mem_set_of_ne here hc hne, batch, holding, hnone⟩
  | @hand d batch' _ _ here hphase dissected =>
    have hne : c ≠ d := by
      rintro rfl
      cases holding.symm.trans hphase
      cases hnone.symm.trans dissected
    exact ⟨c, List.mem_set_of_ne here hc hne, batch, holding, hnone⟩

/-- and the contexts never leave. -/
theorem NeverEnds.not_isDrained (h : p.NeverEnds) : ¬p.isDrained = true := by
  intro hdrained
  obtain ⟨c, hc, batch, holding, -⟩ := h
  rw [phase_of_isDrained hdrained hc] at holding
  cases holding

/-- A pool that is drained takes no turn. -/
theorem Turn.not_isDrained (ht : p.Turn i q handed) : ¬p.isDrained = true := by
  intro h
  cases ht with
  | claim here hphase | leave here hphase | hand here hphase | report here hphase =>
    rw [phase_of_isDrained h (List.mem_of_getElem? here)] at hphase
    cases hphase

/-! ### The way to the end -/

/-- The turns that the contexts need at most. -/
def effort (p : Pool σ) : ℕ := 3 * p.queue.size + (p.contexts.map DissectionContext.effort).sum

theorem Turn.effort_lt (ht : p.Turn i q handed) : q.effort < p.effort := by
  cases ht with
  | @claim c queue batch here idle pop =>
    obtain ⟨hne, hitems, -, -⟩ := Queue.popBatch_eq_done pop
    have hsum := List.sum_map_set here DissectionContext.effort { c with phase := .holding batch }
    have hlen := List.length_pos_iff.mpr hne
    simp only [effort, Queue.size, hitems, List.length_append]
    simp only [DissectionContext.effort, idle] at hsum ⊢
    omega
  | leave here idle =>
    exact Nat.add_lt_add_left
      (List.sum_map_set_lt here (by simp [DissectionContext.effort, idle])) _
  | hand here holding =>
    exact Nat.add_lt_add_left
      (List.sum_map_set_lt here (by simp [DissectionContext.effort, holding])) _
  | report here handed =>
    exact Nat.add_lt_add_left
      (List.sum_map_set_lt here (by simp [DissectionContext.effort, handed])) _

end Pool

end PacketTree
