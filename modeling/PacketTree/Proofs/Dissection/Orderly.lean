import PacketTree.Proofs.Dissection.Pool

/-!
# The pool in order

When the contexts of a pool take their turns in a fixed order, three turns take a batch apart, and the
queue gets shorter with each batch. What is in the frames plays no part, as long as the dissectors come
to an end with them.

## What is proved

* `Resting.after_batch`: an idle context takes a batch apart, if there is one.
* `Resting.drained`: the turns that empty a closed queue let all contexts leave.
-/

namespace PacketTree

variable {σ : Type}

namespace Pool

/-- A turn of a context, or nothing if it has to wait. -/
def turn (p : Pool σ) (i : ℕ) : Pool σ := (p.step? i).elim p Prod.fst

/-- The turns of some contexts, one after the other. -/
def after (p : Pool σ) (turns : List ℕ) : Pool σ := turns.foldl turn p

/-- No context is in the middle of a batch. -/
structure Resting (p : Pool σ) : Prop where
  /-- There is room for a batch. -/
  room : p.HasRoom
  /-- The dissectors come to an end with every frame. -/
  ends : p.AlwaysEnds
  /-- The queue holds no more than it can. -/
  size_le : p.queue.size ≤ p.queue.limit
  /-- Contexts are idle, or have left because no more frames will come. -/
  phase : ∀ c ∈ p.contexts,
    c.phase = .idle ∨ (c.phase = .left ∧ p.queue.items = [] ∧ p.queue.closed = true)

/-- A pool whose contexts rest comes from one like it. -/
structure Rested (p q : Pool σ) : Prop where
  /-- The contexts rest. -/
  resting : q.Resting
  /-- They are as many as before. -/
  length : q.contexts.length = p.contexts.length
  /-- The queue is as open as before, -/
  closed : q.queue.closed = p.queue.closed
  /-- and has as much room. -/
  limit : q.queue.limit = p.queue.limit

variable {p q r : Pool σ} {c : DissectionContext σ} {i : ℕ}

theorem Resting.refl (h : p.Resting) : p.Rested p := ⟨h, rfl, rfl, rfl⟩

theorem Rested.trans (h : p.Rested q) (h' : q.Rested r) : p.Rested r :=
  ⟨h'.resting, h'.length.trans h.length, h'.closed.trans h.closed, h'.limit.trans h.limit⟩

theorem turn_of_left (here : p.contexts[i]? = some c) (left : c.phase = .left) : p.turn i = p := by
  simp [turn, step?, here, left]

theorem turn_of_none (hnone : p.contexts[i]? = none) : p.turn i = p := by
  simp [turn, step?, hnone]

theorem turn_leave (here : p.contexts[i]? = some c) (idle : c.phase = .idle)
    (empty : p.queue.items = []) (closed : p.queue.closed = true) :
    p.turn i = { p with contexts := p.contexts.set i { c with phase := .left } } := by
  by_cases hroom : p.HasRoom <;>
    simp [turn, step?, here, idle, hroom, Queue.popBatch_eq_closed_iff.mpr ⟨empty, closed⟩]

theorem turn_wait (here : p.contexts[i]? = some c) (idle : c.phase = .idle) (hroom : p.HasRoom)
    (empty : p.queue.items = []) (isOpen : p.queue.closed = false) : p.turn i = p := by
  simp [turn, step?, here, idle, hroom, Queue.popBatch_eq_blocked_iff.mpr ⟨empty, isOpen⟩]

theorem after_append (p : Pool σ) (turns more : List ℕ) :
    p.after (turns ++ more) = (p.after turns).after more := List.foldl_append

/-- With no frame left to take, a context leaves and the others stay as they are. -/
theorem Resting.turn_empty (h : p.Resting) (empty : p.queue.items = [])
    (closed : p.queue.closed = true) (i : ℕ) :
    p.Rested (p.turn i) ∧ (p.turn i).queue = p.queue ∧
      ∀ (j : ℕ) (d : DissectionContext σ), (p.turn i).contexts[j]? = some d →
        d.phase = .left ∨ (j ≠ i ∧ p.contexts[j]? = some d) := by
  cases here : p.contexts[i]? with
  | none =>
    rw [turn_of_none here]
    refine ⟨h.refl, rfl, fun j d hd => .inr ⟨?_, hd⟩⟩
    rintro rfl
    rw [here] at hd
    cases hd
  | some c =>
    rcases h.phase c (List.mem_of_getElem? here) with idle | ⟨left, -⟩
    · rw [turn_leave here idle empty closed]
      refine ⟨⟨⟨h.room, ?_, h.size_le, ?_⟩, List.length_set, rfl, rfl⟩, rfl, fun j d hd => ?_⟩
      · exact List.forall_mem_set h.ends (h.ends c (List.mem_of_getElem? here))
      · exact List.forall_mem_set h.phase (.inr ⟨rfl, empty, closed⟩)
      · rcases List.of_getElem?_set_eq_some hd with ⟨-, rfl⟩ | hd
        · exact .inl rfl
        · exact .inr hd
    · rw [turn_of_left here left]
      refine ⟨h.refl, rfl, fun j d hd => ?_⟩
      by_cases hj : j = i
      · subst hj
        rw [here, Option.some.injEq] at hd
        exact .inl (hd ▸ left)
      · exact .inr ⟨hj, hd⟩

/-- With no frame left to take, all contexts that take a turn leave. -/
theorem Resting.after_empty (h : p.Resting) (empty : p.queue.items = [])
    (closed : p.queue.closed = true) (turns : List ℕ) :
    p.Rested (p.after turns) ∧ (p.after turns).queue = p.queue ∧
      ∀ (j : ℕ) (d : DissectionContext σ), (p.after turns).contexts[j]? = some d →
        d.phase = .left ∨ (j ∉ turns ∧ p.contexts[j]? = some d) := by
  induction turns generalizing p with
  | nil => exact ⟨h.refl, rfl, fun j d hd => .inr ⟨List.not_mem_nil, hd⟩⟩
  | cons i turns ih =>
    obtain ⟨hturn, hqueue, hleft⟩ := h.turn_empty empty closed i
    obtain ⟨hafter, hqueue', hleft'⟩ := ih hturn.resting (hqueue ▸ empty) (hqueue ▸ closed)
    refine ⟨hturn.trans hafter, hqueue'.trans hqueue, fun j d hd => ?_⟩
    rcases hleft' j d hd with hd | ⟨hj, hd⟩
    · exact .inl hd
    · refine (hleft j d hd).imp_right fun ⟨hne, hd⟩ => ⟨?_, hd⟩
      rw [List.mem_cons, not_or]
      exact ⟨hne, hj⟩

/-- In three turns an idle context takes a batch apart. -/
theorem Resting.after_claim {queue : Queue Frame} {batch : List Frame} (h : p.Resting)
    (here : p.contexts[i]? = some c) (idle : c.phase = .idle)
    (pop : p.queue.popBatch p.batchSize [] = .done (queue, batch)) :
    ∃ workers : List (Worker σ), workers.map Worker.dissector = c.workers.map Worker.dissector ∧
      p.after [i, i, i] =
        { p with
          queue := queue
          progress :=
            (p.progress.begin i (firstIndex batch) (lastIndex batch)).finish i (lastIndex batch)
          contexts := p.contexts.set i { workers := workers, phase := .idle } } := by
  have hi := (List.getElem?_eq_some_iff.mp here).1
  have hclaim : p.turn i = { p with
      queue := queue
      progress := p.progress.begin i (firstIndex batch) (lastIndex batch)
      contexts := p.contexts.set i { c with phase := .holding batch } } := by
    simp [turn, step?, here, idle, h.room, pop]
  obtain ⟨workers, frames, hdissect⟩ :=
    exists_dissectAll (h.ends c (List.mem_of_getElem? here)) rfl batch
  refine ⟨workers, map_dissector_dissectAll hdissect, ?_⟩
  rw [after, List.foldl_cons, hclaim]
  simp [turn, step?, hi, hdissect]

/-- An idle context takes a batch apart, if there is one. -/
theorem Resting.after_batch (h : p.Resting) (hi : i < p.contexts.length) :
    p.Rested (p.after [i, i, i]) ∧ (p.after [i, i, i]).queue.size ≤ p.queue.size - 1 := by
  have here := List.getElem?_eq_getElem hi
  rcases h.phase _ (List.getElem_mem hi) with idle | ⟨left, hitems, -⟩
  · cases hpop : p.queue.popBatch p.batchSize [] with
    | done r =>
      obtain ⟨queue, batch⟩ := r
      obtain ⟨hne, hitems, hclosed, hcapacity⟩ := Queue.popBatch_eq_done hpop
      obtain ⟨workers, hworkers, hafter⟩ := h.after_claim here idle hpop
      rw [hafter]
      have hlimit : queue.limit = p.queue.limit := by rw [Queue.limit, hcapacity, Queue.limit]
      have hsize : queue.size ≤ p.queue.size - 1 := by
        have := List.length_pos_iff.mpr hne
        rw [Queue.size, Queue.size, hitems, List.length_append]
        omega
      refine ⟨⟨⟨h.room, List.forall_mem_set h.ends ?_, ?_,
        List.forall_mem_set (fun d hd => ?_) (.inl rfl)⟩, List.length_set, hclosed, hlimit⟩, hsize⟩
      · exact hworkers ▸ h.ends _ (List.getElem_mem hi)
      · exact (hsize.trans (Nat.sub_le _ _)).trans (h.size_le.trans hlimit.ge)
      · refine (h.phase d hd).imp_right fun hleft => ?_
        rw [hitems, List.append_eq_nil_iff] at hleft
        exact absurd hleft.2.1.1 hne
    | closed =>
      obtain ⟨hempty, hclosed⟩ := Queue.popBatch_eq_closed_iff.mp hpop
      obtain ⟨hrested, hqueue, -⟩ := h.after_empty hempty hclosed [i, i, i]
      refine ⟨hrested, ?_⟩
      rw [hqueue, Queue.size, hempty]
      exact Nat.zero_le _
    | blocked =>
      obtain ⟨hempty, hopen⟩ := Queue.popBatch_eq_blocked_iff.mp hpop
      have hsame : p.after [i, i, i] = p := by simp [after, turn_wait here idle h.room hempty hopen]
      rw [hsame]
      exact ⟨h.refl, by rw [Queue.size, hempty]; exact Nat.zero_le _⟩
  · have hsame : p.after [i, i, i] = p := by
      simp [after, turn_of_left here left]
    rw [hsame]
    exact ⟨h.refl, by rw [Queue.size, hitems]; exact Nat.zero_le _⟩

/-- Each batch that is taken apart makes the queue shorter. -/
theorem Resting.after_batches (h : p.Resting) (places : List ℕ)
    (hplaces : ∀ i ∈ places, i < p.contexts.length) :
    p.Rested (p.after (places.flatMap fun i => [i, i, i])) ∧
      (p.after (places.flatMap fun i => [i, i, i])).queue.size ≤ p.queue.size - places.length := by
  induction places generalizing p with
  | nil => exact ⟨h.refl, le_rfl⟩
  | cons i places ih =>
    obtain ⟨hi, hplaces⟩ := List.forall_mem_cons.mp hplaces
    obtain ⟨hbatch, hsize⟩ := h.after_batch hi
    obtain ⟨hafter, hsize'⟩ := ih hbatch.resting (hbatch.length ▸ hplaces)
    rw [List.flatMap_cons, after_append, List.length_cons]
    exact ⟨hbatch.trans hafter, by omega⟩

/-- The turns that empty the queue, the contexts one after the other, and let all of them leave. -/
def clearing (p : Pool σ) : List ℕ :=
  (((List.range p.queue.size).map (· % p.contexts.length)).flatMap fun i => [i, i, i]) ++
    List.range p.contexts.length

/-- **The turns that empty a closed queue let all contexts leave.** -/
theorem Resting.drained (h : p.Resting) (hpos : 0 < p.contexts.length)
    (closed : p.queue.closed = true) : (p.after p.clearing).isDrained = true := by
  obtain ⟨hbatches, hsize⟩ :=
    h.after_batches ((List.range p.queue.size).map (· % p.contexts.length)) fun i hi => by
      obtain ⟨k, -, rfl⟩ := List.mem_map.mp hi
      exact Nat.mod_lt k hpos
  rw [List.length_map, List.length_range, Nat.sub_self] at hsize
  have hempty := List.length_eq_zero_iff.mp (Nat.le_zero.mp hsize)
  obtain ⟨hlast, -, hleft⟩ := hbatches.resting.after_empty hempty (hbatches.closed.trans closed)
    (List.range p.contexts.length)
  rw [clearing, after_append]
  refine List.all_eq_true.mpr fun c hc => ?_
  obtain ⟨j, hj⟩ := List.mem_iff_getElem?.mp hc
  have hlt := (List.getElem?_eq_some_iff.mp hj).1
  rw [hlast.length, hbatches.length] at hlt
  rcases hleft j c hj with hleft | ⟨hnot, -⟩
  · rw [hleft]
  · exact absurd (List.mem_range.mpr hlt) hnot

end Pool

end PacketTree
