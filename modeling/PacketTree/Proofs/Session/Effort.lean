import Mathlib.Algebra.Order.BigOperators.Group.List
import Mathlib.Tactic.Ring
import PacketTree.Proofs.Session.Traffic

/-!
# Every run comes to an end

Each turn costs some of the effort that a pipeline has still to make, so that no run goes on forever,
whatever the order of the turns.

## What is proved

* `Traffic.Sound.effort_lt`: every turn lowers the effort.
* `Traffic.Sound.turns_le`: no schedule has more turns than the effort at its start.

## The model

A frame is paid for when it is pushed, claimed, handed on, taken by the feeder and given to every
context; a segment is paid for by the context that looks at it. What is still to be paid for frames
that the feeder did not take depends on their segments only.
-/

namespace PacketTree

variable {σ τ : Type}

/-! ### The streams -/

/-- The turns that a context needs to take a batch, look at its segments and report. -/
def StreamBatch.effort (b : StreamBatch) : ℕ := b.segments.length + 2

/-- The turns that the context needs for its batches and to leave. -/
def StreamContext.effort (c : StreamContext τ) : ℕ :=
  (match c.phase with
    | .idle => 1
    | .working segments _ => segments.length + 2
    | .left => 0) + (c.queue.items.map StreamBatch.effort).sum

/-- The turns that the feeder and the contexts need for the batches of the feeder. -/
def FeederPhase.effort : FeederPhase → ℕ
  | .waiting => 1
  | .announcing _ batches => (batches.map fun b => b.effort + 2).sum + 3
  | .handing _ batches => (batches.map fun b => b.effort + 2).sum + 2
  | .left => 0

namespace StreamStage

/-- The turns that a frame needs at most once the feeder takes it. -/
def frameEffort (d : StreamDissector τ) (contexts : ℕ) (f : Frame) : ℕ :=
  contexts * ((Segment.ofFrame [d] f).length + 4) + 3

/-- The turns that the stage needs at most for the frames that it did not take, and for the others. -/
def effort (d : StreamDissector τ) (frames : List Frame) (s : StreamStage τ) : ℕ :=
  ((frames.drop s.offset).map (frameEffort d s.contexts.length)).sum + s.feeder.effort +
    (s.contexts.map StreamContext.effort).sum

variable {s s' : StreamStage τ} {store store' : Store} {d : StreamDissector τ}
  {frames : List Frame} {done : ℕ → List Segment} {i now : ℕ}

theorem sum_frameEffort (d : StreamDissector τ) (contexts : ℕ) (frames : List Frame) :
    (frames.map (frameEffort d contexts)).sum =
      contexts * ((frames.flatMap (Segment.ofFrame [d])).length + 4 * frames.length) +
        3 * frames.length := by
  induction frames with
  | nil => rfl
  | cons f frames ih =>
    rw [List.map_cons, List.sum_cons, ih, frameEffort, List.flatMap_cons, List.length_append,
      List.length_cons]
    ring

/-- The batches of a run of frames need no more than the frames. -/
theorem sum_effort_batches (d : StreamDissector τ) (contexts first last : ℕ) {out : List Frame}
    (hne : out ≠ []) : ((batches [d] contexts out first last).map fun b => b.effort + 2).sum + 3 ≤
      (out.map (frameEffort d contexts)).sum := by
  have hbatch : ∀ n ∈ (batches [d] contexts out first last).map fun b => b.effort + 2,
      n ≤ (out.flatMap (Segment.ofFrame [d])).length + 4 := by
    intro n hn
    obtain ⟨b, hb, rfl⟩ := List.mem_map.mp hn
    obtain ⟨place, -, rfl⟩ := List.mem_map.mp hb
    have hlen := List.length_filter_le (fun r : ℕ × Segment => decide (r.1 = place))
      ((out.flatMap (Segment.ofFrame [d])).map fun s => (route s.stream contexts, s))
    rw [List.length_map] at hlen
    rw [StreamBatch.effort, List.length_map]
    omega
  have hsum := List.sum_le_card_nsmul _ _ hbatch
  rw [List.length_map, batches, List.length_map, List.length_range, Nat.nsmul_eq_mul] at hsum
  have hlen := List.length_pos_iff.mpr hne
  rw [sum_frameEffort, batches]
  exact Nat.add_le_add (hsum.trans (Nat.mul_le_mul_left contexts (by omega))) (by omega)

theorem Feed.effort_lt (h : s.Sound d frames done store) (hnum : Frame.Numbered frames)
    (ht : s.Feed store s') : s'.effort d frames < s.effort d frames := by
  cases ht with
  | @take out waiting ready =>
    obtain ⟨hne, -, rest, hdrop⟩ := h.drop_offset hnum ready
    have hbatches := sum_effort_batches d s.contexts.length ((out.head?.map Frame.index).getD 0)
      ((out.getLast?.map Frame.index).getD 0) hne
    have hrest : frames.drop (s.offset + out.length) = rest := by
      rw [← List.drop_drop, hdrop, List.drop_left]
    rw [← h.dissectors] at hbatches
    simp only [effort, FeederPhase.effort, waiting, hrest, hdrop, List.map_append, List.sum_append]
    omega
  | leave waiting ended =>
    have hsame : (s.contexts.map fun c : StreamContext τ => { c with queue := c.queue.close }).map
        StreamContext.effort = s.contexts.map StreamContext.effort := by
      rw [List.map_map]
      rfl
    simp only [effort, FeederPhase.effort, waiting, hsame, List.length_map]
    omega
  | turn hdone =>
    rcases hdone with hdone | hdone <;> simp [effort, FeederPhase.effort, hdone]
  | announce announcing =>
    simp [effort, FeederPhase.effort, announcing]
  | @hand place b bs c queue handing here push =>
    obtain ⟨-, -, rfl⟩ := Queue.push_eq_done_iff.mp push
    have hsum := List.sum_map_set here StreamContext.effort
      { c with queue := { c.queue with items := c.queue.items ++ [b] } }
    simp [effort, FeederPhase.effort, handing]
    simp [StreamContext.effort] at hsum ⊢
    omega
  | quit handing here closed =>
    simp [effort, FeederPhase.effort, handing]

/-- A turn of a context brings the end closer if it lowers the effort of the context. -/
theorem effort_set_lt {c e : StreamContext τ} (here : s.contexts[i]? = some c)
    (hlt : e.effort < c.effort) (progress : Progress) :
    effort d frames { s with progress := progress, contexts := s.contexts.set i e } <
      s.effort d frames := by
  have hsum := List.sum_map_set_lt here hlt
  simp only [effort, List.length_set]
  omega

theorem Work.effort_lt (d : StreamDissector τ) (frames : List Frame)
    (ht : s.Work store i now s' store') : s'.effort d frames < s.effort d frames := by
  cases ht with
  | pull here idle items =>
    refine effort_set_lt here ?_ s.progress
    simp only [StreamContext.effort, idle, items, List.map_cons, List.sum_cons, StreamBatch.effort]
    omega
  | leave here idle =>
    refine effort_set_lt here ?_ s.progress
    simp only [StreamContext.effort, idle]
    omega
  | look here working =>
    refine effort_set_lt here ?_ s.progress
    simp only [StreamContext.effort, working, List.length_cons]
    omega
  | report here working =>
    refine effort_set_lt here ?_ _
    simp only [StreamContext.effort, working, List.length_nil]
    omega

end StreamStage

/-! ### The whole pipeline -/

namespace Traffic

/-- The turns that are needed at most: every frame is pushed, the queue and the store are closed, and
the producer waits. -/
def effort (d : StreamDissector τ) (frames : List Frame) (t : Traffic σ τ) : ℕ :=
  4 * t.upcoming.length + (!t.pipeline.pool.queue.closed).toNat + (!t.pipeline.joining).toNat +
    t.pipeline.pool.effort + (!t.pipeline.store.closed).toNat +
    ((t.pipeline.streams.map (StreamStage.effort d frames)).getD 0)

/-- The number of turns of a schedule in which something is done. -/
def turns (t : Traffic σ τ) : List Party → ℕ
  | [] => 0
  | party :: schedule => (t.step? party).isSome.toNat + (t.step party).turns schedule

variable {ds : List (Dissector σ)} {d : StreamDissector τ} {threshold : Threshold}
  {frames : List Frame} {t t' : Traffic σ τ}

/-- **Every turn brings the end closer.** -/
theorem Sound.effort_lt (h : t.Sound ds d threshold frames) {party : Party}
    (ht : t.Turn party t') :
    t'.effort d (frames.map (alone threshold ds)) < t.effort d (frames.map (alone threshold ds)) := by
  cases ht with
  | push next push =>
    obtain ⟨-, -, rfl⟩ := Queue.push_eq_done_iff.mp push
    simp only [effort, Pool.effort, Queue.size, next, List.length_cons, List.length_append,
      List.length_nil]
    omega
  | close pushed isOpen =>
    simp [effort, Pool.effort, Pool.close, Queue.close, Queue.size, pushed, isOpen]
  | join pushed closed here => simp [effort, pushed, here]
  | actor turn =>
    cases turn with
    | dissect turn | hand turn =>
      have hlt := turn.effort_lt
      simp only [effort, Store.insert, turn.same.2.2.1]
      omega
    | close drained isOpen => simp [effort, Store.close, isOpen]
    | feed here turn =>
      obtain ⟨_, done, hstage, hsound⟩ := h.streams
      obtain rfl := Option.some.inj (here.symm.trans hstage)
      have hlt := turn.effort_lt hsound h.stored_numbered
      simp only [effort, here, Option.map_some, Option.getD_some]
      omega
    | work here turn =>
      have hlt := turn.effort_lt d (frames.map (alone threshold ds))
      simp only [effort, here, Option.map_some, Option.getD_some, turn.kept.2.1]
      omega

/-- **No schedule goes on forever**: the number of its turns is bounded by the effort at its start. -/
theorem Sound.turns_le (h : t.Sound ds d threshold frames) {schedule : List Party}
    (hkeeps : t.KeepsAll schedule) :
    t.turns schedule ≤ t.effort d (frames.map (alone threshold ds)) := by
  induction schedule generalizing t with
  | nil => exact Nat.zero_le _
  | cons party schedule ih =>
    obtain ⟨hkeep, hkeeps⟩ := hkeeps
    rw [turns]
    unfold Traffic.step at hkeep hkeeps ⊢
    cases ht : t.step? party with
    | none =>
      rw [ht] at hkeeps
      simpa using ih h hkeeps
    | some t' =>
      rw [ht, Option.getD_some] at hkeep hkeeps
      have hturn := turn_of_step? ht
      have hlt := h.effort_lt hturn
      have hle := ih (h.turn hkeep hturn) hkeeps
      rw [Option.isSome_some, Bool.toNat_true, Option.getD_some]
      omega

end Traffic

end PacketTree
