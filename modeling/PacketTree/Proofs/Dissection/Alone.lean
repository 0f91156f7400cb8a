import PacketTree.Dissection.Pool
import PacketTree.Proofs.Dissection.Ending
import PacketTree.Proofs.Frame.Tree

/-!
# Frames taken apart alone

Workers that never change take every frame apart as if it were the only one.

## What is proved

* `eq_of_dissectAll_of_isSteady`: a batch is taken apart frame by frame, each as if it were alone.
* `dissectAll_of_isSteady`: that comes to an end if it does so for every frame alone.
* `exists_dissectAll`: whatever workers remember, a batch comes to an end if every frame does.
* `map_index_dissectAll`: frames keep their numbers when they are taken apart, by whatever workers.

## The model

A dissector `IsSteady` if its workers remember the same before and after every call, also after one
in which they break down. `alone` takes a frame apart with new workers, and `Ends` says that this has a
result.
-/

namespace PacketTree

variable {σ : Type}

/-- The workers of the dissector never change. -/
def Dissector.IsSteady (d : Dissector σ) : Prop :=
  ∀ (s : σ) (f : Frame) (id : ℕ), (d.analyze s f id).1 = s

theorem Dissector.isSteady_stateless (name : String) (patterns : List Pattern) (memory : σ)
    (analyze : Frame → ℕ → Option Layer) : (stateless name patterns memory analyze).IsSteady :=
  fun _ _ _ => rfl

variable {threshold : Threshold} {ws : List (Worker σ)} {f : Frame} {leaves : List ℕ}

/-! ### Workers that never change -/

namespace Worker

theorem call_of_isSteady {w : Worker σ} (h : w.dissector.IsSteady) (f : Frame) (id : ℕ) :
    (w.call f id).1 = w := by
  obtain ⟨d, s⟩ := w
  exact congrArg (Worker.mk d) (h s f id)

theorem callAll_of_isSteady (h : ∀ w ∈ ws, w.dissector.IsSteady) (f : Frame) (id : ℕ)
    (ns : Namespace) : (callAll f id ns ws).1 = ws := by
  induction ws with
  | nil => rfl
  | cons w ws ih =>
    obtain ⟨hw, hws⟩ := List.forall_mem_cons.mp h
    have hcall := call_of_isSteady hw f id
    rw [callAll]
    split
    · rcases hc : w.call f id with ⟨v, verdict⟩
      rw [hc] at hcall
      obtain rfl : v = w := hcall
      cases verdict <;> simp only [ih hws]
    · exact congrArg (w :: ·) (ih hws)

/-- No call exchanges a dissector. -/
theorem map_dissector_callAll (f : Frame) (id : ℕ) (ns : Namespace) (ws : List (Worker σ)) :
    (callAll f id ns ws).1.map dissector = ws.map dissector := by
  induction ws with
  | nil => rfl
  | cons w ws ih =>
    rw [callAll]
    split
    · rcases hc : w.call f id with ⟨v, verdict⟩
      have hv : v.dissector = w.dissector := congrArg (Worker.dissector ∘ Prod.fst) hc.symm
      cases verdict <;> simp [ih, hv]
    · exact congrArg (w.dissector :: ·) ih

end Worker

namespace Dissection

theorem index_attachAll (f : Frame) (parent : ℕ) (payload : ByteView) (ls : List Layer) :
    (attachAll f parent payload ls).1.index = f.index := by
  induction ls generalizing f with
  | nil => rfl
  | cons l ls ih =>
    rw [attachAll]
    rcases hg : f.attach? parent (contain payload l) with _ | g
    · exact ih f
    · exact (ih g).trans (Frame.index_attach? hg)

/-- Whatever the workers do, the frame keeps its number. -/
theorem index_expand (threshold : Threshold) (f : Frame) (ws : List (Worker σ)) (leaves : List ℕ) :
    (expand threshold f ws leaves).frame.index = f.index := by
  induction leaves generalizing f ws with
  | nil => rfl
  | cons leaf leaves ih =>
    rw [expand]
    rcases f.layer? leaf with _ | l
    · exact ih f ws
    · dsimp only
      rcases Worker.callAll f leaf l.ns ws with ⟨us, _ | found⟩
      · rfl
      · exact (ih _ us).trans (index_attachAll ..)

theorem index_run (threshold : Threshold) (n : ℕ) (d : Dissection σ) :
    (run threshold n d).frame.index = d.frame.index := by
  induction n generalizing d with
  | zero => rfl
  | succ n ih =>
    rw [run]
    split
    · rfl
    · exact (ih _).trans (index_expand ..)

/-- A generation leaves workers that never change as they are. -/
theorem expand_of_isSteady (h : ∀ w ∈ ws, w.dissector.IsSteady) (f : Frame) (leaves : List ℕ) :
    (expand threshold f ws leaves).workers = ws := by
  induction leaves generalizing f with
  | nil => rfl
  | cons leaf leaves ih =>
    rw [expand]
    rcases hl : f.layer? leaf with _ | l
    · exact ih f
    · have hcall := Worker.callAll_of_isSteady h f leaf l.ns
      rcases hc : Worker.callAll f leaf l.ns ws with ⟨us, _ | found⟩ <;> rw [hc] at hcall <;>
        obtain rfl : us = ws := hcall
      · simp only [hc]
      · simp only [hc]
        exact ih _

theorem run_of_isSteady {d : Dissection σ} (h : ∀ w ∈ d.workers, w.dissector.IsSteady) (n : ℕ) :
    (run threshold n d).workers = d.workers := by
  induction n generalizing d with
  | zero => rfl
  | succ n ih =>
    rw [run]
    split
    · rfl
    · have hws : (step threshold d).workers = d.workers := expand_of_isSteady h d.frame d.leaves
      exact (ih fun w hw => h w (hws ▸ hw)).trans hws

/-- No generation exchanges the dissectors. -/
theorem map_dissector_expand (threshold : Threshold) (f : Frame) (ws : List (Worker σ))
    (leaves : List ℕ) : (expand threshold f ws leaves).workers.map Worker.dissector =
      ws.map Worker.dissector := by
  induction leaves generalizing f ws with
  | nil => rfl
  | cons leaf leaves ih =>
    rw [expand]
    rcases f.layer? leaf with _ | l
    · exact ih f ws
    · have hcall := Worker.map_dissector_callAll f leaf l.ns ws
      dsimp only
      rcases hc : Worker.callAll f leaf l.ns ws with ⟨us, _ | found⟩ <;> rw [hc] at hcall
      · exact hcall
      · exact (ih _ us).trans hcall

theorem map_dissector_run (threshold : Threshold) (n : ℕ) (d : Dissection σ) :
    (run threshold n d).workers.map Worker.dissector = d.workers.map Worker.dissector := by
  induction n generalizing d with
  | zero => rfl
  | succ n ih =>
    rw [run]
    split
    · rfl
    · exact (ih _).trans (map_dissector_expand ..)

/-- New workers of the dissectors come to an end with the frame. -/
def Ends (threshold : Threshold) (ds : List (Dissector σ)) (f : Frame) : Prop :=
  (complete threshold f (ds.map Dissector.worker)).isSome

/-- Workers of the dissectors come to an end with every frame, whatever they remember. -/
def AlwaysEnds (threshold : Threshold) (ds : List (Dissector σ)) : Prop :=
  ∀ (ws : List (Worker σ)) (f : Frame), ws.map Worker.dissector = ds →
    (complete threshold f ws).isSome

theorem Ends.exists_eq_some {ds : List (Dissector σ)} (h : Ends threshold ds f) :
    ∃ d, complete threshold f (ds.map Dissector.worker) = some d := Option.isSome_iff_exists.mp h

/-- A new worker is one of its dissector. -/
theorem map_dissector_worker (ds : List (Dissector σ)) :
    (ds.map Dissector.worker).map Worker.dissector = ds := by
  rw [List.map_map]
  exact List.map_id ds

theorem AlwaysEnds.ends {ds : List (Dissector σ)} (h : AlwaysEnds threshold ds) (f : Frame) :
    Ends threshold ds f := h _ f (map_dissector_worker ds)

/-- Without any dissectors the first generation is the last. -/
theorem ends_nil (threshold : Threshold) (f : Frame) : Ends threshold ([] : List (Dissector σ)) f := by
  refine isSome_complete_iff.mpr ⟨1, ?_⟩
  simp [run, step, start, expand, Frame.layer?_rootId, Worker.callAll, rank, attachAll]

end Dissection

/-! ### Whole batches -/

/-- A frame taken apart by new workers. If they come to no end with it, it stays as it is. -/
def alone (threshold : Threshold) (ds : List (Dissector σ)) (f : Frame) : Frame :=
  (Dissection.complete threshold f (ds.map Dissector.worker)).elim f Dissection.frame

variable {ds : List (Dissector σ)} {us : List (Worker σ)} {batch frames : List Frame}

open Dissection

theorem alone_of_complete_eq_some {d : Dissection σ}
    (h : complete threshold f (ds.map Dissector.worker) = some d) : alone threshold ds f = d.frame := by
  rw [alone, h]
  rfl

theorem forall_worker_isSteady (h : ∀ d ∈ ds, d.IsSteady) :
    ∀ w ∈ ds.map Dissector.worker, w.dissector.IsSteady := by
  intro w hw
  obtain ⟨d, hd, rfl⟩ := List.mem_map.mp hw
  exact h d hd

/-- Taking a frame apart keeps its number. -/
theorem index_alone (threshold : Threshold) (ds : List (Dissector σ)) (f : Frame) :
    (alone threshold ds f).index = f.index := by
  cases h : complete threshold f (ds.map Dissector.worker) with
  | none =>
    rw [alone, h]
    rfl
  | some d =>
    rw [alone_of_complete_eq_some h]
    exact of_complete_eq_some (motive := fun d => d.frame.index = f.index) h fun n => index_run ..

/-- A batch is taken apart if its first frame is and then, with the workers as they are afterwards, the
others are. -/
theorem dissectAll_cons_eq_some_iff :
    dissectAll threshold ws (f :: batch) = some (us, frames) ↔
      ∃ d rest, complete threshold f ws = some d ∧
        dissectAll threshold d.workers batch = some (us, rest) ∧ frames = d.frame :: rest := by
  simp only [dissectAll, Option.bind_eq_bind, Option.bind_eq_some_iff, Option.pure_def,
    Option.some.injEq, Prod.mk.injEq, Prod.exists]
  constructor
  · rintro ⟨d, hd, us, rest, hrest, rfl, rfl⟩
    exact ⟨d, rest, hd, hrest, rfl⟩
  · rintro ⟨d, rest, hd, hrest, rfl⟩
    exact ⟨d, hd, us, rest, hrest, rfl, rfl⟩

theorem map_index_dissectAll (h : dissectAll threshold ws batch = some (us, frames)) :
    frames.map Frame.index = batch.map Frame.index := by
  induction batch generalizing ws frames with
  | nil =>
    cases h
    rfl
  | cons f batch ih =>
    obtain ⟨d, rest, hd, hrest, rfl⟩ := dissectAll_cons_eq_some_iff.mp h
    rw [List.map_cons, List.map_cons, ih hrest,
      of_complete_eq_some (motive := fun d => d.frame.index = f.index) hd fun n => index_run ..]

/-- The dissectors are the same afterwards. -/
theorem map_dissector_dissectAll (h : dissectAll threshold ws batch = some (us, frames)) :
    us.map Worker.dissector = ws.map Worker.dissector := by
  induction batch generalizing ws frames with
  | nil =>
    cases h
    rfl
  | cons f batch ih =>
    obtain ⟨d, rest, hd, hrest, rfl⟩ := dissectAll_cons_eq_some_iff.mp h
    rw [ih hrest]
    exact of_complete_eq_some (motive := fun d => d.workers.map Worker.dissector = _) hd
      fun n => map_dissector_run ..

/-- If the workers always come to an end, they do so with every batch. -/
theorem exists_dissectAll (h : AlwaysEnds threshold ds) (hws : ws.map Worker.dissector = ds)
    (batch : List Frame) : ∃ us frames, dissectAll threshold ws batch = some (us, frames) := by
  induction batch generalizing ws with
  | nil => exact ⟨ws, [], rfl⟩
  | cons f batch ih =>
    obtain ⟨d, hd⟩ := Option.isSome_iff_exists.mp (h ws f hws)
    have hkeep : d.workers.map Worker.dissector = ds :=
      of_complete_eq_some (motive := fun d => d.workers.map Worker.dissector = ds) hd
        fun n => (map_dissector_run ..).trans hws
    obtain ⟨us, rest, hrest⟩ := ih hkeep
    exact ⟨us, _, dissectAll_cons_eq_some_iff.mpr ⟨d, rest, hd, hrest, rfl⟩⟩

/-- What becomes of the workers of steady dissectors and of a frame. -/
theorem of_complete_of_isSteady (h : ∀ d ∈ ds, d.IsSteady) {d : Dissection σ}
    (hd : complete threshold f (ds.map Dissector.worker) = some d) :
    d.workers = ds.map Dissector.worker ∧ d.frame = alone threshold ds f :=
  ⟨of_complete_eq_some (motive := fun d => d.workers = ds.map Dissector.worker) hd fun n =>
      run_of_isSteady (d := start f _) (forall_worker_isSteady h) n,
    (alone_of_complete_eq_some hd).symm⟩

/-- **Steady workers take each frame of a batch apart as if it were alone.** -/
theorem eq_of_dissectAll_of_isSteady (h : ∀ d ∈ ds, d.IsSteady)
    (hbatch : dissectAll threshold (ds.map Dissector.worker) batch = some (us, frames)) :
    us = ds.map Dissector.worker ∧ frames = batch.map (alone threshold ds) := by
  induction batch generalizing frames with
  | nil =>
    cases hbatch
    exact ⟨rfl, rfl⟩
  | cons f batch ih =>
    obtain ⟨d, rest, hd, hrest, rfl⟩ := dissectAll_cons_eq_some_iff.mp hbatch
    obtain ⟨hws, hframe⟩ := of_complete_of_isSteady h hd
    rw [hws] at hrest
    obtain ⟨hus, rfl⟩ := ih hrest
    exact ⟨hus, by rw [hframe, List.map_cons]⟩

/-- They come to an end with a batch if they do so with every frame of it. -/
theorem dissectAll_of_isSteady (h : ∀ d ∈ ds, d.IsSteady)
    (hends : ∀ f ∈ batch, Ends threshold ds f) :
    dissectAll threshold (ds.map Dissector.worker) batch =
      some (ds.map Dissector.worker, batch.map (alone threshold ds)) := by
  induction batch with
  | nil => rfl
  | cons f batch ih =>
    obtain ⟨hf, hbatch⟩ := List.forall_mem_cons.mp hends
    obtain ⟨d, hd⟩ := hf.exists_eq_some
    obtain ⟨hws, hframe⟩ := of_complete_of_isSteady h hd
    refine dissectAll_cons_eq_some_iff.mpr ⟨d, batch.map (alone threshold ds), hd, ?_, ?_⟩
    · rw [hws]
      exact ih hbatch
    · rw [hframe, List.map_cons]

end PacketTree
