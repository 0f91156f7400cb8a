import PacketTree.Proofs.Dissection.Alone
import PacketTree.Proofs.Dissection.Termination

/-!
# Workers that break down

A worker that breaks down ends the dissection of its frame. What the frame has then are the layers found
in the generations before, and below the leaves that were expanded before in the same generation.

## What is proved

* `expand_append`: leaves are expanded one after the other, up to a breakdown.
* `breaksDown_iff`: which frames a worker breaks down in, and what becomes of them.

## The model

The dissectors are steady: a worker that broke down looks at the next frame as if nothing had happened.
-/

namespace PacketTree

variable {σ : Type} {ws : List (Worker σ)} {f g : Frame} {threshold : Threshold}

/-- All workers together break down if one of those that are called does. -/
theorem Worker.callAll_eq_none_iff (f : Frame) (id : ℕ) (ns : Namespace) (ws : List (Worker σ)) :
    (callAll f id ns ws).2 = none ↔
      ∃ w ∈ ws, w.dissector.selects ns = true ∧ (w.call f id).2 = .fault := by
  induction ws with
  | nil => simp [callAll]
  | cons w ws ih =>
    rw [callAll, List.exists_mem_cons_iff]
    split
    · next hs =>
      rcases hc : w.call f id with ⟨v, verdict⟩
      cases verdict <;> simp [hs, ih]
    · next hs => simp [hs, ih]

namespace Dissection

variable {d : Dissection σ} {leaves : List ℕ} {m n : ℕ}

/-! ### Within a generation -/

/-- Leaves are expanded one after the other, unless a worker breaks down. -/
theorem expand_append (threshold : Threshold) (f : Frame) (ws : List (Worker σ))
    (before rest : List ℕ) :
    expand threshold f ws (before ++ rest) =
      let a := expand threshold f ws before
      if a.faulted then a
      else
        let b := expand threshold a.frame a.workers rest
        { b with added := a.added ++ b.added } := by
  induction before generalizing f ws with
  | nil => rfl
  | cons leaf before ih =>
    rw [List.cons_append]
    rcases hl : f.layer? leaf with _ | l
    · have hskip : ∀ ids, expand threshold f ws (leaf :: ids) = expand threshold f ws ids := by
        intro ids
        rw [expand, hl]
      rw [hskip, hskip, ih]
    · rcases hcall : Worker.callAll f leaf l.ns ws with ⟨us, _ | found⟩
      · rw [expand_cons_of_none hl hcall, expand_cons_of_none hl hcall]
        rfl
      · rw [expand_cons_of_some hl hcall, expand_cons_of_some hl hcall]
        dsimp only
        rw [ih]
        dsimp only
        split
        · rfl
        · simp only [List.append_assoc]

/-- Where a generation breaks off. -/
theorem exists_of_faulted_expand (h : (expand threshold f ws leaves).faulted = true) :
    ∃ before leaf after l, leaves = before ++ leaf :: after ∧
      let a := expand threshold f ws before
      a.faulted = false ∧ a.frame.layer? leaf = some l ∧
        (Worker.callAll a.frame leaf l.ns a.workers).2 = none := by
  induction leaves using List.reverseRecOn with
  | nil => cases h
  | append_singleton leaves leaf ih =>
    rw [expand_append] at h
    dsimp only at h
    split at h
    · next hfault =>
      obtain ⟨before, first, after, l, rfl, hrest⟩ := ih hfault
      exact ⟨before, first, after ++ [leaf], l, by simp, hrest⟩
    · next hsound =>
      rw [Bool.not_eq_true] at hsound
      generalize ha : expand threshold f ws leaves = a at h hsound
      rcases hl : a.frame.layer? leaf with _ | l
      · rw [expand, hl] at h
        cases h
      · refine ⟨leaves, leaf, [], l, rfl, ?_⟩
        rw [ha]
        refine ⟨hsound, hl, ?_⟩
        rcases hcall : Worker.callAll a.frame leaf l.ns a.workers with ⟨us, _ | found⟩
        · rfl
        · rw [expand_cons_of_some hl hcall] at h
          cases h

/-- What a generation that breaks off leaves behind. -/
theorem expand_of_none {before : List ℕ} {leaf : ℕ} {l : Layer} (after : List ℕ)
    (hsound : (expand threshold f ws before).faulted = false)
    (hl : (expand threshold f ws before).frame.layer? leaf = some l)
    (hnone : (Worker.callAll (expand threshold f ws before).frame leaf l.ns
      (expand threshold f ws before).workers).2 = none) :
    (expand threshold f ws (before ++ leaf :: after)).faulted = true ∧
      (expand threshold f ws (before ++ leaf :: after)).frame =
        (expand threshold f ws before).frame := by
  rw [expand_append]
  generalize expand threshold f ws before = a at hsound hl hnone ⊢
  rcases hcall : Worker.callAll a.frame leaf l.ns a.workers with ⟨us, found⟩
  rw [hcall] at hnone
  obtain rfl : found = none := hnone
  simp only [hsound, Bool.false_eq_true, if_false, expand_cons_of_none hl hcall, and_self]

/-! ### From generation to generation -/

/-- Nothing is looked at behind a breakdown. -/
theorem leaves_of_faulted_step (h : (step threshold d).faulted = true) :
    (step threshold d).leaves = [] :=
  if_pos h

/-- A breakdown happens in the last generation. -/
theorem exists_of_faulted_run (hd : d.faulted = false) (h : (run threshold n d).faulted = true) :
    ∃ m < n, (run threshold m d).faulted = false ∧
      run threshold n d = step threshold (run threshold m d) := by
  induction n with
  | zero => simp [run, hd] at h
  | succ n ih =>
    rcases hn : (run threshold n d).faulted with _ | _
    · refine ⟨n, n.lt_succ_self, hn, ?_⟩
      rw [run_succ, run] at h ⊢
      split at h
      · rw [hn] at h
        cases h
      · next hleaves => rw [if_neg hleaves, run]
    · obtain ⟨m, hm, hsound, hstep⟩ := ih hn
      refine ⟨m, hm.trans n.lt_succ_self, hsound, ?_⟩
      rw [run_succ, ← hstep]
      exact run_of_leaves_eq_nil (hstep ▸ leaves_of_faulted_step (hstep ▸ hn)) 1

theorem run_of_faulted_step (hm : m < n) (hleaves : (run threshold m d).leaves ≠ [])
    (h : (step threshold (run threshold m d)).faulted = true) :
    run threshold n d = step threshold (run threshold m d) := by
  obtain ⟨k, rfl⟩ := Nat.exists_eq_add_of_lt hm
  have hnext : run threshold (m + 1) d = step threshold (run threshold m d) := by
    rw [run_succ, run, if_neg (mt List.isEmpty_iff.mp hleaves), run]
  rw [Nat.add_right_comm, run_add, hnext, run_of_leaves_eq_nil (leaves_of_faulted_step h)]

/-! ### Frames in which a worker breaks down -/

/-- A worker breaks down in a frame that is dissected alone, and leaves it like this: some generations
were without a breakdown, so were some leaves in the next one, and a worker that looks at the leaf
behind these breaks down. -/
inductive BreaksDown (threshold : Threshold) (ds : List (Dissector σ)) (f : Frame) : Frame → Prop where
  /-- The breakdown, in all its parts. -/
  | intro {e : Dissection σ} {a : Growth σ} {n : ℕ} {before after : List ℕ} {leaf : ℕ} {l : Layer}
      {d : Dissector σ}
      (generations : run threshold n (start f (ds.map Dissector.worker)) = e)
      (going : e.faulted = false) (leaves : e.leaves = before ++ leaf :: after)
      (expanded : expand threshold e.frame (ds.map Dissector.worker) before = a)
      (sound : a.faulted = false) (here : a.frame.layer? leaf = some l) (hd : d ∈ ds)
      (called : d.selects l.ns = true) (breaks : (d.analyze d.fresh a.frame leaf).2 = .fault) :
      BreaksDown threshold ds f a.frame

/-- New workers break down together if one of their dissectors is called and breaks down. -/
theorem callAll_workers_eq_none_iff (ds : List (Dissector σ)) (f : Frame) (id : ℕ) (ns : Namespace) :
    (Worker.callAll f id ns (ds.map Dissector.worker)).2 = none ↔
      ∃ d ∈ ds, d.selects ns = true ∧ (d.analyze d.fresh f id).2 = .fault := by
  simp [Worker.callAll_eq_none_iff, Dissector.worker, Worker.call]

variable {ds : List (Dissector σ)}

/-- **When a worker breaks down, and what becomes of the frame.** That is the end of it. -/
theorem breaksDown_iff (hds : ∀ d ∈ ds, d.IsSteady) :
    BreaksDown threshold ds f g ↔
      ∃ d, complete threshold f (ds.map Dissector.worker) = some d ∧ d.faulted = true ∧
        d.frame = g := by
  have hws := forall_worker_isSteady hds
  have hworkers : ∀ n, (run threshold n (start f (ds.map Dissector.worker))).workers =
      ds.map Dissector.worker := fun n => run_of_isSteady (d := start f _) hws n
  have hexpand : ∀ f before, (expand threshold f (ds.map Dissector.worker) before).workers =
      ds.map Dissector.worker := expand_of_isSteady hws
  constructor
  · rintro @⟨_, _, n, before, after, leaf, l, d, rfl, -, leaves, rfl, sound, here, hd, called, breaks⟩
    obtain ⟨hfault, hframe⟩ := expand_of_none _ sound here <| by
      rw [hexpand]
      exact (callAll_workers_eq_none_iff ds _ _ _).mpr ⟨_, hd, called, breaks⟩
    rw [← leaves] at hfault hframe
    have hfaulted :
        (step threshold (run threshold n (start f (ds.map Dissector.worker)))).faulted = true := by
      rwa [step, hworkers]
    have hlast := run_of_faulted_step (Nat.lt_succ_self _) (by rw [leaves]; simp) hfaulted
    refine ⟨_, complete_eq_some_iff.mpr ⟨_, hlast, leaves_of_faulted_step hfaulted⟩, hfaulted, ?_⟩
    rw [step, hworkers]
    exact hframe
  · rintro ⟨last, hcomplete, hfault, rfl⟩
    obtain ⟨n, rfl, -⟩ := complete_eq_some_iff.mp hcomplete
    obtain ⟨n, -, hsound, hlast⟩ := exists_of_faulted_run (d := start f _) rfl hfault
    rw [hlast, step, hworkers] at hfault
    obtain ⟨before, leaf, after, l, leaves, sound, here, hnone⟩ := exists_of_faulted_expand hfault
    have hframe := (expand_of_none after sound here hnone).2
    rw [hexpand] at hnone
    obtain ⟨d, hd, called, breaks⟩ := (callAll_workers_eq_none_iff ds _ _ _).mp hnone
    rw [hlast, step, hworkers, leaves]
    dsimp only
    rw [hframe]
    exact .intro rfl hsound leaves rfl sound here hd called breaks

end Dissection

end PacketTree
