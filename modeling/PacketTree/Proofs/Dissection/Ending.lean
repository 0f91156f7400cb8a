import Mathlib.Data.List.Basic
import PacketTree.Dissection.Run

/-!
# The end of a dissection

A dissection is over as soon as there is nothing left to look at, and more generations then change
nothing. What it gives is what any number of generations gives after which it is over; if there is no
such number, it gives nothing.

## What is proved

* `complete_eq_some_iff`: a frame is taken apart into what some number of generations leaves over.
* `isSome_complete_iff`: there is a result exactly if some number of generations is enough.
-/

namespace PacketTree

variable {σ : Type}

namespace Dissection

variable {threshold : Threshold} {d e : Dissection σ} {f : Frame} {ws : List (Worker σ)} {n : ℕ}

/-! ### One generation after the other -/

/-- With nothing to look at a run stands still. -/
theorem run_of_leaves_eq_nil (hleaves : d.leaves = []) (n : ℕ) : run threshold n d = d := by
  cases n with
  | zero => rfl
  | succ n => rw [run, hleaves, List.isEmpty_nil, if_pos rfl]

/-- A generation, unless there is nothing to look at. -/
theorem run_succ (threshold : Threshold) (n : ℕ) (d : Dissection σ) :
    run threshold (n + 1) d = run threshold 1 (run threshold n d) := by
  induction n generalizing d with
  | zero => rfl
  | succ n ih =>
    by_cases hd : d.leaves = []
    · simp only [run_of_leaves_eq_nil hd]
    · have hfirst : ∀ m, run threshold (m + 1) d = run threshold m (step threshold d) := fun m =>
        if_neg (mt List.isEmpty_iff.mp hd)
      rw [hfirst (n + 1), hfirst n, ih]

theorem run_add (threshold : Threshold) (m n : ℕ) (d : Dissection σ) :
    run threshold (m + n) d = run threshold n (run threshold m d) := by
  induction n with
  | zero => rfl
  | succ n ih => rw [← Nat.add_assoc, run_succ, ih, ← run_succ]

/-- Once nothing is left to look at, more generations change nothing. -/
theorem run_eq_of_le {m n : ℕ} (h : (run threshold m d).leaves = []) (hle : m ≤ n) :
    run threshold n d = run threshold m d := by
  obtain ⟨more, rfl⟩ := Nat.exists_eq_add_of_le hle
  rw [run_add, run_of_leaves_eq_nil h]

/-- All runs that come to an end give the same. -/
theorem run_eq_of_leaves_eq_nil {m n : ℕ} (hm : (run threshold m d).leaves = [])
    (hn : (run threshold n d).leaves = []) : run threshold m d = run threshold n d := by
  rcases Nat.le_total m n with hle | hle
  · exact (run_eq_of_le hm hle).symm
  · exact run_eq_of_le hn hle

/-! ### As many generations as it takes -/

/-- What comes of as many generations as it takes comes of some number of them. -/
theorem exists_run_of_runAll_eq_some (h : runAll threshold d = some e) :
    ∃ n, run threshold n d = e ∧ e.leaves = [] := by
  -- There is no number to count down; the induction is on how the result came about.
  refine runAll.partial_correctness threshold (fun d e => ∃ n, run threshold n d = e ∧ e.leaves = [])
    ?_ d e h
  intro more ih d e hd
  split at hd
  · next hempty =>
    cases hd
    exact ⟨0, rfl, List.isEmpty_iff.mp hempty⟩
  · next hleaves =>
    obtain ⟨n, hn, hend⟩ := ih (step threshold d) e hd
    exact ⟨n + 1, (if_neg hleaves).trans hn, hend⟩

theorem runAll_of_leaves_eq_nil (h : (run threshold n d).leaves = []) :
    runAll threshold d = some (run threshold n d) := by
  induction n generalizing d with
  | zero =>
    rw [runAll]
    exact if_pos (List.isEmpty_iff.mpr h)
  | succ n ih =>
    rw [runAll]
    rw [run] at h ⊢
    split
    · rfl
    · next hleaves =>
      rw [if_neg hleaves] at h
      exact ih h

/-- **A frame is taken apart** into what some number of generations leaves over. -/
theorem complete_eq_some_iff : complete threshold f ws = some d ↔
    ∃ n, run threshold n (start f ws) = d ∧ d.leaves = [] := by
  rw [complete]
  split
  · next hempty =>
    have hend := List.isEmpty_iff.mp hempty
    constructor
    · rintro h
      cases h
      exact ⟨countedGenerations, rfl, hend⟩
    · rintro ⟨n, rfl, hn⟩
      exact congrArg some (run_eq_of_leaves_eq_nil hend hn)
  · constructor
    · intro h
      obtain ⟨n, rfl, hend⟩ := exists_run_of_runAll_eq_some h
      exact ⟨countedGenerations + n, run_add .., hend⟩
    · rintro ⟨n, rfl, hend⟩
      have hmore := run_eq_of_le hend (Nat.le_add_left n countedGenerations)
      rw [run_add] at hmore
      rw [runAll_of_leaves_eq_nil (hmore ▸ hend), hmore]

theorem complete_of_leaves_eq_nil (h : (run threshold n (start f ws)).leaves = []) :
    complete threshold f ws = some (run threshold n (start f ws)) :=
  complete_eq_some_iff.mpr ⟨n, rfl, h⟩

theorem isSome_complete_iff : (complete threshold f ws).isSome ↔
    ∃ n, (run threshold n (start f ws)).leaves = [] := by
  rw [Option.isSome_iff_exists]
  constructor
  · rintro ⟨d, hd⟩
    obtain ⟨n, rfl, hend⟩ := complete_eq_some_iff.mp hd
    exact ⟨n, hend⟩
  · rintro ⟨n, hend⟩
    exact ⟨_, complete_of_leaves_eq_nil hend⟩

/-- Whatever every run leaves true of a frame and its workers is true of what it is taken apart into. -/
theorem of_complete_eq_some {motive : Dissection σ → Prop} (h : complete threshold f ws = some d)
    (hrun : ∀ n, motive (run threshold n (start f ws))) : motive d := by
  obtain ⟨n, rfl, -⟩ := complete_eq_some_iff.mp h
  exact hrun n

end Dissection

end PacketTree
