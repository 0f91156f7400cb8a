import Mathlib.Order.MinMax
import PacketTree.Flow.Progress

/-!
# How far all workers are

The shares of the workers bound the safe index from above, and once every worker is done with all it
was given they determine it.

## What is proved

* `safe_eq`: with nothing in hand the safe index is the last frame given to anyone.
* `Within.begin`, `Within.finish`: the safe index never passes the last frame given to anyone.
* `candidate_le_done`: while a worker has frames in hand, no frame is safe that it is not done with.

## The model

A share `Owes` the runs of frames that a worker has in hand: what it was given last is the end of one
of them, unless the worker is done with it. `Within` bounds all that a progress knows, and in a `Fair`
one no worker is done with more than it was given.
-/

namespace PacketTree

/-! ### One share -/

namespace Share

variable {s : Share} {lasts : List ℕ} {first last : ℕ}

/-- What the worker was given last is done, or it is the end of one of these runs. -/
def Owes (s : Share) (lasts : List ℕ) : Prop := s.given ≤ s.done ∨ s.given ∈ lasts

/-- The share of a worker that takes a run of frames. -/
def begin (s : Share) (first last : ℕ) : Share :=
  { given := max s.given last, done := max s.done (first - 1) }

/-- The share of a worker that is done with a run of frames. -/
def finish (s : Share) (last : ℕ) : Share :=
  { given := max s.given last, done := max s.done last }

theorem Owes.begin (h : s.given ≤ last) (hlast : last ∈ lasts) : (s.begin first last).Owes lasts :=
  .inr (by simpa only [Share.begin, max_eq_right h] using hlast)

theorem Owes.finish (h : s.Owes (last :: lasts)) : (s.finish last).Owes lasts := by
  rcases Nat.le_total s.given last with hle | hle
  · exact .inl (by simp only [Share.finish, max_eq_right hle, le_max_right])
  · rcases h with h | h
    · exact .inl (by simp only [Share.finish, max_eq_left hle]; exact h.trans (le_max_left _ _))
    · rcases List.mem_cons.mp h with h | h
      · exact .inl (by simp only [Share.finish, h, max_self, le_max_right])
      · exact .inr (by simpa only [Share.finish, max_eq_left hle] using h)

end Share

namespace Progress

variable {p : Progress} {n m worker first last i : ℕ} {ns : List ℕ}

/-! ### Least and greatest -/

theorem greatest_le_iff : greatest ns ≤ m ↔ ∀ n ∈ ns, n ≤ m := by
  have hfold : ∀ a, ns.foldl max a ≤ m ↔ a ≤ m ∧ ∀ n ∈ ns, n ≤ m := by
    induction ns with
    | nil => simp
    | cons k ns ih =>
      intro a
      rw [List.foldl_cons, ih, Nat.max_le, List.forall_mem_cons, and_assoc]
  rw [greatest, hfold]
  exact and_iff_right (Nat.zero_le m)

theorem le_greatest (h : n ∈ ns) : n ≤ greatest ns := greatest_le_iff.mp le_rfl n h

/-- The least of some numbers is one of them. -/
theorem mem_of_least?_eq_some (h : least? ns = some n) : n ∈ ns := by
  have hfold : ∀ (ns : List ℕ) (a : ℕ), ns.foldl min a ∈ a :: ns := by
    intro ns
    induction ns with
    | nil => simp
    | cons k ns ih =>
      intro a
      rw [List.foldl_cons]
      rcases List.mem_cons.mp (ih (min a k)) with hmin | hmem
      · rcases Nat.le_total a k with hle | hle
        · rw [hmin, min_eq_left hle]
          exact List.mem_cons_self
        · rw [hmin, min_eq_right hle]
          exact List.mem_cons_of_mem _ List.mem_cons_self
      · exact List.mem_cons_of_mem _ (List.mem_cons_of_mem _ hmem)
  cases ns with
  | nil => cases h
  | cons k ns =>
    rw [least?, Option.some.injEq] at h
    exact h ▸ hfold ns k

theorem least?_le (h : least? ns = some n) (hm : m ∈ ns) : n ≤ m := by
  have hfold : ∀ (ns : List ℕ) (a : ℕ), ∀ k ∈ a :: ns, ns.foldl min a ≤ k := by
    intro ns
    induction ns with
    | nil => simp
    | cons j ns ih =>
      intro a
      obtain ⟨hmin, hns⟩ := List.forall_mem_cons.mp (ih (min a j))
      simp only [List.forall_mem_cons, List.foldl_cons]
      exact ⟨hmin.trans (min_le_left _ _), hmin.trans (min_le_right _ _), hns⟩
  cases ns with
  | nil => cases h
  | cons k ns =>
    rw [least?, Option.some.injEq] at h
    exact h ▸ hfold ns k m hm

/-- The shares tell of no frame beyond those given. -/
theorem candidate_le (h : ∀ s ∈ p.shares, s.given ≤ n) : p.candidate ≤ n := by
  rw [candidate]
  rcases hl : least? ((p.shares.filter Share.busy).map Share.done) with _ | k
  · rw [Option.getD_none, greatest_le_iff]
    intro k hk
    obtain ⟨s, hs, rfl⟩ := List.mem_map.mp hk
    exact h s hs
  · obtain ⟨s, hs, rfl⟩ := List.mem_map.mp (mem_of_least?_eq_some hl)
    obtain ⟨hmem, hbusy⟩ := List.mem_filter.mp hs
    exact (of_decide_eq_true hbusy).le.trans (h s hmem)

/-- As long as a worker has frames in hand, no frame is safe that it is not done with. -/
theorem candidate_le_done {s : Share} (hs : s ∈ p.shares) (hbusy : s.done < s.given) :
    p.candidate ≤ s.done := by
  have hmem : s.done ∈ (p.shares.filter Share.busy).map Share.done :=
    List.mem_map_of_mem (List.mem_filter.mpr ⟨hs, decide_eq_true hbusy⟩)
  rw [candidate]
  rcases hl : least? ((p.shares.filter Share.busy).map Share.done) with _ | k
  · cases hn : (p.shares.filter Share.busy).map Share.done with
    | nil => exact absurd hmem (hn ▸ List.not_mem_nil)
    | cons n ns =>
      rw [hn] at hl
      cases hl
  · exact least?_le hl hmem

/-! ### All shares -/

@[simp] theorem getElem?_shares_begin (p : Progress) (worker first last i : ℕ) :
    (p.begin worker first last).shares[i]? =
      if worker = i then p.shares[i]?.map (·.begin first last) else p.shares[i]? := by
  rw [Progress.begin, List.getElem?_modify]
  split
  · rfl
  · cases p.shares[i]? <;> rfl

@[simp] theorem getElem?_shares_finish (p : Progress) (worker last i : ℕ) :
    (p.finish worker last).shares[i]? =
      if worker = i then p.shares[i]?.map (·.finish last) else p.shares[i]? := by
  rw [Progress.finish, refresh, List.getElem?_modify]
  split
  · rfl
  · cases p.shares[i]? <;> rfl

/-- A share is that of the worker that takes frames, or it stays as it is. -/
theorem of_getElem?_shares_begin {i : ℕ} {s : Share}
    (h : (p.begin worker first last).shares[i]? = some s) :
    (i = worker ∧ ∃ t, p.shares[i]? = some t ∧ s = t.begin first last) ∨
      (i ≠ worker ∧ p.shares[i]? = some s) := by
  rw [getElem?_shares_begin] at h
  split at h
  · next hi =>
    obtain ⟨t, ht, rfl⟩ := Option.map_eq_some_iff.mp h
    exact .inl ⟨hi.symm, t, ht, rfl⟩
  · next hi => exact .inr ⟨Ne.symm hi, h⟩

/-- A share is that of the worker that reports, or it stays as it is. -/
theorem of_getElem?_shares_finish {i : ℕ} {s : Share}
    (h : (p.finish worker last).shares[i]? = some s) :
    (i = worker ∧ ∃ t, p.shares[i]? = some t ∧ s = t.finish last) ∨
      (i ≠ worker ∧ p.shares[i]? = some s) := by
  rw [getElem?_shares_finish] at h
  split at h
  · next hi =>
    obtain ⟨t, ht, rfl⟩ := Option.map_eq_some_iff.mp h
    exact .inl ⟨hi.symm, t, ht, rfl⟩
  · next hi => exact .inr ⟨Ne.symm hi, h⟩

/-- What holds of all shares and of the one of a worker that takes frames holds of all with it. -/
theorem forall_mem_shares_begin {P : Share → Prop} (h : ∀ s ∈ p.shares, P s)
    (hbegin : ∀ s ∈ p.shares, P (s.begin first last)) :
    ∀ s ∈ (p.begin worker first last).shares, P s := by
  intro s hs
  obtain ⟨i, hi⟩ := List.mem_iff_getElem?.mp hs
  rcases of_getElem?_shares_begin hi with ⟨-, t, ht, rfl⟩ | ⟨-, hi⟩
  · exact hbegin t (List.mem_of_getElem? ht)
  · exact h s (List.mem_of_getElem? hi)

/-- What holds of all shares and of the one of a worker that reports holds of all with it. -/
theorem forall_mem_shares_finish {P : Share → Prop} (h : ∀ s ∈ p.shares, P s)
    (hfinish : ∀ s ∈ p.shares, P (s.finish last)) :
    ∀ s ∈ (p.finish worker last).shares, P s := by
  intro s hs
  obtain ⟨i, hi⟩ := List.mem_iff_getElem?.mp hs
  rcases of_getElem?_shares_finish hi with ⟨-, t, ht, rfl⟩ | ⟨-, hi⟩
  · exact hfinish t (List.mem_of_getElem? ht)
  · exact h s (List.mem_of_getElem? hi)

/-- No worker is done with more than it was given. -/
def Fair (p : Progress) : Prop := ∀ s ∈ p.shares, s.done ≤ s.given

theorem fair_ofWorkers (workers : ℕ) : (ofWorkers workers).Fair := by
  intro s hs
  rw [List.eq_of_mem_replicate hs]

theorem Fair.begin (h : p.Fair) (hfirst : first - 1 ≤ last) : (p.begin worker first last).Fair :=
  forall_mem_shares_begin h fun s hs => max_le_max (h s hs) hfirst

theorem Fair.finish (h : p.Fair) : (p.finish worker last).Fair :=
  forall_mem_shares_finish h fun s hs => max_le_max_right last (h s hs)

/-- Reporting brings the mark up to what the shares tell after it. -/
theorem mark_finish (p : Progress) (worker last : ℕ) :
    (p.finish worker last).mark = max p.mark (p.finish worker last).candidate := rfl

/-- No share and no safe index is beyond a number. -/
structure Within (p : Progress) (n : ℕ) : Prop where
  /-- No worker was given more. -/
  given : ∀ s ∈ p.shares, s.given ≤ n
  /-- No more was said to be safe. -/
  mark : p.mark ≤ n

theorem within_ofWorkers (workers : ℕ) : (ofWorkers workers).Within 0 where
  given s hs := by rw [List.eq_of_mem_replicate hs]
  mark := le_rfl

theorem Within.begin (h : p.Within n) (hnm : n ≤ m) (hlast : last ≤ m) :
    (p.begin worker first last).Within m where
  given := forall_mem_shares_begin (fun s hs => (h.given s hs).trans hnm) fun s hs =>
    max_le ((h.given s hs).trans hnm) hlast
  mark := h.mark.trans hnm

theorem Within.finish (h : p.Within n) (hlast : last ≤ n) : (p.finish worker last).Within n := by
  have hgiven : ∀ s ∈ (p.finish worker last).shares, s.given ≤ n :=
    forall_mem_shares_finish h.given fun s hs => max_le (h.given s hs) hlast
  exact ⟨hgiven, max_le h.mark (candidate_le hgiven)⟩

/-- **With nothing in hand all is safe that was given to anyone.** -/
theorem safe_eq (h : p.Within n) (hidle : ∀ s ∈ p.shares, s.Owes [])
    (hlast : n = 0 ∨ ∃ s ∈ p.shares, s.given = n) : p.safe.1 = n := by
  have hbusy : p.shares.filter Share.busy = [] := by
    refine List.filter_eq_nil_iff.mpr fun s hs hb => ?_
    rcases hidle s hs with hle | hmem
    · exact absurd (of_decide_eq_true hb) (Nat.not_lt.mpr hle)
    · cases hmem
  have hcandidate : p.candidate = greatest (p.shares.map Share.given) := by
    rw [candidate, hbusy]
    rfl
  have hle : n ≤ p.candidate := by
    rcases hlast with rfl | ⟨s, hs, rfl⟩
    · exact Nat.zero_le _
    · exact hcandidate ▸ le_greatest (List.mem_map_of_mem hs)
  exact le_antisymm (max_le h.mark (candidate_le h.given)) (hle.trans (le_max_right _ _))

end Progress

end PacketTree
