import Mathlib.Data.List.Nodup
import PacketTree.Frame.Store
import PacketTree.Proofs.Frame.Tree

/-!
# Frames come into line

What a batch of frames does to the store: the frames that were missing next go out in the order of
their numbers, and all others stay parked.

## What is proved

* `insert_spec`: the frames given out and those parked are together the ones put in and those parked
  before, and what is given out goes on with the next number.
* `InLine.insert`: for frames out of a list that is numbered from one on, what is given out is the next
  part of that list.
* `numbered_insert`: the frames that were given out stay numbered from one on.

## The model

Parked frames are `Lined` up by their numbers. Between two operations none of them is the next one;
with that a store is `InLine`.
-/

namespace PacketTree

open scoped List

/-! ### Numbered frames -/

namespace Frame

variable {fs : List Frame}

/-- The frames are numbered from one on. -/
def Numbered (fs : List Frame) : Prop := ∀ k f, fs[k]? = some f → f.index = k + 1

theorem Numbered.map (h : Numbered fs) {change : Frame → Frame}
    (hchange : ∀ f, (change f).index = f.index) : Numbered (fs.map change) := by
  intro k f hf
  rw [List.getElem?_map, Option.map_eq_some_iff] at hf
  obtain ⟨g, hg, rfl⟩ := hf
  rw [hchange, h k g hg]

theorem Numbered.concat {f : Frame} (h : Numbered fs) (hf : f.index = fs.length + 1) :
    Numbered (fs ++ [f]) := by
  intro k g hg
  rcases Nat.lt_or_ge k fs.length with hlt | hge
  · exact h k g (by rwa [List.getElem?_append_left hlt] at hg)
  · rw [List.getElem?_append_right hge, List.getElem?_singleton] at hg
    split at hg
    · cases hg
      omega
    · cases hg

theorem Numbered.map_index (h : Numbered fs) : fs.map Frame.index = List.range' 1 fs.length := by
  refine List.ext_getElem? fun k => ?_
  rw [List.getElem?_map]
  by_cases hk : k < fs.length
  · rw [List.getElem?_eq_getElem hk, Option.map_some, List.getElem?_range' hk,
      h k _ (List.getElem?_eq_getElem hk)]
    congr 1
    omega
  · rw [List.getElem?_eq_none (by omega), List.getElem?_eq_none (by simp; omega)]
    rfl

/-- The last of some numbered frames tells how many there are. -/
theorem Numbered.index_getLast? (h : Numbered fs) {k : ℕ} {batch rest : List Frame}
    (hdrop : fs.drop k = batch ++ rest) (hne : batch ≠ []) :
    (batch.getLast?.map Frame.index).getD 0 = k + batch.length := by
  have hlen : 0 < batch.length := List.length_pos_iff.mpr hne
  have hget : fs[k + (batch.length - 1)]? = batch.getLast? := by
    rw [← List.getElem?_drop, hdrop, List.getElem?_append_left (by omega), List.getLast?_eq_getElem?]
  have hlast := List.getLast?_eq_some_getLast hne
  rw [hlast, Option.map_some, Option.getD_some, h _ _ (hget.trans hlast)]
  omega

/-- Frames from the middle go on with the numbers of those before. -/
theorem Numbered.index_of_drop (h : Numbered fs) {k : ℕ} {batch rest : List Frame}
    (hdrop : fs.drop k = batch ++ rest) {i : ℕ} {f : Frame} (hf : batch[i]? = some f) :
    f.index = k + i + 1 := by
  have hlt := (List.getElem?_eq_some_iff.mp hf).1
  rw [← List.getElem?_append_left hlt, ← hdrop, List.getElem?_drop] at hf
  exact h (k + i) f hf

/-- Frames that have the numbers behind the first `k` are the next ones. -/
theorem Numbered.drop_eq_append (h : Numbered fs) {k : ℕ} {taken : List Frame}
    (hmem : ∀ g ∈ taken, g ∈ fs) (hindex : ∀ i g, taken[i]? = some g → g.index = k + i + 1) :
    ∃ rest, fs.drop k = taken ++ rest := by
  have hnext : (fs.drop k).take taken.length = taken := by
    refine List.ext_getElem? fun i => ?_
    rw [List.getElem?_take]
    split
    · next hi =>
      have hg := List.getElem?_eq_getElem hi
      obtain ⟨j, hj⟩ := List.mem_iff_getElem?.mp (hmem _ (List.getElem_mem hi))
      have hplace : k + i = j := by
        have := (hindex i _ hg).symm.trans (h j _ hj)
        omega
      rw [List.getElem?_drop, hplace, hj, hg]
    · next hi => rw [List.getElem?_eq_none (by omega)]
  exact ⟨_, (hnext ▸ (List.take_append_drop taken.length (fs.drop k)).symm :)⟩

theorem Numbered.index_mem (h : Numbered fs) {f : Frame} (hf : f ∈ fs) :
    0 < f.index ∧ f.index ≤ fs.length := by
  obtain ⟨k, hk⟩ := List.mem_iff_getElem?.mp hf
  have hlt := (List.getElem?_eq_some_iff.mp hk).1
  rw [h k f hk]
  exact ⟨k.succ_pos, hlt⟩

theorem Numbered.nodup (h : Numbered fs) : (fs.map Frame.index).Nodup :=
  h.map_index ▸ List.nodup_range'

end Frame

namespace Store

variable {s : Store} {f g : Frame} {batch gs : List Frame} {frames : Array Frame}

/-! ### Parking -/

/-- The numbers rise. -/
def Lined (gs : List Frame) : Prop := gs.Pairwise fun f g => f.index < g.index

theorem mem_park (h : g ∈ park f gs) : g = f ∨ g ∈ gs := by
  induction gs with
  | nil => exact .inl (List.mem_singleton.mp h)
  | cons k gs ih =>
    rw [park] at h
    split at h
    · exact List.mem_cons.mp h
    · split at h
      · exact (List.mem_cons.mp h).imp_right (List.mem_cons_of_mem k)
      · rcases List.mem_cons.mp h with rfl | h
        · exact .inr List.mem_cons_self
        · exact (ih h).imp_right (List.mem_cons_of_mem k)

theorem Lined.park (h : Lined gs) : Lined (park f gs) := by
  induction gs with
  | nil => exact List.pairwise_singleton _ _
  | cons k gs ih =>
    obtain ⟨hk, hgs⟩ := List.pairwise_cons.mp h
    rw [Store.park]
    split
    · next hlt =>
      refine List.pairwise_cons.mpr ⟨fun g hg => ?_, h⟩
      rcases List.mem_cons.mp hg with rfl | hg
      · exact hlt
      · exact Nat.lt_trans hlt (hk g hg)
    · split
      · next heq => exact List.pairwise_cons.mpr ⟨fun g hg => heq ▸ hk g hg, hgs⟩
      · refine List.pairwise_cons.mpr ⟨fun g hg => ?_, ih hgs⟩
        rcases mem_park hg with rfl | hg
        · omega
        · exact hk g hg

/-- A frame with a new number is one more. -/
theorem perm_park (h : f.index ∉ gs.map Frame.index) : (park f gs).Perm (f :: gs) := by
  induction gs with
  | nil => exact .refl _
  | cons k gs ih =>
    rw [List.map_cons, List.mem_cons, not_or] at h
    rw [park]
    split
    · exact .refl _
    · rw [if_neg h.1]
      exact ((ih h.2).cons k).trans (.swap f k gs)

theorem Lined.parkAll (h : Lined gs) (batch : List Frame) :
    Lined (batch.foldl (fun fs f => Store.park f fs) gs) := by
  induction batch generalizing gs with
  | nil => exact h
  | cons f batch ih => exact ih h.park

theorem perm_parkAll (h : ((batch ++ gs).map Frame.index).Nodup) :
    (batch.foldl (fun fs f => park f fs) gs).Perm (batch ++ gs) := by
  induction batch generalizing gs with
  | nil => exact .refl _
  | cons f batch ih =>
    rw [List.cons_append, List.map_cons, List.nodup_cons, List.map_append, List.mem_append,
      not_or] at h
    obtain ⟨⟨hbatch, hf⟩, hnodup⟩ := h
    have hpark : (batch ++ park f gs).Perm (f :: (batch ++ gs)) :=
      ((perm_park hf).append_left batch).trans List.perm_middle
    refine (ih ((hpark.map _).nodup_iff.mpr ?_)).trans hpark
    rw [List.map_cons, List.nodup_cons, List.map_append, List.mem_append, not_or]
    exact ⟨⟨hbatch, hf⟩, hnodup⟩

/-! ### Giving out -/

/-- Nothing is given out while the next frame is missing. -/
theorem release_of_lt (h : ∀ g ∈ gs, frames.size + 1 < g.index) :
    release frames gs = (frames, gs) := by
  induction gs with
  | nil => rfl
  | cons g gs ih =>
    obtain ⟨hg, hgs⟩ := List.forall_mem_cons.mp h
    rw [release, if_neg (by omega), ih hgs]

/-- Whatever is parked, frames are given out with the numbers from one on. -/
theorem numbered_release (h : Frame.Numbered frames.toList) (gs : List Frame) :
    Frame.Numbered (release frames gs).1.toList := by
  induction gs generalizing frames with
  | nil => exact h
  | cons g gs ih =>
    rw [release]
    split
    · next hg =>
      refine ih ?_
      rw [Array.toList_push]
      exact h.concat (by rwa [Array.length_toList])
    · exact ih h

theorem numbered_insert (h : Frame.Numbered s.frames.toList) (batch : List Frame) :
    Frame.Numbered (s.insert batch).frames.toList :=
  numbered_release h _

/-- The frames given out are the first ones, without a gap, and what stays waits for another. -/
theorem release_spec (h : Lined gs) (hlater : ∀ g ∈ gs, frames.size < g.index) :
    ∃ taken, (release frames gs).1.toList = frames.toList ++ taken ∧
      gs = taken ++ (release frames gs).2 ∧
      (∀ i g, taken[i]? = some g → g.index = frames.size + i + 1) ∧
      ∀ g ∈ (release frames gs).2, (release frames gs).1.size + 1 < g.index := by
  induction gs generalizing frames with
  | nil => exact ⟨[], (List.append_nil _).symm, rfl, nofun, nofun⟩
  | cons g gs ih =>
    obtain ⟨hg, hgs⟩ := List.pairwise_cons.mp h
    have hnext := hlater g List.mem_cons_self
    by_cases heq : g.index = frames.size + 1
    · obtain ⟨taken, htaken, hsplit, hindex, hrest⟩ := @ih (frames.push g) hgs fun k hk => by
        have := hg k hk
        rw [Array.size_push]
        omega
      rw [release, if_pos heq]
      refine ⟨g :: taken, ?_, congrArg (g :: ·) hsplit, fun i k hk => ?_, hrest⟩
      · rw [htaken, Array.toList_push, List.append_assoc, List.singleton_append]
      · cases i with
        | zero =>
          rw [List.getElem?_cons_zero, Option.some.injEq] at hk
          rw [← hk, heq]
        | succ i =>
          have := hindex i k hk
          rw [Array.size_push] at this
          omega
    · have hlt : ∀ k ∈ g :: gs, frames.size + 1 < k.index := by
        intro k hk
        rcases List.mem_cons.mp hk with rfl | hk
        · omega
        · have := hg k hk
          omega
      rw [release_of_lt hlt]
      exact ⟨[], (List.append_nil _).symm, rfl, nofun, hlt⟩

/-! ### Putting in a batch -/

/-- Nothing that is parked could be given out. -/
structure InLine (s : Store) : Prop where
  /-- Parked frames stand in the order of their numbers. -/
  lined : Lined s.parked
  /-- The next frame is not among them. -/
  later : ∀ g ∈ s.parked, s.size + 1 < g.index

theorem inLine_empty : InLine empty := ⟨List.Pairwise.nil, nofun⟩

theorem InLine.insert_nil (h : s.InLine) : s.insert [] = s := by
  rw [Store.insert, List.foldl_nil, release_of_lt h.later]

/-- **New frames go out in order as soon as none is missing.** -/
theorem insert_spec (h : s.InLine) (hnodup : ((batch ++ s.parked).map Frame.index).Nodup)
    (hlater : ∀ f ∈ batch, s.size < f.index) :
    ∃ taken, (s.insert batch).frames.toList = s.frames.toList ++ taken ∧
      (taken ++ (s.insert batch).parked).Perm (batch ++ s.parked) ∧
      (∀ i g, taken[i]? = some g → g.index = s.size + i + 1) ∧ (s.insert batch).InLine := by
  have hperm := perm_parkAll hnodup
  have hlined := h.lined.parkAll batch
  have hall : ∀ g ∈ batch.foldl (fun fs f => park f fs) s.parked, s.size < g.index := by
    intro g hg
    rcases List.mem_append.mp (hperm.mem_iff.mp hg) with hg | hg
    · exact hlater g hg
    · exact Nat.lt_trans (Nat.lt_succ_self _) (h.later g hg)
  obtain ⟨taken, htaken, hsplit, hindex, hrest⟩ := release_spec hlined hall
  refine ⟨taken, htaken, (List.Perm.of_eq hsplit.symm).trans hperm, hindex, ?_, hrest⟩
  exact (List.pairwise_append.mp (hsplit ▸ hlined : Lined (taken ++ _))).2.1

/-- The same for frames out of a list that is numbered from one on. -/
theorem InLine.insert {fs : List Frame} (h : s.InLine) (hnum : Frame.Numbered fs)
    (hall : (batch ++ (fs.take s.size ++ s.parked)).Subperm fs) :
    ∃ taken rest, (s.insert batch).frames.toList = s.frames.toList ++ taken ∧
      fs.drop s.size = taken ++ rest ∧
      (fs.take (s.insert batch).size ++ (s.insert batch).parked).Perm
        (batch ++ (fs.take s.size ++ s.parked)) ∧ (s.insert batch).InLine := by
  obtain ⟨l, hperm, hsub⟩ := hall
  have hnodup : ((batch ++ (fs.take s.size ++ s.parked)).map Frame.index).Nodup :=
    (hperm.map _).nodup_iff.mp ((hsub.map _).nodup hnum.nodup)
  have hmem : ∀ g ∈ batch ++ s.parked, g ∈ fs := by
    intro g hg
    refine hsub.subset (hperm.mem_iff.mpr ?_)
    rcases List.mem_append.mp hg with hg | hg <;> simp [hg]
  have hlater : ∀ f ∈ batch, s.size < f.index := by
    intro f hf
    obtain ⟨j, hj⟩ := List.mem_iff_getElem?.mp (hmem f (List.mem_append_left _ hf))
    rw [hnum j f hj]
    by_contra hlt
    -- Otherwise the frame would be among those in order, too.
    have hout : f ∈ fs.take s.size := by
      refine List.mem_iff_getElem?.mpr ⟨j, ?_⟩
      rw [List.getElem?_take, if_pos (by omega), hj]
    rw [List.map_append, List.nodup_append] at hnodup
    exact hnodup.2.2 _ (List.mem_map_of_mem hf) _
      (List.mem_map_of_mem (List.mem_append_left _ hout)) rfl
  have hsmall : ((batch ++ s.parked).map Frame.index).Nodup :=
    (((List.sublist_append_right _ _).append_left batch).map _).nodup hnodup
  obtain ⟨taken, hframes, htaken, hindex, hline⟩ := insert_spec h hsmall hlater
  obtain ⟨rest, hrest⟩ := hnum.drop_eq_append
    (fun g hg => hmem g (htaken.mem_iff.mp (List.mem_append_left _ hg))) hindex
  refine ⟨taken, rest, hframes, hrest, ?_, hline⟩
  have hsize : (s.insert batch).size = s.size + taken.length := by
    have hlen := congrArg List.length hframes
    rwa [List.length_append, Array.length_toList, Array.length_toList] at hlen
  rw [hsize, List.take_add, hrest, List.take_left, List.append_assoc]
  calc fs.take s.size ++ (taken ++ (s.insert batch).parked)
      _ ~ fs.take s.size ++ (batch ++ s.parked) := htaken.append_left _
      _ ~ batch ++ (fs.take s.size ++ s.parked) := List.perm_append_comm_assoc ..

/-- Once all numbered frames are there, none of them is parked. -/
theorem InLine.parked_eq_nil {fs : List Frame} (h : s.InLine) (hnum : Frame.Numbered fs)
    (hle : s.size ≤ fs.length) (hall : (fs.take s.size ++ s.parked).Perm fs) :
    s.size = fs.length ∧ s.parked = [] := by
  have hlen := hall.length_eq
  rw [List.length_append, List.length_take] at hlen
  by_cases hlt : s.size < fs.length
  · -- The next frame would be among those that are parked.
    exfalso
    have hnext : (fs[s.size]).index = s.size + 1 := hnum _ _ (List.getElem?_eq_getElem hlt)
    rcases List.mem_append.mp (hall.mem_iff.mpr (List.getElem_mem hlt)) with hmem | hmem
    · obtain ⟨k, hk⟩ := List.mem_iff_getElem?.mp hmem
      rw [List.getElem?_take] at hk
      split at hk
      · have := hnum k _ hk
        omega
      · cases hk
    · have := h.later _ hmem
      omega
  · exact ⟨by omega, List.length_eq_zero_iff.mp (by omega)⟩

/-! ### Adding a layer -/

/-- Adding a layer moves no frame. -/
theorem of_attach?_eq_some {index parent n : ℕ} {l : Layer} {t : Store}
    (h : s.attach? index parent l = some (t, n)) :
    t.parked = s.parked ∧ t.closed = s.closed ∧ t.size = s.size := by
  unfold attach? at h
  split at h
  · cases h
  · rw [Option.bind_eq_bind, Option.bind_eq_some_iff] at h
    obtain ⟨f, -, h⟩ := h
    rw [Option.bind_eq_some_iff] at h
    obtain ⟨g, -, h⟩ := h
    cases h
    exact ⟨rfl, rfl, Array.size_setIfInBounds ..⟩

theorem numbered_attach? {index parent n : ℕ} {l : Layer} {t : Store}
    (hnum : Frame.Numbered s.frames.toList) (h : s.attach? index parent l = some (t, n)) :
    Frame.Numbered t.frames.toList := by
  unfold attach? at h
  split at h
  · cases h
  · next place =>
    rw [Option.bind_eq_bind, Option.bind_eq_some_iff] at h
    obtain ⟨f, hf, h⟩ := h
    rw [Option.bind_eq_some_iff] at h
    obtain ⟨g, hg, h⟩ := h
    cases h
    intro k e he
    rw [Array.getElem?_toList, Array.getElem?_setIfInBounds] at he
    split at he
    · next hk =>
      subst hk
      split at he
      · cases he
        exact (Frame.index_attach? hg).trans (hnum place f (by rwa [Array.getElem?_toList]))
      · cases he
    · exact hnum k e (by rwa [Array.getElem?_toList])

/-! ### Waiting for frames -/

variable {offset most : ℕ}

/-- Frames are given out in order, at least one. -/
theorem wait_eq_done_iff {out : List Frame} :
    s.wait offset most = .done out ↔
      offset < s.size ∧ out = (s.frames.toList.drop offset).take (max most 1) := by
  unfold wait
  by_cases hlt : offset < s.size
  · rw [if_pos hlt, get, Array.toList_extract, List.extract_eq_take_drop, Nat.add_sub_cancel_left]
    simp [hlt, eq_comm]
  · cases hc : s.closed <;> simp [hlt]

theorem wait_eq_closed_iff : s.wait offset most = .closed ↔ s.size ≤ offset ∧ s.closed = true := by
  unfold wait
  by_cases hlt : offset < s.size
  · simp [hlt, Nat.not_le.mpr hlt]
  · cases hc : s.closed <;> simp [hlt, Nat.le_of_not_lt hlt]

theorem wait_eq_blocked_iff : s.wait offset most = .blocked ↔ s.size ≤ offset ∧ s.closed = false := by
  unfold wait
  by_cases hlt : offset < s.size
  · simp [hlt, Nat.not_le.mpr hlt]
  · cases hc : s.closed <;> simp [hlt, Nat.le_of_not_lt hlt]

end Store

end PacketTree
