import Mathlib.Data.List.Induction
import Mathlib.Data.List.Nodup
import Mathlib.Data.List.Perm.Basic
import Mathlib.Order.Bounds.Basic
import PacketTree.Proofs.Frame.Store

/-!
# What a store shows

Whatever is put into a store, in which batches and in which order, it shows the frames from number one
on as far as none is missing. Frames may come twice, or with number zero; then some stay parked for
ever.

## What is proved

* `release_perm`, `index_of_mem_release`: which parked frames are given out, and why others stay.
* `Shown.step`, `shown_after`: what every operation keeps, and so what holds after any operations.
* `getElem?_foldl_step`: a frame that is shown stays in its place and gets the layers added to it.
* `shows_prefix`: what a store shows, at every point of every history.

## The model

A history is a list of events. An attempt to add a layer that fails is an event without a consequence.
-/

namespace PacketTree

open scoped List

namespace Store

variable {s : Store} {f g : Frame} {batch gs : List Frame} {frames : Array Frame} {k : ℕ}

/-! ### What is given out -/

/-- Every frame that was parked is given out, behind those that were given out before, or stays. -/
theorem release_perm (frames : Array Frame) (gs : List Frame) :
    ∃ taken, (release frames gs).1.toList = frames.toList ++ taken ∧
      taken ++ (release frames gs).2 ~ gs := by
  induction gs generalizing frames with
  | nil => exact ⟨[], (List.append_nil _).symm, .refl _⟩
  | cons g gs ih =>
    rw [release]
    split
    · obtain ⟨taken, hframes, hperm⟩ := ih (frames.push g)
      refine ⟨g :: taken, ?_, hperm.cons g⟩
      rw [hframes, Array.toList_push, List.append_assoc]
      rfl
    · obtain ⟨taken, hframes, hperm⟩ := ih frames
      exact ⟨taken, hframes, List.perm_middle.trans (hperm.cons g)⟩

/-- What stays, stays in line. -/
theorem sublist_release (frames : Array Frame) (gs : List Frame) :
    (release frames gs).2.Sublist gs := by
  induction gs generalizing frames with
  | nil => exact .slnil
  | cons g gs ih =>
    rw [release]
    split
    · exact (ih _).cons g
    · exact (ih _).cons_cons g

/-- **Why a frame stays**: its number was given out before, or one before it is missing. -/
theorem index_of_mem_release (h : Lined gs) (frames : Array Frame) :
    ∀ g ∈ (release frames gs).2,
      g.index ≤ frames.size ∨ (release frames gs).1.size + 1 < g.index := by
  induction gs generalizing frames with
  | nil => exact nofun
  | cons f gs ih =>
    obtain ⟨hf, hgs⟩ := List.pairwise_cons.mp h
    rw [release]
    split
    · next heq =>
      intro g hg
      have hlt := hf g ((sublist_release _ _).subset hg)
      refine (ih hgs (frames.push f) g hg).imp_left fun hle => ?_
      rw [Array.size_push] at hle
      omega
    · next hne =>
      refine List.forall_mem_cons.mpr ⟨?_, ih hgs frames⟩
      rcases Nat.lt_or_ge frames.size f.index with hlt | hle
      · have hgap : ∀ g ∈ gs, frames.size + 1 < g.index := fun g hg => by
          have := hf g hg
          omega
        rw [release_of_lt hgap]
        exact .inr (by dsimp only; omega)
      · exact .inl hle

/-! ### What is parked -/

/-- The number of the frame is parked. -/
theorem index_mem_park (f : Frame) (gs : List Frame) : f.index ∈ (park f gs).map Frame.index := by
  induction gs with
  | nil => exact List.mem_singleton_self _
  | cons k gs ih =>
    rw [park]
    split
    · exact List.mem_cons_self
    · split
      · exact List.mem_cons_self
      · exact List.mem_cons_of_mem _ ih

/-- No number is lost. -/
theorem index_mem_park_of_mem (f : Frame) (h : k ∈ gs.map Frame.index) :
    k ∈ (park f gs).map Frame.index := by
  induction gs with
  | nil => cases h
  | cons g gs ih =>
    rw [park]
    split
    · exact List.mem_cons_of_mem _ h
    · rw [List.map_cons, List.mem_cons] at h
      split
      · next heq => rwa [List.map_cons, List.mem_cons, heq]
      · exact List.mem_cons.mpr (h.imp_right ih)

/-- Behind a batch, what is parked was parked before or is out of the batch, and all numbers of both are
there. -/
theorem mem_parkAll (batch gs : List Frame) :
    let parked := batch.foldl (fun fs f => park f fs) gs
    (∀ g ∈ parked, g ∈ gs ∨ g ∈ batch) ∧
      ∀ k, k ∈ gs.map Frame.index ∨ k ∈ batch.map Frame.index → k ∈ parked.map Frame.index := by
  induction batch generalizing gs with
  | nil => exact ⟨fun g hg => .inl hg, fun k hk => hk.resolve_right nofun⟩
  | cons f batch ih =>
    obtain ⟨hfrom, hthere⟩ := ih (park f gs)
    refine ⟨fun g hg => ?_, fun k hk => hthere k ?_⟩
    · rcases hfrom g hg with hg | hg
      · rcases mem_park hg with rfl | hg
        · exact .inr List.mem_cons_self
        · exact .inl hg
      · exact .inr (List.mem_cons_of_mem _ hg)
    · rw [List.map_cons, List.mem_cons] at hk
      rcases hk with hk | rfl | hk
      · exact .inl (index_mem_park_of_mem f hk)
      · exact .inl (index_mem_park f gs)
      · exact .inr hk

end Store

/-! ### Layers that are added to a frame -/

/-- The frame with more layers, each under a parent; where there is no such parent, nothing is added. -/
def Frame.grow (f : Frame) (layers : List (ℕ × Layer)) : Frame :=
  layers.foldl (fun f l => (f.attach? l.1 l.2).getD f) f

theorem Frame.grow_append (f : Frame) (layers more : List (ℕ × Layer)) :
    f.grow (layers ++ more) = (f.grow layers).grow more :=
  List.foldl_append

theorem Frame.index_grow (f : Frame) (layers : List (ℕ × Layer)) : (f.grow layers).index = f.index := by
  induction layers generalizing f with
  | nil => rfl
  | cons l layers ih =>
    rw [grow, List.foldl_cons, ← grow, ih]
    rcases hg : f.attach? l.1 l.2 with _ | g
    · rfl
    · exact Frame.index_attach? hg

namespace Store

variable {s t : Store} {f g : Frame} {batch gs : List Frame} {k index parent n : ℕ} {l : Layer}

theorem attach?_succ (s : Store) (place parent : ℕ) (l : Layer) :
    s.attach? (place + 1) parent l = s.frames[place]?.bind fun f =>
      (f.attach? parent l).map fun g =>
        ({ s with frames := s.frames.setIfInBounds place g }, f.size) := by
  rw [attach?]
  rcases s.frames[place]? with _ | f
  · rfl
  · rcases hg : f.attach? parent l with _ | g <;> simp [hg]

/-- A layer is refused if there is no frame with the number, or no parent in it. -/
theorem attach?_eq_none_iff (hnum : Frame.Numbered s.frames.toList) :
    s.attach? index parent l = none ↔
      ∀ f ∈ s.frames.toList, f.index = index → f.attach? parent l = none := by
  cases index with
  | zero =>
    exact iff_of_true rfl fun f hf hzero => absurd hzero (hnum.index_mem hf).1.ne'
  | succ place =>
    have hat : ∀ f, s.frames[place]? = some f ↔ f ∈ s.frames.toList ∧ f.index = place + 1 := by
      intro f
      rw [← Array.getElem?_toList]
      refine ⟨fun hf => ⟨List.mem_of_getElem? hf, hnum place f hf⟩, fun ⟨hf, hplace⟩ => ?_⟩
      obtain ⟨k, hk⟩ := List.mem_iff_getElem?.mp hf
      obtain rfl : k = place := by
        have := hnum k f hk
        omega
      exact hk
    rw [attach?_succ, Option.bind_eq_none_iff]
    simp only [Option.map_eq_none_iff, hat, and_imp]

/-! ### Histories -/

/-- What happens to a store. -/
inductive Event where
  /-- Frames are put in. -/
  | insert (batch : List Frame)
  /-- Somebody tries to add a layer to the frame with a number, under a parent. -/
  | attach (index parent : ℕ) (l : Layer)
  /-- No more frames will come. -/
  | close

/-- The store after an event. -/
def step (s : Store) : Event → Store
  | .insert batch => s.insert batch
  | .attach index parent l => ((s.attach? index parent l).map Prod.fst).getD s
  | .close => s.close

/-- A new store after some events. -/
def after (events : List Event) : Store := events.foldl step empty

/-- The frames that an event puts in. -/
def Event.arrivals : Event → List Frame
  | .insert batch => batch
  | _ => []

/-- All frames that were put in, in the order in which they came. -/
def inserted (events : List Event) : List Frame := events.flatMap Event.arrivals

/-- The layer that an event offers to the frame with a number, and its parent there. -/
def Event.layer? (index : ℕ) : Event → Option (ℕ × Layer)
  | .attach i parent l => if i = index then some (parent, l) else none
  | _ => none

/-- The layers that events offer to the frame with a number. -/
def offered (index : ℕ) (events : List Event) : List (ℕ × Layer) :=
  events.filterMap (Event.layer? index)

/-- An event leaves a frame in its place, with the layer that it offers. -/
theorem getElem?_step (h : s.frames[k]? = some f) (e : Event) :
    (s.step e).frames[k]? = some (f.grow (offered (k + 1) [e])) := by
  have hk := (Array.getElem?_eq_some_iff.mp h).1
  cases e with
  | insert batch =>
    obtain ⟨taken, htaken, -⟩ := release_perm s.frames (batch.foldl (fun fs f => park f fs) s.parked)
    have hlist : (s.insert batch).frames.toList = s.frames.toList ++ taken := htaken
    rw [step, ← Array.getElem?_toList, hlist, List.getElem?_append_left (by simpa using hk),
      Array.getElem?_toList, h]
    rfl
  | attach index parent l =>
    rw [step]
    cases index with
    | zero => simpa [attach?, offered, Event.layer?, Frame.grow] using h
    | succ place =>
      rw [attach?_succ]
      by_cases hplace : place = k
      · subst hplace
        rw [h]
        rcases hg : f.attach? parent l with _ | g
        · simp [hg, h, offered, Event.layer?, Frame.grow]
        · simp [hg, hk, offered, Event.layer?, Frame.grow]
      · have hsame : f.grow (offered (k + 1) [.attach (place + 1) parent l]) = f := by
          simp [offered, Event.layer?, hplace, Frame.grow]
        rw [hsame]
        rcases s.frames[place]? with _ | e
        · exact h
        · rcases he : e.attach? parent l with _ | g <;> simp [he, hplace, h]
  | close => exact h

/-- **A frame that is shown stays**, and gets the layers that are offered to it later. -/
theorem getElem?_foldl_step (h : s.frames[k]? = some f) (events : List Event) :
    (events.foldl step s).frames[k]? = some (f.grow (offered (k + 1) events)) := by
  induction events generalizing s f with
  | nil => exact h
  | cons e events ih =>
    have hsplit : offered (k + 1) (e :: events) = offered (k + 1) [e] ++ offered (k + 1) events :=
      List.filterMap_append (l := [e])
    rw [List.foldl_cons, ih (getElem?_step h e), hsplit, Frame.grow_append]

/-- Where nothing is offered, nothing is offered later. -/
theorem offered_of_isSuffix {events later : List Event} (h : later <:+ events)
    (hnone : offered k events = []) : offered k later = [] := by
  obtain ⟨before, rfl⟩ := h
  rw [offered, List.filterMap_append] at hnone
  exact (List.append_eq_nil_iff.mp hnone).2

theorem inserted_concat (events : List Event) (e : Event) :
    inserted (events ++ [e]) = inserted events ++ e.arrivals := by
  simp [inserted]

/-! ### What every operation keeps -/

/-- No two of the frames have one number, and none has number zero. -/
def Distinct (fs : List Frame) : Prop := (fs.map Frame.index).Nodup ∧ ∀ f ∈ fs, 0 < f.index

/-- What a store shows and what it keeps back, after some events. -/
structure Shown (events : List Event) (s : Store) : Prop where
  /-- The frames shown are numbered. -/
  numbered : Frame.Numbered s.frames.toList
  /-- Each of them was put in, and has layers that were offered to it since. -/
  origin : ∀ k g, s.frames[k]? = some g →
    ∃ f ∈ inserted events, ∃ later, later <:+ events ∧ g = f.grow (offered (k + 1) later)
  /-- Parked frames stand in the order of their numbers. -/
  lined : Lined s.parked
  /-- The next frame is not among them. -/
  waits : ∀ g ∈ s.parked, g.index ≠ s.size + 1
  /-- They were put in. -/
  parked : ∀ g ∈ s.parked, g ∈ inserted events
  /-- Of every number that was put in there is a frame. -/
  covered : ∀ k ∈ (inserted events).map Frame.index,
    0 < k ∧ k ≤ s.size ∨ k ∈ s.parked.map Frame.index
  /-- No frame came too late unless a number was given twice. -/
  unique : Distinct (inserted events) → ∀ g ∈ s.parked, s.size < g.index

theorem shown_empty : Shown [] empty where
  numbered := nofun
  origin := nofun
  lined := List.Pairwise.nil
  waits := nofun
  parked := nofun
  covered := nofun
  unique _ := nofun

variable {events : List Event}

/-- The frame that is shown was put in with its number. -/
theorem Shown.index_mem (h : Shown events s) {i : ℕ} (hpos : 0 < i) (hi : i ≤ s.size) :
    i ∈ (inserted events).map Frame.index := by
  have hlt : i - 1 < s.size := by omega
  obtain ⟨g, hg⟩ : ∃ g, s.frames[i - 1]? = some g := ⟨_, Array.getElem?_eq_getElem hlt⟩
  obtain ⟨f, hf, later, -, hgrow⟩ := h.origin _ g hg
  have hnum := h.numbered (i - 1) _ (by rwa [Array.getElem?_toList])
  rw [hgrow, Frame.index_grow] at hnum
  exact List.mem_map.mpr ⟨f, hf, by omega⟩

/-- Frames shown before an event come from where they came from. -/
theorem Shown.origin_step (h : Shown events s) (e : Event) (hk : k < s.size)
    (hg : (s.step e).frames[k]? = some g) :
    ∃ f ∈ inserted (events ++ [e]), ∃ later, later <:+ events ++ [e] ∧
      g = f.grow (offered (k + 1) later) := by
  have hget : s.frames[k]? = some s.frames[k] := Array.getElem?_eq_getElem hk
  obtain ⟨f, hf, later, ⟨before, hbefore⟩, hgrow⟩ := h.origin k _ hget
  rw [getElem?_step hget e, Option.some.injEq] at hg
  refine ⟨f, by rw [inserted_concat]; exact List.mem_append_left _ hf, later ++ [e],
    ⟨before, by rw [← List.append_assoc, hbefore]⟩, ?_⟩
  rw [← hg, hgrow, ← Frame.grow_append, offered, offered, offered, List.filterMap_append]

/-- An event that puts nothing in. -/
theorem Shown.keep (h : Shown events s) (e : Event) (he : e.arrivals = [])
    (hnum : Frame.Numbered (s.step e).frames.toList) (hsize : (s.step e).size = s.size)
    (hparked : (s.step e).parked = s.parked) : Shown (events ++ [e]) (s.step e) := by
  have hcame : inserted (events ++ [e]) = inserted events := by
    rw [inserted_concat, he, List.append_nil]
  refine ⟨hnum, fun k g hg => h.origin_step e ?_ hg, ?_, ?_, ?_, ?_, ?_⟩
  · exact hsize ▸ (Array.getElem?_eq_some_iff.mp hg).1
  all_goals simp only [hparked, hsize, hcame]
  · exact h.lined
  · exact h.waits
  · exact h.parked
  · exact h.covered
  · exact h.unique

/-- **Putting in frames.** -/
theorem Shown.insert (h : Shown events s) (batch : List Frame) :
    Shown (events ++ [.insert batch]) (s.insert batch) := by
  obtain ⟨hfrom, hthere⟩ := mem_parkAll batch s.parked
  have hall := h.lined.parkAll batch
  have hcame : inserted (events ++ [.insert batch]) = inserted events ++ batch := inserted_concat ..
  set gs := batch.foldl (fun fs f => park f fs) s.parked
  have hnum : Frame.Numbered (s.insert batch).frames.toList := numbered_insert h.numbered batch
  have hin : ∀ g ∈ gs, g ∈ inserted (events ++ [.insert batch]) := by
    intro g hg
    rw [hcame]
    exact List.mem_append.mpr ((hfrom g hg).imp_left (h.parked g))
  have hsub : (s.insert batch).parked.Sublist gs := sublist_release s.frames gs
  have hwhy : ∀ g ∈ (s.insert batch).parked, g.index ≤ s.size ∨ (s.insert batch).size + 1 < g.index :=
    index_of_mem_release hall s.frames
  obtain ⟨taken, hframes, hperm⟩ : ∃ taken, (s.insert batch).frames.toList = s.frames.toList ++ taken ∧
      taken ++ (s.insert batch).parked ~ gs := release_perm s.frames gs
  have hsize : s.size ≤ (s.insert batch).size := by
    have hpre : s.frames.toList <+: (s.insert batch).frames.toList := ⟨taken, hframes.symm⟩
    have hle := hpre.length_le
    rwa [Array.length_toList, Array.length_toList] at hle
  refine ⟨hnum, fun k g hg => ?_, hall.sublist hsub, fun g hg => ?_, fun g hg => hin g (hsub.subset hg),
    fun k hk => ?_, fun hdistinct g hg => ?_⟩
  · rcases Nat.lt_or_ge k s.size with hk | hk
    · exact h.origin_step (.insert batch) hk hg
    · rw [← Array.getElem?_toList, hframes,
        List.getElem?_append_right (by rwa [Array.length_toList])] at hg
      have htaken : g ∈ gs := hperm.subset (List.mem_append_left _ (List.mem_of_getElem? hg))
      exact ⟨g, hin g htaken, [], List.nil_suffix, rfl⟩
  · rcases hwhy g hg with hle | hlt
    · omega
    · exact hlt.ne'
  · have hthen : 0 < k ∧ k ≤ s.size ∨ k ∈ gs.map Frame.index := by
      rw [hcame, List.map_append, List.mem_append] at hk
      rcases hk with hk | hk
      · exact (h.covered k hk).imp_right fun hk => hthere k (.inl hk)
      · exact .inr (hthere k (.inr hk))
    rcases hthen with hk | hk
    · exact .inl ⟨hk.1, hk.2.trans hsize⟩
    · obtain ⟨g, hg, rfl⟩ := List.mem_map.mp hk
      rcases List.mem_append.mp (hperm.mem_iff.mpr hg) with hg | hg
      · refine .inl (hnum.index_mem ?_)
        rw [hframes]
        exact List.mem_append_right _ hg
      · exact .inr (List.mem_map_of_mem hg)
  · obtain ⟨hnodup, hpos⟩ := hcame ▸ hdistinct
    rw [List.map_append, List.nodup_append] at hnodup
    obtain ⟨hpos, hbatch⟩ := List.forall_mem_append.mp hpos
    -- A number that was given out cannot come again.
    have hnew : s.size < g.index := by
      rcases hfrom g (hsub.subset hg) with hg | hg
      · exact h.unique ⟨hnodup.1, hpos⟩ g hg
      · by_contra hle
        exact hnodup.2.2 _ (h.index_mem (hbatch g hg) (Nat.le_of_not_lt hle)) _
          (List.mem_map_of_mem hg) rfl
    rcases hwhy g hg with hle | hlt <;> omega

/-- **Every event keeps what a store shows.** -/
theorem Shown.step (h : Shown events s) (e : Event) : Shown (events ++ [e]) (s.step e) := by
  cases e with
  | insert batch => exact h.insert batch
  | attach index parent l =>
    rcases ht : s.attach? index parent l with _ | ⟨t, n⟩
    · have hstep : s.step (.attach index parent l) = s := by rw [Store.step, ht]; rfl
      exact h.keep _ rfl (by rw [hstep]; exact h.numbered) (by rw [hstep]) (by rw [hstep])
    · have hstep : s.step (.attach index parent l) = t := by rw [Store.step, ht]; rfl
      obtain ⟨hparked, -, hsize⟩ := of_attach?_eq_some ht
      exact h.keep _ rfl (hstep ▸ numbered_attach? h.numbered ht) (by rw [hstep, hsize])
        (by rw [hstep, hparked])
  | close => exact h.keep _ rfl h.numbered rfl rfl

theorem shown_after (events : List Event) : Shown events (after events) := by
  induction events using List.reverseRecOn with
  | nil => exact shown_empty
  | append_singleton events e ih =>
    rw [after, List.foldl_append]
    exact ih.step e

/-! ### What a store shows -/

/-- What is shown ends where the first number is missing. -/
theorem Shown.isGreatest (h : Shown events s) :
    IsGreatest {n | ∀ k, 0 < k → k ≤ n → k ∈ (inserted events).map Frame.index} s.size := by
  refine ⟨fun k hpos hk => h.index_mem hpos hk, fun n hn => ?_⟩
  by_contra hlt
  rcases h.covered _ (hn (s.size + 1) (Nat.succ_pos _) (Nat.lt_of_not_le hlt)) with hk | hk
  · omega
  · obtain ⟨g, hg, hindex⟩ := List.mem_map.mp hk
    exact h.waits g hg hindex

/-- If no number was given twice, the frames behind those that are shown are parked. -/
theorem Shown.mem_parked_iff (h : Shown events s) (hdistinct : Distinct (inserted events)) :
    g ∈ s.parked ↔ g ∈ inserted events ∧ s.size < g.index := by
  refine ⟨fun hg => ⟨h.parked g hg, h.unique hdistinct g hg⟩, fun ⟨hg, hlt⟩ => ?_⟩
  rcases h.covered _ (List.mem_map_of_mem hg) with hk | hk
  · omega
  · obtain ⟨k, hk, hindex⟩ := List.mem_map.mp hk
    rwa [← List.inj_on_of_nodup_map hdistinct.1 (h.parked k hk) hg hindex]

theorem Lined.nodup_index (h : Lined gs) : (gs.map Frame.index).Nodup :=
  List.pairwise_map.mpr (List.Pairwise.imp Nat.ne_of_lt h)

/-- Frames in line are determined by what is among them. -/
theorem Lined.eq_of_mem_iff {hs : List Frame} (h : Lined gs) (h' : Lined hs)
    (hmem : ∀ g, g ∈ gs ↔ g ∈ hs) : gs = hs :=
  ((List.perm_ext_iff_of_nodup h.nodup_index.of_map h'.nodup_index.of_map).mpr hmem).eq_of_pairwise
    (fun _ _ _ _ hlt hgt => absurd hlt (Nat.lt_asymm hgt)) h h'

/-- Then every frame is either shown or parked. -/
theorem Shown.size_add_length_parked (h : Shown events s) (hdistinct : Distinct (inserted events)) :
    s.size + s.parked.length = (inserted events).length := by
  have hperm : (List.range' 1 s.size ++ s.parked.map Frame.index).Perm
      ((inserted events).map Frame.index) := by
    refine (List.perm_ext_iff_of_nodup (List.nodup_append.mpr ⟨List.nodup_range',
      h.lined.nodup_index, ?_⟩) hdistinct.1).mpr fun k => ⟨fun hk => ?_, fun hk => ?_⟩
    · rintro i hi j hj rfl
      obtain ⟨g, hg, rfl⟩ := List.mem_map.mp hj
      have := h.unique hdistinct g hg
      rw [List.mem_range'_1] at hi
      omega
    · rcases List.mem_append.mp hk with hk | hk
      · rw [List.mem_range'_1] at hk
        exact h.index_mem hk.1 (by omega)
      · obtain ⟨g, hg, rfl⟩ := List.mem_map.mp hk
        exact List.mem_map_of_mem (h.parked g hg)
    · rw [List.mem_append, List.mem_range'_1]
      exact (h.covered k hk).imp_left fun hk => ⟨hk.1, by omega⟩
  simpa using hperm.length_eq

/-- Without a number given twice, a store is determined by what was put in, but for layers that were
added since. -/
theorem Shown.unique_of_perm {others : List Event} (h : Shown events s) (h' : Shown others t)
    (hdistinct : Distinct (inserted events)) (hperm : (inserted others).Perm (inserted events)) :
    t.size = s.size ∧ t.parked = s.parked ∧
      ∀ k f g, s.frames[k]? = some f → t.frames[k]? = some g →
        ∃ first ∈ inserted events, ∃ later later', later <:+ events ∧ later' <:+ others ∧
          f = first.grow (offered (k + 1) later) ∧ g = first.grow (offered (k + 1) later') := by
  have hdistinct' : Distinct (inserted others) :=
    ⟨(hperm.map _).nodup_iff.mpr hdistinct.1, fun f hf => hdistinct.2 f (hperm.mem_iff.mp hf)⟩
  have hsize : t.size = s.size := by
    refine h'.isGreatest.unique ?_
    have hsame : ∀ k, k ∈ (inserted others).map Frame.index ↔ k ∈ (inserted events).map Frame.index :=
      fun k => (hperm.map _).mem_iff
    simp only [hsame]
    exact h.isGreatest
  refine ⟨hsize, h'.lined.eq_of_mem_iff h.lined fun g => ?_, fun k f g hf hg => ?_⟩
  · rw [h.mem_parked_iff hdistinct, h'.mem_parked_iff hdistinct', hsize, hperm.mem_iff]
  · obtain ⟨first, hfirst, later, hlater, rfl⟩ := h.origin k f hf
    obtain ⟨first', hfirst', later', hlater', rfl⟩ := h'.origin k g hg
    have hindex := h.numbered k _ (by rwa [Array.getElem?_toList])
    have hindex' := h'.numbered k _ (by rwa [Array.getElem?_toList])
    rw [Frame.index_grow] at hindex hindex'
    obtain rfl : first' = first := List.inj_on_of_nodup_map hdistinct.1 (hperm.mem_iff.mp hfirst')
      hfirst (hindex'.trans hindex.symm)
    exact ⟨first', hfirst, later, later', hlater, hlater', rfl, rfl⟩

/-- **What a store shows**, at any point of any history: the frames from number one on up to the first
that is missing, each in the place of its number, as it was put in and with the layers that were added
since; and it shows them in any part that is asked for. What is shown stays and only gets layers; a
layer is refused without a consequence exactly if there is no such frame or no such parent. If no number
was given twice and none is zero, the frames that are not shown are parked, and both are the same for
the same frames in any other batches and in any other order. -/
theorem shows_prefix (events : List Event) :
    let s := after events
    IsGreatest {n | ∀ k, 0 < k → k ≤ n → k ∈ (inserted events).map Frame.index} s.size ∧
    (∀ k f, s.frames[k]? = some f → f.index = k + 1 ∧ ∃ first ∈ inserted events,
      ∃ later, later <:+ events ∧ f = first.grow (offered (k + 1) later)) ∧
    (∀ offset count, s.get offset count = (s.frames.toList.drop offset).take count) ∧
    (∀ offset most, (∀ out, s.wait offset most = .done out ↔
        offset < s.size ∧ out = (s.frames.toList.drop offset).take (max most 1)) ∧
      (s.wait offset most = .closed ↔ s.size ≤ offset ∧ s.closed = true)) ∧
    (∀ (more : List Event) (k : ℕ) (f : Frame), s.frames[k]? = some f →
      (after (events ++ more)).frames[k]? = some (f.grow (offered (k + 1) more))) ∧
    (∀ index parent l, (s.attach? index parent l = none ↔
        ∀ f ∈ s.frames.toList, f.index = index → f.size ≤ parent) ∧
      (s.attach? index parent l = none → after (events ++ [.attach index parent l]) = s)) ∧
    (Distinct (inserted events) → s.size + s.parked.length = (inserted events).length ∧
      ∀ others, (inserted others).Perm (inserted events) →
        (after others).size = s.size ∧ (after others).parked = s.parked ∧
        (∀ k f g, s.frames[k]? = some f → (after others).frames[k]? = some g →
          ∃ first ∈ inserted events, ∃ later later', later <:+ events ∧ later' <:+ others ∧
            f = first.grow (offered (k + 1) later) ∧ g = first.grow (offered (k + 1) later')) ∧
        ((∀ index, offered index events = [] ∧ offered index others = []) →
          (after others).frames = s.frames)) := by
  intro s
  have h : Shown events s := shown_after events
  refine ⟨h.isGreatest, fun k f hf => ⟨h.numbered k f (by rwa [Array.getElem?_toList]),
    h.origin k f hf⟩, fun offset count => ?_, fun offset most =>
    ⟨fun out => wait_eq_done_iff, wait_eq_closed_iff⟩,
    fun more k f hf => ?_, fun index parent l => ⟨?_, fun hnone => ?_⟩, fun hdistinct =>
    ⟨h.size_add_length_parked hdistinct, fun others hperm => ?_⟩⟩
  · rw [get, Array.toList_extract, List.extract_eq_take_drop, Nat.add_sub_cancel_left]
  · rw [after, List.foldl_append]
    exact getElem?_foldl_step hf more
  · rw [attach?_eq_none_iff h.numbered]
    refine forall₂_congr fun f _ => imp_congr_right fun _ => ?_
    rw [← Option.not_isSome_iff_eq_none, Frame.attach?_isSome_iff, Nat.not_lt]
  · have hstep : s.step (.attach index parent l) = s := by rw [step, hnone]; rfl
    rw [after, List.foldl_append]
    exact hstep
  · obtain ⟨hsize, hparked, hframes⟩ := h.unique_of_perm (shown_after others) hdistinct hperm
    refine ⟨hsize, hparked, hframes, fun hquiet => Array.ext_getElem? fun k => ?_⟩
    rcases Nat.lt_or_ge k s.size with hk | hk
    · obtain ⟨f, hf⟩ : ∃ f, s.frames[k]? = some f := ⟨_, Array.getElem?_eq_getElem hk⟩
      obtain ⟨g, hg⟩ : ∃ g, (after others).frames[k]? = some g :=
        ⟨_, Array.getElem?_eq_getElem (hsize ▸ hk : k < (after others).size)⟩
      obtain ⟨first, -, later, later', hlater, hlater', rfl, rfl⟩ := hframes k f g hf hg
      rw [hf, hg, offered_of_isSuffix hlater (hquiet _).1, offered_of_isSuffix hlater' (hquiet _).2]
    · rw [Array.getElem?_eq_none hk, Array.getElem?_eq_none (hsize ▸ hk : (after others).size ≤ k)]

end Store

end PacketTree
