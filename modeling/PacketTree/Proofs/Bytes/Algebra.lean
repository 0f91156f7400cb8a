import Mathlib.Data.List.Induction
import Mathlib.Logic.Relation
import PacketTree.Bytes.View

/-!
# Views of views

A view keeps its range in places of the buffer, while every operation on it counts from its own first
byte. This module shows that the two ways of counting agree after any number of operations, and that to
lie within a view is to be cut out of it.

## What is proved

* `slice?_eq_some_iff`: where a slice lies; slices of slices, of whole buffers and up to the end follow.
* `within_iff_slice?`, `within_iff_reflTransGen`: one view lies within another exactly if it is a slice of
  it, and exactly if it is what some cuts leave of it.
* `Chain.map_toList_after`: any number of operations do to views what they do to plain lists of bytes.
* `Chain.algebra_after`: the laws of all views that can be made out of some buffers.

## The model

Views are made in a `Chain`, at first by looking at whole buffers, then each by a `Step` from those already
there. A slice that is refused makes no view. The same steps can be taken on lists of bytes, which know
neither buffers nor places (`Chain.contents`).
-/

namespace PacketTree.ByteView

variable {u v w : ByteView} {a b : ℕ}

/-! ### Places -/

theorem start_add_size (v : ByteView) : v.start + v.size = v.stop :=
  Nat.add_sub_of_le v.start_le_stop

/-- A slice lies on the buffer of its view, its range moved by the start of the view. -/
theorem slice?_eq_some_iff :
    v.slice? a b = some w ↔
      w.SameOrigin v ∧ w.start = v.start + a ∧ w.stop = v.start + b ∧ b ≤ v.size := by
  constructor
  · intro h
    rw [slice?] at h
    split at h
    · next hab =>
      cases h
      exact ⟨rfl, rfl, rfl, hab.2⟩
    · cases h
  · rintro ⟨horigin, hstart, hstop, hb⟩
    have hab : a ≤ b := by
      have hle := w.start_le_stop
      omega
    rw [slice?, dif_pos ⟨hab, hb⟩]
    exact congrArg some (ByteView.ext horigin.symm hstart.symm hstop.symm)

theorem toList_ofBuffer (buffer : Buffer) : (ofBuffer buffer).toList = buffer.bytes.toList := by
  rw [toList, ofBuffer, Array.extract_size]

/-- In the whole of its buffer, a view counts as in the buffer. -/
theorem slice?_whole (v : ByteView) : (ofBuffer v.origin).slice? v.start v.stop = some v :=
  slice?_eq_some_iff.mpr
    ⟨rfl, (Nat.zero_add v.start).symm, (Nat.zero_add v.stop).symm, v.stop_le_size⟩

/-- What is left after the first bytes is a slice up to the end. -/
theorem slice?_size (v : ByteView) (a : ℕ) : v.slice? (min a v.size) v.size = some (v.drop a) :=
  slice?_eq_some_iff.mpr ⟨rfl, rfl, v.start_add_size.symm, Nat.le_refl _⟩

theorem size_of_slice? (h : v.slice? a b = some w) : w.size = b - a := by
  obtain ⟨-, hstart, hstop, -⟩ := slice?_eq_some_iff.mp h
  rw [size, hstart, hstop, Nat.add_sub_add_left]

/-- A slice of a slice is one slice, at the sum of the offsets, unless it reaches beyond the first. -/
theorem slice?_slice? (h : v.slice? a b = some w) (c d : ℕ) :
    w.slice? c d = if a + d ≤ b then v.slice? (a + c) (a + d) else none := by
  have hsize := size_of_slice? h
  have hab := range_of_slice?_eq_some h
  obtain ⟨horigin, hstart, -, hb⟩ := slice?_eq_some_iff.mp h
  split
  · next hd =>
    refine Option.ext fun u => ?_
    rw [slice?_eq_some_iff, slice?_eq_some_iff, hstart, Nat.add_assoc, Nat.add_assoc]
    refine and_congr ⟨fun hu => hu.trans horigin, fun hu => hu.trans horigin.symm⟩ ?_
    exact and_congr_right fun _ => and_congr_right fun _ => iff_of_true (by omega) (by omega)
  · next hd =>
    rw [← Option.not_isSome_iff_eq_none, slice?_isSome_iff]
    omega

/-! ### Views within views -/

theorem within_iff_slice? :
    v.Within w ↔ ∃ a b, a ≤ b ∧ b ≤ w.size ∧ w.slice? a b = some v := by
  constructor
  · rintro ⟨horigin, hstart, hstop⟩
    have hv := v.start_le_stop
    have hw := w.start_add_size
    have hb : v.stop - w.start ≤ w.size := by omega
    exact ⟨v.start - w.start, v.stop - w.start, by omega, hb,
      slice?_eq_some_iff.mpr ⟨horigin, by omega, by omega, hb⟩⟩
  · rintro ⟨a, b, -, -, h⟩
    obtain ⟨horigin, hstart, hstop, hb⟩ := slice?_eq_some_iff.mp h
    have hw := w.start_add_size
    exact ⟨horigin, by omega, by omega⟩

/-- Two views within each other are one. -/
theorem Within.antisymm (h : v.Within w) (h' : w.Within v) : v = w :=
  ByteView.ext h.1 (Nat.le_antisymm h'.2.1 h.2.1) (Nat.le_antisymm h.2.2 h'.2.2)

/-- On one buffer, views that are alike are one. -/
theorem SameOrigin.alike_iff (h : v.SameOrigin w) : v.Alike w ↔ v = w :=
  ⟨fun halike => ByteView.ext h halike.1 halike.2.1, fun heq => heq ▸ ⟨rfl, rfl, rfl⟩⟩

/-- On two buffers with the same bytes, views may be alike, and neither lies within the other. -/
example :
    let v := ofBytes (.packet 1) [1, 2, 3]
    let w := ofBytes (.packet 2) [1, 2, 3]
    v.Alike w ∧ ¬ v.Within w ∧ ¬ w.Within v := by decide

/-- The second view is cut out of the first by one operation. -/
inductive Cut : ByteView → ByteView → Prop where
  /-- A range of it. -/
  | slice {v w : ByteView} {a b : ℕ} (h : v.slice? a b = some w) : Cut v w
  /-- All but its first bytes. -/
  | drop (v : ByteView) (a : ℕ) : Cut v (v.drop a)

theorem Cut.within (h : Cut v w) : w.Within v := by
  cases h with
  | slice h =>
    have hab := range_of_slice?_eq_some h
    exact within_iff_slice?.mpr ⟨_, _, hab.1, hab.2, h⟩
  | drop a => exact within_drop v a

/-- However many cuts are made, what they leave could have been cut out at once. -/
theorem within_iff_reflTransGen : v.Within w ↔ Relation.ReflTransGen Cut w v := by
  constructor
  · intro h
    obtain ⟨a, b, -, -, hslice⟩ := within_iff_slice?.mp h
    exact .single (.slice hslice)
  · intro h
    induction h with
    | refl => exact Within.refl w
    | tail _ hcut ih => exact hcut.within.trans ih

/-! ### Views made one after the other -/

/-- Views put together are on one of their buffers, if they are not on a new one. -/
theorem origin_join (id : BufferId) (vs : List ByteView) :
    (∃ u ∈ vs, (join id vs).SameOrigin u) ∨ (join id vs).SameOrigin empty ∨
      (join id vs).origin.id = id := by
  rcases vs with _ | ⟨u, _ | ⟨w, rest⟩⟩
  · exact .inr (.inl rfl)
  · exact .inl ⟨u, List.mem_singleton_self u, rfl⟩
  · exact .inr (.inr rfl)

namespace Chain

/-- How one more view is made. Views are named by their places among those that are there. -/
inductive Step where
  /-- A range of a view. -/
  | slice (i a b : ℕ)
  /-- All but the first bytes of a view. -/
  | drop (i a : ℕ)
  /-- Some views one behind the other; those that are not there are left out. -/
  | join (id : BufferId) (places : List ℕ)

namespace Step

variable {α β : Type}

/-- The view made out of those that are there. -/
def make? (vs : List ByteView) : Step → Option ByteView
  | slice i a b => vs[i]?.bind (·.slice? a b)
  | drop i a => vs[i]?.map (·.drop a)
  | join id places => some (ByteView.join id (places.filterMap (vs[·]?)))

/-- The same with lists of bytes. -/
def read? (cs : List (List UInt8)) : Step → Option (List UInt8)
  | slice i a b =>
    cs[i]?.bind fun c => if a ≤ b ∧ b ≤ c.length then some ((c.take b).drop a) else none
  | drop i a => cs[i]?.map (·.drop a)
  | join _ places => some (places.filterMap (cs[·]?)).flatten

/-- All that is there after some steps. -/
def run (make? : List α → Step → Option α) (start : List α) (steps : List Step) : List α :=
  steps.foldl (fun made step => made ++ (make? made step).toList) start

theorem run_concat (make? : List α → Step → Option α) (start : List α) (steps : List Step)
    (step : Step) : run make? start (steps ++ [step]) =
      run make? start steps ++ (make? (run make? start steps) step).toList := by
  rw [run, List.foldl_append]
  rfl

/-- Runs go together if their steps do. -/
theorem map_run {make? : List α → Step → Option α} {read? : List β → Step → Option β} {f : α → β}
    (hstep : ∀ made step, (make? made step).map f = read? (made.map f) step) (start : List α)
    (steps : List Step) : (run make? start steps).map f = run read? (start.map f) steps := by
  induction steps using List.reverseRecOn with
  | nil => rfl
  | append_singleton steps step ih =>
    rw [run_concat, run_concat, List.map_append, ih, ← ih, ← hstep, Option.toList_map]

/-- A step does to views what it does to their bytes. -/
theorem map_toList_make? (vs : List ByteView) (step : Step) :
    (step.make? vs).map toList = step.read? (vs.map toList) := by
  cases step with
  | slice i a b =>
    rw [make?, read?, List.getElem?_map]
    cases vs[i]? with
    | none => rfl
    | some v =>
      simp only [Option.bind_some, Option.map_some, length_toList]
      split
      · next hab =>
        obtain ⟨w, hw, hbytes⟩ := exists_slice? hab.1 hab.2
        rw [hw, Option.map_some, hbytes]
      · next hab =>
        rw [Option.not_isSome_iff_eq_none.mp (mt slice?_isSome_iff.mp hab), Option.map_none]
  | drop i a =>
    rw [make?, read?, List.getElem?_map, Option.map_map, Option.map_map]
    exact congrArg (Option.map · vs[i]?) (funext fun v => toList_drop v a)
  | join id places =>
    rw [make?, read?, Option.map_some, toList_join, List.flatMap_def, List.map_filterMap]
    simp only [List.getElem?_map]

/-- A step looks at a buffer that was looked at before, unless it fills a new one. -/
theorem origin_of_make? {vs : List ByteView} {step : Step} (h : step.make? vs = some v) :
    (∃ u ∈ vs, v.SameOrigin u) ∨ v.SameOrigin empty ∨ ∃ places, step = join v.origin.id places := by
  cases step with
  | slice i a b =>
    obtain ⟨u, hu, hv⟩ := Option.bind_eq_some_iff.mp h
    exact .inl ⟨u, List.mem_of_getElem? hu, (slice?_eq_some_iff.mp hv).1⟩
  | drop i a =>
    obtain ⟨u, hu, rfl⟩ := Option.map_eq_some_iff.mp h
    exact .inl ⟨u, List.mem_of_getElem? hu, rfl⟩
  | join id places =>
    obtain rfl : ByteView.join id (places.filterMap (vs[·]?)) = v := Option.some.inj h
    rcases origin_join id (places.filterMap (vs[·]?)) with ⟨u, hmem, horigin⟩ | he | hid
    · obtain ⟨i, -, hu⟩ := List.mem_filterMap.mp hmem
      exact .inl ⟨u, List.mem_of_getElem? hu, horigin⟩
    · exact .inr (.inl he)
    · exact .inr (.inr ⟨places, by rw [hid]⟩)

end Step

/-- The views that are there after some steps, at first the whole of each buffer. -/
def after (buffers : List Buffer) (steps : List Step) : List ByteView :=
  Step.run (fun vs step => step.make? vs) (buffers.map ofBuffer) steps

/-- The lists of bytes that are there after the same steps. -/
def contents (buffers : List Buffer) (steps : List Step) : List (List UInt8) :=
  Step.run (fun cs step => step.read? cs) (buffers.map (·.bytes.toList)) steps

variable {buffers : List Buffer} {steps : List Step}

/-- The views made have the bytes that the same steps make of lists of bytes. -/
theorem map_toList_after (buffers : List Buffer) (steps : List Step) :
    (after buffers steps).map toList = contents buffers steps := by
  rw [after, Step.map_run Step.map_toList_make?, List.map_map, contents]
  exact congrArg (Step.run _ · steps) (List.map_congr_left fun buffer _ => toList_ofBuffer buffer)

/-- Only to put views together takes a new buffer. -/
theorem origin_of_mem_after (h : v ∈ after buffers steps) :
    v.origin ∈ buffers ∨ v.SameOrigin empty ∨ ∃ places, Step.join v.origin.id places ∈ steps := by
  induction steps using List.reverseRecOn generalizing v with
  | nil =>
    obtain ⟨b, hb, rfl⟩ := List.mem_map.mp h
    exact .inl hb
  | append_singleton steps step ih =>
    have hold : ∀ u ∈ after buffers steps, v.SameOrigin u → v.origin ∈ buffers ∨
        v.SameOrigin empty ∨ ∃ places, Step.join v.origin.id places ∈ steps ++ [step] := by
      intro u hu horigin
      rcases ih hu with hb | he | ⟨places, hmem⟩
      · exact .inl (horigin ▸ hb)
      · exact .inr (.inl (horigin.trans he))
      · exact .inr (.inr ⟨places, horigin ▸ List.mem_append_left _ hmem⟩)
    rw [after, Step.run_concat, List.mem_append, Option.mem_toList] at h
    rcases h with h | h
    · exact hold v h rfl
    · rcases Step.origin_of_make? h with ⟨u, hu, horigin⟩ | he | ⟨places, rfl⟩
      · exact hold u hu horigin
      · exact .inr (.inl he)
      · exact .inr (.inr ⟨places, List.mem_append_right _ (List.mem_singleton_self _)⟩)

/-- **Views made out of some buffers** by any number of steps have the bytes that the same steps make of
lists of bytes. Each has its range in order and inside its buffer, which is one of those given unless it
was filled by putting views together, and it is the slice of the whole buffer with just this range.
A slice of it is refused exactly if it is no range of its bytes, else it has the bytes of this range; a
slice of the slice is one slice, with the offsets added; to leave out the first bytes, or all if there are
fewer, is to slice up to the end. Views put together have their bytes one behind the other. A view lies
within another exactly if it is a slice of it, and exactly if it is what any number of cuts leave of it. So
this is an order, and on one buffer views with the same range are one. -/
theorem algebra_after (buffers : List Buffer) (steps : List Step) :
    let made := after buffers steps
    made.map toList = contents buffers steps ∧
    (∀ v ∈ made,
      (v.start ≤ v.stop ∧ v.stop ≤ v.origin.bytes.size ∧
        (ofBuffer v.origin).slice? v.start v.stop = some v ∧
        (v.origin ∈ buffers ∨ v.SameOrigin empty ∨
          ∃ places, Step.join v.origin.id places ∈ steps)) ∧
      (∀ a b,
        ((v.slice? a b).isSome ↔ a ≤ b ∧ b ≤ v.size) ∧
        ∀ w, v.slice? a b = some w →
          w.toList = (v.toList.take b).drop a ∧
          ∀ c d, w.slice? c d = if a + d ≤ b then v.slice? (a + c) (a + d) else none) ∧
      ∀ a, v.slice? (min a v.size) v.size = some (v.drop a)) ∧
    (∀ id vs, (∀ v ∈ vs, v ∈ made) → (join id vs).toList = vs.flatMap toList) ∧
    ∀ v ∈ made, ∀ w ∈ made,
      (v.Within w ↔ ∃ a b, a ≤ b ∧ b ≤ w.size ∧ w.slice? a b = some v) ∧
      (v.Within w ↔ Relation.ReflTransGen Cut w v) ∧
      v.Within v ∧
      (∀ u ∈ made, u.Within v → v.Within w → u.Within w) ∧
      (v.Within w → w.Within v → v = w) ∧
      (v.SameOrigin w → (v.Alike w ↔ v = w)) := by
  intro made
  refine ⟨map_toList_after buffers steps,
    fun v hv => ⟨?_, fun a b => ⟨slice?_isSome_iff, ?_⟩, slice?_size v⟩,
    fun id vs _ => toList_join id vs, fun v _ w _ => ?_⟩
  · exact ⟨v.start_le_stop, v.stop_le_size, slice?_whole v, origin_of_mem_after hv⟩
  · intro w hw
    exact ⟨toList_of_slice?_eq_some hw, slice?_slice? hw⟩
  · exact ⟨within_iff_slice?, within_iff_reflTransGen, Within.refl v, fun u _ => Within.trans,
      Within.antisymm, SameOrigin.alike_iff⟩

/-- A slice of a slice, a slice that is refused, and both views put together. -/
example :
    (after [⟨.packet 1, #[0, 1, 2, 3, 4, 5]⟩]
      [.slice 0 2 5, .slice 1 1 2, .slice 2 0 2, .join .nothing [1, 2]]).map toList =
    [[0, 1, 2, 3, 4, 5], [2, 3, 4], [3], [2, 3, 4, 3]] := by decide

end Chain

end PacketTree.ByteView
