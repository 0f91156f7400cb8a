import Mathlib.Data.List.Chain
import Mathlib.Logic.Function.Iterate
import PacketTree.Proofs.Frame.Tree
import PacketTree.Report.Basic

/-!
# Walks through a frame

A frame keeps its tree twice, as parents and as lists of children, and walks through it in three
ways: up from a layer, down from the root by recursion, and down with a list of the layers still to
be seen. This module proves that a frame is one tree whatever is added to it, and that each of the
walks comes to an end and sees what it should.

## What is proved

* `oneTree_adopting`: however copies of layers are added, under parents that are there or not, the
  numbers make one tree, a new layer changes nothing but the list of its parent, ways up end at the
  root, the leaves are found each once and in depth-first order, and a report shows every layer once.
* `mem_preorder` and `nodup_preorder`: the way down from a layer meets exactly the layers that have it
  above them, and none of them twice.

## The model

`adopt` adds a copy of a layer that may still carry the links it had in another frame; it is `attach?`
with the number of the new layer. `preorder` is the order of the way down. `visit` is one round of the
search for leaves, which keeps the layers still to be seen, and `LayerReport.all` lists a report with
all reports in it.
-/

namespace PacketTree

/-! ### Reports in reports -/

mutual

/-- A report of a layer and all reports in it, each before those in it. -/
def LayerReport.all : LayerReport → List LayerReport
  | ⟨ns, confidence, summary, error, streamId, payloadLength, properties, children⟩ =>
    ⟨ns, confidence, summary, error, streamId, payloadLength, properties, children⟩ ::
      LayerReport.allOf children

/-- Reports of layers and all reports in them. -/
def LayerReport.allOf : List LayerReport → List LayerReport
  | [] => []
  | r :: rs => r.all ++ LayerReport.allOf rs

end

namespace LayerReport

theorem all_eq (r : LayerReport) : r.all = r :: allOf r.children := by
  cases r
  rw [all]

theorem allOf_eq (rs : List LayerReport) : allOf rs = rs.flatMap all := by
  induction rs with
  | nil => rw [allOf, List.flatMap_nil]
  | cons r rs ih => rw [allOf, ih, List.flatMap_cons]

end LayerReport

namespace Frame

variable {f g : Frame} {e : Entry} {parent id a b c p x : ℕ}

/-! ### Adding copies of layers -/

/-- A frame with a copy of a layer as its root, without the links that the copy came with. -/
def ofEntry (index : ℕ) (timestamp : Instant) (length sourceId : ℕ) (root : Entry) : Frame where
  index := index
  timestamp := timestamp
  length := length
  sourceId := sourceId
  entries := #[{ root with parent := none, children := [] }]

/-- Adds a copy of a layer under a parent, without the links that the copy came with. The number of the
new layer is the number of layers before; without such a parent there is none. -/
def adopt (f : Frame) (parent : ℕ) (e : Entry) : Option ℕ × Frame :=
  if parent < f.size then
    (some f.size,
      { f with
        entries :=
          (f.entries.modify parent fun p =>
            { p with children := f.placeChild p.children f.size e.layer.confidence }).push
            { e with parent := some parent, children := [] }
        size_pos := by simp })
  else (none, f)

/-- What comes of a frame and copies that are added to it one after the other. -/
def adopting (f : Frame) (calls : List (ℕ × Entry)) : Frame :=
  calls.foldl (fun f call => (f.adopt call.1 call.2).2) f

theorem ofEntry_eq (index : ℕ) (timestamp : Instant) (length sourceId : ℕ) (root : Entry) :
    ofEntry index timestamp length sourceId root =
      ofRoot index timestamp length sourceId root.layer := rfl

theorem adopt_of_le (h : f.size ≤ parent) : f.adopt parent e = (none, f) :=
  if_neg (Nat.not_lt.mpr h)

/-- Adding a copy is adding its layer. -/
theorem adopt_eq (f : Frame) (parent : ℕ) (e : Entry) :
    f.adopt parent e = (f.attach? parent e.layer).elim (none, f) fun g => (some f.size, g) := by
  unfold adopt attach?
  split <;> rfl

/-- What is built by adding layers is built by adding copies. -/
theorem Built.adopting (hf : f.Built) (calls : List (ℕ × Entry)) : (f.adopting calls).Built := by
  induction calls generalizing f with
  | nil => exact hf
  | cons call calls ih =>
    refine ih (?_ : (f.adopt call.1 call.2).2.Built)
    rw [adopt_eq]
    cases h : f.attach? call.1 call.2.layer with
    | none => exact hf
    | some g => exact hf.attach h

/-- What comes of a frame by one copy of a layer that is added under a parent that is there. -/
structure Adopted (f : Frame) (parent : ℕ) (e : Entry) (g : Frame) : Prop where
  /-- There is one layer more, -/
  size : g.size = f.size + 1
  /-- the last one, with its parent and without children, -/
  new : g.entries[f.size]? = some { layer := e.layer, parent := some parent, children := [] }
  /-- which is put somewhere among the children of its parent; -/
  siblings : ∃ p front back, f.entries[parent]? = some p ∧ p.children = front ++ back ∧
    g.entries[parent]? = some { p with children := front ++ f.size :: back }
  /-- all other layers stay as they are, -/
  others : ∀ id < f.size, id ≠ parent → g.entries[id]? = f.entries[id]?
  /-- and so does all that is known of the packet. -/
  packet : g.index = f.index ∧ g.timestamp = f.timestamp ∧ g.length = f.length ∧
    g.sourceId = f.sourceId

theorem adopt_of_lt (h : parent < f.size) (e : Entry) :
    ∃ g, f.adopt parent e = (some f.size, g) ∧ Adopted f parent e g := by
  have hentry : f.entries[parent]? = some f.entries[parent] := Array.getElem?_eq_getElem h
  have hold : ∀ id < f.size, (f.adopt parent e).2.entries[id]? = (f.entries.modify parent fun p =>
      { p with children := f.placeChild p.children f.size e.layer.confidence })[id]? := by
    intro id hlt
    rw [adopt, if_pos h, Array.getElem?_push, Array.size_modify]
    exact if_neg (Nat.ne_of_lt hlt)
  refine ⟨_, if_pos h, ?_, ?_, ?_, ?_, rfl, rfl, rfl, rfl⟩
  · simp only [size, Array.size_push, Array.size_modify]
  · simp only [size, Array.getElem?_push, Array.size_modify, if_true]
  · refine ⟨_, _, _, hentry,
      (f.entries[parent].children.takeWhile_append_dropWhile
        (p := fun s => !f.lessSure e.layer.confidence s)).symm, ?_⟩
    rw [adopt, if_pos h] at hold
    rw [hold parent h, Array.getElem?_modify, if_pos rfl, hentry]
    rfl
  · intro id hlt hne
    rw [adopt, if_pos h] at hold
    rw [hold id hlt, Array.getElem?_modify, if_neg hne.symm]

/-! ### The way up -/

/-- All children are younger, so a walk that keeps to these sees them all. -/
theorem WellFormed.below_eq (hf : f.WellFormed) (id : ℕ) : f.below id = f.children id := by
  refine List.filter_eq_self.mpr fun c hc => ?_
  have hp := (hf.mem_children id c).mp hc
  simpa using ⟨hf.lt_of_parent? hp, lt_of_parent?_eq_some hp⟩

theorem WellFormed.ancestors_eq (hf : f.WellFormed) (id : ℕ) :
    f.ancestors id = id :: match f.parent? id with
      | some p => f.ancestors p
      | none => [] := by
  rw [ancestors]
  rcases hp : f.parent? id with _ | p
  · rfl
  · dsimp only
    rw [if_pos (hf.lt_of_parent? hp)]

theorem mem_ancestors_self (f : Frame) (id : ℕ) : id ∈ f.ancestors id := by
  rw [ancestors]
  exact List.mem_cons_self

theorem WellFormed.mem_ancestors_iff (hf : f.WellFormed) (hp : f.parent? id = some p) :
    a ∈ f.ancestors id ↔ a = id ∨ a ∈ f.ancestors p := by
  rw [hf.ancestors_eq id, hp, List.mem_cons]

/-- A walk up takes each step from a layer to its parent. -/
theorem WellFormed.isChain_ancestors (hf : f.WellFormed) (id : ℕ) :
    (f.ancestors id).IsChain fun a b => f.parent? a = some b := by
  induction id using Nat.strongRecOn with
  | _ id ih =>
    rw [hf.ancestors_eq id]
    rcases hp : f.parent? id with _ | p
    · exact List.isChain_singleton id
    · refine List.isChain_cons.mpr ⟨fun q hq => ?_, ih p (hf.lt_of_parent? hp)⟩
      dsimp only at hq
      rw [hf.ancestors_eq p, List.head?_cons, Option.mem_some_iff] at hq
      rw [hp, hq]

/-- A walk up ends at the root. -/
theorem WellFormed.getLast?_ancestors (hf : f.WellFormed) (hid : id < f.size) :
    (f.ancestors id).getLast? = some rootId := by
  induction id using Nat.strongRecOn with
  | _ id ih =>
    rw [hf.ancestors_eq id]
    rcases Nat.eq_zero_or_pos id with rfl | hpos
    · rw [show f.parent? 0 = none from hf.root]
      rfl
    · obtain ⟨p, hlt, hp⟩ := hf.parent id hpos hid
      rw [hp, List.getLast?_cons, ih p hlt (hlt.trans hid)]
      rfl

/-- Of two layers above a third, one is above the other. -/
theorem WellFormed.ancestors_total (hf : f.WellFormed) (ha : a ∈ f.ancestors x)
    (hb : b ∈ f.ancestors x) : a ∈ f.ancestors b ∨ b ∈ f.ancestors a := by
  induction x using Nat.strongRecOn with
  | _ x ih =>
    rcases hp : f.parent? x with _ | p
    · rw [hf.ancestors_eq x, hp, List.mem_singleton] at ha hb
      rw [ha, hb]
      exact .inl (mem_ancestors_self f x)
    · rcases (hf.mem_ancestors_iff hp).mp ha with rfl | ha'
      · exact .inr hb
      · rcases (hf.mem_ancestors_iff hp).mp hb with rfl | hb'
        · exact .inl ha
        · exact ih p (hf.lt_of_parent? hp) ha' hb'

/-- No two children of one layer are above a third. -/
theorem WellFormed.eq_of_parent?_eq (hf : f.WellFormed) (ha : a ∈ f.ancestors x)
    (hb : b ∈ f.ancestors x) (hpa : f.parent? a = some p) (hpb : f.parent? b = some p) : a = b := by
  have habove : ∀ a b, f.parent? a = some p → f.parent? b = some p → a ∈ f.ancestors b → a = b := by
    intro a b hpa hpb h
    refine ((hf.mem_ancestors_iff hpb).mp h).resolve_right fun h => ?_
    exact absurd (hf.lt_of_parent? hpa) (Nat.not_lt.mpr (le_of_mem_ancestors h))
  rcases hf.ancestors_total ha hb with h | h
  · exact habove a b hpa hpb h
  · exact (habove b a hpb hpa h).symm

/-! ### The way down -/

/-- A layer and all below it, each before those read from it, from the surest child on. -/
def preorder (f : Frame) (id : ℕ) : List ℕ :=
  id :: (f.below id).attach.flatMap fun ⟨c, _⟩ => preorder f c
termination_by f.size - id
decreasing_by
  rename_i h
  have := lt_of_mem_below h
  omega

/-- What holds of a layer if it holds of its children holds of all. -/
theorem WellFormed.down {motive : ℕ → Prop} (hf : f.WellFormed)
    (step : ∀ id, (∀ c ∈ f.children id, motive c) → motive id) (id : ℕ) : motive id := by
  induction h : f.size - id using Nat.strongRecOn generalizing id with
  | _ n ih =>
    refine step id fun c hc => ?_
    have hp := (hf.mem_children id c).mp hc
    have hlt := hf.lt_of_parent? hp
    have hsize := lt_of_parent?_eq_some hp
    exact ih (f.size - c) (by omega) c rfl

theorem WellFormed.preorder_eq (hf : f.WellFormed) (id : ℕ) :
    f.preorder id = id :: (f.children id).flatMap f.preorder := by
  rw [preorder, ← hf.below_eq, List.flatMap_subtype (g := f.preorder) (fun _ _ => rfl),
    List.unattach_attach]

theorem WellFormed.leavesFrom_eq (hf : f.WellFormed) (id : ℕ) :
    f.leavesFrom id = if (f.children id).isEmpty then [id]
      else (f.children id).flatMap f.leavesFrom := by
  rw [leavesFrom, ← hf.below_eq, List.flatMap_subtype (g := f.leavesFrom) (fun _ _ => rfl),
    List.unattach_attach]

theorem WellFormed.ofLayers_eq (hf : f.WellFormed) (id : ℕ) :
    Report.ofLayers f id = Report.ofLayer ((f.layer? id).getD default)
      ((f.children id).map (Report.ofLayers f)) := by
  rw [Report.ofLayers, ← hf.below_eq, List.map_subtype (g := Report.ofLayers f) (fun _ _ => rfl),
    List.unattach_attach]

/-- A layer is above another if it is that layer or one of its children is above it. -/
theorem WellFormed.mem_ancestors_iff_children (hf : f.WellFormed) :
    a ∈ f.ancestors x ↔ x = a ∨ ∃ c ∈ f.children a, c ∈ f.ancestors x := by
  induction x using Nat.strongRecOn with
  | _ x ih =>
    rcases hp : f.parent? x with _ | p
    · simp only [hf.ancestors_eq x, hp, List.mem_singleton, hf.mem_children]
      refine ⟨fun h => .inl h.symm, fun h => (h.resolve_right ?_).symm⟩
      rintro ⟨c, hc, rfl⟩
      rw [hp] at hc
      cases hc
    · simp only [hf.mem_ancestors_iff hp, ih p (hf.lt_of_parent? hp), hf.mem_children]
      constructor
      · rintro (rfl | rfl | ⟨c, hc, habove⟩)
        · exact .inl rfl
        · exact .inr ⟨x, hp, .inl rfl⟩
        · exact .inr ⟨c, hc, .inr habove⟩
      · rintro (rfl | ⟨c, hc, rfl | habove⟩)
        · exact .inl rfl
        · rw [hp, Option.some.injEq] at hc
          exact .inr (.inl hc)
        · exact .inr (.inr ⟨c, hc, habove⟩)

/-- **The way down from a layer meets the layers that have it above them.** -/
theorem WellFormed.mem_preorder (hf : f.WellFormed) : x ∈ f.preorder id ↔ id ∈ f.ancestors x := by
  induction id using hf.down with
  | step id ih =>
    rw [hf.preorder_eq, List.mem_cons, List.mem_flatMap, hf.mem_ancestors_iff_children]
    exact or_congr_right (exists_congr fun c => and_congr_right fun hc => ih c hc)

/-- **The way down meets no layer twice.** -/
theorem WellFormed.nodup_preorder (hf : f.WellFormed) (id : ℕ) : (f.preorder id).Nodup := by
  induction id using hf.down with
  | step id ih =>
    rw [hf.preorder_eq, List.nodup_cons, List.nodup_flatMap]
    refine ⟨fun hmem => ?_, ih, (hf.nodup id).pairwise_of_forall_ne fun a ha b hb hne x hxa hxb => ?_⟩
    · obtain ⟨c, hc, hid⟩ := List.mem_flatMap.mp hmem
      have hle := le_of_mem_ancestors (hf.mem_preorder.mp hid)
      have hlt := hf.lt_of_parent? ((hf.mem_children id c).mp hc)
      omega
    · exact hne (hf.eq_of_parent?_eq (hf.mem_preorder.mp hxa) (hf.mem_preorder.mp hxb)
        ((hf.mem_children id a).mp ha) ((hf.mem_children id b).mp hb))

/-- The way down from the root meets every layer once. -/
theorem WellFormed.preorder_perm (hf : f.WellFormed) :
    (f.preorder rootId).Perm (List.range f.size) := by
  refine (List.perm_ext_iff_of_nodup (hf.nodup_preorder rootId) List.nodup_range).mpr fun x => ?_
  rw [hf.mem_preorder, List.mem_range]
  refine ⟨fun habove => ?_, fun hlt => List.mem_of_getLast? (hf.getLast?_ancestors hlt)⟩
  by_contra hge
  have hnone : f.parent? x = none := by
    rw [parent?_eq, List.getElem?_eq_none (by simpa using hge)]
    rfl
  rw [hf.ancestors_eq, hnone, List.mem_singleton] at habove
  exact hge (habove ▸ f.size_pos)

/-! ### Leaves and reports -/

/-- The leaves below a layer are those on the way down that nothing was read from. -/
theorem WellFormed.leavesFrom_eq_filter (hf : f.WellFormed) (id : ℕ) :
    f.leavesFrom id = (f.preorder id).filter fun x => (f.children x).isEmpty := by
  induction id using hf.down with
  | step id ih =>
    rw [hf.leavesFrom_eq, hf.preorder_eq]
    split
    · next hnone =>
      rw [List.filter_cons, if_pos hnone, List.isEmpty_iff.mp hnone]
      rfl
    · next hsome =>
      rw [List.filter_cons, if_neg hsome, List.filter_flatMap]
      exact List.flatMap_congr fun c hc => ih c hc

/-- The reports in the report of a layer are those of the layers on the way down. -/
theorem WellFormed.all_ofLayers (hf : f.WellFormed) (id : ℕ) :
    (Report.ofLayers f id).all = (f.preorder id).map (Report.ofLayers f) := by
  induction id using hf.down with
  | step id ih =>
    rw [LayerReport.all_eq, LayerReport.allOf_eq, hf.preorder_eq, List.map_cons, List.map_flatMap]
    refine congrArg _ ?_
    rw [hf.ofLayers_eq, Report.ofLayer, List.flatMap_map]
    exact List.flatMap_congr fun c hc => ih c hc

/-- One round of the search for leaves, with the layers still to be seen, the next one first, and the
leaves found so far. -/
def visit (f : Frame) : List ℕ × List ℕ → List ℕ × List ℕ
  | ([], found) => ([], found)
  | (id :: waiting, found) =>
    if (f.children id).isEmpty then (waiting, found ++ [id]) else (f.children id ++ waiting, found)

/-- A search that is done with each of some layers in a number of rounds of its own is done with all of
them in as many rounds as these are together. -/
theorem visit_flatMap (f : Frame) (cs : List ℕ)
    (h : ∀ c ∈ cs, ∀ waiting found, f.visit^[(f.preorder c).length] (c :: waiting, found) =
      (waiting, found ++ f.leavesFrom c)) (waiting found : List ℕ) :
    f.visit^[(cs.flatMap f.preorder).length] (cs ++ waiting, found) =
      (waiting, found ++ cs.flatMap f.leavesFrom) := by
  induction cs generalizing found with
  | nil => simp
  | cons c cs ih =>
    rw [List.forall_mem_cons] at h
    rw [List.flatMap_cons, List.length_append, Nat.add_comm, Function.iterate_add_apply,
      List.cons_append, h.1, ih h.2, List.flatMap_cons, List.append_assoc]

/-- The search for leaves is done with a layer after as many rounds as there are layers on the way
down from it, and has then found the leaves below it. -/
theorem WellFormed.iterate_visit (hf : f.WellFormed) (id : ℕ) : ∀ waiting found,
    f.visit^[(f.preorder id).length] (id :: waiting, found) =
      (waiting, found ++ f.leavesFrom id) := by
  induction id using hf.down with
  | step id ih =>
    intro waiting found
    rw [hf.preorder_eq, hf.leavesFrom_eq, List.length_cons, Function.iterate_succ_apply, visit]
    split
    · next hnone =>
      rw [List.isEmpty_iff.mp hnone]
      rfl
    · exact visit_flatMap f _ ih waiting found

/-! ### One tree -/

/-- The numbers of a frame make one tree, and all walks through it see what they should. -/
structure OneTree (f : Frame) : Prop where
  /-- The root has no parent. -/
  root : f.parent? rootId = none
  /-- Every other layer has an older one as its parent and is once among the children of that parent,
  and not among those of any other layer. -/
  parent : ∀ id, 0 < id → id < f.size → ∃ p < id, f.parent? id = some p ∧
    (f.children p).count id = 1 ∧ ∀ q, q ≠ p → id ∉ f.children q
  /-- Nothing else is among the children of a layer. -/
  children : ∀ p, ∀ c ∈ f.children p, 0 < c ∧ c < f.size
  /-- A copy of a layer is added with the next number if its parent is there, and changes nothing but
  the children of its parent; under any other number nothing is added and nothing changes. -/
  adopt : ∀ parent e,
    f.adopt parent e =
        (f.attach? parent e.layer).elim (none, f) (fun g => (some f.size, g)) ∧
      (parent < f.size → ∃ g, f.adopt parent e = (some f.size, g) ∧ Adopted f parent e g) ∧
      (f.size ≤ parent → f.adopt parent e = (none, f))
  /-- The way up from a layer goes from parent to parent and ends at the root. -/
  ancestors : ∀ id < f.size, (f.ancestors id).head? = some id ∧
    ((f.ancestors id).IsChain fun a b => f.parent? a = some b) ∧
    (f.ancestors id).getLast? = some rootId
  /-- The way down goes through the children of a layer in their order and meets every layer once. -/
  preorder : (∀ id, f.preorder id = id :: (f.children id).flatMap f.preorder) ∧
    (f.preorder rootId).Perm (List.range f.size)
  /-- The leaves are the layers that nothing was read from, each once and in the order of the way down;
  the search finds them in as many rounds as there are layers. -/
  leaves : f.leaves.Nodup ∧ (∀ id, id ∈ f.leaves ↔ id < f.size ∧ f.children id = []) ∧
    f.leaves = ((f.preorder rootId).filter fun id => (f.children id).isEmpty) ∧
    f.visit^[f.size] ([rootId], []) = ([], f.leaves)
  /-- The report of a layer has those of its children in it, so that the report of the root shows every
  layer once. -/
  report : (∀ id, Report.ofLayers f id = Report.ofLayer ((f.layer? id).getD default)
      ((f.children id).map (Report.ofLayers f))) ∧
    (Report.ofLayers f rootId).all = (f.preorder rootId).map (Report.ofLayers f)

theorem WellFormed.leaves_spec (hf : f.WellFormed) :
    f.leaves.Nodup ∧ (∀ id, id ∈ f.leaves ↔ id < f.size ∧ f.children id = []) ∧
      f.leaves = ((f.preorder rootId).filter fun id => (f.children id).isEmpty) ∧
      f.visit^[f.size] ([rootId], []) = ([], f.leaves) := by
  have hleaves : f.leaves = (f.preorder rootId).filter fun id => (f.children id).isEmpty :=
    hf.leavesFrom_eq_filter rootId
  have hperm := hf.preorder_perm
  refine ⟨?_, fun id => ?_, hleaves, ?_⟩
  · rw [hleaves]
    exact (hf.nodup_preorder rootId).filter _
  · rw [hleaves, List.mem_filter, hperm.mem_iff, List.mem_range, List.isEmpty_iff]
  · have hvisit := hf.iterate_visit rootId [] []
    rwa [hperm.length_eq, List.length_range, List.nil_append] at hvisit

theorem WellFormed.oneTree (hf : f.WellFormed) : f.OneTree where
  root := hf.root
  parent id hpos hid := by
    obtain ⟨p, hlt, hp⟩ := hf.parent id hpos hid
    have hmem := (hf.mem_children p id).mpr hp
    refine ⟨p, hlt, hp, List.count_eq_one_of_mem (hf.nodup p) hmem, fun q hne hq => hne ?_⟩
    have hpq := (hf.mem_children q id).mp hq
    rw [hp, Option.some.injEq] at hpq
    exact hpq.symm
  children p c hc :=
    ⟨Nat.zero_lt_of_lt (hf.lt_of_parent? ((hf.mem_children p c).mp hc)), hf.lt_of_mem_children hc⟩
  adopt parent e := ⟨adopt_eq f parent e, fun h => adopt_of_lt h e, adopt_of_le⟩
  ancestors id hid := by
    refine ⟨?_, hf.isChain_ancestors id, hf.getLast?_ancestors hid⟩
    rw [hf.ancestors_eq, List.head?_cons]
  preorder := ⟨hf.preorder_eq, hf.preorder_perm⟩
  leaves := hf.leaves_spec
  report := ⟨hf.ofLayers_eq, hf.all_ofLayers rootId⟩

/-- **A frame is one tree, however layers are added to it**: under parents that are there or not, and
also copies of layers that still carry the links they had in other frames. -/
theorem oneTree_adopting (index : ℕ) (timestamp : Instant) (length sourceId : ℕ) (root : Entry)
    (calls : List (ℕ × Entry)) :
    ((ofEntry index timestamp length sourceId root).adopting calls).OneTree := by
  rw [ofEntry_eq]
  exact ((Built.root index timestamp length sourceId root.layer).adopting calls).wellFormed.oneTree

end Frame

end PacketTree
