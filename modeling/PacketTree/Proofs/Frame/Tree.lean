import Mathlib.Data.List.Sort
import PacketTree.Frame.Basic

/-!
# Frames are trees

A frame keeps its layers in a list and their places in the tree as numbers. This module shows that
the numbers always make a tree, and what the tree looks like from one layer upwards.

## What is proved

* `Built.wellFormed`: in a frame that was made from a root by adding layers every layer but the root
  has an older parent, is among the children of that parent and nowhere else, and siblings stand in
  the order of falling confidence.
* `path_of_isPrefix`: a layer and those above it stay what they are when layers are added.

## The model

`nodes` is a frame without the lists of children: each layer with its parent. Adding a layer puts
one node behind the others, so that a frame has grown exactly if its nodes are a prefix.
-/

namespace PacketTree.Frame

variable {f g : Frame} {parent id p c : ℕ} {l : Layer}

/-! ### Nodes -/

/-- The layers with their parents, in the order in which they were added. -/
def nodes (f : Frame) : List (Layer × Option ℕ) := f.entries.toList.map fun e => (e.layer, e.parent)

@[simp] theorem length_nodes (f : Frame) : f.nodes.length = f.size := by simp [nodes, size]

theorem getElem?_nodes (f : Frame) (id : ℕ) :
    f.nodes[id]? = f.entries[id]?.map fun e => (e.layer, e.parent) := by
  simp [nodes]

theorem layer?_eq (f : Frame) (id : ℕ) : f.layer? id = f.nodes[id]?.map Prod.fst := by
  rw [layer?, getElem?_nodes, Option.map_map]
  rfl

theorem layers_eq (f : Frame) : f.layers = f.nodes.map Prod.fst := by
  rw [layers, nodes, List.map_map]
  rfl

theorem parent?_eq (f : Frame) (id : ℕ) : f.parent? id = f.nodes[id]?.bind Prod.snd := by
  rw [parent?, getElem?_nodes]
  cases f.entries[id]? <;> rfl

theorem layer?_isSome_iff : (f.layer? id).isSome ↔ id < f.size := by
  rw [layer?_eq, Option.isSome_map, isSome_getElem?, length_nodes]

theorem exists_layer?_of_lt (h : id < f.size) : ∃ l, f.layer? id = some l :=
  Option.isSome_iff_exists.mp (layer?_isSome_iff.mpr h)

theorem lt_of_parent?_eq_some (h : f.parent? id = some p) : id < f.size := by
  by_contra hlt
  rw [parent?_eq, List.getElem?_eq_none (by simpa using hlt)] at h
  cases h

theorem layer?_rootId (f : Frame) : f.layer? rootId = some f.root := by
  rw [layer?, rootId, Array.getElem?_eq_getElem f.size_pos]
  rfl

/-! ### Adding a layer -/

theorem exists_attach? (h : parent < f.size) (l : Layer) : ∃ g, f.attach? parent l = some g :=
  Option.isSome_iff_exists.mp (attach?_isSome_iff.mpr h)

theorem lt_of_attach?_eq_some (h : f.attach? parent l = some g) : parent < f.size :=
  attach?_isSome_iff.mp (Option.isSome_iff_exists.mpr ⟨g, h⟩)

/-- The new layer comes last, and nothing else changes but lists of children. -/
theorem nodes_attach? (h : f.attach? parent l = some g) :
    g.nodes = f.nodes ++ [(l, some parent)] := by
  refine List.ext_getElem? fun id => ?_
  rw [attach?, if_pos (lt_of_attach?_eq_some h), Option.some.injEq] at h
  subst h
  rw [getElem?_nodes, Array.getElem?_push, Array.size_modify]
  by_cases hid : id = f.entries.size
  · rw [if_pos hid, hid, List.getElem?_append_right (by simp [size])]
    simp [size]
  · rw [if_neg hid, Array.getElem?_modify]
    by_cases hlt : id < f.entries.size
    · rw [List.getElem?_append_left (by simpa [size] using hlt), getElem?_nodes]
      split
      · cases f.entries[id]? <;> rfl
      · rfl
    · rw [Array.getElem?_eq_none (by omega), List.getElem?_eq_none (by simp [size]; omega)]
      split <;> rfl

theorem layers_attach? (h : f.attach? parent l = some g) : g.layers = f.layers ++ [l] := by
  rw [layers_eq, nodes_attach? h, List.map_append, layers_eq]
  rfl

theorem index_attach? (h : f.attach? parent l = some g) : g.index = f.index := by
  rw [attach?, if_pos (lt_of_attach?_eq_some h), Option.some.injEq] at h
  rw [← h]

theorem parent?_attach? (h : f.attach? parent l = some g) (id : ℕ) :
    g.parent? id = if id = f.size then some parent else f.parent? id := by
  rw [parent?_eq, nodes_attach? h]
  by_cases hid : id = f.size
  · rw [if_pos hid, hid, List.getElem?_append_right (by simp)]
    simp
  · rw [if_neg hid, parent?_eq]
    by_cases hlt : id < f.size
    · rw [List.getElem?_append_left (by simpa using hlt)]
    · rw [List.getElem?_eq_none (by simp; omega), List.getElem?_eq_none (by simp; omega)]

/-- The new layer is among the children of its parent and has none itself. -/
theorem children_attach? (h : f.attach? parent l = some g) (id : ℕ) :
    g.children id = if id = parent then f.placeChild (f.children parent) f.size l.confidence
      else f.children id := by
  have hp := lt_of_attach?_eq_some h
  rw [attach?, if_pos hp, Option.some.injEq] at h
  subst h
  rw [children, Array.getElem?_push, Array.size_modify, Array.getElem?_modify]
  by_cases hid : id = parent
  · subst hid
    rw [if_neg (show id ≠ f.entries.size from Nat.ne_of_lt hp), if_pos rfl, if_pos rfl, children,
      Array.getElem?_eq_getElem (show id < f.entries.size from hp)]
    rfl
  · rw [if_neg hid, if_neg (Ne.symm hid), children]
    by_cases hlast : id = f.entries.size
    · rw [if_pos hlast, hlast, Array.getElem?_eq_none le_rfl]
      rfl
    · rw [if_neg hlast]

/-! ### The tree -/

/-- The place of a layer's confidence among all numbers. -/
def sureness (f : Frame) (id : ℕ) : ℤ := (f.layer? id).elim 0 fun l => l.confidence.value.key

/-- The numbers of a frame make one tree below the root. -/
structure WellFormed (f : Frame) : Prop where
  /-- The root has no parent. -/
  root : f.parent? rootId = none
  /-- Every other layer has an older one as its parent. -/
  parent : ∀ id, 0 < id → id < f.size → ∃ p < id, f.parent? id = some p
  /-- The children of a layer are those that have it as their parent. -/
  mem_children : ∀ p c, c ∈ f.children p ↔ f.parent? c = some p
  /-- No child occurs twice. -/
  nodup : ∀ p, (f.children p).Nodup
  /-- The surest child stands first. -/
  sorted : ∀ p, (f.children p).Pairwise fun a b => f.sureness b ≤ f.sureness a

/-- A frame that was made from a root by adding layers. -/
inductive Built : Frame → Prop where
  /-- A root alone. -/
  | root (index : ℕ) (timestamp : Instant) (length sourceId : ℕ) (root : Layer) :
      Built (ofRoot index timestamp length sourceId root)
  /-- One layer more. -/
  | attach {f g : Frame} {parent : ℕ} {l : Layer} (before : Built f)
      (h : f.attach? parent l = some g) : Built g

theorem WellFormed.lt_of_parent? (h : f.WellFormed) (hp : f.parent? id = some p) : p < id := by
  rcases Nat.eq_zero_or_pos id with rfl | hid
  · rw [show f.parent? 0 = none from h.root] at hp
    cases hp
  · obtain ⟨q, hq, hpar⟩ := h.parent id hid (lt_of_parent?_eq_some hp)
    rw [hpar, Option.some.injEq] at hp
    omega

theorem WellFormed.lt_of_mem_children (h : f.WellFormed) (hc : c ∈ f.children p) : c < f.size :=
  lt_of_parent?_eq_some ((h.mem_children p c).mp hc)

theorem wellFormed_ofRoot (index : ℕ) (timestamp : Instant) (length sourceId : ℕ) (root : Layer) :
    (ofRoot index timestamp length sourceId root).WellFormed := by
  have hchildren : ∀ p, (ofRoot index timestamp length sourceId root).children p = [] := by
    intro p
    cases p <;> simp [children, ofRoot]
  have hparent : ∀ id, (ofRoot index timestamp length sourceId root).parent? id = none := by
    intro id
    cases id <;> simp [parent?, ofRoot]
  constructor
  · exact hparent _
  · intro id hid hlt
    simp only [size, ofRoot, List.size_toArray, List.length_singleton] at hlt
    omega
  · intro p c
    simp [hchildren, hparent]
  · simp [hchildren]
  · simp [hchildren]

/-- A layer is less sure than another exactly if its confidence is the smaller number. -/
theorem lessSure_iff {k : Confidence} (h : id < f.size) :
    f.lessSure k id = true ↔ f.sureness id < k.value.key := by
  obtain ⟨l, hl⟩ := exists_layer?_of_lt h
  have hnan : ∀ c : Confidence, c.value.isNaN = false := by
    intro c
    have := c.zero_le
    simp only [Double.le, Bool.and_eq_true, Bool.not_eq_true'] at this
    exact this.1.2
  simp [lessSure, sureness, hl, Double.lt, hnan]

/-- A list of siblings takes the new one in at one place. -/
theorem mem_placeChild {siblings : List ℕ} {k : Confidence} :
    c ∈ f.placeChild siblings id k ↔ c = id ∨ c ∈ siblings := by
  have h := (siblings.takeWhile_append_dropWhile (p := fun s => !f.lessSure k s))
  rw [placeChild, List.mem_append, List.mem_cons]
  conv_rhs => rw [← h, List.mem_append]
  tauto

theorem nodup_placeChild {siblings : List ℕ} {k : Confidence} (h : siblings.Nodup)
    (hid : id ∉ siblings) : (f.placeChild siblings id k).Nodup := by
  rw [placeChild, (List.perm_middle).nodup_iff, List.takeWhile_append_dropWhile]
  exact List.nodup_cons.mpr ⟨hid, h⟩

/-- Siblings in falling order stay so. -/
theorem sorted_placeChild {siblings : List ℕ} {s : ℕ → ℤ} {k : Confidence}
    (hs : ∀ a ∈ siblings, f.lessSure k a = true ↔ s a < k.value.key) (hid : s id = k.value.key)
    (h : siblings.Pairwise fun a b => s b ≤ s a) :
    (f.placeChild siblings id k).Pairwise fun a b => s b ≤ s a := by
  induction siblings with
  | nil => simp [placeChild]
  | cons a siblings ih =>
    obtain ⟨ha, hrest⟩ := List.pairwise_cons.mp h
    by_cases hless : f.lessSure k a = true
    · have hplace : f.placeChild (a :: siblings) id k = id :: a :: siblings := by
        simp [placeChild, hless]
      have := (hs a (List.mem_cons_self ..)).mp hless
      rw [hplace]
      refine List.pairwise_cons.mpr ⟨fun b hb => ?_, h⟩
      rcases List.mem_cons.mp hb with rfl | hb
      · omega
      · have := ha b hb
        omega
    · have hplace : f.placeChild (a :: siblings) id k = a :: f.placeChild siblings id k := by
        simp [placeChild, hless]
      have := mt (hs a (List.mem_cons_self ..)).mpr hless
      rw [hplace]
      refine List.pairwise_cons.mpr
        ⟨fun b hb => ?_, ih (fun b hb => hs b (List.mem_cons_of_mem _ hb)) hrest⟩
      rcases mem_placeChild.mp hb with rfl | hb
      · omega
      · exact ha b hb

theorem sureness_attach? (h : f.attach? parent l = some g) (id : ℕ) :
    g.sureness id = if id = f.size then l.confidence.value.key else f.sureness id := by
  rw [sureness, layer?_of_attach?_eq_some h]
  split <;> rfl

theorem WellFormed.attach? (hf : f.WellFormed) (h : f.attach? parent l = some g) :
    g.WellFormed := by
  have hp := lt_of_attach?_eq_some h
  have hnew : f.size ∉ f.children parent := fun hc =>
    absurd (hf.lt_of_mem_children hc) (lt_irrefl _)
  have hold : ∀ q, ∀ c ∈ f.children q, g.sureness c = f.sureness c := by
    intro q c hc
    rw [sureness_attach? h, if_neg (Nat.ne_of_lt (hf.lt_of_mem_children hc))]
  constructor
  · rw [parent?_attach? h, if_neg (show rootId ≠ f.size from (Nat.ne_of_lt f.size_pos))]
    exact hf.root
  · intro id hid hlt
    rw [parent?_attach? h]
    split
    · next heq => exact ⟨parent, heq ▸ hp, rfl⟩
    · rw [size_of_attach?_eq_some h] at hlt
      exact hf.parent id hid (by omega)
  · intro p c
    rw [children_attach? h, parent?_attach? h]
    by_cases hc : c = f.size
    · subst hc
      by_cases hpp : p = parent
      · simp [hpp, mem_placeChild]
      · simp only [if_neg hpp, if_true, Option.some.injEq]
        exact ⟨fun hmem => absurd (hf.lt_of_mem_children hmem) (lt_irrefl _),
          fun he => absurd he.symm hpp⟩
    · rw [if_neg hc, ← hf.mem_children]
      split
      · next hpp => simp [hpp, mem_placeChild, hc]
      · rfl
  · intro p
    rw [children_attach? h]
    split
    · exact nodup_placeChild (hf.nodup parent) hnew
    · exact hf.nodup p
  · intro p
    rw [children_attach? h]
    split
    · refine sorted_placeChild (fun a ha => ?_) ?_ ?_
      · rw [hold parent a ha]
        exact lessSure_iff (hf.lt_of_mem_children ha)
      · rw [sureness_attach? h, if_pos rfl]
      · exact (hf.sorted parent).imp_of_mem fun ha hb hab => by
          rwa [hold parent _ ha, hold parent _ hb]
    · exact (hf.sorted p).imp_of_mem fun ha hb hab => by rwa [hold p _ ha, hold p _ hb]

/-- **Frames are trees.** -/
theorem Built.wellFormed (h : f.Built) : f.WellFormed := by
  induction h with
  | root index timestamp length sourceId root => exact wellFormed_ofRoot ..
  | attach _ hattach ih => exact ih.attach? hattach

/-! ### The way up -/

/-- A layer and those above it, up to the root. -/
def path (f : Frame) (id : ℕ) : List Layer := (f.ancestors id).filterMap f.layer?

/-- The way up starts at the layer itself. -/
theorem head?_path (f : Frame) (id : ℕ) : (f.path id).head? = f.layer? id := by
  rw [path, ancestors]
  rcases hl : f.layer? id with _ | l
  · have hpar : f.parent? id = none := by
      rw [layer?_eq, Option.map_eq_none_iff] at hl
      rw [parent?_eq, hl, Option.bind_none]
    rw [hpar, List.filterMap_cons_none hl]
    rfl
  · rw [List.filterMap_cons_some hl, List.head?_cons]

theorem getElem?_of_isPrefix (h : f.nodes <+: g.nodes) (hid : id < f.size) :
    g.nodes[id]? = f.nodes[id]? := by
  obtain ⟨t, ht⟩ := h
  rw [← ht, List.getElem?_append_left (by simpa using hid)]

theorem layer?_of_isPrefix (h : f.nodes <+: g.nodes) (hid : id < f.size) :
    g.layer? id = f.layer? id := by
  rw [layer?_eq, layer?_eq, getElem?_of_isPrefix h hid]

theorem ancestors_of_isPrefix (h : f.nodes <+: g.nodes) (hid : id < f.size) :
    g.ancestors id = f.ancestors id := by
  induction id using Nat.strongRecOn with
  | _ id ih =>
    have hpar : g.parent? id = f.parent? id := by
      rw [parent?_eq, parent?_eq, getElem?_of_isPrefix h hid]
    rw [ancestors, ancestors, hpar]
    cases f.parent? id with
    | none => rfl
    | some p =>
      dsimp only
      split
      · next hlt => rw [ih p hlt (hlt.trans hid)]
      · rfl

theorem le_of_mem_ancestors {a : ℕ} (h : a ∈ f.ancestors id) : a ≤ id := by
  induction id using Nat.strongRecOn with
  | _ id ih =>
    rw [ancestors] at h
    rcases List.mem_cons.mp h with rfl | h
    · exact le_rfl
    · split at h
      · split at h
        · next hlt => exact (ih _ hlt h).trans hlt.le
        · cases h
      · cases h

/-- Layers that are added later change nothing above a layer. -/
theorem path_of_isPrefix (h : f.nodes <+: g.nodes) (hid : id < f.size) : g.path id = f.path id := by
  rw [path, path, ancestors_of_isPrefix h hid]
  exact List.filterMap_congr fun a ha =>
    layer?_of_isPrefix h (lt_of_le_of_lt (le_of_mem_ancestors ha) hid)

end PacketTree.Frame
