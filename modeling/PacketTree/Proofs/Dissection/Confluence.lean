import Mathlib.Data.List.Perm.Basic
import Mathlib.Data.Set.Function
import Mathlib.Order.Interval.Set.Defs
import PacketTree.Proofs.Dissection.Ending
import PacketTree.Proofs.Dissection.Generation
import PacketTree.Protocol.Builtin

/-!
# The order of dissectors makes no difference

Dissectors look at a layer in the order in which they were registered, and the layers they find are
numbered in that order. This module proves that for local dissectors the order changes nothing but
these numbers, and the order of siblings that are equally sure.

## What is proved

* `sameTree_of_perm`: two runs with the same dissectors in different orders make the same tree, layer
  for layer, in the same number of generations.
* `Twins.step`: what one generation does to two dissections that are alike.
* `isLocal_builtin`: the built-in dissectors are local.

## The model

A `Renaming` takes the numbers of one frame to those of another so that layers and parents are kept.
Two dissections are `Twins` if their frames are the same but for a renaming, they have the same
leaves under it and have seen the same namespaces. One generation keeps twins, though its new layers
come in different orders; the renaming is extended by any matching of equal new nodes.
-/

namespace PacketTree

namespace Frame

variable {f g : Frame} {φ : ℕ → ℕ} {i : ℕ}

/-! ### The same tree with other numbers -/

/-- A change of numbers that keeps layers and parents. -/
structure Renaming (f g : Frame) (φ : ℕ → ℕ) : Prop where
  /-- Both frames have as many layers. -/
  size : g.size = f.size
  /-- Each number stands for exactly one of the other frame. -/
  bijOn : Set.BijOn φ (Set.Iio f.size) (Set.Iio g.size)
  /-- The roots correspond. -/
  root : φ rootId = rootId
  /-- Layers stay the same, and so do parents under the new numbers. -/
  node : ∀ i < f.size, g.nodes[φ i]? = f.nodes[i]?.map (Prod.map id (Option.map φ))

/-- Lists of siblings that differ at most in the order of those that are equally sure: the same
numbers, and equal confidences place by place. -/
def EqualUpToTies (sureness : ℕ → ℤ) (l m : List ℕ) : Prop :=
  l.Perm m ∧ l.map sureness = m.map sureness

/-- Two frames hold the same tree up to the order of equally sure siblings. -/
def SameTree (f g : Frame) : Prop :=
  ∃ φ : ℕ → ℕ, Set.BijOn φ (Set.Iio f.size) (Set.Iio g.size) ∧ φ rootId = rootId ∧
    ∀ i < f.size, g.layer? (φ i) = f.layer? i ∧ g.parent? (φ i) = (f.parent? i).map φ ∧
      EqualUpToTies g.sureness ((f.children i).map φ) (g.children (φ i))

theorem Renaming.refl (f : Frame) : Renaming f f id where
  size := rfl
  bijOn := Set.bijOn_id _
  root := rfl
  node i _ := by
    rw [id_eq, Option.map_id, Prod.map_id, Option.map_id, id_eq]

theorem Renaming.lt (h : Renaming f g φ) (hi : i < f.size) : φ i < f.size :=
  h.size ▸ h.bijOn.mapsTo hi

theorem Renaming.layer? (h : Renaming f g φ) (hi : i < f.size) : g.layer? (φ i) = f.layer? i := by
  rw [layer?_eq, h.node i hi, layer?_eq, Option.map_map]
  rfl

theorem Renaming.parent? (h : Renaming f g φ) (hi : i < f.size) :
    g.parent? (φ i) = (f.parent? i).map φ := by
  rw [parent?_eq, h.node i hi, parent?_eq]
  cases f.nodes[i]? <;> rfl

theorem Renaming.ancestors (h : Renaming f g φ) (hf : f.WellFormed) (hg : g.WellFormed)
    (hi : i < f.size) : g.ancestors (φ i) = (f.ancestors i).map φ := by
  induction i using Nat.strongRecOn with
  | _ i ih =>
    have hpar := h.parent? hi
    rw [Frame.ancestors, Frame.ancestors, hpar]
    rcases hp : f.parent? i with _ | p
    · rfl
    · have hlt := hf.lt_of_parent? hp
      rw [hp] at hpar
      simp only [Option.map_some, if_pos hlt, if_pos (hg.lt_of_parent? hpar),
        ih p hlt (hlt.trans hi), List.map_cons]

/-- The way up is the same. -/
theorem Renaming.path (h : Renaming f g φ) (hf : f.WellFormed) (hg : g.WellFormed)
    (hi : i < f.size) : g.path (φ i) = f.path i := by
  rw [Frame.path, Frame.path, h.ancestors hf hg hi, List.filterMap_map]
  exact List.filterMap_congr fun a ha => h.layer? (lt_of_le_of_lt (le_of_mem_ancestors ha) hi)

/-- The children are the same, in the same order but for those that are equally sure. -/
theorem Renaming.children (h : Renaming f g φ) (hf : f.WellFormed) (hg : g.WellFormed)
    (hi : i < f.size) :
    EqualUpToTies g.sureness ((f.children i).map φ) (g.children (φ i)) := by
  have hlt : ∀ c ∈ f.children i, c < f.size := fun c hc => hf.lt_of_mem_children hc
  have hnodup : ((f.children i).map φ).Nodup :=
    List.Nodup.map_on (fun a ha b hb hab => h.bijOn.injOn (hlt a ha) (hlt b hb) hab) (hf.nodup i)
  have hperm : ((f.children i).map φ).Perm (g.children (φ i)) := by
    refine (List.perm_ext_iff_of_nodup hnodup (hg.nodup _)).mpr fun c => ?_
    rw [hg.mem_children, List.mem_map]
    constructor
    · rintro ⟨a, ha, rfl⟩
      rw [h.parent? (hlt a ha), (hf.mem_children i a).mp ha]
      rfl
    · intro hc
      obtain ⟨a, ha, rfl⟩ := h.bijOn.surjOn (lt_of_parent?_eq_some hc)
      rw [h.parent? ha, Option.map_eq_some_iff] at hc
      obtain ⟨p, hp, hpi⟩ := hc
      have hpf : p < f.size := (hf.lt_of_parent? hp).trans ha
      rw [h.bijOn.injOn hpf hi hpi] at hp
      exact ⟨a, (hf.mem_children i a).mpr hp, rfl⟩
  refine ⟨hperm, (hperm.map g.sureness).eq_of_pairwise (fun a b _ _ hab hba => le_antisymm hba hab)
    ?_ (List.pairwise_map.mpr (hg.sorted _))⟩
  rw [List.map_map, List.pairwise_map]
  refine (hf.sorted i).imp_of_mem fun {a b} ha hb hab => ?_
  have hs : ∀ c < f.size, g.sureness (φ c) = f.sureness c := by
    intro c hc
    rw [sureness, sureness, h.layer? hc]
  simpa only [Function.comp, hs a (hlt a ha), hs b (hlt b hb)] using hab

theorem Renaming.sameTree (h : Renaming f g φ) (hf : f.WellFormed) (hg : g.WellFormed) :
    SameTree f g :=
  ⟨φ, h.bijOn, h.root, fun _ hi => ⟨h.layer? hi, h.parent? hi, h.children hf hg hi⟩⟩

/-! ### More layers -/

/-- Lists with the same members can be matched place by place. -/
theorem exists_matching {α : Type*} {l m : List α} (h : l.Perm m) :
    ∃ τ : ℕ → ℕ, Set.BijOn τ (Set.Iio l.length) (Set.Iio m.length) ∧
      ∀ i < l.length, m[τ i]? = l[i]? := by
  classical
  let _ : BEq α := instBEqOfDecidableEq
  refine ⟨fun i => if hi : i < l.length then h.idxBij ⟨i, hi⟩ else i, ⟨?_, ?_, ?_⟩, ?_⟩
  · intro i hi
    rw [Set.mem_Iio] at hi
    simp only [dif_pos hi, Set.mem_Iio]
    exact (h.idxBij ⟨i, hi⟩).isLt
  · intro i hi j hj hij
    rw [Set.mem_Iio] at hi hj
    simp only [dif_pos hi, dif_pos hj] at hij
    exact congrArg Fin.val (h.idxBij_rightInverse_idxBij_symm.injective (Fin.ext hij))
  · intro j hj
    refine ⟨h.symm.idxBij ⟨j, hj⟩, (h.symm.idxBij ⟨j, hj⟩).isLt, ?_⟩
    simp only [dif_pos (h.symm.idxBij ⟨j, hj⟩).isLt]
    exact congrArg Fin.val (h.idxBij_leftInverse_idxBij_symm ⟨j, hj⟩)
  · intro i hi
    simp only [dif_pos hi]
    rw [List.getElem?_eq_getElem (h.idxBij ⟨i, hi⟩).isLt, List.getElem?_eq_getElem hi,
      h.getElem_idxBij_eq_getElem]

theorem perm_range_of_bijOn {τ : ℕ → ℕ} {n : ℕ} (h : Set.BijOn τ (Set.Iio n) (Set.Iio n)) :
    ((List.range n).map τ).Perm (List.range n) := by
  refine (List.perm_ext_iff_of_nodup (List.Nodup.map_on ?_ List.nodup_range)
    List.nodup_range).mpr fun j => ?_
  · intro i hi j hj hij
    exact h.injOn (List.mem_range.mp hi) (List.mem_range.mp hj) hij
  · rw [List.mem_map, List.mem_range]
    constructor
    · rintro ⟨i, hi, rfl⟩
      exact h.mapsTo (List.mem_range.mp hi)
    · intro hj
      obtain ⟨i, hi, hij⟩ := h.surjOn hj
      exact ⟨i, List.mem_range.mpr hi, hij⟩

/-- Two renumberings side by side make one. -/
theorem exists_beside {φ τ : ℕ → ℕ} {n k : ℕ} (hφ : Set.BijOn φ (Set.Iio n) (Set.Iio n))
    (hτ : Set.BijOn τ (Set.Iio k) (Set.Iio k)) :
    ∃ ψ : ℕ → ℕ, Set.BijOn ψ (Set.Iio (n + k)) (Set.Iio (n + k)) ∧ (∀ i < n, ψ i = φ i) ∧
      ∀ i, ψ (n + i) = n + τ i := by
  let ψ : ℕ → ℕ := fun i => if i < n then φ i else n + τ (i - n)
  have hleft : ∀ i < n, ψ i = φ i := fun i hi => if_pos hi
  have hright : ∀ i, ψ (n + i) = n + τ i := fun i => by
    simp only [ψ, if_neg (Nat.not_lt.mpr (Nat.le_add_right _ _)), Nat.add_sub_cancel_left]
  have hcases : ∀ i < n + k, i < n ∨ ∃ j < k, i = n + j := by
    intro i hi
    rcases Nat.lt_or_ge i n with hi' | hi'
    · exact .inl hi'
    · exact .inr ⟨i - n, by omega, by omega⟩
  have hφlt : ∀ i < n, φ i < n := fun i hi => hφ.mapsTo hi
  have hτlt : ∀ j < k, τ j < k := fun j hj => hτ.mapsTo hj
  refine ⟨ψ, ⟨fun i hi => ?_, fun i hi j hj hij => ?_, fun j hj => ?_⟩, hleft, hright⟩
  · rw [Set.mem_Iio] at hi ⊢
    rcases hcases i hi with hi | ⟨m, hm, rfl⟩
    · have := hφlt i hi
      rw [hleft i hi]
      omega
    · have := hτlt m hm
      rw [hright]
      omega
  · rcases hcases i hi with hi | ⟨a, ha, rfl⟩ <;> rcases hcases j hj with hj | ⟨b, hb, rfl⟩
    · rw [hleft i hi, hleft j hj] at hij
      exact hφ.injOn hi hj hij
    · rw [hleft i hi, hright] at hij
      have := hφlt i hi
      omega
    · rw [hleft j hj, hright] at hij
      have := hφlt j hj
      omega
    · rw [hright, hright] at hij
      rw [hτ.injOn ha hb (by omega)]
  · rcases hcases j hj with hj | ⟨m, hm, rfl⟩
    · obtain ⟨i, hi, rfl⟩ := hφ.surjOn hj
      rw [Set.mem_Iio] at hi
      exact ⟨i, show i < n + k by omega, hleft i hi⟩
    · obtain ⟨i, hi, rfl⟩ := hτ.surjOn hm
      rw [Set.mem_Iio] at hi
      exact ⟨n + i, show n + i < n + k by omega, hright i⟩

/-- A renaming is extended to frames that have grown by the same nodes in different orders. -/
theorem Renaming.extend {f' g' : Frame} {new new' : List (Layer × Option ℕ)} (h : Renaming f g φ)
    (hf : f'.nodes = f.nodes ++ new) (hg : g'.nodes = g.nodes ++ new')
    (hnew : (new.map (Prod.map id (Option.map φ))).Perm new')
    (hparent : ∀ x ∈ f'.nodes, ∀ p, x.2 = some p → p < f.size) :
    ∃ ψ, Renaming f' g' ψ ∧ (∀ i < f.size, ψ i = φ i) ∧
      ((List.range' f.size new.length).map ψ).Perm (List.range' g.size new'.length) := by
  obtain ⟨τ, hτ, hmatch⟩ := exists_matching hnew
  have hlen : new'.length = new.length := by simpa using hnew.length_eq.symm
  rw [List.length_map, hlen] at hτ
  rw [List.length_map] at hmatch
  have hsf : f'.size = f.size + new.length := by
    rw [← length_nodes, hf, List.length_append, length_nodes]
  have hsg : g'.size = f.size + new.length := by
    rw [← length_nodes, hg, List.length_append, length_nodes, hlen, h.size]
  obtain ⟨ψ, hbij, hold, hlate⟩ := exists_beside (h.size ▸ h.bijOn) hτ
  refine ⟨ψ, ⟨hsg.trans hsf.symm, by rwa [hsf, hsg], ?_, fun i hi => ?_⟩, hold, ?_⟩
  · rw [hold rootId f.size_pos]
    exact h.root
  · -- Parents are old layers, where the two renamings agree.
    have hmap : ∀ x ∈ f'.nodes, Prod.map id (Option.map ψ) x = Prod.map id (Option.map φ) x := by
      rintro ⟨l, _ | p⟩ hx
      · rfl
      · exact congrArg (fun q => (l, some q)) (hold p (hparent _ hx p rfl))
    have hcongr : f'.nodes[i]?.map (Prod.map id (Option.map ψ)) =
        f'.nodes[i]?.map (Prod.map id (Option.map φ)) := by
      refine Option.map_congr fun x hx => hmap x (List.mem_of_getElem? hx)
    rw [hcongr, hf, hg]
    rcases Nat.lt_or_ge i f.size with hlt | hge
    · rw [hold i hlt, List.getElem?_append_left (by simpa [h.size] using h.lt hlt),
        List.getElem?_append_left (by simpa using hlt), h.node i hlt]
    · obtain ⟨k, rfl⟩ := Nat.exists_eq_add_of_le hge
      have hk : k < new.length := by omega
      rw [hlate, List.getElem?_append_right (by simp [h.size]),
        List.getElem?_append_right (by simp), length_nodes, length_nodes, h.size,
        Nat.add_sub_cancel_left, Nat.add_sub_cancel_left, hmatch k hk, List.getElem?_map]
  · have hrange : ∀ m k, List.range' m k = (List.range k).map (m + ·) := fun m k => by
      rw [List.range_eq_range', List.map_add_range', Nat.add_zero]
    have hmap : ((List.range new.length).map τ).Perm (List.range new.length) :=
      perm_range_of_bijOn hτ
    rw [hlen, h.size, hrange, List.map_map]
    refine List.Perm.trans (List.Perm.of_eq ?_) (hmap.map (f.size + ·))
    rw [List.map_map]
    exact List.map_congr_left fun k _ => hlate k

end Frame

variable {σ : Type}

namespace Dissector

variable {ds es : List (Dissector σ)} {f g : Frame} {i j : ℕ} {threshold : Threshold}

/-! ### Dissectors in another order -/

/-- Dissectors in another order find the same layers in another order. -/
theorem findings_perm (hperm : ds.Perm es) (hl : ∀ d ∈ ds, d.IsLocal)
    (hp : f.path i = g.path j) (hi : f.layer? i = g.layer? j) :
    (findings ds f i = none ↔ findings es g j = none) ∧
      ∀ ls ms, findings ds f i = some ls → findings es g j = some ms → ls.Perm ms := by
  have hverdicts : ∀ ns, (verdicts ds f i ns).Perm (verdicts es g j ns) := fun ns => by
    rw [verdicts_congr hl hp]
    exact (hperm.filter _).map _
  rw [findings, findings, ← hi]
  cases f.layer? i with
  | none => exact ⟨Iff.rfl, fun _ _ h => by cases h⟩
  | some l => exact Verdict.collect_of_perm (hverdicts l.ns)

theorem offspring_perm (hperm : ds.Perm es) (hl : ∀ d ∈ ds, d.IsLocal)
    (hp : f.path i = g.path j) (hi : f.layer? i = g.layer? j) :
    (offspring threshold ds f i).Perm (offspring threshold es g j) := by
  obtain ⟨hnone, hsome⟩ := findings_perm hperm hl hp hi
  rw [offspring, offspring, ← hi]
  cases f.layer? i with
  | none => exact .refl _
  | some l =>
    rw [Option.bind_some, Option.bind_some]
    cases hls : findings ds f i with
    | none => rw [hnone.mp hls]
    | some ls =>
      obtain ⟨ms, hms⟩ := Option.ne_none_iff_exists'.mp (mt hnone.mpr (by simp [hls]))
      rw [hms]
      have hrank : (Dissection.rank threshold ls).Perm (Dissection.rank threshold ms) :=
        (List.mergeSort_perm _ _).trans
          (((hsome ls ms hls hms).filter _).trans (List.mergeSort_perm _ _).symm)
      exact hrank.map _

end Dissector

namespace Dissection

open Dissector

variable {d e : Dissection σ} {f : Frame} {φ : ℕ → ℕ} {threshold : Threshold}

/-! ### Dissections that are alike -/

/-- Two dissections that are alike but for the numbers of layers and the order of everything. -/
structure Twins (φ : ℕ → ℕ) (d e : Dissection σ) : Prop where
  /-- The frames are the same up to numbers. -/
  same : d.frame.Renaming e.frame φ
  /-- The one frame is a tree, -/
  built : d.frame.Built
  /-- and so is the other. -/
  built' : e.frame.Built
  /-- The same layers are looked at next, -/
  leaves : (d.leaves.map φ).Perm e.leaves
  /-- and they are there. -/
  lt : ∀ leaf ∈ d.leaves, leaf < d.frame.size
  /-- The same namespaces have been seen. -/
  visited : ∀ ns, ns ∈ d.visited ↔ ns ∈ e.visited
  /-- The same dissectors are at work. -/
  dissectors : (d.workers.map Worker.dissector).Perm (e.workers.map Worker.dissector)
  /-- They are local. -/
  isLocal : ∀ w ∈ d.workers, w.dissector.IsLocal
  /-- No worker of the one broke down, -/
  sound : d.faulted = false
  /-- nor one of the other. -/
  sound' : e.faulted = false

theorem Twins.lt' (h : Twins φ d e) : ∀ leaf ∈ e.leaves, leaf < e.frame.size := by
  intro leaf hleaf
  obtain ⟨i, hi, rfl⟩ := List.mem_map.mp (h.leaves.mem_iff.mpr hleaf)
  exact h.same.size ▸ h.same.lt (h.lt i hi)

theorem Twins.isLocal' (h : Twins φ d e) : ∀ w ∈ e.workers, w.dissector.IsLocal := by
  intro w hw
  obtain ⟨v, hv, hvw⟩ := List.mem_map.mp (h.dissectors.mem_iff.mpr (List.mem_map_of_mem hw))
  exact hvw ▸ h.isLocal v hv

/-- Twins grow by the same nodes. -/
theorem Twins.growth_perm (h : Twins φ d e) :
    ((growth threshold (d.workers.map Worker.dissector) d.frame d.leaves).map
        (Prod.map id (Option.map φ))).Perm
      (growth threshold (e.workers.map Worker.dissector) e.frame e.leaves) := by
  have hl : ∀ k ∈ d.workers.map Worker.dissector, k.IsLocal := by simpa using h.isLocal
  have hleaf : ∀ leaf ∈ d.leaves,
      ((offspring threshold (d.workers.map Worker.dissector) d.frame leaf).map
          fun l => (l, some (φ leaf))).Perm
        ((offspring threshold (e.workers.map Worker.dissector) e.frame (φ leaf)).map
          fun l => (l, some (φ leaf))) := fun leaf hleaf =>
    (offspring_perm h.dissectors hl
      (h.same.path h.built.wellFormed h.built'.wellFormed (h.lt leaf hleaf)).symm
      (h.same.layer? (h.lt leaf hleaf)).symm).map _
  refine List.Perm.trans (.of_eq ?_)
    ((List.Perm.flatMap_left d.leaves hleaf).trans
      (List.Perm.trans (.of_eq ?_) (h.leaves.flatMap_right _)))
  · rw [growth, List.map_flatMap]
    exact List.flatMap_congr fun leaf _ => by
      rw [List.map_map]
      rfl
  · rw [List.flatMap_map]

/-- A worker of the one breaks down exactly if one of the other does. -/
theorem Twins.faulted_expand_iff (h : Twins φ d e) :
    (expand threshold d.frame d.workers d.leaves).faulted = true ↔
      (expand threshold e.frame e.workers e.leaves).faulted = true := by
  have hl : ∀ k ∈ d.workers.map Worker.dissector, k.IsLocal := by simpa using h.isLocal
  have hsame : ∀ i ∈ d.leaves, findings (d.workers.map Worker.dissector) d.frame i = none ↔
      findings (e.workers.map Worker.dissector) e.frame (φ i) = none := fun i hi =>
    (findings_perm h.dissectors hl
      (h.same.path h.built.wellFormed h.built'.wellFormed (h.lt i hi)).symm
      (h.same.layer? (h.lt i hi)).symm).1
  rw [(expand_spec threshold h.isLocal h.lt).1, (expand_spec threshold h.isLocal' h.lt').1]
  constructor
  · rintro ⟨i, hi, hnone⟩
    exact ⟨φ i, h.leaves.mem_iff.mp (List.mem_map_of_mem hi), (hsame i hi).mp hnone⟩
  · rintro ⟨j, hj, hnone⟩
    obtain ⟨i, hi, rfl⟩ := List.mem_map.mp (h.leaves.mem_iff.mpr hj)
    exact ⟨i, hi, (hsame i hi).mpr hnone⟩

/-- What holds of a frame that a generation has added to: no layer has a new one as its parent. -/
theorem lt_of_mem_growth {new : List (Layer × Option ℕ)} {ds : List (Dissector σ)} {leaves : List ℕ}
    {g : Frame} (hf : f.Built) (hlt : ∀ leaf ∈ leaves, leaf < f.size)
    (hnew : new = growth threshold ds f leaves) (hg : g.nodes = f.nodes ++ new) :
    ∀ x ∈ g.nodes, ∀ p, x.2 = some p → p < f.size := by
  intro x hx p hp
  rw [hg, List.mem_append] at hx
  rcases hx with hx | hx
  · obtain ⟨i, hi⟩ := List.mem_iff_getElem?.mp hx
    have hpar : f.parent? i = some p := by rw [Frame.parent?_eq, hi, Option.bind_some, hp]
    exact (hf.wellFormed.lt_of_parent? hpar).trans (Frame.lt_of_parent?_eq_some hpar)
  · rw [hnew, growth, List.mem_flatMap] at hx
    obtain ⟨leaf, hleaf, hx⟩ := hx
    obtain ⟨l, -, rfl⟩ := List.mem_map.mp hx
    cases hp
    exact hlt _ hleaf

/-- **One generation keeps twins.** -/
theorem Twins.step (h : Twins φ d e) (hsound : (step threshold d).faulted = false) :
    ∃ ψ, Twins ψ (Dissection.step threshold d) (Dissection.step threshold e) := by
  have hsound' : (Dissection.step threshold e).faulted = false :=
    Bool.eq_false_iff.mpr (mt h.faulted_expand_iff.mpr (Bool.eq_false_iff.mp hsound))
  obtain ⟨-, hgrow, hdiss, hbuilt⟩ := expand_spec threshold h.isLocal h.lt
  obtain ⟨-, hgrow', hdiss', hbuilt'⟩ := expand_spec threshold h.isLocal' h.lt'
  obtain ⟨hnodes, hadded⟩ := hgrow hsound
  obtain ⟨hnodes', hadded'⟩ := hgrow' hsound'
  obtain ⟨ψ, hψ, hold, hids⟩ := h.same.extend hnodes hnodes' h.growth_perm
    (lt_of_mem_growth h.built h.lt rfl hnodes)
  rw [← hadded, ← hadded'] at hids
  have hlt : ∀ i ∈ (expand threshold d.frame d.workers d.leaves).added,
      i < (expand threshold d.frame d.workers d.leaves).frame.size := by
    intro i hi
    rw [hadded, List.mem_range'_1] at hi
    rw [← Frame.length_nodes, hnodes, List.length_append, Frame.length_nodes]
    exact hi.2
  have hns : ∀ i ∈ (expand threshold d.frame d.workers d.leaves).added,
      nsOf (expand threshold e.frame e.workers e.leaves).frame (ψ i) =
        nsOf (expand threshold d.frame d.workers d.leaves).frame i := fun i hi => by
    rw [nsOf, nsOf, hψ.layer? (hlt i hi)]
  have hleaves : ∀ {k : Dissection σ}, (Dissection.step threshold k).faulted = false →
      (Dissection.step threshold k).leaves =
        (expand threshold k.frame k.workers k.leaves).added.filter fun i =>
          !k.visited.contains (nsOf (expand threshold k.frame k.workers k.leaves).frame i) := by
    intro k hk
    exact if_neg (Bool.eq_false_iff.mp hk)
  refine ⟨ψ, ?_⟩
  constructor
  · exact hψ
  · exact hbuilt h.built
  · exact hbuilt' h.built'
  · rw [hleaves hsound, hleaves hsound']
    refine List.Perm.trans (.of_eq ?_) (hids.filter _)
    rw [List.filter_map]
    refine congrArg _ (List.filter_congr fun i hi => ?_)
    rw [Function.comp_apply, hns i hi, Bool.eq_iff_iff]
    simp [h.visited]
  · intro i hi
    rw [hleaves hsound] at hi
    exact hlt i (List.mem_of_mem_filter hi)
  · intro ns
    have hmem : ns ∈ (expand threshold d.frame d.workers d.leaves).added.map
          (nsOf (expand threshold d.frame d.workers d.leaves).frame) ↔
        ns ∈ (expand threshold e.frame e.workers e.leaves).added.map
          (nsOf (expand threshold e.frame e.workers e.leaves).frame) := by
      rw [← (hids.map _).mem_iff, List.map_map]
      exact (List.map_congr_left fun i hi => (hns i hi).symm) ▸ Iff.rfl
    exact List.mem_append.trans ((or_congr (h.visited ns) hmem).trans List.mem_append.symm)
  · exact hdiss.symm ▸ hdiss'.symm ▸ h.dissectors
  · intro w hw
    obtain ⟨v, hv, hvw⟩ := List.mem_map.mp (hdiss ▸ List.mem_map_of_mem hw)
    exact hvw ▸ h.isLocal v hv
  · exact hsound
  · exact hsound'

/-! ### Whole runs -/

theorem Twins.run (h : Twins φ d e) {n : ℕ} (hsound : (run threshold n d).faulted = false) :
    ∃ ψ, Twins ψ (Dissection.run threshold n d) (Dissection.run threshold n e) := by
  induction n generalizing d e φ with
  | zero => exact ⟨φ, h⟩
  | succ n ih =>
    have hempty : d.leaves.isEmpty = e.leaves.isEmpty := by
      rw [Bool.eq_iff_iff, List.isEmpty_iff_length_eq_zero, List.isEmpty_iff_length_eq_zero,
        ← h.leaves.length_eq, List.length_map]
    rw [Dissection.run] at hsound ⊢
    rw [Dissection.run, ← hempty]
    by_cases hd : d.leaves.isEmpty = true
    · rw [if_pos hd, if_pos hd]
      exact ⟨φ, h⟩
    · rw [if_neg hd] at hsound ⊢
      rw [if_neg hd]
      have hstep : (Dissection.step threshold d).faulted = false := by
        by_contra hf
        rw [Bool.not_eq_false] at hf
        have hnil : (Dissection.step threshold d).leaves = [] := if_pos hf
        rw [run_of_leaves_eq_nil hnil, hf] at hsound
        cases hsound
      obtain ⟨ψ, hψ⟩ := h.step hstep
      exact ih hψ hsound

/-- A dissection that starts is like one that starts with the dissectors in another order. -/
theorem twins_start {ds es : List (Dissector σ)} (hperm : ds.Perm es) (hl : ∀ k ∈ ds, k.IsLocal)
    (hf : f.Built) :
    Twins id (start f (ds.map Dissector.worker)) (start f (es.map Dissector.worker)) where
  same := Frame.Renaming.refl f
  built := hf
  built' := hf
  leaves := .of_eq (List.map_id _)
  lt := by
    intro leaf hleaf
    rw [List.mem_singleton.mp hleaf]
    exact f.size_pos
  visited _ := Iff.rfl
  dissectors := (hperm.map _).map _
  isLocal := by
    intro w hw
    obtain ⟨k, hk, rfl⟩ := List.mem_map.mp hw
    exact hl k hk
  sound := rfl
  sound' := rfl

/-- **The order of local dissectors makes no difference.** If a run ends with the dissectors in one
order, it ends with them in any other order after as many generations, with as many layers, and the
trees are the same up to the order of equally sure siblings. -/
theorem sameTree_of_perm {ds es : List (Dissector σ)} (hperm : ds.Perm es)
    (hl : ∀ k ∈ ds, k.IsLocal) (hf : f.Built) (threshold : Threshold) (n : ℕ)
    (hend : (run threshold n (start f (ds.map Dissector.worker))).leaves = [])
    (hsound : (run threshold n (start f (ds.map Dissector.worker))).faulted = false) :
    let d := run threshold n (start f (ds.map Dissector.worker))
    let e := run threshold n (start f (es.map Dissector.worker))
    e.leaves = [] ∧ e.faulted = false ∧ e.frame.size = d.frame.size ∧
      Frame.SameTree d.frame e.frame := by
  obtain ⟨ψ, h⟩ := (twins_start hperm hl hf).run hsound
  refine ⟨?_, h.sound', h.same.size, h.same.sameTree h.built.wellFormed h.built'.wellFormed⟩
  have := h.leaves
  rw [hend, List.map_nil] at this
  exact this.nil_eq.symm

end Dissection

/-! ### The built-in dissectors -/

namespace Protocol

theorem isLocal_dissector (name : String) (tokens : List String) (fits : Layer → Bool)
    (read : Layer → Layer) (memory : σ) : (dissector name tokens fits read memory).IsLocal :=
  Dissector.isLocal_stateless fun f g i j h => by rw [h]

/-- The built-in dissectors are local. -/
theorem isLocal_builtin (memory : σ) : ∀ d ∈ builtin memory, d.IsLocal := by
  intro d hd
  simp only [builtin, List.mem_cons, List.not_mem_nil, or_false] at hd
  rcases hd with rfl | rfl | rfl | rfl | rfl <;> exact isLocal_dissector _ _ _ _ memory

end Protocol

namespace Dissection

/-- Two dissectors that find a layer each in the same bytes and lead back to its namespace. -/
def echoes : List (Dissector Unit) :=
  ["left", "right"].map fun side => Protocol.dissector side ["eth"] (fun _ => true)
    (fun l => { ns := l.ns, summary := side, payload := l.payload }) ()

/-- A frame for both of them. -/
def silent : Frame := .ofRoot 1 .epoch 0 0 { ns := ⟨[.tentative "eth"]⟩ }

/-- Layers that are fully sure stay in the order given. -/
theorem rank_of_full {ls : List Layer} (h : ∀ l ∈ ls, l.confidence = .full) :
    rank Confidence.full.value ls = ls := by
  have hs : ∀ k ∈ ls, Confidence.full.value.le k.confidence.value = true := fun k hk => by
    rw [h k hk]
    rfl
  rw [rank, List.filter_eq_self.mpr hs]
  refine List.mergeSort_of_pairwise (List.pairwise_of_forall_mem_list fun l hl m hm => ?_)
  rw [surer, h l hl, h m hm]
  rfl

/-- Both find a layer, and the run ends with the first generation. -/
theorem run_echoes :
    (run Confidence.full.value 1 (start silent (echoes.map Dissector.worker))).leaves = [] ∧
      (run Confidence.full.value 1 (start silent (echoes.map Dissector.worker))).faulted = false ∧
      (run Confidence.full.value 1 (start silent (echoes.map Dissector.worker))).frame.size = 3 := by
  have hexpand : ∃ g, expand Confidence.full.value silent (echoes.map Dissector.worker)
      [Frame.rootId] = g ∧ g.faulted = false ∧ g.frame.size = 3 ∧
        (g.added.filter fun i => !List.contains [silent.root.ns] (nsOf g.frame i)) = [] := by
    refine ⟨_, (expand_cons_of_some rfl rfl).trans (by rw [rank_of_full (by simp)]), rfl, rfl, ?_⟩
    decide
  obtain ⟨g, hg, hsound, hsize, hnone⟩ := hexpand
  have hrun : run Confidence.full.value 1 (start silent (echoes.map Dissector.worker)) =
      step Confidence.full.value (start silent (echoes.map Dissector.worker)) := rfl
  rw [hrun]
  unfold step
  simp only [start, hg, hsound, hsize, hnone, Bool.false_eq_true, if_false, and_self]

/-- Two siblings change places. -/
theorem sameTree_echoes :
    let d := run Confidence.full.value 1 (start silent (echoes.map Dissector.worker))
    let e := run Confidence.full.value 1 (start silent (echoes.reverse.map Dissector.worker))
    e.leaves = [] ∧ e.faulted = false ∧ e.frame.size = d.frame.size ∧
      Frame.SameTree d.frame e.frame := by
  refine sameTree_of_perm (List.reverse_perm echoes).symm ?_ (.root ..) _ 1
    run_echoes.1 run_echoes.2.1
  intro d hd
  obtain ⟨side, -, rfl⟩ := List.mem_map.mp hd
  exact Protocol.isLocal_dissector _ _ _ _ ()

end Dissection

end PacketTree
