import Mathlib.Data.List.TakeWhile
import PacketTree.Proofs.Dissection.Looks
import PacketTree.Proofs.Frame.Walks

/-!
# The order of siblings

What the workers return for a layer is put in order twice: the layers of one generation are sorted, with
zeros told apart by their sign, and each of them is then put before the first sibling that is less sure,
with zeros taken for equal. This module proves what the two orders together make of the children of
every layer.

## What is proved

* `siblings_ordered`: the children of a layer are what was returned for it, the surest first and, if two
  are as sure, in the order of the workers that returned them, except that `0.0` comes before `-0.0`; and
  a layer that is added later comes behind all siblings that are at least as sure.
* `not_registered`: because of this exception, equally sure siblings need not stand in the order of
  their workers.

## The model

Workers that are `noting` remember what they returned and for which layer. `returned` reads off what
they remember of one layer, in the order of the workers.
-/

namespace PacketTree

variable {σ : Type}

/-! ### Sorting that keeps ties in order -/

/-- What stands in one order before it is sorted by another stays so among ties. -/
theorem pairwise_mergeSort_of_pairwise {α : Type*} {le : α → α → Bool} {R : α → α → Prop}
    (trans : ∀ a b c : α, le a b = true → le b c = true → le a c = true)
    (total : ∀ a b : α, (le a b || le b a) = true) {l : List α} (h : l.Pairwise R) :
    (l.mergeSort le).Pairwise fun a b => le a b = true ∧ (le b a = true → R a b) := by
  induction l with
  | nil => simp
  | cons a l ih =>
    obtain ⟨ha, hl⟩ := List.pairwise_cons.mp h
    obtain ⟨front, back, hall, hrest, hfront⟩ := List.mergeSort_cons trans total a l
    have hsorted := List.pairwise_mergeSort trans total (a :: l)
    have hmem : ∀ b ∈ front ++ back, b ∈ l := fun b hb => by
      rwa [← hrest, List.mem_mergeSort] at hb
    have hih := hrest ▸ ih hl
    rw [hall] at hsorted ⊢
    rw [List.pairwise_append] at hsorted hih ⊢
    obtain ⟨-, hback, hacross⟩ := hsorted
    refine ⟨hih.1, List.pairwise_cons.mpr ⟨fun b hb => ?_, hih.2.1⟩, fun b hb c hc => ?_⟩
    · exact ⟨(List.pairwise_cons.mp hback).1 b hb,
        fun _ => ha b (hmem b (List.mem_append_right _ hb))⟩
    · rcases List.mem_cons.mp hc with rfl | hc
      · refine ⟨hacross b hb c List.mem_cons_self, fun hle => ?_⟩
        have := hfront b hb
        simp [hle] at this
      · exact hih.2.2 b hb c hc

/-! ### Confidences that are as sure -/

namespace Double

theorem eq_of_parts {x y : Double} (hs : x.negative = y.negative) (hm : x.magnitude = y.magnitude) :
    x = y := by
  obtain ⟨a⟩ := x
  obtain ⟨b⟩ := y
  have ha := a.toNat_lt
  have hb := b.toNat_lt
  simp only [negative, magnitude, signUnit, ge_iff_le, decide_eq_decide] at hs hm
  rw [show a = b from UInt64.toNat_inj.mp (by omega)]

end Double

namespace Confidence

theorem isNaN_value (c : Confidence) : c.value.isNaN = false := by
  have := c.zero_le
  simp only [Double.le, Bool.and_eq_true, Bool.not_eq_true'] at this
  exact this.1.2

theorem key_nonneg (c : Confidence) : 0 ≤ c.value.key := by
  have := c.zero_le
  simp only [Double.le, Bool.and_eq_true, decide_eq_true_eq, Double.key_zero] at this
  exact this.2

/-- Below zero there is nothing but `-0.0`. -/
theorem magnitude_eq_zero (c : Confidence) (h : c.value.negative = true) : c.value.magnitude = 0 := by
  have := c.key_nonneg
  rw [Double.key, if_pos h] at this
  omega

theorem lt_iff (c d : Confidence) : c.value.lt d.value = true ↔ c.value.key < d.value.key := by
  simp [Double.lt, isNaN_value]

theorem le_iff (c d : Confidence) : c.value.le d.value = true ↔ c.value.key ≤ d.value.key := by
  simp [Double.le, isNaN_value]

/-- Two confidences that are sorted are so numerically, or they are one number, or the two zeros. -/
theorem of_totalKey_le {c d : Confidence} (h : d.value.totalKey ≤ c.value.totalKey) :
    d.value.lt c.value = true ∨ (c = d ∧ c.value.totalKey ≤ d.value.totalKey) ∨
      (c.value = .zero ∧ d.value = Double.zero.neg) := by
  have hc := c.magnitude_eq_zero
  have hd := d.magnitude_eq_zero
  rw [lt_iff]
  rcases hcs : c.value.negative <;> rcases hds : d.value.negative <;>
    simp only [Double.totalKey, Double.key, hcs, hds, if_true, Bool.false_eq_true, if_false,
      forall_const, false_imp_iff] at h hc hd ⊢
  · rcases (Int.le_iff_lt_or_eq.mp h) with hlt | heq
    · exact .inl hlt
    · have hv : c.value = d.value :=
        Double.eq_of_parts (hcs.trans hds.symm) (by omega)
      exact .inr (.inl ⟨by cases c; cases d; simpa using hv, heq.ge⟩)
  · by_cases hz : c.value.magnitude = 0
    · refine .inr (.inr ⟨Double.eq_of_parts hcs (hz.trans (by decide)), ?_⟩)
      exact Double.eq_of_parts hds (hd.trans (by decide))
    · exact .inl (by omega)
  · omega
  · have hv : c.value = d.value := Double.eq_of_parts (hcs.trans hds.symm) (hc.trans hd.symm)
    exact .inr (.inl ⟨by cases c; cases d; simpa using hv, by omega⟩)

end Confidence

/-! ### What is remembered of a layer -/

/-- A layer that a worker returned, with the place of that worker among all workers. -/
structure Returned where
  /-- The place of the worker. -/
  place : ℕ
  /-- What it returned. -/
  layer : Layer

namespace Worker

variable {ws us : List (Worker (σ × List Offer))} {vs : List (Worker σ)} {f : Frame} {ns : Namespace}
  {id place p : ℕ} {found : List Layer}

/-- What workers, the first of which stands at a place, noted for the layer with a number. -/
def returned (id place : ℕ) (ws : List (Worker (σ × List Offer))) : List Returned :=
  (ws.zipIdx place).flatMap fun w =>
    (w.1.memory.2.filter (·.parent = id)).map fun o => ⟨w.2, o.layer⟩

theorem returned_cons (id place : ℕ) (w : Worker (σ × List Offer))
    (ws : List (Worker (σ × List Offer))) :
    returned id place (w :: ws) =
      (w.memory.2.filter (·.parent = id)).map (fun o => ⟨place, o.layer⟩) ++
        returned id (place + 1) ws := by
  rw [returned, List.zipIdx_cons, List.flatMap_cons]
  rfl

theorem mem_returned {o : Returned} :
    o ∈ returned id 0 ws ↔ ∃ w, ws[o.place]? = some w ∧ ⟨id, o.layer⟩ ∈ w.memory.2 := by
  simp only [returned, List.mem_flatMap, List.mem_map, List.mem_filter, decide_eq_true_eq,
    Prod.exists, List.mem_zipIdx_iff_getElem?]
  constructor
  · rintro ⟨w, i, hw, q, ⟨hq, rfl⟩, rfl⟩
    exact ⟨w, hw, hq⟩
  · rintro ⟨w, hw, hq⟩
    exact ⟨w, o.place, hw, _, ⟨hq, rfl⟩, rfl⟩

theorem le_place_of_mem_returned {o : Returned} (h : o ∈ returned id place ws) : place ≤ o.place := by
  obtain ⟨w, hw, ho⟩ := List.mem_flatMap.mp h
  obtain ⟨q, -, rfl⟩ := List.mem_map.mp ho
  exact List.le_snd_of_mem_zipIdx hw

theorem returned_workers (ds : List (Dissector σ)) (id place : ℕ) :
    returned id place (ds.map (·.noting.worker)) = [] := by
  induction ds generalizing place with
  | nil => rfl
  | cons d ds ih =>
    rw [List.map_cons, returned_cons, ih]
    rfl

/-- What workers noted when a layer was looked at: what was found, each with the place of its worker and
in the order of the workers. Of other layers nothing was noted. -/
structure Noted (id place : ℕ) (ws us : List (Worker (σ × List Offer))) (found : List Layer) :
    Prop where
  found : (returned id place us).map Returned.layer = found
  rising : (returned id place us).Pairwise fun a b => a.place < b.place
  others : ∀ p ≠ id, returned p place us = returned p place ws

/-- One more worker in front, which noted a layer or none. -/
theorem Noted.cons {w w' : Worker (σ × List Offer)} {l : Option Layer}
    (h : Noted id (place + 1) ws us found)
    (hmine : w'.memory.2.filter (·.parent = id) = l.toList.map (Offer.mk id))
    (hothers : ∀ p ≠ id, w'.memory.2.filter (·.parent = p) = w.memory.2.filter (·.parent = p)) :
    Noted id place (w :: ws) (w' :: us) (l.toList ++ found) where
  found := by
    rw [returned_cons, hmine, List.map_append, h.found, List.map_map, List.map_map]
    exact congrArg (· ++ found) (List.map_id _)
  rising := by
    rw [returned_cons, hmine]
    cases l with
    | none => exact h.rising
    | some l => exact List.pairwise_cons.mpr ⟨fun b hb => le_place_of_mem_returned hb, h.rising⟩
  others p hp := by
    rw [returned_cons, returned_cons, hothers p hp, h.others p hp]

/-- **What is noted when a layer is looked at** is what is found. -/
theorem returned_callAll (h : List.Forall₂ Notes ws vs) (hnone : returned id place ws = [])
    (hcall : callAll f id ns ws = (us, some found)) : Noted id place ws us found := by
  induction h generalizing place us found with
  | nil =>
    cases hcall
    exact ⟨rfl, .nil, fun _ _ => rfl⟩
  | @cons w v ws vs hw _ ih =>
    rw [returned_cons, List.append_eq_nil_iff, List.map_eq_nil_iff] at hnone
    obtain ⟨hfirst, hnone⟩ := hnone
    rw [callAll] at hcall
    split at hcall
    · obtain ⟨-, hverdict, hnoted⟩ := hw.call f id
      rcases hc : w.call f id with ⟨w', verdict⟩
      rw [hc] at hcall hnoted hverdict
      rw [← hverdict] at hnoted
      dsimp only at hnoted
      have hothers : ∀ p ≠ id, w'.memory.2.filter (·.parent = p) =
          w.memory.2.filter (·.parent = p) := by
        intro p hp
        rw [hnoted, List.filter_append]
        cases verdict <;> simp [Verdict.offers, Ne.symm hp]
      rcases hrest : callAll f id ns ws with ⟨us', found'⟩
      cases verdict with
      | fault => cases hcall
      | nothing =>
        rw [hrest] at hcall
        cases hcall
        have hmine : w'.memory.2.filter (·.parent = id) = [] := by
          rw [hnoted, List.filter_append, hfirst]
          rfl
        exact (ih hnone hrest).cons (l := none) hmine hothers
      | found l =>
        rw [hrest] at hcall
        simp only [Prod.mk.injEq, Option.map_eq_some_iff] at hcall
        obtain ⟨rfl, ls, rfl, rfl⟩ := hcall
        have hmine : w'.memory.2.filter (·.parent = id) = [⟨id, l⟩] := by
          rw [hnoted, List.filter_append, hfirst]
          simp [Verdict.offers]
        exact (ih hnone hrest).cons (l := some l) hmine hothers
    · rcases hrest : callAll f id ns ws with ⟨us', found'⟩
      rw [hrest] at hcall
      cases hcall
      exact (ih hnone hrest).cons (l := none) hfirst fun _ _ => rfl

end Worker

namespace Frame

variable {f g : Frame} {parent id p : ℕ} {l : Layer}

/-- A layer that is not there has no children. -/
theorem WellFormed.children_of_le (hf : f.WellFormed) (h : f.size ≤ id) : f.children id = [] := by
  refine List.eq_nil_iff_forall_not_mem.mpr fun c hc => ?_
  have hp := (hf.mem_children id c).mp hc
  have := (hf.lt_of_parent? hp).trans (lt_of_parent?_eq_some hp)
  omega

/-- **Where a layer is put**: behind all siblings that are at least as sure and before all others. -/
theorem exists_front_back (hf : f.WellFormed) (h : f.attach? parent l = some g) :
    ∃ front back, f.children parent = front ++ back ∧
      g.children parent = front ++ f.size :: back ∧
      (∀ c ∈ front, ∃ m, f.layer? c = some m ∧ l.confidence.value.le m.confidence.value = true) ∧
      ∀ c ∈ back, ∃ m, f.layer? c = some m ∧ m.confidence.value.lt l.confidence.value = true := by
  let keeps : ℕ → Bool := fun s => !f.lessSure l.confidence s
  have hcut := (f.children parent).takeWhile_append_dropWhile (p := keeps)
  refine ⟨(f.children parent).takeWhile keeps, (f.children parent).dropWhile keeps, hcut.symm, ?_,
    fun c hc => ?_, ?_⟩
  · rw [children_attach? h, if_pos rfl]
    rfl
  · have hlt := hf.lt_of_mem_children ((List.takeWhile_sublist _).subset hc)
    obtain ⟨m, hm⟩ := exists_layer?_of_lt hlt
    have hkeep := List.mem_takeWhile_imp hc
    refine ⟨m, hm, (Confidence.le_iff _ _).mpr ?_⟩
    simp only [keeps, Bool.not_eq_true', Bool.eq_false_iff] at hkeep
    rw [ne_eq, lessSure_iff hlt, sureness, hm, Option.elim_some] at hkeep
    omega
  · rcases hback : (f.children parent).dropWhile keeps with _ | ⟨b, back⟩
    · exact List.forall_mem_nil _
    · have hsorted := hf.sorted parent
      rw [← hcut, hback, List.pairwise_append] at hsorted
      have hfirst : f.lessSure l.confidence b = true := by
        have := List.head?_dropWhile_not keeps (f.children parent)
        rw [hback] at this
        simpa [keeps] using this
      intro c hc
      have hmem : ∀ c ∈ b :: back, c < f.size := fun c hc =>
        hf.lt_of_mem_children ((List.dropWhile_sublist _).subset (hback ▸ hc))
      obtain ⟨m, hm⟩ := exists_layer?_of_lt (hmem c hc)
      refine ⟨m, hm, (Confidence.lt_iff _ _).mpr ?_⟩
      have hb := (lessSure_iff (hmem b List.mem_cons_self)).mp hfirst
      have hle : f.sureness c ≤ f.sureness b := by
        rcases List.mem_cons.mp hc with rfl | hc
        · exact le_rfl
        · exact (List.pairwise_cons.mp hsorted.2.1).1 c hc
      have hmc : f.sureness c = m.confidence.value.key := by rw [sureness, hm, Option.elim_some]
      omega

end Frame

namespace Dissection

open PacketTree.Frame Worker

variable {f g : Frame} {threshold : Threshold} {ws us : List (Worker (σ × List Offer))}
  {vs : List (Worker σ)} {leaves : List ℕ} {parent p id : ℕ} {root : Layer} {found : List Layer}

/-! ### One generation -/

/-- Layers that are added below a layer, each no surer than its siblings, come behind these. -/
theorem children_attachAll (hp : parent < f.size) (payload : ByteView) {ls : List Layer}
    (hsure : ∀ c ∈ f.children parent, ∀ l ∈ ls, f.lessSure l.confidence c = false)
    (hls : ls.Pairwise fun l m => l.confidence.value.lt m.confidence.value = false)
    (hf : f.WellFormed) :
    (attachAll f parent payload ls).1.WellFormed ∧
      (attachAll f parent payload ls).1.children parent =
        f.children parent ++ List.range' f.size ls.length ∧
      ∀ q ≠ parent, (attachAll f parent payload ls).1.children q = f.children q := by
  induction ls generalizing f with
  | nil => exact ⟨hf, (List.append_nil _).symm, fun _ _ => rfl⟩
  | cons l ls ih =>
    obtain ⟨hl, hls⟩ := List.pairwise_cons.mp hls
    obtain ⟨g, hg⟩ := exists_attach? hp (contain payload l)
    have hsize := size_of_attach?_eq_some hg
    have hplace : g.children parent = f.children parent ++ [f.size] := by
      have hkeep : ∀ c ∈ f.children parent, (!f.lessSure l.confidence c) = true := fun c hc => by
        rw [hsure c hc l List.mem_cons_self]
        rfl
      rw [children_attach? hg, if_pos rfl, confidence_contain, placeChild,
        List.takeWhile_eq_self_iff.mpr hkeep, List.dropWhile_eq_nil_iff.mpr hkeep]
    have hnext : ∀ c ∈ g.children parent, ∀ m ∈ ls, g.lessSure m.confidence c = false := by
      intro c hc m hm
      rw [lessSure, layer?_of_attach?_eq_some hg]
      rw [hplace, List.mem_append, List.mem_singleton] at hc
      rcases hc with hc | rfl
      · rw [if_neg (Nat.ne_of_lt (hf.lt_of_mem_children hc))]
        exact hsure c hc m (List.mem_cons_of_mem _ hm)
      · rw [if_pos rfl, Option.any_some, confidence_contain]
        exact hl m hm
    obtain ⟨hwell, hchildren, hothers⟩ := ih (f := g) (by omega) hnext hls (hf.attach? hg)
    rw [attachAll, hg]
    refine ⟨hwell, ?_, fun q hq => ?_⟩
    · rw [hchildren, hplace, hsize, List.append_assoc, List.length_cons, List.range'_succ]
      rfl
    · rw [hothers q hq, children_attach? hg, if_neg hq]

/-- What is ranked stands in the order of the comparison that sorts it, none surer than one before. -/
theorem pairwise_rank (threshold : Threshold) (found : List Layer) :
    (rank threshold found).Pairwise fun l m => l.confidence.value.lt m.confidence.value = false := by
  refine (List.pairwise_mergeSort (fun a b c hab hbc => ?_) (fun a b => ?_) _).imp fun {a b} hab => ?_
  · simp only [surer, decide_eq_true_eq] at hab hbc ⊢
    omega
  · simp only [surer, Bool.or_eq_true, decide_eq_true_eq]
    omega
  · rw [Bool.eq_false_iff, ne_eq, Confidence.lt_iff]
    rcases Confidence.of_totalKey_le (of_decide_eq_true hab) with hlt | ⟨heq, -⟩ | ⟨ha, hb⟩
    · have := (Confidence.lt_iff _ _).mp hlt
      omega
    · rw [heq]
      omega
    · rw [ha, hb]
      decide

/-- The children of a layer are what was returned for it, ranked; and this is remembered in the order
of the workers. -/
structure Arranged (threshold : Threshold) (f : Frame) (ws : List (Worker (σ × List Offer))) : Prop where
  /-- The numbers make a tree. -/
  wellFormed : f.WellFormed
  /-- The children are what was returned, ranked. -/
  children : ∀ p l, f.layer? p = some l → (f.children p).map f.layer? =
    (rank threshold ((returned p 0 ws).map Returned.layer)).map fun m => some (contain l.payload m)
  /-- What was returned is remembered in the order of the workers. -/
  rising : ∀ p, (returned p 0 ws).Pairwise fun a b => a.place < b.place
  /-- Nothing is remembered of layers that are not there. -/
  absent : ∀ p, f.size ≤ p → returned p 0 ws = []

/-- Nothing was found yet for a layer. -/
def Untouched (f : Frame) (ws : List (Worker (σ × List Offer))) (p : ℕ) : Prop :=
  f.children p = [] ∧ returned p 0 ws = []

theorem Arranged.untouched_of_le (h : Arranged threshold f ws) (hp : f.size ≤ p) : Untouched f ws p :=
  ⟨h.wellFormed.children_of_le hp, h.absent p hp⟩

/-- Adding what was found for an untouched layer keeps the arrangement, and touches no other layer. -/
theorem Arranged.attachAll (h : Arranged threshold f ws) (hws : List.Forall₂ Notes ws vs) {l : Layer}
    (hl : f.layer? id = some l) (hid : Untouched f ws id)
    (hcall : callAll f id l.ns ws = (us, some found)) :
    Arranged threshold (attachAll f id l.payload (rank threshold found)).1 us ∧
      ∀ q ≠ id, Untouched f ws q →
        Untouched (Dissection.attachAll f id l.payload (rank threshold found)).1 us q := by
  have hlt : id < f.size := layer?_isSome_iff.mp (hl ▸ rfl)
  obtain ⟨hnodes, -, -⟩ := attachAll_spec hlt l.payload (rank threshold found)
  obtain ⟨hwell, hchildren, hothers⟩ := children_attachAll hlt l.payload
    (by rw [hid.1]; exact List.forall_mem_nil _) (pairwise_rank threshold found) h.wellFormed
  obtain ⟨hfound, hrising, hreturned⟩ := returned_callAll hws hid.2 hcall
  generalize Dissection.attachAll f id l.payload (rank threshold found) = a at *
  have hpre : f.nodes <+: a.1.nodes := hnodes ▸ List.prefix_append _ _
  have hsize : f.size ≤ a.1.size := by simpa using hpre.length_le
  refine ⟨⟨hwell, fun p m hm => ?_, fun p => ?_, fun p hp => ?_⟩, fun q hq hu => ?_⟩
  · by_cases hp : p = id
    · subst hp
      rw [layer?_of_isPrefix hpre hlt, hl, Option.some.injEq] at hm
      subst hm
      rw [hchildren, hid.1, hfound, List.nil_append]
      refine List.ext_getElem (by simp) fun k hk hk' => ?_
      have hrank : k < (rank threshold found).length := by simpa using hk
      rw [List.getElem_map, List.getElem_map, List.getElem_range', Nat.one_mul, layer?_eq, hnodes,
        List.getElem?_append_right (by simp), length_nodes, Nat.add_sub_cancel_left,
        List.getElem?_map, List.getElem?_eq_getElem hrank]
      rfl
    · rw [hothers p hp, hreturned p hp]
      rcases lt_or_ge p f.size with hlt' | hge
      · rw [layer?_of_isPrefix hpre hlt'] at hm
        rw [← h.children p m hm]
        exact List.map_congr_left fun c hc =>
          layer?_of_isPrefix hpre (h.wellFormed.lt_of_mem_children hc)
      · rw [h.wellFormed.children_of_le hge, h.absent p hge]
        simp [rank]
  · by_cases hp : p = id
    · exact hp ▸ hrising
    · exact hreturned p hp ▸ h.rising p
  · rw [hreturned p (Nat.ne_of_gt (hlt.trans_le (hsize.trans hp)))]
    exact h.absent p (hsize.trans hp)
  · exact ⟨(hothers q hq).trans hu.1, (hreturned q hq).trans hu.2⟩

/-- A generation that does not break off keeps the arrangement, and touches none but its leaves. -/
theorem Arranged.expand (h : Arranged threshold f ws) (hws : List.Forall₂ Notes ws vs)
    (hnodup : leaves.Nodup) (hlt : ∀ leaf ∈ leaves, leaf < f.size)
    (hleaves : ∀ leaf ∈ leaves, Untouched f ws leaf)
    (hsound : (expand threshold f ws leaves).faulted = false) :
    Arranged threshold (expand threshold f ws leaves).frame (expand threshold f ws leaves).workers ∧
      ∀ q ∉ leaves, Untouched f ws q → Untouched (Dissection.expand threshold f ws leaves).frame
        (Dissection.expand threshold f ws leaves).workers q := by
  induction leaves generalizing f ws vs with
  | nil => exact ⟨h, fun _ _ hu => hu⟩
  | cons leaf leaves ih =>
    obtain ⟨hfresh, hnodup⟩ := List.nodup_cons.mp hnodup
    obtain ⟨hleaf, hlt⟩ := List.forall_mem_cons.mp hlt
    obtain ⟨huntouched, hleaves⟩ := List.forall_mem_cons.mp hleaves
    obtain ⟨l, hl⟩ := exists_layer?_of_lt hleaf
    rcases hcall : callAll f leaf l.ns ws with ⟨us, _ | found⟩
    · rw [expand_cons_of_none hl hcall] at hsound
      cases hsound
    · rw [expand_cons_of_some hl hcall] at hsound ⊢
      obtain ⟨harranged, hkept⟩ := h.attachAll hws hl huntouched hcall
      obtain ⟨hnodes, -, -⟩ := attachAll_spec hleaf l.payload (rank threshold found)
      have hus : List.Forall₂ Notes us (callAll f leaf l.ns vs).1 := by
        have := (callAll_notes hws f leaf l.ns).1
        rwa [hcall] at this
      dsimp only at hsound ⊢
      generalize Dissection.attachAll f leaf l.payload (rank threshold found) = a at *
      have hpre : f.nodes <+: a.1.nodes := hnodes ▸ List.prefix_append _ _
      have hsize : f.size ≤ a.1.size := by simpa using hpre.length_le
      have hother : ∀ q ∈ leaves, q ≠ leaf := fun q hq heq => hfresh (heq ▸ hq)
      obtain ⟨hend, hrest⟩ := ih harranged hus hnodup (fun i hi => (hlt i hi).trans_le hsize)
        (fun i hi => hkept i (hother i hi) (hleaves i hi)) hsound
      refine ⟨hend, fun q hq hu => ?_⟩
      rw [List.mem_cons, not_or] at hq
      exact hrest q hq.2 (hkept q hq.1 hu)

/-! ### All generations -/

/-- Two dissections, the first with workers that note what those of the second return, in which the
children of every layer are arranged. -/
structure Settled (threshold : Threshold) (root : Layer) (e : Dissection (σ × List Offer))
    (d : Dissection σ) : Prop where
  /-- The first takes notes of the second. -/
  noting : Noting threshold root e d
  /-- No layer is looked at twice. -/
  nodup : e.leaves.Nodup
  /-- Unless a worker broke down, the children are arranged, -/
  arranged : e.faulted = false → Arranged threshold e.frame e.workers
  /-- and the layers to look at next have none. -/
  untouched : ∀ leaf ∈ e.leaves, Untouched e.frame e.workers leaf

theorem settled_start (index : ℕ) (timestamp : Instant) (length sourceId : ℕ) (root : Layer)
    (ds : List (Dissector σ)) (threshold : Threshold) :
    Settled threshold root (start (ofRoot index timestamp length sourceId root)
        (ds.map (·.noting.worker)))
      (start (ofRoot index timestamp length sourceId root) (ds.map Dissector.worker)) := by
  have hwell := wellFormed_ofRoot index timestamp length sourceId root
  have hchildren : ∀ p, (ofRoot index timestamp length sourceId root).children p = [] := by
    intro p
    cases p <;> simp [Frame.children, ofRoot]
  have hnone : ∀ p, returned p 0 (ds.map (·.noting.worker)) = [] := fun p => returned_workers ds p 0
  constructor
  · exact noting_start index timestamp length sourceId root ds threshold
  · exact List.nodup_singleton _
  · intro _
    refine ⟨hwell, fun p l _ => ?_, fun p => ?_, fun p _ => hnone p⟩
    · change (Frame.children _ p).map _ = (rank _ ((returned p 0 (ds.map (·.noting.worker))).map _)).map _
      rw [hnone]
      simp [start, hchildren, rank]
    · change (returned p 0 (ds.map (·.noting.worker))).Pairwise _
      rw [hnone]
      exact .nil
  · exact fun leaf _ => ⟨hchildren leaf, hnone leaf⟩

theorem Settled.step {e : Dissection (σ × List Offer)} {d : Dissection σ}
    (h : Settled threshold root e d) (hleaves : d.leaves ≠ []) :
    Settled threshold root (Dissection.step threshold e) (Dissection.step threshold d) := by
  have hsound : e.faulted = false := by
    rw [h.noting.faulted, Bool.eq_false_iff]
    exact fun hfault => hleaves (h.noting.stops hfault)
  have hlt : ∀ leaf ∈ e.leaves, leaf < e.frame.size := by
    rw [h.noting.leaves, h.noting.frame]
    exact h.noting.lt
  have harranged := h.arranged hsound
  have hexpand := harranged.expand h.noting.workers h.nodup hlt h.untouched
  refine ⟨h.noting.step hleaves, nodup_leaves_step threshold e, fun hnext => (hexpand hnext).1, ?_⟩
  intro leaf hleaf
  obtain ⟨new, -, hadded, -⟩ := expand_adds threshold e.frame e.workers e.leaves
  rw [Dissection.step] at hleaf
  split at hleaf
  · cases hleaf
  · next hnext =>
    have hnew : e.frame.size ≤ leaf := by
      have := List.mem_of_mem_filter hleaf
      rw [hadded, List.mem_range'_1] at this
      exact this.1
    exact (hexpand (by simpa using hnext)).2 leaf
      (fun hmem => Nat.not_lt.mpr hnew (hlt leaf hmem)) (harranged.untouched_of_le hnew)

theorem Settled.run {e : Dissection (σ × List Offer)} {d : Dissection σ}
    (h : Settled threshold root e d) (n : ℕ) :
    Settled threshold root (Dissection.run threshold n e) (Dissection.run threshold n d) := by
  induction n generalizing e d with
  | zero => exact h
  | succ n ih =>
    rw [Dissection.run, Dissection.run, h.noting.leaves]
    split
    · exact h
    · next hleaves => exact ih (h.step fun hnil => hleaves (List.isEmpty_iff.mpr hnil))

/-! ### The order -/

/-- The order of siblings: the surer first, or, of two with one confidence, the one that was returned by
the earlier worker; and `0.0` before `-0.0`. -/
inductive Before (a b : Returned) : Prop where
  /-- The first is surer. -/
  | surer (h : b.layer.confidence.value.lt a.layer.confidence.value = true)
  /-- They have one confidence, and the worker of the first comes first. -/
  | earlier (same : a.layer.confidence = b.layer.confidence) (h : a.place < b.place)
  /-- They are as sure, but the zero of the second has a sign. -/
  | zeros (ha : a.layer.confidence.value = .zero) (hb : b.layer.confidence.value = Double.zero.neg)

/-- **What ranking does to layers that are remembered in the order of their workers.** -/
theorem exists_order (threshold : Threshold) {rs : List Returned}
    (h : rs.Pairwise fun a b => a.place < b.place) :
    ∃ order : List Returned,
      (∀ o, o ∈ order ↔ o ∈ rs ∧ threshold.le o.layer.confidence.value = true) ∧
      order.Pairwise Before ∧ (order.map Returned.place).Nodup ∧
      order.map Returned.layer = rank threshold (rs.map Returned.layer) := by
  let sureEnough : Returned → Bool := fun o => threshold.le o.layer.confidence.value
  let le : Returned → Returned → Bool := fun a b => Dissection.surer a.layer b.layer
  have hrising : (rs.filter sureEnough).Pairwise fun a b => a.place < b.place := h.filter _
  have hperm := List.mergeSort_perm (rs.filter sureEnough) le
  refine ⟨(rs.filter sureEnough).mergeSort le, fun o => ?_, ?_, ?_, ?_⟩
  · rw [hperm.mem_iff, List.mem_filter]
  · refine (pairwise_mergeSort_of_pairwise (fun a b c hab hbc => ?_) (fun a b => ?_) hrising).imp
      fun {a b} hab => ?_
    · simp only [le, Dissection.surer, decide_eq_true_eq] at hab hbc ⊢
      omega
    · simp only [le, Dissection.surer, Bool.or_eq_true, decide_eq_true_eq]
      omega
    · rcases Confidence.of_totalKey_le (of_decide_eq_true hab.1) with hlt | ⟨heq, hback⟩ | ⟨ha, hb⟩
      · exact .surer hlt
      · exact .earlier heq (hab.2 (decide_eq_true hback))
      · exact .zeros ha hb
  · refine (hperm.map Returned.place).nodup_iff.mpr (List.pairwise_map.mpr ?_)
    exact hrising.imp fun hlt => Nat.ne_of_lt hlt
  · rw [rank, List.filter_map]
    exact List.map_mergeSort fun _ _ _ _ => rfl

/-- **The order of siblings.** Whatever the workers return and remember, after any number of generations
on a frame that was only a root: unless a worker broke down, the children of every layer are what was
returned for it by the workers, at most one by each, and is sure enough, the surest first, those with one
confidence in the order of their workers, and `0.0` before `-0.0`. However many layers are added then, the
next one comes behind all siblings that are at least as sure and before all others, and no other
layer's children change. -/
theorem siblings_ordered (ds : List (Dissector σ)) (threshold : Threshold) (index : ℕ)
    (timestamp : Instant) (length sourceId : ℕ) (root : Layer) (n : ℕ) :
    let f := ofRoot index timestamp length sourceId root
    let d := run threshold n (start f (ds.map Dissector.worker))
    let e := run threshold n (start f (ds.map (·.noting.worker)))
    e.frame = d.frame ∧ e.workers.map Worker.dissector = ds.map Dissector.noting ∧
    (d.faulted = false → ∀ p l, d.frame.layer? p = some l →
      ∃ order : List Returned,
        (∀ o, o ∈ order ↔ threshold.le o.layer.confidence.value = true ∧
          ∃ w, e.workers[o.place]? = some w ∧ ⟨p, o.layer⟩ ∈ w.memory.2) ∧
        order.Pairwise Before ∧ (order.map Returned.place).Nodup ∧
        (d.frame.children p).map d.frame.layer? =
          order.map fun o => some (contain l.payload o.layer)) ∧
    ∀ (calls : List (ℕ × Entry)) (parent : ℕ) (l : Layer) (g : Frame),
      let h := d.frame.adopting calls
      h.attach? parent l = some g →
        (∃ front back, h.children parent = front ++ back ∧
          g.children parent = front ++ h.size :: back ∧
          (∀ c ∈ front, ∃ m, h.layer? c = some m ∧ l.confidence.value.le m.confidence.value = true) ∧
          ∀ c ∈ back, ∃ m, h.layer? c = some m ∧ m.confidence.value.lt l.confidence.value = true) ∧
        ∀ q ≠ parent, g.children q = h.children q := by
  intro f d e
  have hsettled : Settled threshold root e d :=
    (settled_start index timestamp length sourceId root ds threshold).run n
  have hbuilt : d.frame.Built :=
    (contained_run (d := start f (ds.map Dissector.worker))
      (.root index timestamp length sourceId root)
      (contained_ofRoot index timestamp length sourceId root) threshold n).1
  obtain ⟨-, -, hdissectors, -⟩ := @exists_looks _ threshold f (ds.map (·.noting.worker)) rfl n
  refine ⟨hsettled.noting.frame, ?_, fun hsound p l hl => ?_, fun calls parent l g => ?_⟩
  · refine hdissectors.trans ?_
    rw [List.map_map]
    rfl
  · have harranged := hsettled.arranged (hsettled.noting.faulted.trans hsound)
    obtain ⟨order, hmem, hbefore, hnodup, hranked⟩ := exists_order threshold (harranged.rising p)
    refine ⟨order, fun o => ?_, hbefore, hnodup, ?_⟩
    · rw [hmem, mem_returned, and_comm]
    · rw [← hsettled.noting.frame] at hl ⊢
      rw [harranged.children p l hl, ← hranked, List.map_map]
      rfl
  · intro h hg
    have hwell := (hbuilt.adopting calls).wellFormed
    refine ⟨exists_front_back hwell hg, fun q hq => ?_⟩
    rw [children_attach? hg, if_neg hq]

/-! ### Two zeros -/

/-- The surer first, or, of two that are as sure, the one that was returned by the earlier worker. -/
def Registered (a b : Returned) : Prop :=
  b.layer.confidence.value.lt a.layer.confidence.value = true ∨
    a.layer.confidence.value.eq b.layer.confidence.value = true ∧ a.place < b.place

/-- A layer with the same bytes and a confidence. -/
def again (l : Layer) (name : String) (x : Double) : Layer :=
  { ns := l.ns, confidence := .ofDouble x, summary := name, payload := l.payload }

/-- Two dissectors that find a layer each in the same bytes, the first with the confidence `-0.0` and
the second with `0.0`. -/
def zeros : List (Dissector Unit) :=
  [("first", Double.zero.neg), ("second", Double.zero)].map fun d =>
    .stateless d.1 [.suffix (.parse "root")] () fun f id => (f.layer? id).map fun l => again l d.1 d.2

/-- A frame for both of them. -/
def bare : Frame := .ofRoot 1 .epoch 1 0 { ns := .parse "root" }

/-- What the first dissector finds. -/
def negativeZero : Layer := again bare.root "first" Double.zero.neg

/-- What the second dissector finds. -/
def positiveZero : Layer := again bare.root "second" .zero

/-- The zero without a sign is ranked first. -/
theorem rank_zeros : rank .zero [negativeZero, positiveZero] = [positiveZero, negativeZero] := by
  have hswap : ∀ a b : Layer, surer a b = false → [a, b].mergeSort surer = [b, a] := by
    intro a b h
    simp [List.mergeSort, List.MergeSort.Internal.splitInTwo, h]
  have hsure : ∀ l ∈ [negativeZero, positiveZero], Double.zero.le l.confidence.value = true := by
    intro l hl
    rcases List.mem_pair.mp hl with rfl | rfl <;> decide
  rw [rank, List.filter_eq_self.mpr hsure]
  exact hswap _ _ (by decide)

/-- The frame with what both of them find. -/
def bareWithZeros : Frame :=
  (attachAll bare rootId bare.root.payload [positiveZero, negativeZero]).1

/-- The one generation that there is, with any workers that find these two layers. -/
theorem run_zeros {τ : Type} (ws us : List (Worker τ))
    (hcall : callAll bare rootId bare.root.ns ws = (us, some [negativeZero, positiveZero])) :
    (run .zero 1 (start bare ws)).frame = bareWithZeros ∧ (run .zero 1 (start bare ws)).workers = us ∧
      (run .zero 1 (start bare ws)).leaves = [] ∧ (run .zero 1 (start bare ws)).faulted = false := by
  have hexpand : expand .zero bare ws [rootId] = ⟨bareWithZeros, us, [1, 2], false⟩ := by
    rw [expand_cons_of_some rfl hcall, rank_zeros]
    rfl
  have hrun : run .zero 1 (start bare ws) = step .zero (start bare ws) := rfl
  rw [hrun, step, show (start bare ws).frame = bare from rfl,
    show (start bare ws).leaves = [rootId] from rfl, show (start bare ws).workers = ws from rfl, hexpand]
  have hknown : ([1, 2].filter fun id => !List.contains [bare.root.ns] (nsOf bareWithZeros id)) = [] := by
    decide
  exact ⟨rfl, rfl, hknown, rfl⟩

/-- **Siblings that are as sure need not stand in the order of their workers.** -/
theorem not_registered :
    ¬ ∀ (ds : List (Dissector Unit)) (threshold : Threshold) (root : Layer) (n : ℕ),
      Double.zero.le threshold = true → threshold.le Double.one = true →
      let f := ofRoot 1 .epoch 1 0 root
      let d := run threshold n (start f (ds.map Dissector.worker))
      let e := run threshold n (start f (ds.map (·.noting.worker)))
      d.leaves = [] → d.faulted = false → ∀ p l, d.frame.layer? p = some l →
        ∃ order : List Returned,
          (∀ o, o ∈ order ↔ threshold.le o.layer.confidence.value = true ∧
            ∃ w, e.workers[o.place]? = some w ∧ ⟨p, o.layer⟩ ∈ w.memory.2) ∧
          order.Pairwise Registered ∧
          (d.frame.children p).map d.frame.layer? =
            order.map fun o => some (contain l.payload o.layer) := by
  intro h
  obtain ⟨hframe, -, hleaves, hsound⟩ :=
    run_zeros (zeros.map Dissector.worker) (zeros.map Dissector.worker) rfl
  obtain ⟨-, hworkers, -, -⟩ := run_zeros (zeros.map (·.noting.worker))
    (zeros.map fun d => ⟨d.noting, ((), [⟨rootId,
      if d.name = "first" then negativeZero else positiveZero⟩])⟩) rfl
  have hroot : (run .zero 1 (start bare (zeros.map Dissector.worker))).frame.layer? rootId =
      some bare.root := by
    rw [hframe]
    rfl
  obtain ⟨order, hmem, hpairwise, hchildren⟩ :=
    h zeros .zero bare.root 1 (by decide) (by decide) hleaves hsound rootId bare.root hroot
  rw [show ofRoot 1 .epoch 1 0 bare.root = bare from rfl, hworkers] at hmem
  rw [show ofRoot 1 .epoch 1 0 bare.root = bare from rfl, hframe] at hchildren
  -- Each layer tells by its summary which worker returned it.
  have hplace : ∀ o ∈ order, (o.place = 0 ∧ o.layer = negativeZero) ∨
      (o.place = 1 ∧ o.layer = positiveZero) := by
    intro o ho
    obtain ⟨-, w, hw, hnoted⟩ := (hmem o).mp ho
    rcases hp : o.place with _ | _ | k
    · rw [hp] at hw
      cases hw
      exact .inl ⟨rfl, congrArg Offer.layer (List.mem_singleton.mp hnoted)⟩
    · rw [hp] at hw
      cases hw
      exact .inr ⟨rfl, congrArg Offer.layer (List.mem_singleton.mp hnoted)⟩
    · rw [hp] at hw
      cases hw
  have hsummaries : order.map (·.layer.summary) = ["second", "first"] := by
    have hcontain : ∀ o ∈ order,
        (some (contain bare.root.payload o.layer)).map Layer.summary = some o.layer.summary := by
      intro o ho
      rcases hplace o ho with ⟨-, hl⟩ | ⟨-, hl⟩ <;> rw [hl] <;> rfl
    refine List.map_injective_iff.mpr (Option.some_injective String) ?_
    calc (order.map (·.layer.summary)).map some
        _ = order.map fun o => (some (contain bare.root.payload o.layer)).map Layer.summary := by
          rw [List.map_congr_left hcontain, List.map_map]
          rfl
        _ = (order.map fun o => some (contain bare.root.payload o.layer)).map (·.map Layer.summary) := by
          rw [List.map_map]
          rfl
        _ = ["second", "first"].map some := by
          rw [← hchildren]
          rfl
  obtain ⟨a, b, rfl⟩ : ∃ a b, order = [a, b] :=
    List.length_eq_two.mp (by simpa using congrArg List.length hsummaries)
  simp only [List.map_cons, List.map_nil, List.cons.injEq, and_true] at hsummaries
  obtain ⟨ha, hal⟩ : a.place = 1 ∧ a.layer = positiveZero := by
    refine (hplace a (by simp)).resolve_left fun hfirst => ?_
    rw [hfirst.2] at hsummaries
    exact absurd hsummaries.1 (by decide)
  obtain ⟨hb, hbl⟩ : b.place = 0 ∧ b.layer = negativeZero := by
    refine (hplace b (by simp)).resolve_right fun hsecond => ?_
    rw [hsecond.2] at hsummaries
    exact absurd hsummaries.2 (by decide)
  have hregistered : Registered a b := by simpa using hpairwise
  rw [Registered, ha, hb, hal, hbl] at hregistered
  exact absurd hregistered (by decide)

end Dissection

end PacketTree
