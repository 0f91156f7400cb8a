import PacketTree.Proofs.Dissection.Generation

/-!
# Payloads lie within payloads

Workers may return any layer, with a payload out of any buffer. What is added to a frame lies within
its parent nevertheless: a layer that does not loses its payload and is marked, and every other layer is
added as it was returned.

## What is proved

* `contained_run`: no generation puts a layer outside its parent.
* `Noting.run`: a dissection with workers that note what they return adds the same layers, and these
  are what was noted and is sure enough.
* `payloads_contained`: both together, with what became of every layer that was returned.

## The model

To compare the layers of a frame with those that workers returned, every dissector gets a copy that
is `noting`: its workers do what the others do, and remember besides what they returned and for which
layer. Nothing is assumed of the dissectors: workers may return anything and remember anything.
-/

namespace PacketTree

open scoped List

variable {σ : Type}

/-! ### Frames whose layers lie within each other -/

namespace Frame

variable {f g : Frame} {id parent a : ℕ} {l m : Layer}

/-- Every layer carries a part of what its parent carries. -/
def Contained (f : Frame) : Prop :=
  ∀ (id p : ℕ) (l m : Layer), f.parent? id = some p → f.layer? id = some l → f.layer? p = some m →
    l.payload.Within m.payload

theorem contained_ofRoot (index : ℕ) (timestamp : Instant) (length sourceId : ℕ) (root : Layer) :
    (ofRoot index timestamp length sourceId root).Contained := by
  intro id p l m hp
  cases id <;> simp [parent?, ofRoot] at hp

theorem Contained.attach? (h : f.Contained) (hf : f.WellFormed) (hm : f.layer? parent = some m)
    (hl : l.payload.Within m.payload) (hg : f.attach? parent l = some g) : g.Contained := by
  intro id p k n hp hk hn
  rw [parent?_attach? hg] at hp
  rw [layer?_of_attach?_eq_some hg] at hk hn
  split at hp
  · next hid =>
    rw [Option.some.injEq] at hp
    subst hp
    rw [if_pos hid, Option.some.injEq] at hk
    rw [if_neg (Nat.ne_of_lt (lt_of_attach?_eq_some hg)), hm, Option.some.injEq] at hn
    rwa [← hk, ← hn]
  · next hid =>
    have hlt : p < f.size := (hf.lt_of_parent? hp).trans (lt_of_parent?_eq_some hp)
    rw [if_neg hid] at hk
    rw [if_neg (Nat.ne_of_lt hlt)] at hn
    exact h id p k n hp hk hn

/-- A layer lies within all layers above it. -/
theorem Contained.within_of_mem_ancestors (h : f.Contained) (hf : f.WellFormed)
    (hl : f.layer? id = some l) (ha : a ∈ f.ancestors id) :
    ∃ m, f.layer? a = some m ∧ l.payload.Within m.payload := by
  induction id using Nat.strongRecOn generalizing l with
  | _ id ih =>
    rw [ancestors] at ha
    rcases List.mem_cons.mp ha with rfl | ha
    · exact ⟨l, hl, .refl _⟩
    · rcases hp : f.parent? id with _ | p
      · simp [hp] at ha
      · have hlt := hf.lt_of_parent? hp
        simp only [hp, if_pos hlt] at ha
        obtain ⟨n, hn⟩ := exists_layer?_of_lt (hlt.trans (lt_of_parent?_eq_some hp))
        obtain ⟨m, hm, hwithin⟩ := ih p hlt hn ha
        exact ⟨m, hm, (h id p l n hp hl hn).trans hwithin⟩

/-- The root is above every layer. -/
theorem WellFormed.rootId_mem_ancestors (hf : f.WellFormed) (hid : id < f.size) :
    rootId ∈ f.ancestors id := by
  induction id using Nat.strongRecOn with
  | _ id ih =>
    rw [ancestors]
    rcases Nat.eq_zero_or_pos id with rfl | hpos
    · exact List.mem_cons_self
    · obtain ⟨p, hlt, hp⟩ := hf.parent id hpos hid
      simp only [hp, if_pos hlt]
      exact List.mem_cons_of_mem _ (ih p hlt (hlt.trans hid))

end Frame

namespace Dissection

open PacketTree.Frame

variable {f : Frame} {ws : List (Worker σ)} {parent : ℕ} {l : Layer} {threshold : Threshold}

/-- What is put below a layer lies within it. -/
theorem within_contain (parent : ByteView) (l : Layer) : (contain parent l).payload.Within parent := by
  unfold contain
  split
  · next h => exact h
  · exact ByteView.within_drop _ _

theorem contained_attachAll (hf : f.Built) (h : f.Contained) (hl : f.layer? parent = some l)
    (ls : List Layer) :
    (attachAll f parent l.payload ls).1.Built ∧ (attachAll f parent l.payload ls).1.Contained := by
  induction ls generalizing f with
  | nil => exact ⟨hf, h⟩
  | cons k ls ih =>
    rw [attachAll]
    rcases hg : f.attach? parent (contain l.payload k) with _ | g
    · exact ih hf h hl
    · refine ih (hf.attach hg) (h.attach? hf.wellFormed hl (within_contain _ k) hg) ?_
      rw [layer?_of_attach?_eq_some hg, if_neg (Nat.ne_of_lt (lt_of_attach?_eq_some hg)), hl]

theorem contained_expand (hf : f.Built) (h : f.Contained) (threshold : Threshold)
    (ws : List (Worker σ)) (leaves : List ℕ) :
    (expand threshold f ws leaves).frame.Built ∧ (expand threshold f ws leaves).frame.Contained := by
  induction leaves generalizing f ws with
  | nil => exact ⟨hf, h⟩
  | cons leaf leaves ih =>
    rw [expand]
    rcases hl : f.layer? leaf with _ | l
    · exact ih hf h ws
    · dsimp only
      rcases Worker.callAll f leaf l.ns ws with ⟨us, _ | found⟩
      · exact ⟨hf, h⟩
      · obtain ⟨hbuilt, hcontained⟩ := contained_attachAll hf h hl (rank threshold found)
        exact ih hbuilt hcontained us

/-- **No generation puts a layer outside its parent.** -/
theorem contained_run {d : Dissection σ} (hf : d.frame.Built) (h : d.frame.Contained)
    (threshold : Threshold) (n : ℕ) :
    (run threshold n d).frame.Built ∧ (run threshold n d).frame.Contained := by
  induction n generalizing d with
  | zero => exact ⟨hf, h⟩
  | succ n ih =>
    rw [run]
    split
    · exact ⟨hf, h⟩
    · obtain ⟨hbuilt, hcontained⟩ := contained_expand hf h threshold d.workers d.leaves
      exact ih hbuilt hcontained

end Dissection

/-! ### Workers that note what they return -/

/-- A layer that a worker returned for another one. -/
structure Offer where
  /-- The number of the layer that the worker looked at. -/
  parent : ℕ
  /-- What it returned. -/
  layer : Layer

/-- The layer of a verdict on the layer with a number. -/
def Verdict.offers (id : ℕ) : Verdict → List Offer
  | .found l => [⟨id, l⟩]
  | _ => []

/-- The dissector with workers that remember besides what they returned. -/
def Dissector.noting (d : Dissector σ) : Dissector (σ × List Offer) where
  name := d.name
  patterns := d.patterns
  fresh := (d.fresh, [])
  analyze := fun memory f id =>
    let (rest, verdict) := d.analyze memory.1 f id
    ((rest, memory.2 ++ verdict.offers id), verdict)

namespace Worker

variable {w : Worker (σ × List Offer)} {v : Worker σ} {ws : List (Worker (σ × List Offer))}
  {vs : List (Worker σ)}

/-- The first worker does what the second does, and takes notes. -/
def Notes (w : Worker (σ × List Offer)) (v : Worker σ) : Prop :=
  w.dissector = v.dissector.noting ∧ w.memory.1 = v.memory

/-- The notes of some workers. -/
def notes (ws : List (Worker (σ × List Offer))) : List Offer := ws.flatMap (·.memory.2)

theorem notes_cons (w : Worker (σ × List Offer)) (ws : List (Worker (σ × List Offer))) :
    notes (w :: ws) = w.memory.2 ++ notes ws := List.flatMap_cons

theorem notes_workers (ds : List (Dissector σ)) : notes (ds.map (·.noting.worker)) = [] := by
  refine List.flatMap_eq_nil_iff.mpr fun w hw => ?_
  obtain ⟨d, -, rfl⟩ := List.mem_map.mp hw
  rfl

theorem forall₂_notes_workers (ds : List (Dissector σ)) :
    List.Forall₂ Notes (ds.map (·.noting.worker)) (ds.map Dissector.worker) := by
  induction ds with
  | nil => exact .nil
  | cons d ds ih => exact .cons ⟨rfl, rfl⟩ ih

theorem Notes.call (h : Notes w v) (f : Frame) (id : ℕ) :
    Notes (w.call f id).1 (v.call f id).1 ∧ (w.call f id).2 = (v.call f id).2 ∧
      (w.call f id).1.memory.2 = w.memory.2 ++ (v.call f id).2.offers id := by
  obtain ⟨d, memory, notes⟩ := w
  obtain ⟨rfl, rfl⟩ := h
  exact ⟨⟨rfl, rfl⟩, rfl, rfl⟩

/-- All workers together note what they return, in some order. -/
theorem callAll_notes (h : List.Forall₂ Notes ws vs) (f : Frame) (id : ℕ) (ns : Namespace) :
    List.Forall₂ Notes (callAll f id ns ws).1 (callAll f id ns vs).1 ∧
      (callAll f id ns ws).2 = (callAll f id ns vs).2 ∧
      ∀ found, (callAll f id ns vs).2 = some found →
        notes (callAll f id ns ws).1 ~ notes ws ++ found.map (Offer.mk id) := by
  induction h with
  | nil => exact ⟨.nil, rfl, fun found hfound => by cases hfound; exact .refl _⟩
  | @cons w v ws vs hw hrest ih =>
    obtain ⟨hworkers, hfound, hnotes⟩ := ih
    have hselects : w.dissector.selects ns = v.dissector.selects ns := by rw [hw.1]; rfl
    rw [callAll, callAll, hselects]
    split
    · obtain ⟨hcall, hverdict, hnoted⟩ := hw.call f id
      rcases hcw : w.call f id with ⟨w', verdict'⟩
      rcases hcv : v.call f id with ⟨v', verdict⟩
      rw [hcw, hcv] at hcall hverdict
      rw [hcw, hcv] at hnoted
      obtain rfl : verdict' = verdict := hverdict
      cases verdict' with
      | fault => exact ⟨.cons hcall hrest, rfl, fun found hnone => by cases hnone⟩
      | nothing =>
        refine ⟨.cons hcall hworkers, hfound, fun found hf => ?_⟩
        have hsame : w'.memory.2 = w.memory.2 := by simpa [Verdict.offers] using hnoted
        rw [notes_cons, notes_cons, hsame, List.append_assoc]
        exact (hnotes found hf).append_left _
      | found l =>
        refine ⟨.cons hcall hworkers, by simp only [hfound], fun found hf => ?_⟩
        obtain ⟨ls, hls, rfl⟩ := Option.map_eq_some_iff.mp hf
        have hmore : w'.memory.2 = w.memory.2 ++ [⟨id, l⟩] := hnoted
        rw [notes_cons, notes_cons, hmore, List.append_assoc, List.append_assoc, List.map_cons]
        refine .append_left _ ?_
        calc [Offer.mk id l] ++ notes (callAll f id ns ws).1
            _ ~ [Offer.mk id l] ++ (notes ws ++ ls.map (Offer.mk id)) :=
              (hnotes ls hls).append_left _
            _ ~ notes ws ++ ([Offer.mk id l] ++ ls.map (Offer.mk id)) :=
              List.perm_append_comm_assoc ..
    · refine ⟨.cons hw hworkers, hfound, fun found hf => ?_⟩
      rw [notes_cons, notes_cons, List.append_assoc]
      exact (hnotes found hf).append_left _

end Worker

namespace Dissection

open PacketTree.Frame Worker

variable {f g : Frame} {threshold : Threshold} {ws : List (Worker (σ × List Offer))}
  {vs : List (Worker σ)} {leaves : List ℕ} {root : Layer}

/-- The offers that are sure enough. -/
def sure (threshold : Threshold) (offers : List Offer) : List Offer :=
  offers.filter fun o => threshold.le o.layer.confidence.value

/-- What is added to a frame for an offer. -/
def nodeOf (f : Frame) (o : Offer) : Layer × Option ℕ :=
  (((f.layer? o.parent).map fun l => contain l.payload o.layer).getD o.layer, some o.parent)

theorem map_nodeOf_of_isPrefix (h : f.nodes <+: g.nodes) {offers : List Offer}
    (hlt : ∀ o ∈ offers, o.parent < f.size) : offers.map (nodeOf g) = offers.map (nodeOf f) :=
  List.map_congr_left fun o ho => by rw [nodeOf, nodeOf, layer?_of_isPrefix h (hlt o ho)]

/-- What is sure enough of the layers found for a leaf are the layers added below it. -/
theorem sure_found (threshold : Threshold) (leaf : ℕ) (found : List Layer) :
    sure threshold (found.map (Offer.mk leaf)) ~ (rank threshold found).map (Offer.mk leaf) := by
  rw [sure, List.filter_map]
  exact ((List.mergeSort_perm _ _).map _).symm

/-- Whatever the workers do, a generation leaves all layers in their places, and what it adds is
there. -/
theorem expand_grows (threshold : Threshold) (f : Frame) (vs : List (Worker σ)) (leaves : List ℕ) :
    f.nodes <+: (expand threshold f vs leaves).frame.nodes ∧
      ∀ id ∈ (expand threshold f vs leaves).added, id < (expand threshold f vs leaves).frame.size := by
  induction leaves generalizing f vs with
  | nil => exact ⟨List.prefix_refl _, List.forall_mem_nil _⟩
  | cons leaf leaves ih =>
    rcases hl : f.layer? leaf with _ | l
    · rw [expand, hl]
      exact ih f vs
    · rcases hcall : callAll f leaf l.ns vs with ⟨us, _ | found⟩
      · rw [expand_cons_of_none hl hcall]
        exact ⟨List.prefix_refl _, List.forall_mem_nil _⟩
      · rw [expand_cons_of_some hl hcall]
        have hleaf : leaf < f.size := layer?_isSome_iff.mp (hl ▸ rfl)
        obtain ⟨hnodes, hids, -⟩ := attachAll_spec hleaf l.payload (rank threshold found)
        dsimp only
        generalize attachAll f leaf l.payload (rank threshold found) = a at hnodes hids ⊢
        obtain ⟨hpre, hthere⟩ := ih a.1 us
        refine ⟨(hnodes ▸ List.prefix_append _ _).trans hpre, fun id hid => ?_⟩
        rcases List.mem_append.mp hid with hid | hid
        · have hsize : a.1.size = f.size + (rank threshold found).length := by
            rw [← length_nodes, hnodes]
            simp
          have hmore : a.1.size ≤ (expand threshold a.1 us leaves).frame.size := by
            simpa using hpre.length_le
          rw [hids, List.mem_range'_1] at hid
          exact hid.2.trans_le (hsize ▸ hmore)
        · exact hthere id hid

/-- A generation of noting workers adds the same layers, and what was noted in it was added. -/
theorem expand_notes (threshold : Threshold) (h : List.Forall₂ Notes ws vs)
    (hlt : ∀ leaf ∈ leaves, leaf < f.size) :
    let e := expand threshold f ws leaves
    let d := expand threshold f vs leaves
    e.frame = d.frame ∧ e.added = d.added ∧ e.faulted = d.faulted ∧
      List.Forall₂ Notes e.workers d.workers ∧
      (d.faulted = false → ∃ offers : List Offer, (∀ o ∈ offers, o.parent ∈ leaves) ∧
        d.frame.nodes = f.nodes ++ offers.map (nodeOf f) ∧
        sure threshold (notes e.workers) ~ sure threshold (notes ws) ++ offers) := by
  induction leaves generalizing f ws vs with
  | nil => exact ⟨rfl, rfl, rfl, h, fun _ => ⟨[], by simp [expand]⟩⟩
  | cons leaf leaves ih =>
    obtain ⟨hleaf, hlt⟩ := List.forall_mem_cons.mp hlt
    obtain ⟨l, hl⟩ := exists_layer?_of_lt hleaf
    obtain ⟨hworkers, hfound, hnotes⟩ := callAll_notes h f leaf l.ns
    rcases hcw : callAll f leaf l.ns ws with ⟨us, foundw⟩
    rcases hcv : callAll f leaf l.ns vs with ⟨ts, _ | found⟩ <;> rw [hcw, hcv] at hfound hworkers <;>
      obtain rfl : foundw = _ := hfound
    · rw [expand_cons_of_none hl hcw, expand_cons_of_none hl hcv]
      exact ⟨rfl, rfl, rfl, hworkers, fun hfault => by cases hfault⟩
    · rw [hcw, hcv] at hnotes
      rw [expand_cons_of_some hl hcw, expand_cons_of_some hl hcv]
      obtain ⟨hnodes, -, -⟩ := attachAll_spec hleaf l.payload (rank threshold found)
      dsimp only
      generalize attachAll f leaf l.payload (rank threshold found) = a at hnodes ⊢
      have hpre : f.nodes <+: a.1.nodes := hnodes ▸ List.prefix_append _ _
      have hsize : f.size ≤ a.1.size := by simpa using hpre.length_le
      obtain ⟨hframe, hadded, hfaulted, hrest, hoffers⟩ :=
        ih (f := a.1) hworkers fun i hi => (hlt i hi).trans_le hsize
      refine ⟨hframe, by rw [hadded], hfaulted, hrest, fun hfault => ?_⟩
      obtain ⟨offers, hparents, hmore, hsure⟩ := hoffers hfault
      refine ⟨(rank threshold found).map (Offer.mk leaf) ++ offers, ?_, ?_, ?_⟩
      · intro o ho
        rcases List.mem_append.mp ho with ho | ho
        · obtain ⟨k, -, rfl⟩ := List.mem_map.mp ho
          exact List.mem_cons_self
        · exact List.mem_cons_of_mem _ (hparents o ho)
      · have hfirst : ((rank threshold found).map (Offer.mk leaf)).map (nodeOf f) =
            (rank threshold found).map fun k => (contain l.payload k, some leaf) := by
          simp [nodeOf, hl]
        rw [hmore, hnodes, map_nodeOf_of_isPrefix hpre fun o ho => hlt _ (hparents o ho),
          List.map_append, hfirst, List.append_assoc]
      · have hfirst : sure threshold (notes us) ~
            sure threshold (notes ws) ++ (rank threshold found).map (Offer.mk leaf) := by
          refine ((hnotes found rfl).filter _).trans ?_
          rw [List.filter_append]
          exact (sure_found threshold leaf found).append_left _
        rw [← List.append_assoc]
        exact hsure.trans (hfirst.append_right _)

/-- Two dissections that started from a root, one with workers that note what those of the other
return. -/
structure Noting (threshold : Threshold) (root : Layer) (e : Dissection (σ × List Offer))
    (d : Dissection σ) : Prop where
  /-- The frames are the same, -/
  frame : e.frame = d.frame
  /-- so are the namespaces of all generations, -/
  visited : e.visited = d.visited
  /-- the layers to look at next, -/
  leaves : e.leaves = d.leaves
  /-- and whether a worker broke down. -/
  faulted : e.faulted = d.faulted
  /-- The root is still there. -/
  top : d.frame.layer? rootId = some root
  /-- The workers of the first note what those of the second return. -/
  workers : List.Forall₂ Notes e.workers d.workers
  /-- The layers to look at next are there. -/
  lt : ∀ leaf ∈ d.leaves, leaf < d.frame.size
  /-- A breakdown is the end. -/
  stops : d.faulted = true → d.leaves = []
  /-- Otherwise all that was noted and is sure enough was added, and nothing else. -/
  offers : d.faulted = false → ∃ offers : List Offer,
    offers ~ sure threshold (notes e.workers) ∧ (∀ o ∈ offers, o.parent < d.frame.size) ∧
      d.frame.nodes = (root, none) :: offers.map (nodeOf d.frame)

theorem noting_start (index : ℕ) (timestamp : Instant) (length sourceId : ℕ) (root : Layer)
    (ds : List (Dissector σ)) (threshold : Threshold) :
    Noting threshold root (start (ofRoot index timestamp length sourceId root)
        (ds.map (·.noting.worker)))
      (start (ofRoot index timestamp length sourceId root) (ds.map Dissector.worker)) where
  frame := rfl
  visited := rfl
  leaves := rfl
  faulted := rfl
  top := rfl
  workers := forall₂_notes_workers ds
  lt := by
    intro leaf hleaf
    rw [List.mem_singleton.mp hleaf]
    exact Nat.one_pos
  stops := nofun
  offers _ := by
    refine ⟨[], ?_, List.forall_mem_nil _, rfl⟩
    rw [show notes (start (ofRoot index timestamp length sourceId root)
      (ds.map (·.noting.worker))).workers = [] from notes_workers ds]
    exact .refl _

theorem Noting.step {e : Dissection (σ × List Offer)} {d : Dissection σ}
    (h : Noting threshold root e d) (hleaves : d.leaves ≠ []) :
    Noting threshold root (Dissection.step threshold e) (Dissection.step threshold d) := by
  have hsound : d.faulted = false := by
    rw [Bool.eq_false_iff]
    exact fun hfault => hleaves (h.stops hfault)
  obtain ⟨offers, hperm, hold, hnodes⟩ := h.offers hsound
  obtain ⟨hframe, hadded, hfaulted, hworkers, hmore⟩ := expand_notes threshold h.workers h.lt
  obtain ⟨hpre, hthere⟩ := expand_grows threshold d.frame d.workers d.leaves
  have hsame : expand threshold e.frame e.workers e.leaves =
      expand threshold d.frame e.workers d.leaves := by rw [h.frame, h.leaves]
  have hnew : ∀ leaf ∈ (Dissection.step threshold d).leaves,
      leaf ∈ (expand threshold d.frame d.workers d.leaves).added := by
    intro leaf hleaf
    rw [Dissection.step] at hleaf
    split at hleaf
    · cases hleaf
    · exact List.mem_of_mem_filter hleaf
  constructor
  · rw [Dissection.step, hsame]
    exact hframe
  · simp only [Dissection.step, hsame, h.visited, hframe, hadded]
  · simp only [Dissection.step, hsame, h.visited, hframe, hadded, hfaulted]
  · rw [Dissection.step, hsame]
    exact hfaulted
  · exact (layer?_of_isPrefix hpre (layer?_isSome_iff.mp (h.top ▸ rfl))).trans h.top
  · rw [Dissection.step, hsame]
    exact hworkers
  · exact fun leaf hleaf => hthere leaf (hnew leaf hleaf)
  · intro hfault
    rw [Dissection.step]
    exact if_pos hfault
  · intro hsound'
    obtain ⟨more, hparents, hgrown, hnoted⟩ := hmore hsound'
    have hlt : ∀ o ∈ offers ++ more, o.parent < d.frame.size := by
      intro o ho
      rcases List.mem_append.mp ho with ho | ho
      · exact hold o ho
      · exact h.lt _ (hparents o ho)
    have hsize : d.frame.size ≤ (expand threshold d.frame d.workers d.leaves).frame.size := by
      simpa using hpre.length_le
    refine ⟨offers ++ more, ?_, fun o ho => (hlt o ho).trans_le hsize, ?_⟩
    · rw [Dissection.step, hsame]
      exact (hperm.append_right more).trans hnoted.symm
    · rw [show (Dissection.step threshold d).frame.nodes = _ from hgrown, hnodes,
        List.cons_append, ← List.map_append]
      exact congrArg _ (map_nodeOf_of_isPrefix hpre hlt).symm

theorem Noting.run {e : Dissection (σ × List Offer)} {d : Dissection σ}
    (h : Noting threshold root e d) (n : ℕ) :
    Noting threshold root (Dissection.run threshold n e) (Dissection.run threshold n d) := by
  induction n generalizing e d with
  | zero => exact h
  | succ n ih =>
    rw [Dissection.run, Dissection.run, h.leaves]
    split
    · exact h
    · next hleaves => exact ih (h.step fun hnil => hleaves (List.isEmpty_iff.mpr hnil))

/-! ### What becomes of what workers return -/

/-- What is added for a returned layer below one with this payload: the layer itself if it lies within
the payload, and else the layer with the error and the empty end of the payload. -/
structure Becomes (parent : ByteView) (returned added : Layer) : Prop where
  /-- A layer that lies within its parent is left alone. -/
  kept : returned.payload.Within parent → added = returned
  /-- Of another one the error and the payload are replaced. -/
  marked : ¬returned.payload.Within parent → added.error = "payload outside parent layer" ∧
    added.payload.SameOrigin parent ∧ added.payload.start = parent.stop ∧
    added.payload.stop = parent.stop ∧
    added = { returned with error := added.error, payload := added.payload }

theorem becomes_contain (parent : ByteView) (l : Layer) : Becomes parent l (contain parent l) := by
  constructor
  · intro h
    rw [contain, if_pos h]
  · intro h
    rw [contain, if_neg h]
    exact ⟨rfl, rfl, parent.start_tail, parent.stop_tail, rfl⟩

/-- **Layers lie within their parents, and nothing else is changed.** Whatever the workers return and
remember, after any number of generations on a frame that was only a root: every other layer lies within
its parent, within all layers above it and so within the root; and unless a worker broke down, the
layers are, in some order, those that workers returned and that are sure enough, each below the layer
that it was returned for and as it was returned, or marked if it lies outside. -/
theorem payloads_contained (ds : List (Dissector σ)) (threshold : Threshold) (index : ℕ)
    (timestamp : Instant) (length sourceId : ℕ) (root : Layer) (n : ℕ) :
    let f := ofRoot index timestamp length sourceId root
    let d := run threshold n (start f (ds.map Dissector.worker))
    let e := run threshold n (start f (ds.map (·.noting.worker)))
    (∀ id l, 0 < id → d.frame.layer? id = some l →
      (∃ p m, d.frame.parent? id = some p ∧ d.frame.layer? p = some m ∧
        l.payload.Within m.payload) ∧
      (∀ a ∈ d.frame.ancestors id, ∃ m, d.frame.layer? a = some m ∧ l.payload.Within m.payload) ∧
      l.payload.Within root.payload) ∧
    e.frame = d.frame ∧
    (d.faulted = false → ∃ offers : List Offer, offers ~ sure threshold (notes e.workers) ∧
      d.frame.size = offers.length + 1 ∧ ∀ k o, offers[k]? = some o →
        ∃ m l, d.frame.layer? o.parent = some m ∧ d.frame.parent? (k + 1) = some o.parent ∧
          d.frame.layer? (k + 1) = some l ∧ Becomes m.payload o.layer l) := by
  intro f d e
  have hnoting : Noting threshold root e d :=
    (noting_start index timestamp length sourceId root ds threshold).run n
  obtain ⟨hbuilt, hcontained⟩ : d.frame.Built ∧ d.frame.Contained :=
    contained_run (d := start f _) (.root index timestamp length sourceId root)
      (contained_ofRoot index timestamp length sourceId root) threshold n
  have hwell := hbuilt.wellFormed
  refine ⟨fun id l hid hl => ?_, hnoting.frame, fun hsound => ?_⟩
  · have hlt : id < d.frame.size := layer?_isSome_iff.mp (hl ▸ rfl)
    have habove : ∀ a ∈ d.frame.ancestors id, ∃ m, d.frame.layer? a = some m ∧
        l.payload.Within m.payload := fun a => hcontained.within_of_mem_ancestors hwell hl
    obtain ⟨p, hp, hpar⟩ := hwell.parent id hid hlt
    obtain ⟨m, hm⟩ := exists_layer?_of_lt (hp.trans hlt)
    refine ⟨⟨p, m, hpar, hm, hcontained id p l m hpar hl hm⟩, habove, ?_⟩
    obtain ⟨r, hr, hwithin⟩ := habove rootId (hwell.rootId_mem_ancestors hlt)
    rw [hnoting.top, Option.some.injEq] at hr
    exact hr ▸ hwithin
  · obtain ⟨offers, hperm, hlt, hnodes⟩ := hnoting.offers hsound
    refine ⟨offers, hperm, by rw [← length_nodes, hnodes]; simp, fun k o ho => ?_⟩
    obtain ⟨m, hm⟩ := exists_layer?_of_lt (hlt o (List.mem_of_getElem? ho))
    have hnode : d.frame.nodes[k + 1]? = some (contain m.payload o.layer, some o.parent) := by
      rw [hnodes, List.getElem?_cons_succ, List.getElem?_map, ho, Option.map_some, nodeOf, hm]
      rfl
    refine ⟨m, contain m.payload o.layer, hm, ?_, ?_, becomes_contain _ _⟩
    · rw [parent?_eq, hnode]
      rfl
    · rw [layer?_eq, hnode]
      rfl

end Dissection

end PacketTree
