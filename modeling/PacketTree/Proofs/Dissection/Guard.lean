import PacketTree.Proofs.Dissection.Breakdown
import PacketTree.Proofs.Dissection.Containment

/-!
# The guard between generations

Between two generations the namespaces of all layers are put down, and of the layers just added only
those go on to the next generation whose namespace was not there before. So the namespaces put down are
always those of the tree as it stands, whatever the workers return; this module proves what follows
for the layers that are looked at.

## What is proved

* `expand_adds`: a generation adds layers with the next numbers, and all of them are sure enough.
* `mem_leaves_iff`: a layer is looked at exactly if it was added in the generation before and its
  namespace is none of an older layer.
* `nodup_offered` and `eq_of_nsOf_eq`: no layer is looked at in two generations, and layers with one
  namespace in one generation only.

## The model

`reached` is the state after a number of generations, with any workers, and `offered` lists the layers
of these generations in the order in which they are looked at.
-/

namespace PacketTree.Dissection

open PacketTree.Frame

variable {σ : Type} {threshold : Threshold} {f g : Frame} {ws : List (Worker σ)} {d : Dissection σ}
  {leaves : List ℕ} {id i j m n : ℕ}

/-! ### One generation -/

theorem confidence_contain (payload : ByteView) (l : Layer) :
    (contain payload l).confidence = l.confidence := by
  unfold contain
  split <;> rfl

theorem nsOf_eq (f : Frame) (id : ℕ) : nsOf f id = (f.nodes[id]?).elim ⟨[]⟩ fun x => x.1.ns := by
  rw [nsOf, layer?_eq, Option.elim_map]
  rfl

theorem nsOf_of_isPrefix (h : f.nodes <+: g.nodes) (hid : id < f.size) : nsOf g id = nsOf f id := by
  rw [nsOf, layer?_of_isPrefix h hid, nsOf]

/-- The namespaces of all layers, in the order of their numbers. -/
theorem map_nsOf_range' {new : List (Layer × Option ℕ)} (h : g.nodes = f.nodes ++ new) :
    (List.range' f.size new.length).map (nsOf g) = new.map fun x => x.1.ns := by
  refine List.ext_getElem (by simp) fun k hk hk' => ?_
  have hnew : k < new.length := by simpa using hk'
  rw [List.getElem_map, List.getElem_map, List.getElem_range', Nat.one_mul, nsOf_eq, h,
    List.getElem?_append_right (by simp), length_nodes, Nat.add_sub_cancel_left,
    List.getElem?_eq_getElem hnew, Option.elim_some]

/-- **What a generation adds**: layers with the next numbers, all of them sure enough, whatever the
workers do and also if one of them breaks down. -/
theorem expand_adds (threshold : Threshold) (f : Frame) (ws : List (Worker σ)) (leaves : List ℕ) :
    let g := expand threshold f ws leaves
    ∃ new : List (Layer × Option ℕ), g.frame.nodes = f.nodes ++ new ∧
      g.added = List.range' f.size new.length ∧
      ∀ x ∈ new, threshold.le x.1.confidence.value = true := by
  induction leaves generalizing f ws with
  | nil => exact ⟨[], (List.append_nil _).symm, rfl, List.forall_mem_nil _⟩
  | cons leaf leaves ih =>
    rcases hl : f.layer? leaf with _ | l
    · rw [expand, hl]
      exact ih f ws
    · rcases hcall : Worker.callAll f leaf l.ns ws with ⟨us, _ | found⟩
      · rw [expand_cons_of_none hl hcall]
        exact ⟨[], (List.append_nil _).symm, rfl, List.forall_mem_nil _⟩
      · rw [expand_cons_of_some hl hcall]
        have hleaf : leaf < f.size := layer?_isSome_iff.mp (hl ▸ rfl)
        obtain ⟨hnodes, hids, -⟩ := attachAll_spec hleaf l.payload (rank threshold found)
        dsimp only
        generalize attachAll f leaf l.payload (rank threshold found) = a at hnodes hids ⊢
        obtain ⟨new, hmore, hadded, hsure⟩ := ih a.1 us
        have hsize : a.1.size = f.size + (rank threshold found).length := by
          rw [← length_nodes, hnodes]
          simp
        refine ⟨(rank threshold found).map (fun k => (contain l.payload k, some leaf)) ++ new, ?_, ?_, ?_⟩
        · rw [hmore, hnodes, List.append_assoc]
        · rw [hids, hadded, hsize, List.length_append, List.length_map, List.range'_append_1]
        · refine List.forall_mem_append.mpr ⟨fun x hx => ?_, hsure⟩
          obtain ⟨k, hk, rfl⟩ := List.mem_map.mp hx
          rw [confidence_contain]
          exact (List.mem_filter.mp (List.mem_mergeSort.mp hk)).2

/-! ### From one generation to the next -/

/-- The namespaces put down are those of all layers, and all layers but the root are sure enough. -/
structure Tracked (threshold : Threshold) (d : Dissection σ) : Prop where
  /-- The namespaces are those of all layers. -/
  visited : d.visited = d.frame.nodes.map fun x => x.1.ns
  /-- All layers but the root are sure enough. -/
  sure : ∀ x ∈ d.frame.nodes.tail, threshold.le x.1.confidence.value = true

theorem Tracked.mem_visited (h : Tracked threshold d) {ns : Namespace} :
    ns ∈ d.visited ↔ ∃ id < d.frame.size, nsOf d.frame id = ns := by
  rw [h.visited, List.mem_map]
  constructor
  · rintro ⟨x, hx, rfl⟩
    obtain ⟨id, hid, hget⟩ := List.getElem_of_mem hx
    refine ⟨id, by simpa using hid, ?_⟩
    rw [nsOf_eq, List.getElem?_eq_getElem hid, hget, Option.elim_some]
  · rintro ⟨id, hid, rfl⟩
    have hlt : id < d.frame.nodes.length := by simpa using hid
    refine ⟨d.frame.nodes[id], List.getElem_mem hlt, ?_⟩
    rw [nsOf_eq, List.getElem?_eq_getElem hlt, Option.elim_some]

theorem Tracked.step (h : Tracked threshold d) : Tracked threshold (step threshold d) := by
  obtain ⟨new, hnodes, hadded, hsure⟩ := expand_adds threshold d.frame d.workers d.leaves
  constructor
  · rw [Dissection.step]
    dsimp only
    rw [h.visited, hadded, map_nsOf_range' hnodes, hnodes, List.map_append]
  · rw [show (Dissection.step threshold d).frame.nodes = _ from hnodes,
      List.tail_append_of_ne_nil (List.ne_nil_of_length_pos (by simpa [size] using d.frame.size_pos))]
    exact List.forall_mem_append.mpr ⟨h.sure, hsure⟩

/-- The layers that the next generation looks at, unless a worker broke down. -/
theorem mem_leaves_step (h : Tracked threshold d) (hsound : (step threshold d).faulted = false) :
    id ∈ (step threshold d).leaves ↔ d.frame.size ≤ id ∧ id < (step threshold d).frame.size ∧
      ∀ j < d.frame.size, nsOf (step threshold d).frame j ≠ nsOf (step threshold d).frame id := by
  obtain ⟨new, hnodes, hadded, -⟩ := expand_adds threshold d.frame d.workers d.leaves
  have hpre : d.frame.nodes <+: (step threshold d).frame.nodes := hnodes ▸ List.prefix_append _ _
  have hsize : (step threshold d).frame.size = d.frame.size + new.length := by
    rw [← length_nodes, show (step threshold d).frame.nodes = _ from hnodes]
    simp
  have hleaves : (step threshold d).leaves = (List.range' d.frame.size new.length).filter
      fun id => !d.visited.contains (nsOf (step threshold d).frame id) := by
    rw [← hadded]
    exact if_neg (Bool.eq_false_iff.mp hsound)
  have hold : (!d.visited.contains (nsOf (step threshold d).frame id)) = true ↔
      ∀ j < d.frame.size, nsOf (step threshold d).frame j ≠ nsOf (step threshold d).frame id := by
    rw [Bool.not_eq_true', ← Bool.not_eq_true, List.contains_iff_mem, h.mem_visited]
    push Not
    exact forall_congr' fun j => imp_congr_right fun hj => by rw [nsOf_of_isPrefix hpre hj]
  rw [hleaves, List.mem_filter, List.mem_range'_1, hold, hsize, and_assoc]

theorem nodup_leaves_step (threshold : Threshold) (d : Dissection σ) :
    (step threshold d).leaves.Nodup := by
  obtain ⟨new, -, hadded, -⟩ := expand_adds threshold d.frame d.workers d.leaves
  rw [step]
  dsimp only
  rw [hadded]
  split
  · exact List.nodup_nil
  · exact (List.nodup_range').filter _

/-! ### All generations -/

/-- The state after a number of generations. -/
def reached (threshold : Threshold) (f : Frame) (ws : List (Worker σ)) (n : ℕ) : Dissection σ :=
  run threshold n (start f ws)

/-- The layers that are looked at in a number of generations, in this order. -/
def offered (threshold : Threshold) (f : Frame) (ws : List (Worker σ)) (n : ℕ) : List ℕ :=
  (List.range n).flatMap fun k => (reached threshold f ws k).leaves

/-- Without anything to look at there is no further generation. -/
theorem reached_succ_of_nil (h : (reached threshold f ws n).leaves = []) :
    reached threshold f ws (n + 1) = reached threshold f ws n := by
  rw [reached, run_succ]
  exact run_of_leaves_eq_nil h 1

theorem reached_succ_of_ne_nil (h : (reached threshold f ws n).leaves ≠ []) :
    reached threshold f ws (n + 1) = step threshold (reached threshold f ws n) := by
  rw [reached, run_succ, run]
  exact if_neg (mt List.isEmpty_iff.mp h)

/-- What holds at the start and is kept by each generation holds of every state. -/
theorem reached_induction {motive : Dissection σ → Prop} (hstart : motive (start f ws))
    (hstep : ∀ d, motive d → d.leaves ≠ [] → motive (step threshold d)) (n : ℕ) :
    motive (reached threshold f ws n) := by
  induction n with
  | zero => exact hstart
  | succ n ih =>
    by_cases hleaves : (reached threshold f ws n).leaves = []
    · rwa [reached_succ_of_nil hleaves]
    · exact reached_succ_of_ne_nil hleaves ▸ hstep _ ih hleaves

/-- There is nothing to look at behind a breakdown. -/
theorem leaves_of_faulted (n : ℕ) (h : (reached threshold f ws n).faulted = true) :
    (reached threshold f ws n).leaves = [] := by
  refine reached_induction (motive := fun d => d.faulted = true → d.leaves = []) ?_ ?_ n h
  · exact nofun
  · exact fun _ _ _ => leaves_of_faulted_step

theorem nodup_leaves (n : ℕ) : (reached threshold f ws n).leaves.Nodup :=
  reached_induction (motive := fun d => d.leaves.Nodup) (List.nodup_singleton _)
    (fun d _ _ => nodup_leaves_step threshold d) n

/-- Layers stay as they are. -/
theorem nodes_reached (hmn : m ≤ n) :
    (reached threshold f ws m).frame.nodes <+: (reached threshold f ws n).frame.nodes := by
  induction n, hmn using Nat.le_induction with
  | base => exact List.prefix_refl _
  | succ n _ ih =>
    refine ih.trans ?_
    by_cases hleaves : (reached threshold f ws n).leaves = []
    · rw [reached_succ_of_nil hleaves]
    · rw [reached_succ_of_ne_nil hleaves]
      exact (expand_grows threshold _ _ _).1

theorem size_reached (hmn : m ≤ n) :
    (reached threshold f ws m).frame.size ≤ (reached threshold f ws n).frame.size := by
  rw [← length_nodes, ← length_nodes]
  exact (nodes_reached hmn).length_le

section Fresh

variable (hf : f.nodes = [(f.root, none)])

include hf

theorem tracked_reached (n : ℕ) : Tracked threshold (reached threshold f ws n) := by
  refine reached_induction ?_ (fun d hd _ => hd.step) n
  constructor
  · rw [start, hf]
    rfl
  · rw [start, hf]
    exact List.forall_mem_nil _

/-- **What is looked at next**: a layer is looked at exactly if it was added in the generation before
and its namespace is none of a layer that was there before that. -/
theorem mem_leaves_iff (hsound : (reached threshold f ws (n + 1)).faulted = false) :
    id ∈ (reached threshold f ws (n + 1)).leaves ↔
      (reached threshold f ws n).frame.size ≤ id ∧ id < (reached threshold f ws (n + 1)).frame.size ∧
        ∀ j < (reached threshold f ws n).frame.size,
          nsOf (reached threshold f ws (n + 1)).frame j ≠
            nsOf (reached threshold f ws (n + 1)).frame id := by
  by_cases hleaves : (reached threshold f ws n).leaves = []
  · rw [reached_succ_of_nil hleaves, hleaves]
    exact ⟨fun hnil => absurd hnil List.not_mem_nil,
      fun ⟨hle, hlt, _⟩ => absurd hlt (Nat.not_lt.mpr hle)⟩
  · rw [reached_succ_of_ne_nil hleaves] at hsound ⊢
    exact mem_leaves_step (tracked_reached hf n) hsound

theorem lt_of_mem_leaves (h : id ∈ (reached threshold f ws n).leaves) :
    id < (reached threshold f ws n).frame.size := by
  cases n with
  | zero => exact List.mem_singleton.mp h ▸ f.size_pos
  | succ n =>
    have hsound : (reached threshold f ws (n + 1)).faulted = false := by
      by_contra hfault
      rw [leaves_of_faulted (n + 1) (by simpa using hfault)] at h
      cases h
    exact ((mem_leaves_iff hf hsound).mp h).2.1

/-- A layer that is looked at has another namespace than all that were looked at in earlier
generations. -/
theorem nsOf_ne_of_lt (hmn : m < n) (hi : i ∈ (reached threshold f ws m).leaves)
    (hj : j ∈ (reached threshold f ws n).leaves) :
    nsOf (reached threshold f ws m).frame i ≠ nsOf (reached threshold f ws n).frame j := by
  obtain ⟨n, rfl⟩ := Nat.exists_eq_add_one_of_ne_zero (Nat.ne_zero_of_lt hmn)
  have hsound : (reached threshold f ws (n + 1)).faulted = false := by
    by_contra hfault
    rw [leaves_of_faulted (n + 1) (by simpa using hfault)] at hj
    cases hj
  have hlt := lt_of_mem_leaves hf hi
  rw [← nsOf_of_isPrefix (nodes_reached hmn.le) hlt]
  exact ((mem_leaves_iff hf hsound).mp hj).2.2 i (hlt.trans_le (size_reached (Nat.le_of_lt_succ hmn)))

/-- **Layers with one namespace are looked at in one generation.** -/
theorem eq_of_nsOf_eq (hi : i ∈ (reached threshold f ws m).leaves)
    (hj : j ∈ (reached threshold f ws n).leaves)
    (h : nsOf (reached threshold f ws m).frame i = nsOf (reached threshold f ws n).frame j) :
    m = n := by
  rcases Nat.lt_trichotomy m n with hlt | heq | hgt
  · exact absurd h (nsOf_ne_of_lt hf hlt hi hj)
  · exact heq
  · exact absurd h.symm (nsOf_ne_of_lt hf hgt hj hi)

/-- **No layer is looked at twice.** -/
theorem nodup_offered (n : ℕ) : (offered threshold f ws n).Nodup := by
  refine List.nodup_flatMap.mpr ⟨fun k _ => nodup_leaves k, ?_⟩
  refine List.pairwise_lt_range.imp fun {a b} hab i hi hj => ?_
  refine nsOf_ne_of_lt hf hab hi hj ?_
  exact (nsOf_of_isPrefix (nodes_reached hab.le) (lt_of_mem_leaves hf hi)).symm

/-- All layers but the root are sure enough. -/
theorem sure_of_layer? {l : Layer} (hid : 0 < id)
    (hl : (reached threshold f ws n).frame.layer? id = some l) :
    threshold.le l.confidence.value = true := by
  rw [layer?_eq, Option.map_eq_some_iff] at hl
  obtain ⟨x, hx, rfl⟩ := hl
  have htracked : Tracked threshold (reached threshold f ws n) := tracked_reached hf n
  have htail : (reached threshold f ws n).frame.nodes.tail[id - 1]? = some x := by
    rwa [List.getElem?_tail, Nat.sub_add_cancel hid]
  exact htracked.sure x (List.mem_of_getElem? htail)

/-- The layers that the generations count are those with the numbers from one on. -/
theorem counted_eq (n : ℕ) :
    ((List.range n).flatMap fun k =>
      (expand threshold (reached threshold f ws k).frame (reached threshold f ws k).workers
        (reached threshold f ws k).leaves).added) =
      List.range' 1 (added (reached threshold f ws n)) := by
  have hroot : f.size = 1 := by
    rw [← length_nodes, hf]
    rfl
  induction n with
  | zero =>
    rw [added, show (reached threshold f ws 0).frame = f from rfl, hroot]
    rfl
  | succ n ih =>
    rw [List.range_succ, List.flatMap_append, ih, List.flatMap_singleton]
    by_cases hleaves : (reached threshold f ws n).leaves = []
    · rw [reached_succ_of_nil hleaves, hleaves]
      exact List.append_nil _
    · obtain ⟨new, hnodes, hadded, -⟩ := expand_adds threshold (reached threshold f ws n).frame
        (reached threshold f ws n).workers (reached threshold f ws n).leaves
      have hsize : (reached threshold f ws (n + 1)).frame.size =
          (reached threshold f ws n).frame.size + new.length := by
        rw [reached_succ_of_ne_nil hleaves, ← length_nodes, show (step threshold _).frame.nodes = _ from hnodes]
        simp
      obtain ⟨k, hk⟩ := Nat.exists_eq_add_of_lt (reached threshold f ws n).frame.size_pos
      have hk' : (reached threshold f ws n).frame.size = 1 + k := by
        rw [Frame.size, hk]
        omega
      rw [hadded, added, added, hsize, hk', Nat.add_sub_cancel_left, List.range'_append_1,
        Nat.add_assoc, Nat.add_sub_cancel_left]

end Fresh

end PacketTree.Dissection
