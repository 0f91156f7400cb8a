import PacketTree.Dissection.Run
import PacketTree.Proofs.Frame.Tree

/-!
# One generation

What a generation of dissection adds to a frame, written down at once: below each leaf, in the order
of the leaves, the layers found there that are sure enough, the surest first.

## What is proved

* `expand_spec`: when a worker breaks down in a generation, and the nodes and numbers of the layers
  that it adds otherwise.
* `callAll_of_isLocal`: what all workers find, read off their dissectors alone.

## The model

A dissector `IsLocal` if its verdict on a layer hangs on that layer and those above it alone, not on
what a worker remembers, not on the numbers of the layers, and not on layers elsewhere in the tree.
All statements here are about local dissectors: the layers that a generation adds do not disturb the
verdicts on its later leaves.
-/

namespace PacketTree

variable {σ : Type}

/-! ### Verdicts -/

namespace Verdict

/-- The layers found, in order; none if there was a breakdown. -/
def collect : List Verdict → Option (List Layer)
  | [] => some []
  | .fault :: _ => none
  | .nothing :: vs => collect vs
  | .found l :: vs => (collect vs).map (l :: ·)

/-- In another order the same layers are found. -/
theorem collect_of_perm {vs ws : List Verdict} (h : vs.Perm ws) :
    (collect vs = none ↔ collect ws = none) ∧
      ∀ ls ms, collect vs = some ls → collect ws = some ms → ls.Perm ms := by
  induction h with
  | nil => exact ⟨Iff.rfl, fun ls ms hl hm => by simp_all [collect]⟩
  | cons v _ ih =>
    cases v with
    | fault => simp [collect]
    | nothing => exact ih
    | found l =>
      simp only [collect, Option.map_eq_none_iff, Option.map_eq_some_iff]
      refine ⟨ih.1, ?_⟩
      rintro _ _ ⟨ls, hl, rfl⟩ ⟨ms, hm, rfl⟩
      exact (ih.2 ls ms hl hm).cons l
  | swap v w vs =>
    cases v <;> cases w <;> cases h : collect vs <;> simp [collect, h, List.Perm.swap]
  | trans _ _ ih₁ ih₂ =>
    refine ⟨ih₁.1.trans ih₂.1, fun ls ms hl hm => ?_⟩
    obtain ⟨ks, hk⟩ := Option.ne_none_iff_exists'.mp
      (mt ih₁.1.mpr (Option.ne_none_iff_exists'.mpr ⟨ls, hl⟩))
    exact (ih₁.2 ls ks hl hk).trans (ih₂.2 ks ms hk hm)

end Verdict

namespace Dissector

/-- The verdict on a layer depends on that layer and those above it only. -/
def IsLocal (d : Dissector σ) : Prop :=
  ∀ (s t : σ) (f g : Frame) (i j : ℕ), f.path i = g.path j →
    (d.analyze s f i).2 = (d.analyze t g j).2

/-- A dissector that reads nothing but the layer is local. -/
theorem isLocal_stateless {name : String} {patterns : List Pattern} {memory : σ}
    {analyze : Frame → ℕ → Option Layer}
    (h : ∀ f g i j, f.layer? i = g.layer? j → analyze f i = analyze g j) :
    (stateless name patterns memory analyze).IsLocal := by
  intro s t f g i j hpath
  have heq : analyze f i = analyze g j :=
    h f g i j (by rw [← Frame.head?_path, hpath, Frame.head?_path])
  dsimp only [stateless]
  rw [heq]

/-- What the dissectors called for a namespace make of a layer. -/
def verdicts (ds : List (Dissector σ)) (f : Frame) (id : ℕ) (ns : Namespace) : List Verdict :=
  (ds.filter (·.selects ns)).map fun d => (d.analyze d.fresh f id).2

/-- The layers that dissectors find in a layer, none if one breaks down or there is no such layer. -/
def findings (ds : List (Dissector σ)) (f : Frame) (id : ℕ) : Option (List Layer) :=
  (f.layer? id).bind fun l => Verdict.collect (verdicts ds f id l.ns)

/-- The layers that a generation puts below a leaf. -/
def offspring (threshold : Threshold) (ds : List (Dissector σ)) (f : Frame) (id : ℕ) :
    List Layer :=
  ((f.layer? id).bind fun l => (findings ds f id).map fun found =>
    (Dissection.rank threshold found).map (Dissection.contain l.payload)).getD []

variable {ds es : List (Dissector σ)} {f g : Frame} {i j : ℕ} {threshold : Threshold}

/-- Local dissectors see the same in layers with the same way up. -/
theorem verdicts_congr (hl : ∀ d ∈ ds, d.IsLocal) (hp : f.path i = g.path j) (ns : Namespace) :
    verdicts ds f i ns = verdicts ds g j ns :=
  List.map_congr_left fun d hd => hl d (List.mem_filter.mp hd).1 _ _ f g i j hp

theorem findings_congr (hl : ∀ d ∈ ds, d.IsLocal) (hp : f.path i = g.path j)
    (hi : f.layer? i = g.layer? j) : findings ds f i = findings ds g j := by
  rw [findings, findings, hi]
  exact Option.bind_congr fun l _ => congrArg _ (verdicts_congr hl hp l.ns)

theorem offspring_congr (hl : ∀ d ∈ ds, d.IsLocal) (hp : f.path i = g.path j)
    (hi : f.layer? i = g.layer? j) : offspring threshold ds f i = offspring threshold ds g j := by
  rw [offspring, offspring, hi, findings_congr hl hp hi]

end Dissector

namespace Worker

open Dissector

/-- What workers of local dissectors find. What they remember makes no difference, and they remain
workers of the same dissectors. -/
theorem callAll_of_isLocal {ws : List (Worker σ)} (hl : ∀ w ∈ ws, w.dissector.IsLocal) (f : Frame)
    (id : ℕ) (ns : Namespace) :
    (callAll f id ns ws).2 = Verdict.collect (verdicts (ws.map dissector) f id ns) ∧
      (callAll f id ns ws).1.map dissector = ws.map dissector := by
  induction ws with
  | nil => exact ⟨rfl, rfl⟩
  | cons w ws ih =>
    obtain ⟨hw, hl⟩ := List.forall_mem_cons.mp hl
    obtain ⟨hfound, hws⟩ := ih hl
    rw [callAll, List.map_cons]
    by_cases hs : w.dissector.selects ns = true
    · have hv : (w.call f id).2 = (w.dissector.analyze w.dissector.fresh f id).2 :=
        hw _ _ f f id id rfl
      have hd : (w.call f id).1.dissector = w.dissector := rfl
      have hcons : verdicts (w.dissector :: ws.map dissector) f id ns =
          (w.call f id).2 :: verdicts (ws.map dissector) f id ns := by
        rw [verdicts, List.filter_cons_of_pos (by exact hs), List.map_cons, ← hv]
        rfl
      rw [if_pos hs, hcons]
      rcases hc : w.call f id with ⟨v, verdict⟩
      rw [hc] at hd
      simp only at hd
      cases verdict <;> simp [Verdict.collect, hfound, hws, hd]
    · have hcons : verdicts (w.dissector :: ws.map dissector) f id ns =
          verdicts (ws.map dissector) f id ns := by
        rw [verdicts, List.filter_cons_of_neg (by exact hs)]
        rfl
      rw [if_neg hs, hcons]
      exact ⟨hfound, by simp [hws]⟩

end Worker

namespace Dissection

open Dissector

variable {f : Frame} {ws : List (Worker σ)} {leaves : List ℕ} {threshold : Threshold}
  {payload : ByteView} {parent : ℕ}

/-! ### Adding what was found -/

/-- Layers added below one layer stand behind all others, each with the next number. -/
theorem attachAll_spec (h : parent < f.size) (payload : ByteView) (ls : List Layer) :
    (attachAll f parent payload ls).1.nodes =
        f.nodes ++ ls.map (fun l => (contain payload l, some parent)) ∧
      (attachAll f parent payload ls).2 = List.range' f.size ls.length ∧
      (f.Built → (attachAll f parent payload ls).1.Built) := by
  induction ls generalizing f with
  | nil => exact ⟨by simp [attachAll], rfl, id⟩
  | cons l ls ih =>
    obtain ⟨g, hg⟩ := Frame.exists_attach? h (contain payload l)
    have hsize := Frame.size_of_attach?_eq_some hg
    obtain ⟨hnodes, hids, hbuilt⟩ := ih (f := g) (by omega)
    rw [attachAll, hg]
    refine ⟨?_, ?_, fun hf => hbuilt (hf.attach hg)⟩
    · simp only [hnodes, Frame.nodes_attach? hg, List.append_assoc, List.map_cons,
        List.singleton_append]
    · simp only [hids, hsize, List.length_cons, List.range'_succ]

/-! ### Expanding all leaves -/

/-- The nodes that a generation adds. -/
def growth (threshold : Threshold) (ds : List (Dissector σ)) (f : Frame) (leaves : List ℕ) :
    List (Layer × Option ℕ) :=
  leaves.flatMap fun leaf => (offspring threshold ds f leaf).map fun l => (l, some leaf)

/-- Layers that are added meanwhile do not change what is found in a leaf. -/
theorem findings_of_isPrefix (threshold : Threshold) {ds : List (Dissector σ)} {g : Frame}
    (hl : ∀ d ∈ ds, d.IsLocal) (hpre : f.nodes <+: g.nodes) {leaf : ℕ} (hleaf : leaf < f.size) :
    findings ds g leaf = findings ds f leaf ∧
      offspring threshold ds g leaf = offspring threshold ds f leaf :=
  ⟨findings_congr hl (Frame.path_of_isPrefix hpre hleaf) (Frame.layer?_of_isPrefix hpre hleaf),
    offspring_congr hl (Frame.path_of_isPrefix hpre hleaf) (Frame.layer?_of_isPrefix hpre hleaf)⟩

theorem growth_of_isPrefix {ds : List (Dissector σ)} {g : Frame} (hl : ∀ d ∈ ds, d.IsLocal)
    (hpre : f.nodes <+: g.nodes) (hlt : ∀ leaf ∈ leaves, leaf < f.size) :
    growth threshold ds g leaves = growth threshold ds f leaves :=
  List.flatMap_congr fun leaf hleaf => by
    rw [(findings_of_isPrefix threshold hl hpre (hlt leaf hleaf)).2]

/-- A breakdown ends the generation. -/
theorem expand_cons_of_none {leaf : ℕ} {l : Layer} {us : List (Worker σ)}
    (hleaf : f.layer? leaf = some l) (hcall : Worker.callAll f leaf l.ns ws = (us, none)) :
    expand threshold f ws (leaf :: leaves) = ⟨f, us, [], true⟩ := by
  rw [expand]
  simp only [hleaf, hcall]

/-- Otherwise the later leaves are expanded in the frame as it then is. -/
theorem expand_cons_of_some {leaf : ℕ} {l : Layer} {us : List (Worker σ)} {found : List Layer}
    (hleaf : f.layer? leaf = some l) (hcall : Worker.callAll f leaf l.ns ws = (us, some found)) :
    expand threshold f ws (leaf :: leaves) =
      let a := attachAll f leaf l.payload (rank threshold found)
      let rest := expand threshold a.1 us leaves
      { rest with added := a.2 ++ rest.added } := by
  rw [expand]
  simp only [hleaf, hcall]

/-- A generation of local dissectors: when it breaks off, the nodes it adds and their numbers. No
dissector is lost, and the frame stays a tree. -/
theorem expand_spec (threshold : Threshold) (hl : ∀ w ∈ ws, w.dissector.IsLocal)
    (hlt : ∀ leaf ∈ leaves, leaf < f.size) :
    let g := expand threshold f ws leaves
    let ds := ws.map Worker.dissector
    (g.faulted = true ↔ ∃ leaf ∈ leaves, findings ds f leaf = none) ∧
      (g.faulted = false → g.frame.nodes = f.nodes ++ growth threshold ds f leaves ∧
        g.added = List.range' f.size (growth threshold ds f leaves).length) ∧
      g.workers.map Worker.dissector = ds ∧ (f.Built → g.frame.Built) := by
  induction leaves generalizing f ws with
  | nil => exact ⟨by simp [expand], fun _ => ⟨by simp [expand, growth], rfl⟩, rfl, id⟩
  | cons leaf leaves ih =>
    obtain ⟨hleaf, hlt⟩ := List.forall_mem_cons.mp hlt
    obtain ⟨l, hlayer⟩ := Frame.exists_layer?_of_lt hleaf
    obtain ⟨hfound, hws⟩ := Worker.callAll_of_isLocal hl f leaf l.ns
    have hfind : findings (ws.map Worker.dissector) f leaf = (Worker.callAll f leaf l.ns ws).2 := by
      rw [findings, hlayer, hfound]
      rfl
    rcases hcall : Worker.callAll f leaf l.ns ws with ⟨us, _ | found⟩
    · rw [hcall] at hfind hws
      rw [expand_cons_of_none hlayer hcall]
      exact ⟨by simp [hfind], by simp, hws, id⟩
    · rw [hcall] at hfind hws
      rw [expand_cons_of_some hlayer hcall]
      obtain ⟨hnodes, hids, hbuilt⟩ := attachAll_spec hleaf l.payload (rank threshold found)
      dsimp only at hfind hws ⊢
      generalize attachAll f leaf l.payload (rank threshold found) = a at hnodes hids hbuilt ⊢
      have hpre : f.nodes <+: a.1.nodes := hnodes ▸ List.prefix_append _ _
      have hsize : a.1.size = f.size + (rank threshold found).length := by
        rw [← Frame.length_nodes, hnodes]
        simp
      have hld : ∀ d ∈ ws.map Worker.dissector, d.IsLocal := by simpa using hl
      have hlu : ∀ w ∈ us, w.dissector.IsLocal := fun w hw =>
        hld _ (hws ▸ List.mem_map_of_mem hw)
      obtain ⟨hfault, hgrow, hdiss, hb⟩ := ih (f := a.1) hlu fun i hi => by
        have := hlt i hi
        omega
      rw [hws] at hfault hgrow hdiss
      rw [growth_of_isPrefix hld hpre hlt] at hgrow
      have hall : growth threshold (ws.map Worker.dissector) f (leaf :: leaves) =
          (rank threshold found).map (fun l' => (contain l.payload l', some leaf)) ++
            growth threshold (ws.map Worker.dissector) f leaves := by
        rw [growth, List.flatMap_cons, offspring, hlayer, Option.bind_some, hfind,
          Option.map_some, Option.getD_some, List.map_map]
        rfl
      refine ⟨?_, fun hf => ?_, hdiss, fun hf => hb (hbuilt hf)⟩
      · rw [hfault]
        simp only [List.mem_cons, exists_eq_or_imp, hfind, reduceCtorEq, false_or]
        exact exists_congr fun i => and_congr_right fun hi => by
          rw [(findings_of_isPrefix threshold hld hpre (hlt i hi)).1]
      · obtain ⟨hn, ha⟩ := hgrow hf
        refine ⟨by rw [hn, hnodes, hall, List.append_assoc], ?_⟩
        rw [ha, hids, hsize, hall, List.length_append, List.length_map, List.range'_append_1]

end Dissection

end PacketTree
