import Mathlib.Data.Set.Finite.Basic
import PacketTree.Proofs.Dissection.Alone
import PacketTree.Proofs.Dissection.Confluence

/-!
# When a dissection ends

A namespace that appeared in an earlier generation is not looked at again. So every generation but the
last shows a namespace that was not seen before, and a dissection ends exactly if it sees finitely many
namespaces. That is so whenever the dissectors stay within finitely many; a dissector that leads from
every namespace to a longer one goes on for ever.

## What is proved

* `ends_iff`: a dissection ends exactly if it sees finitely many namespaces, and has as many
  generations at most.
* `ends_of_staysIn`: dissectors that lead from a finite set of namespaces into that set come to an end.
* `alwaysEnds_of_leads`: so do dissectors that lead nearer to an end with every layer.
* `not_ends`: the dissector that adds a token to every namespace does not.

## The model

`run` takes a number of generations. A dissection ends if after some number of them there is nothing
left to look at; more generations then change nothing.
-/

namespace PacketTree

variable {σ : Type}

namespace Dissection

variable {threshold : Threshold} {d : Dissection σ} {f : Frame} {ws : List (Worker σ)} {m n : ℕ}

/-! ### One generation after the other -/

/-- No namespace is forgotten. -/
theorem visited_subset_run (threshold : Threshold) (n : ℕ) (d : Dissection σ) :
    d.visited ⊆ (run threshold n d).visited := by
  induction n with
  | zero => exact List.Subset.refl _
  | succ n ih =>
    rw [run_succ, run]
    split
    · exact ih
    · exact List.subset_append_of_subset_left _ ih

theorem visited_mono (hmn : m ≤ n) :
    (run threshold m d).visited ⊆ (run threshold n d).visited := by
  obtain ⟨k, rfl⟩ := Nat.exists_eq_add_of_le hmn
  exact run_add threshold m k d ▸ visited_subset_run threshold k _

/-- A generation that leaves something to look at has shown a new namespace. -/
theorem exists_new_of_step (h : (step threshold d).leaves ≠ []) :
    ∃ ns ∈ (step threshold d).visited, ns ∉ d.visited := by
  obtain ⟨id, hid⟩ := List.exists_mem_of_ne_nil _ h
  rw [step] at hid
  split at hid
  · cases hid
  · obtain ⟨hadded, hnew⟩ := List.mem_filter.mp hid
    refine ⟨_, List.mem_append_right _ (List.mem_map_of_mem hadded), fun hmem => ?_⟩
    rw [List.contains_iff_mem.mpr hmem] at hnew
    cases hnew

/-- As long as there is something to look at, every generation has shown a new namespace. -/
theorem lt_card_visited (hstart : d.visited ≠ []) (h : (run threshold n d).leaves ≠ []) :
    n < (run threshold n d).visited.toFinset.card := by
  induction n with
  | zero => exact Finset.card_pos.mpr (List.toFinset_nonempty_iff _ |>.mpr hstart)
  | succ n ih =>
    rw [run_succ, run] at h ⊢
    split at h
    · next hempty => exact absurd (List.isEmpty_iff.mp hempty) h
    · next hempty =>
      rw [if_neg hempty]
      obtain ⟨ns, hns, hnew⟩ := exists_new_of_step h
      refine Nat.lt_of_le_of_lt (ih fun hnil => hempty (List.isEmpty_iff.mpr hnil)) ?_
      refine Finset.card_lt_card (Finset.ssubset_iff_of_subset ?_ |>.mpr ?_)
      · intro k hk
        rw [List.mem_toFinset] at hk ⊢
        exact List.mem_append_left _ hk
      · exact ⟨ns, List.mem_toFinset.mpr hns, mt List.mem_toFinset.mp hnew⟩

/-! ### Coming to an end -/

/-- The namespaces that a dissection ever sees. -/
def seen (threshold : Threshold) (f : Frame) (ws : List (Worker σ)) : Set Namespace :=
  {ns | ∃ n, ns ∈ (run threshold n (start f ws)).visited}

theorem leaves_eq_nil_of_seen_subset {N : Finset Namespace} (h : seen threshold f ws ⊆ N) :
    (run threshold N.card (start f ws)).leaves = [] := by
  by_contra hne
  have hlt := lt_card_visited (List.cons_ne_nil _ _) hne
  refine absurd (Finset.card_le_card fun ns hns => ?_) (Nat.not_le.mpr hlt)
  exact Finset.mem_coe.mp (h ⟨_, List.mem_toFinset.mp hns⟩)

theorem finite_seen_of_leaves_eq_nil (h : (run threshold n (start f ws)).leaves = []) :
    (seen threshold f ws).Finite := by
  refine (List.finite_toSet (run threshold n (start f ws)).visited).subset ?_
  rintro ns ⟨m, hm⟩
  rcases Nat.le_total m n with hle | hle
  · exact visited_mono hle hm
  · obtain ⟨k, rfl⟩ := Nat.exists_eq_add_of_le hle
    rwa [run_add, run_of_leaves_eq_nil h] at hm

/-- **A dissection ends exactly if it sees finitely many namespaces**, whatever the dissectors are, and
it has no more generations than it sees namespaces. -/
theorem ends_iff (threshold : Threshold) (f : Frame) (ws : List (Worker σ)) :
    ((∃ n, (run threshold n (start f ws)).leaves = []) ↔ (seen threshold f ws).Finite) ∧
      ∀ N : Finset Namespace, seen threshold f ws ⊆ N →
        (run threshold N.card (start f ws)).leaves = [] := by
  refine ⟨⟨fun ⟨n, hn⟩ => finite_seen_of_leaves_eq_nil hn, fun hfinite => ?_⟩,
    fun N => leaves_eq_nil_of_seen_subset⟩
  exact ⟨_, leaves_eq_nil_of_seen_subset (hfinite.coe_toFinset.symm.subset)⟩

end Dissection

/-! ### Dissectors that stay within some namespaces -/

/-- What the dissector finds in layers of some namespaces has one of some other namespaces. -/
def Dissector.Leads (N M : Set Namespace) (d : Dissector σ) : Prop :=
  ∀ (s : σ) (f : Frame) (id : ℕ) (l m : Layer), f.layer? id = some l → l.ns ∈ N →
    d.selects l.ns = true → (d.analyze s f id).2 = .found m → m.ns ∈ M

/-- What the dissector finds in layers of some namespaces has one of these namespaces too. -/
def Dissector.StaysIn (N : Set Namespace) (d : Dissector σ) : Prop := d.Leads N N

variable {N M : Set Namespace} {ws : List (Worker σ)} {f : Frame} {l : Layer} {id : ℕ}

/-- Workers find such layers only. -/
theorem Worker.callAll_leads (hl : f.layer? id = some l) (hns : l.ns ∈ N)
    (hws : ∀ w ∈ ws, w.dissector.Leads N M) {found : List Layer}
    (h : (callAll f id l.ns ws).2 = some found) : ∀ m ∈ found, m.ns ∈ M := by
  induction ws generalizing found with
  | nil =>
    cases h
    exact List.forall_mem_nil _
  | cons w ws ih =>
    obtain ⟨hw, hws⟩ := List.forall_mem_cons.mp hws
    rw [callAll] at h
    split at h
    · next hselects =>
      have hverdict : ∀ m, (w.call f id).2 = .found m → m.ns ∈ M := fun m =>
        hw w.memory f id l m hl hns hselects
      rcases hcall : w.call f id with ⟨v, verdict⟩
      rw [hcall] at h hverdict
      cases verdict with
      | fault => cases h
      | nothing => exact ih hws h
      | found k =>
        obtain ⟨ls, hls, rfl⟩ := Option.map_eq_some_iff.mp h
        exact List.forall_mem_cons.mpr ⟨hverdict k rfl, ih hws hls⟩
    · exact ih hws h

/-- What holds of all dissectors before the calls holds of them afterwards. -/
theorem Worker.forall_dissector_callAll {motive : Dissector σ → Prop}
    (hws : ∀ w ∈ ws, motive w.dissector) (f : Frame) (id : ℕ) (ns : Namespace) :
    ∀ w ∈ (callAll f id ns ws).1, motive w.dissector := by
  have hall : ∀ d ∈ (callAll f id ns ws).1.map dissector, motive d := by
    rw [map_dissector_callAll]
    exact List.forall_mem_map.mpr hws
  exact List.forall_mem_map.mp hall

namespace Dissection

variable {threshold : Threshold} {leaves : List ℕ}

/-- These layers are there and have such namespaces. -/
def Stays (N : Set Namespace) (f : Frame) (ids : List ℕ) : Prop :=
  ∀ id ∈ ids, id < f.size ∧ nsOf f id ∈ N

theorem Stays.of_isPrefix {g : Frame} {ids : List ℕ} (h : Stays N f ids) (hpre : f.nodes <+: g.nodes) :
    Stays N g ids := by
  intro id hid
  obtain ⟨hlt, hns⟩ := h id hid
  have hsize : f.size ≤ g.size := by simpa using hpre.length_le
  refine ⟨hlt.trans_le hsize, ?_⟩
  rwa [nsOf, Frame.layer?_of_isPrefix hpre hlt]

theorem Stays.append {ids more : List ℕ} (h : Stays N f ids) (h' : Stays N f more) :
    Stays N f (ids ++ more) := List.forall_mem_append.mpr ⟨h, h'⟩

theorem ns_contain (payload : ByteView) (l : Layer) : (contain payload l).ns = l.ns := by
  unfold contain
  split <;> rfl

theorem layer?_attachAll {parent k : ℕ} {ls : List Layer} (hparent : parent < f.size)
    (payload : ByteView) (hk : k < ls.length) :
    (attachAll f parent payload ls).1.layer? (f.size + k) = some (contain payload ls[k]) := by
  rw [Frame.layer?_eq, (attachAll_spec hparent payload ls).1, List.getElem?_append_right (by simp)]
  simp [hk]

/-- Layers that are added have their own namespaces. -/
theorem stays_attachAll {parent : ℕ} {ls : List Layer} (hparent : parent < f.size)
    (payload : ByteView) (hls : ∀ l ∈ ls, l.ns ∈ N) :
    Stays N (attachAll f parent payload ls).1 (attachAll f parent payload ls).2 ∧
      f.nodes <+: (attachAll f parent payload ls).1.nodes := by
  obtain ⟨hnodes, hids, -⟩ := attachAll_spec hparent payload ls
  refine ⟨fun id hid => ?_, hnodes ▸ List.prefix_append _ _⟩
  obtain ⟨k, hk, rfl⟩ := List.mem_range'.mp (hids ▸ hid)
  have hlayer := layer?_attachAll hparent payload hk
  rw [Nat.one_mul, nsOf, hlayer, Option.elim_some, ns_contain]
  exact ⟨Frame.layer?_isSome_iff.mp (hlayer ▸ rfl), hls _ (List.getElem_mem hk)⟩

/-- A generation of dissectors that lead from some namespaces to others adds layers of the others. -/
theorem stays_expand (threshold : Threshold) (hws : ∀ w ∈ ws, w.dissector.Leads N M)
    (hleaves : Stays N f leaves) :
    let g := expand threshold f ws leaves
    Stays M g.frame g.added ∧ f.nodes <+: g.frame.nodes := by
  induction leaves generalizing f ws with
  | nil => exact ⟨List.forall_mem_nil _, List.prefix_refl _⟩
  | cons leaf leaves ih =>
    obtain ⟨⟨hlt, hns⟩, hlater⟩ := List.forall_mem_cons.mp hleaves
    have hrest : Stays N f leaves := hlater
    obtain ⟨l, hl⟩ := Frame.exists_layer?_of_lt hlt
    rw [nsOf, hl] at hns
    have hus := Worker.forall_dissector_callAll (motive := Dissector.Leads N M) hws f leaf l.ns
    rcases hcall : Worker.callAll f leaf l.ns ws with ⟨us, _ | found⟩
    · rw [expand_cons_of_none hl hcall]
      exact ⟨List.forall_mem_nil _, List.prefix_refl _⟩
    · rw [hcall] at hus
      rw [expand_cons_of_some hl hcall]
      have hrank : ∀ m ∈ rank threshold found, m.ns ∈ M := fun m hm =>
        Worker.callAll_leads hl hns hws (congrArg Prod.snd hcall) m
          (List.mem_of_mem_filter (List.mem_mergeSort.mp hm))
      obtain ⟨hadded, hpre⟩ := stays_attachAll hlt l.payload hrank
      dsimp only
      generalize attachAll f leaf l.payload (rank threshold found) = a at hadded hpre ⊢
      obtain ⟨hmore, hpre'⟩ := ih hus (hrest.of_isPrefix hpre)
      exact ⟨(hadded.of_isPrefix hpre').append hmore, hpre.trans hpre'⟩

/-- So does the next generation look at layers of the others only. -/
theorem stays_step {d : Dissection σ} (hws : ∀ w ∈ d.workers, w.dissector.Leads N M)
    (hleaves : Stays N d.frame d.leaves) :
    Stays M (step threshold d).frame (step threshold d).leaves := by
  have hadded := (stays_expand threshold hws hleaves).1
  rw [step]
  dsimp only
  split
  · exact List.forall_mem_nil _
  · exact fun id hid => hadded id (List.mem_of_mem_filter hid)

/-- The first generation looks at the root. -/
theorem stays_start (hroot : f.root.ns ∈ N) (ws : List (Worker σ)) :
    Stays N (start f ws).frame (start f ws).leaves := by
  intro id hid
  rw [List.mem_singleton.mp hid]
  refine ⟨f.size_pos, ?_⟩
  change nsOf f Frame.rootId ∈ N
  rw [nsOf, Frame.layer?_rootId, Option.elim_some]
  exact hroot

/-- No generation exchanges the dissectors. -/
theorem forall_dissector_step (threshold : Threshold) {d : Dissection σ}
    {motive : Dissector σ → Prop} (hws : ∀ w ∈ d.workers, motive w.dissector) :
    ∀ w ∈ (step threshold d).workers, motive w.dissector := by
  have hall : ∀ k ∈ (step threshold d).workers.map Worker.dissector, motive k := by
    rw [step, map_dissector_expand]
    exact List.forall_mem_map.mpr hws
  exact List.forall_mem_map.mp hall

/-- All namespaces of a run lie in a set. -/
structure Within (N : Set Namespace) (d : Dissection σ) : Prop where
  /-- The layers to look at next do, -/
  leaves : Stays N d.frame d.leaves
  /-- so do the namespaces of all generations, -/
  visited : ∀ ns ∈ d.visited, ns ∈ N
  /-- and the dissectors stay in it. -/
  workers : ∀ w ∈ d.workers, w.dissector.StaysIn N

theorem Within.step {d : Dissection σ} (h : Within N d) : Within N (step threshold d) := by
  refine ⟨stays_step h.workers h.leaves, fun ns hns => ?_, forall_dissector_step threshold h.workers⟩
  rcases List.mem_append.mp hns with hns | hns
  · exact h.visited ns hns
  · obtain ⟨id, hid, rfl⟩ := List.mem_map.mp hns
    exact ((stays_expand threshold h.workers h.leaves).1 id hid).2

theorem Within.run {d : Dissection σ} (h : Within N d) (n : ℕ) : Within N (run threshold n d) := by
  induction n generalizing d with
  | zero => exact h
  | succ n ih =>
    rw [Dissection.run]
    split
    · exact h
    · exact ih h.step

/-- Workers that stay within finitely many namespaces come to an end, whatever they remember. -/
theorem leaves_eq_nil_of_staysIn {N : Finset Namespace}
    (hws : ∀ w ∈ ws, w.dissector.StaysIn (N : Set Namespace)) (hroot : f.root.ns ∈ N)
    (threshold : Threshold) : (run threshold N.card (start f ws)).leaves = [] := by
  have hstart : Within (N : Set Namespace) (start f ws) :=
    ⟨stays_start hroot ws, fun ns hns => List.mem_singleton.mp hns ▸ hroot, hws⟩
  refine leaves_eq_nil_of_seen_subset ?_
  rintro ns ⟨n, hn⟩
  exact (hstart.run n).visited ns hn

/-- **Dissectors that stay within finitely many namespaces come to an end**, after as many generations
at most. -/
theorem ends_of_staysIn {ds : List (Dissector σ)} {N : Finset Namespace}
    (hds : ∀ d ∈ ds, d.StaysIn (N : Set Namespace)) (hroot : f.root.ns ∈ N) (threshold : Threshold) :
    (run threshold N.card (start f (ds.map Dissector.worker))).leaves = [] := by
  refine leaves_eq_nil_of_staysIn (fun w hw => ?_) hroot threshold
  obtain ⟨d, hd, rfl⟩ := List.mem_map.mp hw
  exact hds d hd

/-- Workers that lead nearer to an end with every layer come to it, -/
theorem leaves_eq_nil_of_leads {left : Namespace → ℕ} {d : Dissection σ}
    (hws : ∀ w ∈ d.workers, ∀ n, w.dissector.Leads {ns | left ns ≤ n} {ns | left ns < n})
    (threshold : Threshold) (hleaves : Stays {ns | left ns < n} d.frame d.leaves) :
    (run threshold n d).leaves = [] := by
  induction n generalizing d with
  | zero =>
    exact List.eq_nil_iff_forall_not_mem.mpr fun id hid =>
      absurd (hleaves id hid).2 (Nat.not_lt_zero _)
  | succ n ih =>
    rw [run]
    split
    · next hempty => exact List.isEmpty_iff.mp hempty
    · have hnext := forall_dissector_step threshold
        (motive := fun k => ∀ n, k.Leads {ns | left ns ≤ n} {ns | left ns < n}) hws
      refine ih hnext (stays_step (fun w hw => hws w hw n) fun id hid => ?_)
      exact ⟨(hleaves id hid).1, Nat.le_of_lt_succ (hleaves id hid).2⟩

/-- whatever they remember and wherever they start. -/
theorem alwaysEnds_of_leads (left : Namespace → ℕ) {ds : List (Dissector σ)}
    (hds : ∀ d ∈ ds, ∀ n, d.Leads {ns | left ns ≤ n} {ns | left ns < n}) (threshold : Threshold) :
    AlwaysEnds threshold ds := by
  intro ws f hws
  have hworkers : ∀ w ∈ ws, ∀ n, w.dissector.Leads {ns | left ns ≤ n} {ns | left ns < n} :=
    fun w hw => hds w.dissector (hws ▸ List.mem_map_of_mem hw)
  exact isSome_complete_iff.mpr
    ⟨_, leaves_eq_nil_of_leads hworkers threshold (stays_start (Nat.lt_succ_self (left f.root.ns)) ws)⟩

/-! ### A dissector that goes on for ever -/

/-- A generation with one layer to look at, in which one layer of a new namespace is found. -/
theorem step_of_found {d : Dissection σ} {us : List (Worker σ)} {m : Layer} (hleaves : d.leaves = [id])
    (hl : d.frame.layer? id = some l)
    (hcall : Worker.callAll d.frame id l.ns d.workers = (us, some [m])) (hm : m.confidence = .full)
    (hnew : m.ns ∉ d.visited) :
    ∃ g : Frame, g.layer? d.frame.size = some (contain l.payload m) ∧
      step Confidence.full.value d = ⟨g, us, d.visited ++ [m.ns], [d.frame.size], false⟩ := by
  have hid : id < d.frame.size := Frame.layer?_isSome_iff.mp (hl ▸ rfl)
  have hexpand : expand Confidence.full.value d.frame d.workers [id] = _ :=
    expand_cons_of_some hl hcall
  rw [rank_of_full (by simpa using hm)] at hexpand
  have hids : (attachAll d.frame id l.payload [m]).2 = [d.frame.size] :=
    (attachAll_spec hid l.payload [m]).2.1
  have hlayer : (attachAll d.frame id l.payload [m]).1.layer? d.frame.size =
      some (contain l.payload m) :=
    layer?_attachAll hid l.payload (k := 0) (by simp)
  generalize attachAll d.frame id l.payload [m] = a at hexpand hids hlayer
  have hns : nsOf a.1 d.frame.size = m.ns := by rw [nsOf, hlayer, Option.elim_some, ns_contain]
  refine ⟨a.1, hlayer, ?_⟩
  simp only [step, hleaves, hexpand, expand, hids]
  simp [hns, hnew]

/-- A dissector that finds the same protocol again, one level further in. -/
def nesting : Dissector Unit :=
  .stateless "nesting" [.suffix ⟨[.confirmed "x"]⟩] () fun f id =>
    some { ns := (nsOf f id).push "x" }

/-- A frame for it. -/
def nested : Frame := .ofRoot 1 .epoch 0 0 { ns := ⟨[.confirmed "x"]⟩ }

/-- The only layer to look at is deeper in than all seen before. -/
structure Nests (d : Dissection Unit) : Prop where
  /-- The dissector is at work. -/
  workers : d.workers = [nesting.worker]
  /-- There is one layer to look at, for which it is called, and none has a longer namespace. -/
  leaf : ∃ id l, d.leaves = [id] ∧ d.frame.layer? id = some l ∧
    l.ns.last? = some (.confirmed "x") ∧ ∀ ns ∈ d.visited, ns.tokens.length ≤ l.ns.tokens.length

theorem nests_start (h : f.root.ns.last? = some (.confirmed "x")) :
    Nests (start f [nesting.worker]) :=
  ⟨rfl, Frame.rootId, f.root, rfl, Frame.layer?_rootId f, h,
    fun _ hns => List.mem_singleton.mp hns ▸ le_rfl⟩

theorem callAll_nesting (hl : f.layer? id = some l) (hlast : l.ns.last? = some (.confirmed "x")) :
    Worker.callAll f id l.ns [nesting.worker] =
      ([nesting.worker], some [{ ns := l.ns.push "x" }]) := by
  have hselects : nesting.worker.dissector.selects l.ns = true := by
    have hends := (Namespace.endsWith_singleton l.ns (.confirmed "x")).mpr hlast
    simp [nesting, Dissector.worker, Dissector.selects, Dissector.stateless, Pattern.selects, hends]
  have hfind : nesting.worker.call f id =
      (nesting.worker, .found { ns := l.ns.push "x" }) := by
    simp only [Worker.call, Dissector.worker, nesting, Dissector.stateless, nsOf, hl,
      Option.elim_some]
  rw [Worker.callAll, if_pos hselects, hfind]
  rfl

theorem Nests.step {d : Dissection Unit} (h : Nests d) : Nests (step Confidence.full.value d) := by
  obtain ⟨id, l, hleaves, hl, hlast, hlongest⟩ := h.leaf
  have hlonger : l.ns.tokens.length < (l.ns.push "x").tokens.length := by simp [Namespace.push]
  have hcall : Worker.callAll d.frame id l.ns d.workers =
      ([nesting.worker], some [{ ns := l.ns.push "x" }]) := by
    rw [h.workers, callAll_nesting hl hlast]
  obtain ⟨g, hlayer, hstep⟩ := step_of_found hleaves hl hcall rfl
    fun hmem => absurd (hlongest _ hmem) (Nat.not_le.mpr hlonger)
  rw [hstep]
  refine ⟨rfl, d.frame.size, _, rfl, hlayer, ?_, fun ns hmem => ?_⟩
  · rw [ns_contain, Namespace.last?_push]
  · rw [ns_contain]
    rcases List.mem_append.mp hmem with hmem | hmem
    · exact (hlongest ns hmem).trans hlonger.le
    · rw [List.mem_singleton.mp hmem]

theorem nests_run (h : f.root.ns.last? = some (.confirmed "x")) (n : ℕ) :
    Nests (run Confidence.full.value n (start f [nesting.worker])) := by
  induction n with
  | zero => exact nests_start h
  | succ n ih =>
    obtain ⟨id, l, hleaves, -⟩ := ih.leaf
    rw [run_succ, run, hleaves, List.isEmpty_cons, if_neg Bool.false_ne_true]
    exact ih.step

/-- **A dissector that finds its own protocol again one level further in goes on for ever**: no
namespace comes twice. -/
theorem not_ends : ¬∀ (ds : List (Dissector Unit)) (threshold : Threshold) (f : Frame),
    ∃ n, (run threshold n (start f (ds.map Dissector.worker))).leaves = [] := by
  intro h
  obtain ⟨n, hn⟩ := h [nesting] Confidence.full.value nested
  obtain ⟨id, l, hleaves, -⟩ := (nests_run (f := nested) rfl n).leaf
  rw [List.map_singleton, hleaves] at hn
  cases hn

/-- It has no result. -/
theorem complete_nesting (h : f.root.ns.last? = some (.confirmed "x")) :
    complete Confidence.full.value f [nesting.worker] = none := by
  rw [← Option.not_isSome_iff_eq_none, isSome_complete_iff]
  rintro ⟨n, hn⟩
  obtain ⟨id, l, hleaves, -⟩ := (nests_run h n).leaf
  rw [hleaves] at hn
  cases hn

end Dissection

end PacketTree
