import PacketTree.Proofs.Dissection.Guard

/-!
# Who looks at what

Workers remember what they like, so what they were called for can be told by letting each of them
remember that too: it logs the layers that it looked at. This module reads the whole run off these
logs, for workers that may do anything, also break down.

## What is proved

* `disciplined`: a run offers each layer once, in the generation behind the one that added it; each
  worker that is called for a layer looks at it once, in the order of the workers, and no other does;
  what is added is sure enough and counted; and the run ends if the workers find layers of finitely
  many namespaces.
* `callAll_logging`, `expand_logging` and `exists_looks`: the same looks, layer by layer, for one
  generation, and for all of them.

## The model

A worker that is `logging` does what the worker without a log does. `logged` puts the looks that were
made into the logs of the workers that made them. Looks are `Made` as they are due if all of them were
made in their order, or up to the first that ended in a breakdown.
-/

namespace PacketTree

variable {σ : Type}

/-- A worker looked at a layer. -/
structure Look where
  /-- The number of the layer. -/
  layer : ℕ
  /-- The place of the worker among all workers. -/
  place : ℕ
  /-- What the worker made of it. -/
  verdict : Verdict

/-- Which layer a worker looked at, and which worker did. -/
def Look.key (l : Look) : ℕ × ℕ := (l.layer, l.place)

/-- The layers that a worker looked at, with its verdicts. -/
abbrev Log : Type := List (ℕ × Verdict)

/-- The dissector with workers that log what they look at. -/
def Dissector.logging (d : Dissector σ) : Dissector (σ × Log) where
  name := d.name
  patterns := d.patterns
  fresh := (d.fresh, [])
  analyze := fun memory f id =>
    let (rest, verdict) := d.analyze memory.1 f id
    ((rest, memory.2 ++ [(id, verdict)]), verdict)

/-- The worker with a log in which nothing stands yet. -/
def Worker.logging (w : Worker σ) : Worker (σ × Log) := ⟨w.dissector.logging, (w.memory, [])⟩

/-- What the worker at a place logs of some looks. -/
def logOf (looks : List Look) (place : ℕ) : Log :=
  (looks.filter fun l => l.place = place).map fun l => (l.layer, l.verdict)

/-- Workers, the first of which stands at a place, with logs of the looks that they made. -/
def Worker.logged (looks : List Look) (place : ℕ) (ws : List (Worker σ)) : List (Worker (σ × Log)) :=
  (ws.zipIdx place).map fun w => ⟨w.1.dissector.logging, (w.1.memory, logOf looks w.2)⟩

/-- The places of the dissectors, the first of which stands at `place`, that are called for a
namespace. -/
def selected (ns : Namespace) (place : ℕ) (ds : List (Dissector σ)) : List ℕ :=
  ((ds.zipIdx place).filter fun d => d.1.selects ns).map Prod.snd

/-- The looks that are due for a layer. -/
def dueFor (ds : List (Dissector σ)) (f : Frame) (id : ℕ) : List (ℕ × ℕ) :=
  (selected (Dissection.nsOf f id) 0 ds).map fun place => (id, place)

/-- Looks that are made as they are due, up to a breakdown. -/
inductive Made (due : List (ℕ × ℕ)) : Bool → List Look → Prop where
  /-- All of them were made in their order, and none ended in a breakdown; -/
  | all {looks : List Look} (keys : looks.map Look.key = due)
      (sound : ∀ l ∈ looks, l.verdict ≠ .fault) : Made due false looks
  /-- or one did, and those before it were made. -/
  | upTo {before : List Look} {last : Look} (keys : (before ++ [last]).map Look.key <+: due)
      (sound : ∀ l ∈ before, l.verdict ≠ .fault) (fault : last.verdict = .fault) :
      Made due true (before ++ [last])

namespace Made

variable {due more : List (ℕ × ℕ)} {looks others : List Look} {faulted : Bool}

theorem nil : Made [] false [] := .all rfl (List.forall_mem_nil _)

/-- Behind looks without a breakdown others may follow. -/
theorem append (h : Made due false looks) (h' : Made more faulted others) :
    Made (due ++ more) faulted (looks ++ others) := by
  cases h with
  | all keys sound =>
    cases h' with
    | all keys' sound' =>
      exact .all (by rw [List.map_append, keys, keys']) (List.forall_mem_append.mpr ⟨sound, sound'⟩)
    | upTo keys' sound' fault =>
      rw [← List.append_assoc]
      refine .upTo ?_ (List.forall_mem_append.mpr ⟨sound, sound'⟩) fault
      rw [List.append_assoc, List.map_append, keys]
      exact (List.prefix_append_right_inj due).mpr keys'

/-- Behind a breakdown no look is made that is due. -/
theorem extend (h : Made due true looks) (more : List (ℕ × ℕ)) : Made (due ++ more) true looks := by
  cases h with
  | upTo keys sound fault => exact .upTo (keys.trans (List.prefix_append _ _)) sound fault

end Made

theorem logOf_append (looks others : List Look) (place : ℕ) :
    logOf (looks ++ others) place = logOf looks place ++ logOf others place := by
  rw [logOf, List.filter_append, List.map_append]
  rfl

/-- Who made no look has none in its log. -/
theorem logOf_eq_nil {looks : List Look} {place : ℕ} (h : ∀ l ∈ looks, l.place ≠ place) :
    logOf looks place = [] := by
  rw [logOf, List.filter_eq_nil_iff.mpr (by simpa using h), List.map_nil]

/-- A look stands in the log of the worker that made it. -/
theorem logOf_cons_self (id place : ℕ) (verdict : Verdict) (looks : List Look) :
    logOf (⟨id, place, verdict⟩ :: looks) place = (id, verdict) :: logOf looks place := by
  rw [logOf, List.filter_cons, if_pos (by simp)]
  rfl

theorem selected_cons (ns : Namespace) (place : ℕ) (d : Dissector σ) (ds : List (Dissector σ)) :
    selected ns place (d :: ds) =
      if d.selects ns then place :: selected ns (place + 1) ds else selected ns (place + 1) ds := by
  rw [selected, List.zipIdx_cons, List.filter_cons]
  split <;> rfl

namespace Worker

variable {f : Frame} {id : ℕ} {ns : Namespace}

theorem logged_cons (looks : List Look) (place : ℕ) (w : Worker σ) (ws : List (Worker σ)) :
    logged looks place (w :: ws) =
      ⟨w.dissector.logging, (w.memory, logOf looks place)⟩ :: logged looks (place + 1) ws := by
  rw [logged, List.zipIdx_cons]
  rfl

/-- Looks of workers that stand before are in none of the logs. -/
theorem logged_append {looks others : List Look} {place : ℕ} (h : ∀ l ∈ others, l.place < place)
    (ws : List (Worker σ)) : logged (looks ++ others) place ws = logged looks place ws := by
  induction ws generalizing place with
  | nil => rfl
  | cons w ws ih =>
    rw [logged_cons, logged_cons, ih fun l hl => (h l hl).trans place.lt_succ_self, logOf_append,
      logOf_eq_nil fun l hl => (h l hl).ne, List.append_nil]

theorem logged_nil (ws : List (Worker σ)) (place : ℕ) :
    logged [] place ws = ws.map logging := by
  induction ws generalizing place with
  | nil => rfl
  | cons w ws ih =>
    rw [logged_cons, ih]
    rfl

/-- Workers that look at a layer remain workers of the same dissectors. -/
theorem dissectors_callAll (f : Frame) (id : ℕ) (ns : Namespace) (ws : List (Worker σ)) :
    (callAll f id ns ws).1.map dissector = ws.map dissector := by
  induction ws with
  | nil => rfl
  | cons w ws ih =>
    rw [callAll, List.map_cons]
    split
    · have hd : (w.call f id).1.dissector = w.dissector := rfl
      rcases hc : w.call f id with ⟨v, verdict⟩
      rw [hc] at hd
      simp only at hd
      cases verdict <;> simp [ih, hd]
    · simp [ih]

/-- **Who looks at one layer**: the workers that are called for it, one after the other, up to a
breakdown. -/
theorem callAll_logging (f : Frame) (id : ℕ) (ns : Namespace) (looks : List Look) (place : ℕ)
    (ws : List (Worker σ)) :
    ∃ new : List Look, (∀ l ∈ new, place ≤ l.place) ∧
      callAll f id ns (logged looks place ws) =
        (logged (looks ++ new) place (callAll f id ns ws).1, (callAll f id ns ws).2) ∧
      Made ((selected ns place (ws.map dissector)).map fun p => (id, p))
        (callAll f id ns ws).2.isNone new := by
  induction ws generalizing looks place with
  | nil => exact ⟨[], List.forall_mem_nil _, rfl, .nil⟩
  | cons w ws ih =>
    rw [logged_cons, callAll, callAll, List.map_cons, selected_cons,
      show (w.dissector.logging).selects ns = w.dissector.selects ns from rfl]
    by_cases hselects : w.dissector.selects ns = true
    · rw [if_pos hselects, if_pos hselects, if_pos hselects, List.map_cons]
      have hcall : (⟨w.dissector.logging, (w.memory, logOf looks place)⟩ : Worker (σ × Log)).call f id =
          (⟨(w.call f id).1.dissector.logging,
            ((w.call f id).1.memory, logOf looks place ++ [(id, (w.call f id).2)])⟩,
            (w.call f id).2) := rfl
      rw [hcall]
      rcases w.call f id with ⟨v, verdict⟩
      -- The workers behind find the look of this one made, which none of their logs shows.
      have hbehind : logged looks (place + 1) ws =
          logged (looks ++ [⟨id, place, verdict⟩]) (place + 1) ws :=
        (logged_append (by simp) ws).symm
      obtain ⟨new, hplaces, hrest, hmade⟩ := ih (looks ++ [⟨id, place, verdict⟩]) (place + 1)
      rw [← hbehind, List.append_assoc, List.singleton_append] at hrest
      have hlog : ∀ new : List Look, (∀ l ∈ new, place + 1 ≤ l.place) →
          logOf looks place ++ [(id, verdict)] =
            logOf (looks ++ ⟨id, place, verdict⟩ :: new) place := by
        intro new hnew
        rw [logOf_append, logOf_cons_self, logOf_eq_nil fun l hl => Nat.ne_of_gt (hnew l hl)]
      have hge : ∀ l ∈ (⟨id, place, verdict⟩ : Look) :: new, place ≤ l.place :=
        List.forall_mem_cons.mpr ⟨le_rfl, fun l hl => (Nat.le_succ _).trans (hplaces l hl)⟩
      have hfirst (hsound : verdict ≠ .fault) : Made [(id, place)] false [⟨id, place, verdict⟩] :=
        .all rfl (by simpa using hsound)
      cases verdict with
      | fault =>
        refine ⟨[⟨id, place, .fault⟩], by simp, ?_, ?_⟩
        · dsimp only
          rw [logged_cons, hlog [] (List.forall_mem_nil _), hbehind]
        · exact @Made.upTo _ [] _ (List.prefix_append [_] _) (List.forall_mem_nil _) rfl
      | nothing =>
        refine ⟨⟨id, place, .nothing⟩ :: new, hge, ?_, (hfirst (by simp)).append hmade⟩
        dsimp only
        rw [hrest, logged_cons, hlog new hplaces]
      | found l =>
        refine ⟨⟨id, place, .found l⟩ :: new, hge, ?_, ?_⟩
        · dsimp only
          rw [hrest, logged_cons, hlog new hplaces]
        · dsimp only
          rw [Option.isNone_map]
          exact (hfirst (by simp)).append hmade
    · obtain ⟨new, hplaces, hrest, hmade⟩ := ih looks (place + 1)
      rw [if_neg hselects, if_neg hselects, if_neg hselects]
      refine ⟨new, fun l hl => (Nat.le_succ _).trans (hplaces l hl), ?_, hmade⟩
      dsimp only
      rw [hrest, logged_cons, logOf_append, logOf_eq_nil fun l hl => Nat.ne_of_gt (hplaces l hl),
        List.append_nil]

end Worker

namespace Dissection

open PacketTree.Frame Worker

variable {threshold : Threshold} {f g : Frame} {ws : List (Worker σ)} {ids leaves : List ℕ}

/-! ### A generation -/

/-- What is due for a layer does not change when layers are added. -/
theorem dueFor_of_isPrefix (h : f.nodes <+: g.nodes) (hlt : ∀ id ∈ ids, id < f.size)
    (ds : List (Dissector σ)) : ids.flatMap (dueFor ds g) = ids.flatMap (dueFor ds f) :=
  List.flatMap_congr fun id hid => by rw [dueFor, dueFor, nsOf_of_isPrefix h (hlt id hid)]

/-- **Who looks at what in one generation**: all that is due, leaf by leaf, up to a breakdown. -/
theorem expand_logging (threshold : Threshold) (looks : List Look) (ws : List (Worker σ))
    (hlt : ∀ leaf ∈ leaves, leaf < f.size) :
    let g := expand threshold f ws leaves
    ∃ new : List Look, expand threshold f (logged looks 0 ws) leaves =
        ⟨g.frame, logged (looks ++ new) 0 g.workers, g.added, g.faulted⟩ ∧
      g.workers.map dissector = ws.map dissector ∧
      Made (leaves.flatMap (dueFor (ws.map dissector) f)) g.faulted new := by
  induction leaves generalizing f ws looks with
  | nil =>
    refine ⟨[], ?_, rfl, .nil⟩
    rw [List.append_nil]
    rfl
  | cons leaf leaves ih =>
    obtain ⟨hleaf, hlt⟩ := List.forall_mem_cons.mp hlt
    obtain ⟨l, hl⟩ := exists_layer?_of_lt hleaf
    have hns : nsOf f leaf = l.ns := by rw [nsOf, hl, Option.elim_some]
    obtain ⟨first, -, hlogged, hmade⟩ := callAll_logging f leaf l.ns looks 0 ws
    have hdissectors := dissectors_callAll f leaf l.ns ws
    rw [List.flatMap_cons, dueFor, hns]
    rcases hcall : callAll f leaf l.ns ws with ⟨us, _ | found⟩
    · rw [hcall] at hlogged hmade hdissectors
      rw [expand_cons_of_none hl hcall, expand_cons_of_none hl hlogged]
      exact ⟨first, rfl, hdissectors, hmade.extend _⟩
    · rw [hcall] at hlogged hmade hdissectors
      rw [expand_cons_of_some hl hcall, expand_cons_of_some hl hlogged]
      obtain ⟨hnodes, -, -⟩ := attachAll_spec hleaf l.payload (rank threshold found)
      dsimp only
      generalize attachAll f leaf l.payload (rank threshold found) = a at hnodes ⊢
      have hpre : f.nodes <+: a.1.nodes := hnodes ▸ List.prefix_append _ _
      have hsize : f.size ≤ a.1.size := by simpa using hpre.length_le
      obtain ⟨rest, hmore, hkept, hrest⟩ := ih (looks ++ first) us fun i hi => (hlt i hi).trans_le hsize
      rw [hdissectors] at hkept hrest
      rw [dueFor_of_isPrefix hpre hlt] at hrest
      refine ⟨first ++ rest, ?_, hkept, hmade.append hrest⟩
      rw [hmore, ← List.append_assoc]

/-! ### All generations -/

/-- A dissection with logs of the looks that were made. -/
def logged (looks : List Look) (d : Dissection σ) : Dissection (σ × Log) where
  frame := d.frame
  workers := Worker.logged looks 0 d.workers
  visited := d.visited
  leaves := d.leaves
  faulted := d.faulted

/-- A generation of workers that log does what it does without logs. -/
theorem step_logging (threshold : Threshold) (looks : List Look) {d : Dissection σ}
    (hlt : ∀ leaf ∈ d.leaves, leaf < d.frame.size) :
    ∃ new : List Look, step threshold (d.logged looks) = (step threshold d).logged (looks ++ new) ∧
      (step threshold d).workers.map dissector = d.workers.map dissector ∧
      Made (d.leaves.flatMap (dueFor (d.workers.map dissector) d.frame))
        (step threshold d).faulted new := by
  obtain ⟨new, hexpand, hdissectors, hmade⟩ := expand_logging threshold looks d.workers hlt
  refine ⟨new, ?_, hdissectors, hmade⟩
  rw [step, logged, hexpand]
  rfl

theorem lt_of_mem_offered (hf : f.nodes = [(f.root, none)]) {n id : ℕ}
    (h : id ∈ offered threshold f ws n) : id < (reached threshold f ws n).frame.size := by
  obtain ⟨k, hk, hid⟩ := List.mem_flatMap.mp h
  exact (lt_of_mem_leaves hf hid).trans_le (size_reached (List.mem_range.mp hk).le)

/-- **Who looks at what in a run**: all that is due for the layers offered, up to a breakdown. -/
theorem exists_looks (hf : f.nodes = [(f.root, none)]) (n : ℕ) :
    let d := reached threshold f ws n
    ∃ looks : List Look, reached threshold f (ws.map logging) n = d.logged looks ∧
      d.workers.map dissector = ws.map dissector ∧
      Made ((offered threshold f ws n).flatMap (dueFor (ws.map dissector) d.frame)) d.faulted looks := by
  induction n with
  | zero =>
    refine ⟨[], ?_, rfl, .nil⟩
    rw [logged, show (reached threshold f ws 0).workers = ws from rfl, logged_nil]
    rfl
  | succ n ih =>
    dsimp only at ih ⊢
    obtain ⟨looks, hlogged, hdissectors, hmade⟩ := ih
    have hleaves' : (reached threshold f (ws.map logging) n).leaves =
        (reached threshold f ws n).leaves := by
      rw [hlogged]
      rfl
    rw [offered, List.range_succ, List.flatMap_append, List.flatMap_singleton, ← offered]
    by_cases hleaves : (reached threshold f ws n).leaves = []
    · rw [reached_succ_of_nil hleaves, reached_succ_of_nil (hleaves'.trans hleaves), hleaves,
        List.append_nil]
      exact ⟨looks, hlogged, hdissectors, hmade⟩
    · have hsound : (reached threshold f ws n).faulted = false := by
        by_contra hfault
        exact hleaves (leaves_of_faulted n (by simpa using hfault))
      have hpre : (reached threshold f ws n).frame.nodes <+:
        (reached threshold f ws (n + 1)).frame.nodes := nodes_reached n.le_succ
      obtain ⟨new, hnext, hkept, hrest⟩ := step_logging threshold looks
        (d := reached threshold f ws n) fun _ => lt_of_mem_leaves hf
      rw [hsound] at hmade
      rw [hdissectors] at hkept hrest
      rw [List.flatMap_append, dueFor_of_isPrefix hpre fun _ => lt_of_mem_offered hf,
        dueFor_of_isPrefix hpre fun _ => lt_of_mem_leaves hf, reached_succ_of_ne_nil hleaves,
        reached_succ_of_ne_nil (hleaves'.symm ▸ hleaves), hlogged]
      exact ⟨looks ++ new, hnext, hkept, hmade.append hrest⟩

/-! ### The discipline -/

/-- What holds of the dissection of a frame of which only the root is known. -/
structure Disciplined (threshold : Threshold) (f : Frame) (ws : List (Worker σ)) : Prop where
  /-- No layer is offered twice. -/
  once : ∀ n, (offered threshold f ws n).Nodup
  /-- The logs of the workers tell that for the layers offered, one after the other, the workers that
  are called for them looked at them once each and in their order, all of them or up to the first that
  broke down, and no others did. -/
  looks : ∀ n, ∃ looks : List Look,
    reached threshold f (ws.map logging) n = (reached threshold f ws n).logged looks ∧
      Made ((offered threshold f ws n).flatMap
        (dueFor (ws.map dissector) (reached threshold f ws n).frame))
        (reached threshold f ws n).faulted looks
  /-- Layers with one namespace are offered in one generation. -/
  together : ∀ m n i j, i ∈ (reached threshold f ws m).leaves → j ∈ (reached threshold f ws n).leaves →
    nsOf (reached threshold f ws m).frame i = nsOf (reached threshold f ws n).frame j → m = n
  /-- Unless a worker breaks down, a generation offers those layers that were added in the one before
  and have the namespace of none that was there before that. -/
  next : ∀ n, (reached threshold f ws (n + 1)).faulted = false → ∀ id,
    id ∈ (reached threshold f ws (n + 1)).leaves ↔
      (reached threshold f ws n).frame.size ≤ id ∧ id < (reached threshold f ws (n + 1)).frame.size ∧
        ∀ j < (reached threshold f ws n).frame.size,
          nsOf (reached threshold f ws (n + 1)).frame j ≠
            nsOf (reached threshold f ws (n + 1)).frame id
  /-- Only layers are added that are sure enough. -/
  sure : ∀ n id l, 0 < id → (reached threshold f ws n).frame.layer? id = some l →
    threshold.le l.confidence.value = true
  /-- The generations count the layers that they add. -/
  counted : ∀ n, ((List.range n).flatMap fun k =>
      (expand threshold (reached threshold f ws k).frame (reached threshold f ws k).workers
        (reached threshold f ws k).leaves).added) =
    List.range' 1 (added (reached threshold f ws n))
  /-- If the workers find layers of finitely many namespaces only, there is at most one generation more
  than there are namespaces. -/
  ends : ∀ F : Finset Namespace,
    (∀ w ∈ ws, ∀ s g id m, (w.dissector.analyze s g id).2 = .found m → m.ns ∈ F) →
      (reached threshold f ws (F.card + 1)).leaves = []

theorem leaves_eq_nil_of_found_mem {F : Finset Namespace}
    (hF : ∀ w ∈ ws, ∀ s g id m, (w.dissector.analyze s g id).2 = .found m → m.ns ∈ F) :
    (reached threshold f ws (F.card + 1)).leaves = [] := by
  classical
  have hws : ∀ w ∈ ws, w.dissector.StaysIn (insert f.root.ns F : Finset Namespace) := by
    intro w hw s g id l m _ _ _ hfound
    exact Finset.mem_insert_of_mem (hF w hw s g id m hfound)
  have hend := leaves_eq_nil_of_staysIn hws (Finset.mem_insert_self _ _) threshold
  obtain ⟨k, hk⟩ := Nat.exists_eq_add_of_le (Finset.card_insert_le f.root.ns F)
  rw [reached, hk, run_add, run_of_leaves_eq_nil hend]
  exact hend

/-- **The discipline of generations**, whatever the workers do, remember and return: each layer is
offered once, those with one namespace together and right behind the generation that added them, to the
workers that are called for them and to no others; what is added is sure enough and counted; and there
is an end if there are finitely many namespaces to find. -/
theorem disciplined (threshold : Threshold) (index : ℕ) (timestamp : Instant) (length sourceId : ℕ)
    (root : Layer) (ws : List (Worker σ)) :
    Disciplined threshold (ofRoot index timestamp length sourceId root) ws := by
  have hf : (ofRoot index timestamp length sourceId root).nodes =
      [((ofRoot index timestamp length sourceId root).root, none)] := rfl
  exact {
    once := nodup_offered hf
    looks := fun n => by
      obtain ⟨looks, hlogged, -, hmade⟩ := exists_looks hf n
      exact ⟨looks, hlogged, hmade⟩
    together := fun m n i j hi hj h => eq_of_nsOf_eq hf hi hj h
    next := fun n hsound id => mem_leaves_iff hf hsound
    sure := fun n id l hid hl => sure_of_layer? hf hid hl
    counted := counted_eq hf
    ends := fun F hF => leaves_eq_nil_of_found_mem hF }

end Dissection

end PacketTree
