import PacketTree.Proofs.Dissection.Containment
import PacketTree.Proofs.Protocol.Outcome
import PacketTree.Proofs.Protocol.Stack
import PacketTree.Session.Settings

/-!
# What becomes of any packet

A packet need not be put together by any rules. Whatever its root says and whatever bytes it has, the
built-in dissectors turn it into a chain of at most four layers, each of which names one protocol more
than the one before. They may look at a layer in any order, as at most one of them finds something.

## What is proved

* `run_congr`: dissectors that find the same make the same frame.
* `findings_of_perm`: the built-in dissectors find the same in any order.
* `exists_stack`, `exists_line`: the dissection of any packet is a chain of at most three layers below
  its root.
* `lineage_of_perm`: what becomes of any packet, for the built-in dissectors in any order.

## The model

`generationsLeft` counts, by the protocol that a namespace announces, how many layers may still be found
one below the other. A namespace `Continues` another if it has one confirmed protocol more and perhaps
announces the next. In a `Line` each layer is what is found in the one before.
-/

namespace PacketTree

variable {σ : Type}

/-! ### Dissectors that find the same -/

namespace Dissection

variable {ds es : List (Dissector σ)} {ws us : List (Worker σ)} {d e : Dissection σ}

/-- Two dissections that have come to the same with different workers, which find the same. -/
structure Alongside (ds es : List (Dissector σ)) (d e : Dissection σ) : Prop where
  /-- The workers of the one, -/
  workers : d.workers.map Worker.dissector = ds
  /-- and of the other. -/
  workers' : e.workers.map Worker.dissector = es
  /-- The frames are the same, -/
  frame : d.frame = e.frame
  /-- the namespaces seen, -/
  visited : d.visited = e.visited
  /-- the layers to look at -/
  leaves : d.leaves = e.leaves
  /-- and whether a worker broke down. -/
  faulted : d.faulted = e.faulted

section

variable (hds : ∀ k ∈ ds, k.IsLocal) (hes : ∀ k ∈ es, k.IsLocal)
  (hsame : ∀ f id, Dissector.findings ds f id = Dissector.findings es f id)

include hds hes hsame

/-- Their workers find the same in a layer, and go on being workers of theirs. -/
theorem callAll_congr (hws : ws.map Worker.dissector = ds) (hus : us.map Worker.dissector = es)
    {f : Frame} {id : ℕ} {l : Layer} (hl : f.layer? id = some l) :
    (Worker.callAll f id l.ns ws).1.map Worker.dissector = ds ∧
      (Worker.callAll f id l.ns us).1.map Worker.dissector = es ∧
      (Worker.callAll f id l.ns ws).2 = (Worker.callAll f id l.ns us).2 := by
  obtain ⟨hfound, hws'⟩ := Worker.callAll_of_isLocal
    (fun w hw => hds _ (hws ▸ List.mem_map_of_mem hw)) f id l.ns
  obtain ⟨hfound', hus'⟩ := Worker.callAll_of_isLocal
    (fun w hw => hes _ (hus ▸ List.mem_map_of_mem hw)) f id l.ns
  have hfindings := hsame f id
  rw [Dissector.findings, Dissector.findings, hl, Option.bind_some, Option.bind_some] at hfindings
  refine ⟨hws'.trans hws, hus'.trans hus, ?_⟩
  rw [hfound, hfound', hws, hus, hfindings]

/-- They let a frame grow in the same way. -/
theorem expand_congr (hws : ws.map Worker.dissector = ds) (hus : us.map Worker.dissector = es)
    (threshold : Threshold) (f : Frame) (leaves : List ℕ) :
    let g := expand threshold f ws leaves
    let h := expand threshold f us leaves
    g.workers.map Worker.dissector = ds ∧ h.workers.map Worker.dissector = es ∧
      g.frame = h.frame ∧ g.added = h.added ∧ g.faulted = h.faulted := by
  induction leaves generalizing f ws us with
  | nil => exact ⟨hws, hus, rfl, rfl, rfl⟩
  | cons leaf leaves ih =>
    rcases hl : f.layer? leaf with _ | l
    · simp only [expand, hl]
      exact ih hws hus f
    obtain ⟨hws', hus', hcalls⟩ := callAll_congr hds hes hsame hws hus hl
    rcases hcall : Worker.callAll f leaf l.ns ws with ⟨ws', found⟩
    rcases hcall' : Worker.callAll f leaf l.ns us with ⟨us', found'⟩
    rw [hcall] at hws' hcalls
    rw [hcall'] at hus' hcalls
    obtain rfl : found = found' := hcalls
    cases found with
    | none =>
      rw [expand_cons_of_none hl hcall, expand_cons_of_none hl hcall']
      exact ⟨hws', hus', rfl, rfl, rfl⟩
    | some found =>
      rw [expand_cons_of_some hl hcall, expand_cons_of_some hl hcall']
      obtain ⟨hworkers, hworkers', hframe, hadded, hfaulted⟩ :=
        ih hws' hus' (attachAll f leaf l.payload (rank threshold found)).1
      exact ⟨hworkers, hworkers', hframe, congrArg (_ ++ ·) hadded, hfaulted⟩

theorem Alongside.step (h : Alongside ds es d e) (threshold : Threshold) :
    Alongside ds es (step threshold d) (step threshold e) := by
  obtain ⟨hworkers, hworkers', hframe, hadded, hfaulted⟩ :=
    expand_congr hds hes hsame h.workers h.workers' threshold d.frame d.leaves
  rw [Dissection.step, Dissection.step, ← h.frame, ← h.visited, ← h.leaves]
  refine ⟨hworkers, hworkers', hframe, ?_, ?_, hfaulted⟩
  · rw [hframe, hadded]
  · rw [hframe, hadded, hfaulted]

theorem Alongside.run (h : Alongside ds es d e) (threshold : Threshold) (n : ℕ) :
    Alongside ds es (run threshold n d) (run threshold n e) := by
  induction n generalizing d e with
  | zero => exact h
  | succ n ih =>
    rw [Dissection.run, Dissection.run, ← h.leaves]
    split
    · exact h
    · exact ih (h.step hds hes hsame threshold)

/-- **Dissectors that find the same make the same frame.** -/
theorem run_congr (threshold : Threshold) (f : Frame) (n : ℕ) :
    Alongside ds es (run threshold n (start f (ds.map Dissector.worker)))
      (run threshold n (start f (es.map Dissector.worker))) :=
  Alongside.run hds hes hsame (d := start f _) (e := start f _)
    ⟨map_dissector_worker ds, map_dissector_worker es, rfl, rfl, rfl, rfl⟩ threshold n

end

end Dissection

/-! ### Namespaces that grow -/

namespace Namespace

variable {name t : String} {parent ns : Namespace}

/-- One confirmed protocol stands behind what is settled, and perhaps one is announced. -/
def Continues (name : String) (parent ns : Namespace) : Prop :=
  ∃ announced : Option String,
    ns.tokens = parent.settled ++ .confirmed name :: announced.toList.map .tentative

@[simp] theorem settled_descend (ns : Namespace) (name : String) :
    (ns.descend name).settled = ns.settled ++ [.confirmed name] := by
  rw [settled, last?_descend]
  rfl

@[simp] theorem settled_announce (ns : Namespace) (t : String) :
    (ns.announce t).settled = ns.settled := by
  rw [settled, last?_announce]
  simp [announce, Token.isTentative]

end Namespace

namespace Layer

variable {name : String} {tokens : List String} {parent l : Layer}

theorem LeftBy.continues (h : LeftBy name tokens parent l) : parent.ns.Continues name l.ns := by
  rcases h.ns with hns | ⟨t, -, hns⟩
  · exact ⟨none, by rw [hns]; rfl⟩
  · exact ⟨some t, by rw [hns, Namespace.announce, Namespace.settled_descend]; simp⟩

/-- What is settled gets longer. -/
theorem LeftBy.settled (h : LeftBy name tokens parent l) :
    l.ns.settled = parent.ns.settled ++ [.confirmed name] := by
  rcases h.ns with hns | ⟨t, -, hns⟩ <;> rw [hns] <;> simp

end Layer

namespace Protocol

/-- How many layers may be found one below the other where a token stands last. -/
def generationsLeft : Option Token → ℕ
  | some (.tentative "eth") => 3
  | some (.tentative "ipv4") => 2
  | some (.tentative "ipv6") => 2
  | some (.tentative "ip") => 2
  | some (.tentative "tcp") => 1
  | some (.tentative "udp") => 1
  | _ => 0

/-- How many layers may be found from a protocol on, its own included. -/
def Kind.generations : Kind → ℕ
  | ethernet => 3
  | ipv4 | ipv6 => 2
  | tcp | udp => 1

/-- What a protocol announces leaves fewer. -/
theorem Kind.generationsLeft_lt (k : Kind) :
    ∀ t ∈ k.announces, generationsLeft (some (.tentative t)) < k.generations := by
  cases k <;> decide

variable {l m : Layer}

/-- What is found was left behind by one of the five dissectors. -/
theorem exists_kind_of_next? (h : next? l = some m) :
    ∃ k : Kind, m = k.dissect l ∧ generationsLeft l.ns.last? = k.generations := by
  unfold next? at h
  split at h
  case h_1 hlast =>
    cases h
    exact ⟨.ethernet, rfl, by rw [hlast]; rfl⟩
  case h_2 hlast =>
    cases h
    exact ⟨.ipv4, rfl, by rw [hlast]; rfl⟩
  case h_3 hlast =>
    cases h
    exact ⟨.ipv6, rfl, by rw [hlast]; rfl⟩
  case h_4 hlast =>
    split at h <;> cases h
    · exact ⟨.ipv6, rfl, by rw [hlast]; rfl⟩
    · exact ⟨.ipv4, rfl, by rw [hlast]; rfl⟩
  case h_5 hlast =>
    cases h
    exact ⟨.tcp, rfl, by rw [hlast]; rfl⟩
  case h_6 hlast =>
    cases h
    exact ⟨.udp, rfl, by rw [hlast]; rfl⟩
  case h_7 => cases h

/-- A packet of either version is one of version 6 if its first four bits say so. -/
theorem next?_of_anyVersion (h : l.ns.last? = some anyVersion) :
    next? l = some ((if l.payload.toList.head?.any (·.toNat / 16 = 6) then Kind.ipv6
      else Kind.ipv4).dissect l) := by
  have hversion : claimedVersion? l = some 6 ↔
      l.payload.toList.head?.any (·.toNat / 16 = 6) = true := by
    rw [claimedVersion?, if_pos h, ByteView.get?_eq, ← List.head?_eq_getElem?]
    cases l.payload.toList.head? <;> simp
  have hnext : next? l =
      if claimedVersion? l = some 6 then some (Ipv6.dissect l) else some (Ipv4.dissect l) := by
    rw [next?, h]
    rfl
  rw [hnext]
  by_cases h6 : claimedVersion? l = some 6
  · rw [if_pos h6, if_pos (hversion.mp h6)]
    rfl
  · rw [if_neg h6, if_neg (mt hversion.mpr h6)]
    rfl

/-- There is less left to be found in what a protocol leaves behind, -/
theorem Kind.generationsLeft_dissect_lt (k : Kind)
    (hleft : generationsLeft l.ns.last? = k.generations) :
    generationsLeft (k.dissect l).ns.last? < generationsLeft l.ns.last? := by
  rw [hleft]
  rcases (k.leftBy_dissect l).ns with hns | ⟨t, ht, hns⟩
  · rw [hns, Namespace.last?_descend]
    cases k <;> decide
  · rw [hns, Namespace.last?_announce]
    exact k.generationsLeft_lt t ht

/-- and so there is in what was found. -/
theorem generationsLeft_lt_of_next? (h : next? l = some m) :
    generationsLeft m.ns.last? < generationsLeft l.ns.last? := by
  obtain ⟨k, rfl, hleft⟩ := exists_kind_of_next? h
  exact k.generationsLeft_dissect_lt hleft

/-- What one of the built-in dissectors finds was left behind by its protocol. -/
theorem exists_kind_of_found {memory s : σ} {d : Dissector σ} {f : Frame} {id : ℕ}
    (hd : d ∈ builtin memory) (hl : f.layer? id = some l) (hselects : d.selects l.ns = true)
    (hfound : (d.analyze s f id).2 = .found m) :
    ∃ k : Kind, m = k.dissect l ∧ generationsLeft l.ns.last? = k.generations := by
  have hread : ∀ {name tokens fits} {read : Layer → Layer},
      ((dissector name tokens fits read memory).analyze s f id).2 = .found m → m = read l := by
    intro name tokens fits read hverdict
    rw [analyze_dissector _ _ _ _ _ _ hl] at hverdict
    split at hverdict <;> cases hverdict
    rfl
  simp only [builtin, List.mem_cons, List.not_mem_nil, or_false] at hd
  rcases hd with rfl | rfl | rfl | rfl | rfl <;>
    simp only [ethernet, ipv4, ipv6, tcp, udp, selects_dissector, List.any_cons, List.any_nil,
      Bool.or_false, Bool.or_eq_true, decide_eq_true_eq] at hselects
  · exact ⟨.ethernet, hread hfound, by rw [hselects]; rfl⟩
  · exact ⟨.ipv4, hread hfound, by rcases hselects with h | h <;> rw [h] <;> rfl⟩
  · exact ⟨.ipv6, hread hfound, by rcases hselects with h | h <;> rw [h] <;> rfl⟩
  · exact ⟨.tcp, hread hfound, by rw [hselects]; rfl⟩
  · exact ⟨.udp, hread hfound, by rw [hselects]; rfl⟩

/-- **The built-in dissectors come to an end with every frame.** -/
theorem alwaysEnds_builtin (threshold : Threshold) (memory : σ) :
    Dissection.AlwaysEnds threshold (builtin memory) := by
  refine Dissection.alwaysEnds_of_leads (fun ns => generationsLeft ns.last?) ?_ threshold
  intro d hd n s f id l m hl hns hselects hfound
  obtain ⟨k, rfl, hleft⟩ := exists_kind_of_found hd hl hselects hfound
  exact (k.generationsLeft_dissect_lt hleft).trans_le hns

/-- At most one of the dissectors finds something, whatever their order. -/
theorem findings_of_perm {memory : σ} {ds : List (Dissector σ)} (hperm : ds.Perm (builtin memory))
    (f : Frame) (id : ℕ) : Dissector.findings ds f id = Dissector.findings (builtin memory) f id := by
  have hlocal : ∀ d ∈ ds, d.IsLocal := fun d hd =>
    isLocal_builtin memory d (hperm.mem_iff.mp hd)
  obtain ⟨hnone, hsome⟩ := Dissector.findings_perm hperm hlocal (f := f) (i := id) rfl rfl
  cases hl : f.layer? id with
  | none => simp [Dissector.findings, hl]
  | some l =>
    have hbuiltin := findings_builtin memory hl
    cases hds : Dissector.findings ds f id with
    | none =>
      rw [hnone.mp hds] at hbuiltin
      cases hbuiltin
    | some found =>
      rw [hbuiltin]
      have hperm' := hsome found _ hds hbuiltin
      -- There is no other order of at most one layer.
      cases hnext : next? l with
      | none =>
        rw [hnext] at hperm'
        rw [hperm'.eq_nil]
        rfl
      | some m =>
        rw [hnext] at hperm'
        rw [List.perm_singleton.mp hperm']
        rfl

end Protocol

/-! ### Chains below any root -/

namespace Dissection

open Protocol

variable {memory : σ} {threshold : Threshold} {d : Dissection σ} {root l m : Layer} {ls : List Layer}
  {f : Frame}

/-- Each layer is found in the one before. -/
def Line (ls : List Layer) : Prop := ls.IsChain fun l m => next? l = some m

theorem Stack.line (h : Stack threshold l ls) : Line (l :: ls) := by
  induction h with
  | nothing => exact .singleton _
  | next hnext _ _ _ ih => exact .cons_cons hnext ih

theorem Line.length_le (h : Line (l :: ls)) : ls.length ≤ generationsLeft l.ns.last? := by
  induction ls generalizing l with
  | nil => exact Nat.zero_le _
  | cons m ls ih =>
    obtain ⟨hnext, hrest⟩ := List.isChain_cons_cons.mp h
    exact (ih hrest).trans_lt (generationsLeft_lt_of_next? hnext)

/-- No two layers of a line have one namespace, as each has settled more than the one before. -/
theorem Line.nodup (h : Line ls) : (ls.map Layer.ns).Nodup := by
  let longer : Layer → Layer → Prop := fun l m => l.ns.settled.length < m.ns.settled.length
  have : IsTrans Layer longer := ⟨fun _ _ _ => Nat.lt_trans⟩
  have hlonger : ls.IsChain longer := h.imp fun l m hnext => by
    obtain ⟨k, rfl, -⟩ := exists_kind_of_next? hnext
    have hlength := congrArg List.length (k.leftBy_dissect l).settled
    rw [List.length_append, List.length_singleton] at hlength
    exact (Nat.lt_succ_self _).trans_eq hlength.symm
  refine List.pairwise_map.mpr ((List.isChain_iff_pairwise.mp hlonger).imp fun hlt heq => ?_)
  exact absurd hlt (by simp only [longer, heq, lt_irrefl, not_false_eq_true])

/-- **There is a chain below any layer**, if full confidence is enough. -/
theorem exists_stack (hsure : threshold.le Confidence.full.value = true) (l : Layer) :
    ∃ ls, Stack threshold l ls := by
  generalize hn : generationsLeft l.ns.last? = n
  induction n using Nat.strongRecOn generalizing l with
  | ind n ih =>
    cases hnext : next? l with
    | none => exact ⟨[], .nothing hnext⟩
    | some m =>
      have hlt := generationsLeft_lt_of_next? hnext
      obtain ⟨k, rfl, -⟩ := exists_kind_of_next? hnext
      have hleft := k.leftBy_dissect l
      obtain ⟨ls, hls⟩ := ih _ (hn ▸ hlt) _ rfl
      exact ⟨_, .next hnext hleft.within (hleft.confidence ▸ hsure) hls⟩

theorem generationsLeft_le (t : Option Token) : generationsLeft t ≤ 3 := by
  unfold generationsLeft
  split <;> omega

/-- A chain below a single layer is a line, and over after four generations. -/
theorem Stack.run_four {ls : List Layer} (h : Stack threshold root ls)
    (hd : d.workers.map Worker.dissector = builtin memory) (hleaves : d.leaves = [Frame.rootId])
    (hnodes : d.frame.nodes = [(root, none)]) (hvisited : d.visited = [root.ns]) :
    let e := Dissection.run threshold 4 d
    e.frame.nodes = (root, none) :: stackNodes Frame.rootId ls ∧ e.leaves = [] ∧
      e.faulted = false := by
  intro e
  have hnodup := List.nodup_cons.mp h.line.nodup
  have hroot : d.frame.layer? Frame.rootId = some root := by
    rw [Frame.layer?_eq, hnodes]
    rfl
  have hlast : Frame.rootId + 1 = d.frame.size := by
    rw [← Frame.length_nodes, hnodes]
    rfl
  have hnew : ∀ m ∈ ls, m.ns ∉ d.visited := fun m hm hmem => by
    rw [hvisited, List.mem_singleton] at hmem
    exact hnodup.1 (hmem ▸ List.mem_map_of_mem hm)
  obtain ⟨hgrown, hend, hsound⟩ := h.run hd hleaves hroot hlast hnodup.2 hnew
  have hrun : e = Dissection.run threshold (ls.length + 1) d := run_eq_of_le hend
    (Nat.succ_le_succ (h.line.length_le.trans (generationsLeft_le _)))
  rw [hrun, hgrown, hnodes]
  exact ⟨rfl, hend, hsound⟩

/-- Below a single layer nothing is found if full confidence is not enough. -/
theorem run_four_of_unsure (hunsure : threshold.le Confidence.full.value = false)
    (hd : d.workers.map Worker.dissector = builtin memory) (hleaves : d.leaves = [Frame.rootId])
    (hnodes : d.frame.nodes = [(root, none)]) :
    let e := run threshold 4 d
    e.frame.nodes = [(root, none)] ∧ e.leaves = [] ∧ e.faulted = false := by
  intro e
  have hroot : d.frame.layer? Frame.rootId = some root := by
    rw [Frame.layer?_eq, hnodes]
    rfl
  have hfound : Dissector.offspring threshold (builtin memory) d.frame Frame.rootId = [] := by
    rw [Dissector.offspring, hroot, Option.bind_some, findings_builtin memory hroot]
    cases hnext : next? root with
    | none => simp [rank]
    | some m =>
      obtain ⟨k, rfl, -⟩ := exists_kind_of_next? hnext
      simp [rank, (k.leftBy_dissect root).confidence, hunsure]
  obtain ⟨hgrown, -, hsound, hnext, -⟩ := step_builtin hd hleaves hroot hfound
  have hfirst : run threshold 1 d = step threshold d := by
    rw [run, hleaves]
    rfl
  have hend : (run threshold 1 d).leaves = [] := by
    rw [hfirst, hnext]
    rfl
  have hrun : e = run threshold 1 d := run_eq_of_le hend (by decide)
  rw [hrun, hfirst, hgrown, hnodes]
  exact ⟨rfl, hfirst ▸ hend, hsound⟩

/-- The dissection of any packet is a line, and over after four generations. -/
theorem exists_line (threshold : Threshold) (root : Layer) (index : ℕ) (timestamp : Instant)
    (length sourceId : ℕ) (memory : σ) :
    let d := run threshold 4 (start (.ofRoot index timestamp length sourceId root)
      ((builtin memory).map Dissector.worker))
    ∃ ls, Line (root :: ls) ∧ d.frame.nodes = (root, none) :: stackNodes Frame.rootId ls ∧
      d.leaves = [] ∧ d.faulted = false ∧
      (threshold.le Confidence.full.value = true → Stack threshold root ls) := by
  have hworkers := map_dissector_worker (builtin memory)
  cases hsure : threshold.le Confidence.full.value with
  | true =>
    obtain ⟨ls, hls⟩ := exists_stack hsure root
    obtain ⟨hnodes, hend, hsound⟩ := hls.run_four
      (d := start (.ofRoot index timestamp length sourceId root) _) hworkers rfl rfl rfl
    exact ⟨ls, hls.line, hnodes, hend, hsound, fun _ => hls⟩
  | false =>
    obtain ⟨hnodes, hend, hsound⟩ := run_four_of_unsure
      (d := start (.ofRoot index timestamp length sourceId root) _) hsure hworkers rfl rfl
    exact ⟨[], .singleton _, hnodes, hend, hsound, fun h => absurd h Bool.false_ne_true⟩

/-! ### The frame of a line -/

theorem getElem?_stackNodes (id : ℕ) (ls : List Layer) (i : ℕ) :
    (stackNodes id ls)[i]? = ls[i]?.map fun l => (l, some (id + i)) := by
  induction ls generalizing id i with
  | nil => rfl
  | cons l ls ih =>
    cases i with
    | zero => rfl
    | succ i =>
      rw [stackNodes, List.getElem?_cons_succ, List.getElem?_cons_succ, ih, Nat.add_right_comm,
        Nat.add_assoc]

@[simp] theorem length_stackNodes (id : ℕ) (ls : List Layer) : (stackNodes id ls).length = ls.length := by
  induction ls generalizing id with
  | nil => rfl
  | cons l ls ih => rw [stackNodes, List.length_cons, ih, List.length_cons]

section

variable (hnodes : f.nodes = (root, none) :: stackNodes Frame.rootId ls)

include hnodes

theorem getElem?_nodes_of_line (id : ℕ) : f.nodes[id + 1]? = ls[id]?.map fun l => (l, some id) := by
  rw [hnodes, List.getElem?_cons_succ, getElem?_stackNodes, Frame.rootId]
  simp only [Nat.zero_add]

/-- The layers of a line stand in its order. -/
theorem layer?_of_line (id : ℕ) : f.layer? id = (root :: ls)[id]? := by
  rw [Frame.layer?_eq]
  cases id with
  | zero =>
    rw [hnodes]
    rfl
  | succ id =>
    rw [getElem?_nodes_of_line hnodes, Option.map_map, List.getElem?_cons_succ]
    exact Option.map_id'

theorem size_of_line : f.size = ls.length + 1 := by
  rw [← Frame.length_nodes, hnodes, List.length_cons, length_stackNodes]

/-- Each layer stands below the one before. -/
theorem parent?_of_line (c id : ℕ) : f.parent? c = some id ↔ c = id + 1 ∧ id < ls.length := by
  rw [Frame.parent?_eq]
  cases c with
  | zero => simp [hnodes]
  | succ c =>
    rw [getElem?_nodes_of_line hnodes, Nat.add_right_cancel_iff]
    rcases Nat.lt_or_ge c ls.length with hlt | hle
    · rw [List.getElem?_eq_getElem hlt, Option.map_some, Option.bind_some, Option.some.injEq]
      constructor
      · rintro rfl
        exact ⟨rfl, hlt⟩
      · rintro ⟨rfl, -⟩
        rfl
    · rw [List.getElem?_eq_none hle]
      constructor
      · intro hparent
        cases hparent
      · rintro ⟨rfl, hlt⟩
        exact absurd hlt (Nat.not_lt.mpr hle)

/-- Each layer has the next one as its only child. -/
theorem children_of_line (hf : f.WellFormed) (id : ℕ) :
    f.children id = if id + 1 < f.size then [id + 1] else [] := by
  have hmem : ∀ c, c ∈ f.children id ↔ c = id + 1 ∧ id < ls.length := fun c => by
    rw [hf.mem_children, parent?_of_line hnodes]
  rw [size_of_line hnodes]
  by_cases hlt : id < ls.length
  · rw [if_pos (Nat.succ_lt_succ hlt), ← List.perm_singleton]
    refine (List.perm_ext_iff_of_nodup (hf.nodup id) (List.nodup_singleton _)).mpr fun c => ?_
    rw [hmem, List.mem_singleton]
    exact and_iff_left hlt
  · rw [if_neg (by omega), List.eq_nil_iff_forall_not_mem]
    intro c hc
    exact hlt ((hmem c).mp hc).2

end

/-! ### Any packet, dissectors in any order -/

/-- **What becomes of any packet.** With the built-in dissectors in any order, the dissection is over
after four generations, without a breakdown. Its layers are at most four and form a chain, in which
each was left behind by one of the five dissectors and continues the namespace of the one before. A
packet of either version of the internet protocol is always taken by one of them, by version 6 if its
first four bits say so. The frame is the same for every order. -/
theorem lineage_of_perm {ds : List (Dissector σ)} (hperm : ds.Perm (builtin memory))
    (threshold : Threshold) (root : Layer) (index : ℕ) (timestamp : Instant) (length sourceId : ℕ) :
    let f := Frame.ofRoot index timestamp length sourceId root
    ∃ d, complete threshold f (ds.map Dissector.worker) = some d ∧
      (d = run threshold 4 (start f (ds.map Dissector.worker)) ∧ d.leaves = [] ∧ d.faulted = false) ∧
      d.frame.size ≤ 4 ∧
      (∀ id, d.frame.children id = if id + 1 < d.frame.size then [id + 1] else []) ∧
      (∀ id l m, d.frame.layer? id = some l → d.frame.layer? (id + 1) = some m →
        ∃ k : Kind, m = k.dissect l ∧ l.ns.Continues k.name m.ns) ∧
      (root.ns.last? = some anyVersion → threshold.le Confidence.full.value = true →
        d.frame.children Frame.rootId = [1] ∧ d.frame.layer? 1 = some
          ((if root.payload.toList.head?.any (·.toNat / 16 = 6) then Kind.ipv6 else Kind.ipv4).dissect
            root)) ∧
      ∃ e, complete threshold f ((builtin memory).map Dissector.worker) = some e ∧
        d.frame = e.frame := by
  intro f
  have hlocal : ∀ k ∈ ds, k.IsLocal := fun k hk => isLocal_builtin memory k (hperm.mem_iff.mp hk)
  have hsame := run_congr hlocal (isLocal_builtin memory) (findings_of_perm hperm) threshold f
  obtain ⟨ls, hline, hnodes, hend, hsound, hstack⟩ :=
    exists_line threshold root index timestamp length sourceId memory
  have hleaves : (run threshold 4 (start f (ds.map Dissector.worker))).leaves = [] :=
    (hsame 4).leaves.trans hend
  have hcomplete := complete_of_leaves_eq_nil hleaves
  have hbuilt : (run threshold 4 (start f (ds.map Dissector.worker))).frame.Built :=
    (contained_run (.root index timestamp length sourceId root)
      (Frame.contained_ofRoot index timestamp length sourceId root) threshold 4).1
  have hgrown : (run threshold 4 (start f (ds.map Dissector.worker))).frame.nodes =
      (root, none) :: stackNodes Frame.rootId ls := by
    rw [(hsame 4).frame, hnodes]
  have hsize := size_of_line hgrown
  have hlayer := layer?_of_line hgrown
  have hchildren := children_of_line hgrown hbuilt.wellFormed
  refine ⟨_, hcomplete, ⟨rfl, hleaves, ?_⟩, ?_, hchildren, fun id l m hl hm => ?_,
    fun hany hsure => ?_, _, complete_of_leaves_eq_nil hend, (hsame 4).frame⟩
  · rw [(hsame 4).faulted, hsound]
  · have := hline.length_le.trans (generationsLeft_le _)
    omega
  · rw [hlayer] at hl hm
    obtain ⟨hlt, rfl⟩ := List.getElem?_eq_some_iff.mp hm
    obtain ⟨hlt', rfl⟩ := List.getElem?_eq_some_iff.mp hl
    obtain ⟨k, hk, -⟩ := exists_kind_of_next? (List.isChain_iff_getElem.mp hline id hlt)
    exact ⟨k, hk, hk ▸ (k.leftBy_dissect _).continues⟩
  · have hnext := next?_of_anyVersion hany
    cases hstack hsure with
    | nothing hnone =>
      rw [hnone] at hnext
      cases hnext
    | @next _ m ls' hnext' =>
      have hchild := hchildren Frame.rootId
      rw [hsize, if_pos (by simp [Frame.rootId])] at hchild
      refine ⟨hchild, (hlayer 1).trans ?_⟩
      rw [← hnext, hnext']
      rfl

/-- A packet without any bytes, looked at from the last dissector to the first. -/
theorem lineage_of_empty :
    let root : Layer := { ns := ⟨[anyVersion]⟩ }
    (builtin ()).reverse.Perm (builtin ()) ∧ root.ns.last? = some anyVersion ∧
      Double.zero.le Confidence.full.value = true ∧
      ∃ d, complete Double.zero (.ofRoot 1 .epoch 0 0 root)
          ((builtin ()).reverse.map Dissector.worker) = some d ∧
        d.frame.children Frame.rootId = [1] ∧ d.frame.layer? 1 = some (Ipv4.dissect root) := by
  intro root
  have hperm : (builtin ()).reverse.Perm (builtin ()) := List.reverse_perm _
  have hsure : Double.zero.le Confidence.full.value = true := by decide
  obtain ⟨d, hd, -, -, -, -, hany, -⟩ := lineage_of_perm hperm Double.zero root 1 .epoch 0 0
  exact ⟨hperm, rfl, hsure, d, hd, hany rfl hsure⟩

end Dissection

/-- In a session full confidence is always enough. -/
theorem Settings.le_full (s : Settings) : s.threshold.clampUnit.le Confidence.full.value = true := by
  have hnumber : s.threshold.isNaN = false := by
    rw [threshold]
    split
    · exact Double.isNaN_zero
    · next h =>
      have hle := (Double.le_clampUnit (Bool.eq_false_iff.mpr h)).1
      simp only [Double.le, Bool.and_eq_true, Bool.not_eq_true'] at hle
      exact hle.1.2
  exact (Double.le_clampUnit hnumber).2

end PacketTree
