import PacketTree.Proofs.Dissection.Alone
import PacketTree.Proofs.Dissection.Confluence
import PacketTree.Proofs.Reassembly.Streams

/-!
# The built-in dissectors build chains

At most one of the built-in dissectors finds a layer in another, and nothing is found in a segment of
TCP. So the layers of a packet form a chain, and at most its last one belongs to a stream.

## What is proved

* `findings_builtin`: what all built-in dissectors together find in a layer.
* `IsChain.run`: the layers stay a chain from generation to generation.
* `length_ofFrame_alone_le`: a packet has at most one segment.

## The model

A step of reading a header `Keeps` some part of the layer. The steps of TCP keep the namespace, and
those of all other protocols keep the stream, which is then still missing.
-/

namespace PacketTree

/-! ### What the steps of a header keep -/

namespace Header

variable {α β : Type} {g : Layer → α}

/-- Whenever the step succeeds, some part of the layer is as before. -/
def Keeps (g : Layer → α) (step : Step) : Prop := ∀ l m, step l = .ok m → g m = g l

theorem Keeps.pure {change : Layer → Layer} (h : ∀ l, g (change l) = g l) :
    Keeps g fun l => Pure.pure (change l) := by
  intro l m hm
  cases hm
  exact h l

theorem Keeps.bind {x : Result β} {k : β → Step} (h : ∀ a, Keeps g (k a)) :
    Keeps g fun l => x >>= fun a => k a l := by
  intro l m hm
  cases x with
  | error e => cases hm
  | ok a => exact h a l m hm

theorem keeps_field (h : ∀ l p, g (l.push p) = g l) (p : Result Property) : Keeps g (field p) := by
  intro l m hm
  cases p with
  | error e => cases hm
  | ok p =>
    cases hm
    exact h l p

@[simp] theorem keeps_streamId_field (p : Result Property) : Keeps Layer.streamId (field p) :=
  keeps_field (fun _ _ => rfl) p

@[simp] theorem keeps_ns_field (p : Result Property) : Keeps Layer.ns (field p) :=
  keeps_field (fun _ _ => rfl) p

@[simp] theorem keeps_check (r : Result Unit) : Keeps g (check r) := by
  intro l m hm
  cases r with
  | error e => cases hm
  | ok _ =>
    cases hm
    rfl

/-- What all steps keep and the error does not touch is as before in the end. -/
theorem run_of_keeps (herror : ∀ l e, g { l with error := e } = g l) {steps : List Step}
    (h : ∀ step ∈ steps, Keeps g step) (l : Layer) : g (run steps l) = g l := by
  induction steps generalizing l with
  | nil => rfl
  | cons step steps ih =>
    obtain ⟨hstep, hsteps⟩ := List.forall_mem_cons.mp h
    rw [run]
    cases hm : step l with
    | error e => exact herror l e.message
    | ok m => exact (ih hsteps m).trans (hstep l m hm)

theorem streamId_read {steps : List Step} (h : ∀ step ∈ steps, Keeps Layer.streamId step)
    (name : String) (parent : Layer) : (read name steps parent).streamId = none :=
  run_of_keeps (fun _ _ => rfl) h _

theorem ns_read {steps : List Step} (h : ∀ step ∈ steps, Keeps Layer.ns step) (name : String)
    (parent : Layer) : (read name steps parent).ns = parent.ns.descend name :=
  run_of_keeps (fun _ _ => rfl) h _

end Header

open Header

namespace Ethernet

theorem keeps_summarize (v : ByteView) : Keeps Layer.streamId (summarize v) :=
  .bind fun _ => .bind fun _ => .pure fun _ => rfl

theorem keeps_readType (v : ByteView) : Keeps Layer.streamId (readType v) := by
  refine .bind fun n l m hm => ?_
  dsimp only at hm
  split at hm
  · cases hm
    rfl
  · split at hm <;> cases hm <;> rfl

theorem streamId_dissect (parent : Layer) : (dissect parent).streamId = none :=
  streamId_read (by simp [steps, keeps_summarize, keeps_readType]) "eth" parent

end Ethernet

namespace Ipv4

theorem keeps_summarize (v : ByteView) : Keeps Layer.streamId (summarize v) :=
  .bind fun _ => .bind fun _ => .pure fun _ => rfl

theorem keeps_carry (v : ByteView) : Keeps Layer.streamId (carry v) := by
  refine .bind fun words => .bind fun total => .bind fun n l m hm => ?_
  dsimp only at hm
  split at hm <;> cases hm <;> rfl

theorem streamId_dissect (parent : Layer) : (dissect parent).streamId = none :=
  streamId_read (by simp [steps, keeps_summarize, keeps_carry]) "ipv4" parent

end Ipv4

namespace Ipv6

theorem keeps_summarize (v : ByteView) : Keeps Layer.streamId (summarize v) :=
  .bind fun _ => .bind fun _ => .pure fun _ => rfl

theorem keeps_carry (v : ByteView) : Keeps Layer.streamId (carry v) := by
  refine .bind fun length => .bind fun n l m hm => ?_
  dsimp only at hm
  split at hm <;> cases hm <;> rfl

theorem streamId_dissect (parent : Layer) : (dissect parent).streamId = none :=
  streamId_read (by simp [steps, keeps_summarize, keeps_carry]) "ipv6" parent

end Ipv6

namespace Udp

theorem keeps_summarize (v : ByteView) : Keeps Layer.streamId (summarize v) :=
  .bind fun _ => .bind fun _ => .pure fun _ => rfl

theorem keeps_carry (v : ByteView) : Keeps Layer.streamId (carry v) := by
  refine .bind fun length l m hm => ?_
  split at hm <;> cases hm
  rfl

theorem streamId_dissect (parent : Layer) : (dissect parent).streamId = none :=
  streamId_read (by simp [steps, keeps_summarize, keeps_carry]) "udp" parent

end Udp

namespace Tcp

theorem keeps_nameStream (parent : Layer) : Keeps Layer.ns (nameStream parent) :=
  .bind fun _ => .bind fun _ => .pure fun _ => rfl

theorem keeps_readFlags (v : ByteView) : Keeps Layer.ns (readFlags v) := by
  refine .bind fun n l m hm => ?_
  cases hm
  by_cases hsummary : (flagProperty "flags" (n % 0x200) ⟨12, 14⟩ flagBits).summary = ""
  · rw [if_pos hsummary]
    rfl
  · rw [if_neg hsummary]
    rfl

theorem keeps_readOptions (v : ByteView) : Keeps Layer.ns (readOptions v) :=
  .bind fun _ => .pure fun _ => rfl

theorem keeps_carry (v : ByteView) : Keeps Layer.ns (carry v) := .bind fun _ => .pure fun _ => rfl

/-- A segment of TCP is the innermost protocol. -/
theorem last?_dissect (parent : Layer) : (dissect parent).ns.last? = some (.confirmed "tcp") := by
  have hns : (dissect parent).ns = parent.ns.descend "tcp" := ns_read
    (by simp [steps, keeps_nameStream, keeps_readFlags, keeps_readOptions, keeps_carry]) "tcp" parent
  rw [hns, Namespace.last?_descend]

end Tcp

/-! ### What the built-in dissectors find -/

namespace Protocol

variable {σ : Type} {f : Frame} {id : ℕ} {l : Layer}

theorem isSteady_builtin (memory : σ) : ∀ d ∈ builtin memory, d.IsSteady := by
  intro d hd
  simp only [builtin, List.mem_cons, List.not_mem_nil, or_false] at hd
  rcases hd with rfl | rfl | rfl | rfl | rfl <;> exact Dissector.isSteady_stateless _ _ memory _

/-- A built-in dissector looks at the layers that announce one of its tokens. -/
theorem selects_dissector (name : String) (tokens : List String) (fits : Layer → Bool)
    (read : Layer → Layer) (memory : σ) (ns : Namespace) :
    (dissector name tokens fits read memory).selects ns =
      tokens.any fun t => ns.last? = some (.tentative t) := by
  simp only [Dissector.selects, dissector, Dissector.stateless, Pattern.selects,
    Namespace.endsWith_singleton, List.any_map, Function.comp_def]

theorem analyze_dissector (name : String) (tokens : List String) (fits : Layer → Bool)
    (read : Layer → Layer) (memory : σ) (s : σ) (h : f.layer? id = some l) :
    ((dissector name tokens fits read memory).analyze s f id).2 =
      if fits l then .found (read l) else .nothing := by
  simp only [dissector, Dissector.stateless, h, Option.bind_some]
  cases fits l <;> rfl

/-- The layer that the built-in dissectors find in the payload of a layer. -/
def next? (l : Layer) : Option Layer :=
  match l.ns.last? with
  | some (.tentative "eth") => some (Ethernet.dissect l)
  | some (.tentative "ipv4") => some (Ipv4.dissect l)
  | some (.tentative "ipv6") => some (Ipv6.dissect l)
  | some (.tentative "ip") =>
    if claimedVersion? l = some 6 then some (Ipv6.dissect l) else some (Ipv4.dissect l)
  | some (.tentative "tcp") => some (Tcp.dissect l)
  | some (.tentative "udp") => some (Udp.dissect l)
  | _ => none

/-- A layer that leaves the version open is taken by exactly one of the two. -/
theorem isVersion6_eq_not_isVersion4 (h : l.ns.last? = some anyVersion) :
    isVersion6 l = !isVersion4 l := by
  rw [isVersion6, isVersion4, claimedVersion?, if_pos h]
  simp

/-- A layer that says its version is taken by it. -/
theorem isVersion_of_ne (h : l.ns.last? ≠ some anyVersion) :
    isVersion4 l = true ∧ isVersion6 l = true := by
  rw [isVersion4, isVersion6, claimedVersion?, if_neg h]
  exact ⟨rfl, rfl⟩

/-- **At most one built-in dissector finds a layer.** -/
theorem findings_builtin (memory : σ) (h : f.layer? id = some l) :
    Dissector.findings (builtin memory) f id = some (next? l).toList := by
  rw [Dissector.findings, h, Option.bind_some, Dissector.verdicts]
  simp only [builtin, ethernet, ipv4, ipv6, tcp, udp, List.filter_cons, List.filter_nil,
    selects_dissector, List.any_cons, List.any_nil]
  fun_cases next? l
  case case4 hany h6 =>
    have h4 : isVersion4 l = false := by simp [isVersion4, h6]
    simp [hany, analyze_dissector _ _ _ _ _ _ h, h4, isVersion6_eq_not_isVersion4 hany,
      Verdict.collect]
  case case5 hany h6 =>
    have h4 : isVersion4 l = true := by simp [isVersion4, h6]
    simp [hany, analyze_dissector _ _ _ _ _ _ h, h4, isVersion6_eq_not_isVersion4 hany,
      Verdict.collect]
  case case8 heth hv4 hv6 hany htcp hudp =>
    simp only [imp_false] at heth hv4 hv6 hany htcp hudp
    simp [heth, hv4, hv6, hany, htcp, hudp, Verdict.collect]
  all_goals
    next hlast =>
    have hv := isVersion_of_ne (l := l) (by simp [hlast, anyVersion])
    simp [hlast, analyze_dissector _ _ _ _ _ _ h, hv, Verdict.collect]

/-- Something is found only where a protocol is announced. It belongs to no stream or is a segment of
TCP. -/
theorem of_next?_eq_some {m : Layer} (h : next? l = some m) :
    (∃ name, l.ns.last? = some (.tentative name)) ∧
      (m.streamId = none ∨ m.ns.last? = some (.confirmed "tcp")) := by
  unfold next? at h
  split at h
  case h_1 hlast =>
    cases h
    exact ⟨⟨_, hlast⟩, .inl (Ethernet.streamId_dissect l)⟩
  case h_2 hlast =>
    cases h
    exact ⟨⟨_, hlast⟩, .inl (Ipv4.streamId_dissect l)⟩
  case h_3 hlast =>
    cases h
    exact ⟨⟨_, hlast⟩, .inl (Ipv6.streamId_dissect l)⟩
  case h_4 hlast =>
    refine ⟨⟨_, hlast⟩, .inl ?_⟩
    split at h <;> cases h
    · exact Ipv6.streamId_dissect l
    · exact Ipv4.streamId_dissect l
  case h_5 hlast =>
    cases h
    exact ⟨⟨_, hlast⟩, .inr (Tcp.last?_dissect l)⟩
  case h_6 hlast =>
    cases h
    exact ⟨⟨_, hlast⟩, .inl (Udp.streamId_dissect l)⟩
  case h_7 => cases h

/-- At most one layer is put below a layer. -/
theorem offspring_builtin (threshold : Threshold) (memory : σ) (h : f.layer? id = some l) :
    Dissector.offspring threshold (builtin memory) f id = [] ∨
      ∃ m, next? l = some m ∧ Dissector.offspring threshold (builtin memory) f id =
        [Dissection.contain l.payload m] := by
  rw [Dissector.offspring, h, Option.bind_some, findings_builtin memory h, Option.map_some,
    Option.getD_some]
  rcases hnext : next? l with _ | m
  · exact .inl (by simp [Dissection.rank])
  · rw [Option.toList_some, Dissection.rank, List.filter_singleton]
    cases threshold.le m.confidence.value with
    | false => exact .inl (by simp)
    | true => exact .inr ⟨m, rfl, by simp⟩

end Protocol

/-! ### Chains of layers -/

namespace Dissection

variable {σ : Type} {memory : σ} {d : Dissection σ} {threshold : Threshold}

/-- The built-in dissectors are at work, at most one layer is looked at next, and no more is found
once there is a layer of a stream. -/
structure IsChain (memory : σ) (d : Dissection σ) : Prop where
  /-- The dissectors are the built-in ones. -/
  dissectors : d.workers.map Worker.dissector = Protocol.builtin memory
  /-- At most one layer is looked at next, -/
  length_le : d.leaves.length ≤ 1
  /-- and it is there. -/
  lt : ∀ leaf ∈ d.leaves, leaf < d.frame.size
  /-- A layer of a stream comes last. -/
  streams : (∀ l ∈ d.frame.layers, l.streamId = none) ∨
    d.frame.layers.countP (·.streamId.isSome) ≤ 1 ∧
      ∀ leaf ∈ d.leaves, ∀ l, d.frame.layer? leaf = some l →
        ∃ name, l.ns.last? = some (.confirmed name)

theorem isChain_start {f : Frame} (h : ∀ l ∈ f.layers, l.streamId = none) (memory : σ) :
    (start f ((Protocol.builtin memory).map Dissector.worker)).IsChain memory where
  dissectors := rfl
  length_le := Nat.le_refl 1
  lt := by
    intro leaf hleaf
    rw [List.mem_singleton.mp hleaf]
    exact f.size_pos
  streams := .inl h

theorem IsChain.isLocal (h : d.IsChain memory) : ∀ w ∈ d.workers, w.dissector.IsLocal := fun _ hw =>
  Protocol.isLocal_builtin memory _ (h.dissectors ▸ List.mem_map_of_mem hw)

/-- At most one layer is added. -/
theorem IsChain.growth_cases (h : d.IsChain memory) (threshold : Threshold) :
    growth threshold (Protocol.builtin memory) d.frame d.leaves = [] ∨
      ∃ leaf ∈ d.leaves, ∃ l m, d.frame.layer? leaf = some l ∧ Protocol.next? l = some m ∧
        growth threshold (Protocol.builtin memory) d.frame d.leaves =
          [(contain l.payload m, some leaf)] := by
  rcases hleaves : d.leaves with _ | ⟨leaf, _ | ⟨other, leaves⟩⟩
  · exact .inl rfl
  · obtain ⟨l, hl⟩ := Frame.exists_layer?_of_lt (h.lt leaf (by simp [hleaves]))
    rw [growth, List.flatMap_singleton]
    rcases Protocol.offspring_builtin threshold memory hl with hnil | ⟨m, hm, hone⟩
    · exact .inl (by rw [hnil, List.map_nil])
    · exact .inr ⟨leaf, List.mem_singleton_self leaf, l, m, hl, hm, by rw [hone]; rfl⟩
  · have := h.length_le
    rw [hleaves] at this
    simp at this

/-- **One generation keeps a chain.** -/
theorem IsChain.step (h : d.IsChain memory) (threshold : Threshold) :
    (Dissection.step threshold d).IsChain memory := by
  obtain ⟨hfault, hgrow, hws, -⟩ := expand_spec threshold h.isLocal h.lt
  rw [h.dissectors] at hfault hgrow hws
  have hsound : (expand threshold d.frame d.workers d.leaves).faulted = false := by
    rw [Bool.eq_false_iff, ne_eq, hfault]
    rintro ⟨leaf, hleaf, hnone⟩
    obtain ⟨l, hl⟩ := Frame.exists_layer?_of_lt (h.lt leaf hleaf)
    rw [Protocol.findings_builtin memory hl] at hnone
    cases hnone
  obtain ⟨hnodes, hadded⟩ := hgrow hsound
  change (Dissection.step threshold d).frame.nodes = _ at hnodes
  have hleaves : (Dissection.step threshold d).leaves.Sublist
      (expand threshold d.frame d.workers d.leaves).added := by
    simp only [Dissection.step, hsound, Bool.false_eq_true, if_false]
    exact List.filter_sublist
  rw [hadded] at hleaves
  rcases h.growth_cases threshold with hnil | ⟨leaf, hleaf, l, m, hl, hm, hone⟩
  · have hlayers : (Dissection.step threshold d).frame.layers = d.frame.layers := by
      rw [Frame.layers_eq, hnodes, hnil, List.append_nil, Frame.layers_eq]
    rw [hnil, List.length_nil, List.range'_zero, List.sublist_nil] at hleaves
    refine ⟨hws, by simp [hleaves], by simp [hleaves], ?_⟩
    rw [hlayers, hleaves]
    exact h.streams.imp_right fun hstreams => ⟨hstreams.1, fun _ hi => absurd hi List.not_mem_nil⟩
  · -- Something is found, so a protocol was announced and there is no layer of a stream yet.
    obtain ⟨⟨name, hlast⟩, hkind⟩ := Protocol.of_next?_eq_some hm
    have hnone : ∀ k ∈ d.frame.layers, k.streamId = none := by
      refine h.streams.resolve_right fun hstreams => ?_
      obtain ⟨name', hlast'⟩ := hstreams.2 leaf hleaf l hl
      rw [hlast] at hlast'
      cases hlast'
    rw [hone] at hnodes hleaves
    have hlayers : (Dissection.step threshold d).frame.layers =
        d.frame.layers ++ [contain l.payload m] := by
      rw [Frame.layers_eq, hnodes, List.map_append, Frame.layers_eq]
      rfl
    have hnew : (Dissection.step threshold d).frame.layer? d.frame.size =
        some (contain l.payload m) := by
      simp [Frame.layer?_eq, hnodes]
    refine ⟨hws, hleaves.length_le, fun i hi => ?_, ?_⟩
    · rw [List.mem_singleton.mp (hleaves.subset hi)]
      exact Frame.layer?_isSome_iff.mp (hnew ▸ rfl)
    · have hns : (contain l.payload m).ns = m.ns := by
        unfold contain
        split <;> rfl
      have hstream : (contain l.payload m).streamId = m.streamId := by
        unfold contain
        split <;> rfl
      rw [hlayers]
      rcases hkind with hm | hm
      · refine .inl fun k hk => ?_
        rcases List.mem_append.mp hk with hk | hk
        · exact hnone k hk
        · rw [List.mem_singleton.mp hk, hstream, hm]
      · refine .inr ⟨?_, fun i hi k hk => ?_⟩
        · rw [List.countP_append, List.countP_eq_zero.mpr fun k hk => by simp [hnone k hk],
            Nat.zero_add]
          exact List.countP_le_length
        · rw [List.mem_singleton.mp (hleaves.subset hi), hnew, Option.some.injEq] at hk
          exact ⟨"tcp", by rw [← hk, hns, hm]⟩

theorem IsChain.run (h : d.IsChain memory) (threshold : Threshold) (n : ℕ) :
    (Dissection.run threshold n d).IsChain memory := by
  induction n generalizing d with
  | zero => exact h
  | succ n ih =>
    rw [Dissection.run]
    split
    · exact h
    · exact ih (h.step threshold)

end Dissection

/-! ### Segments of a packet -/

namespace Segment

variable {σ τ : Type}

/-- Only layers of streams carry segments. -/
theorem length_ofFrame_le (ds : List (StreamDissector τ)) (f : Frame) :
    (ofFrame ds f).length ≤ f.layers.countP (·.streamId.isSome) := by
  have hlayers : f.layers = f.layers.zipIdx.map Prod.fst := by simp
  rw [ofFrame, List.length_filterMap_eq_countP]
  conv_rhs => rw [hlayers, List.countP_map]
  refine List.countP_mono_left fun a _ ha => ?_
  obtain ⟨l, id⟩ := a
  dsimp only at ha
  split at ha
  · obtain ⟨s, hs⟩ := Option.isSome_iff_exists.mp ha
    obtain ⟨-, -, -, hstream⟩ := of_ofLayer?_eq_some hs
    simp [hstream]
  · cases ha

/-- **A packet has at most one segment** if the built-in dissectors take it apart. -/
theorem length_ofFrame_alone_le (ds : List (StreamDissector τ)) (threshold : Threshold) (memory : σ)
    {f : Frame} (h : ∀ l ∈ f.layers, l.streamId = none) :
    (ofFrame ds (alone threshold (Protocol.builtin memory) f)).length ≤ 1 := by
  refine (length_ofFrame_le ds _).trans ?_
  have hchain : ∀ d : Dissection σ, d.IsChain memory →
      d.frame.layers.countP (·.streamId.isSome) ≤ 1 := by
    intro d hd
    rcases hd.streams with hnone | hone
    · rw [List.countP_eq_zero.mpr fun l hl => by
        rw [hnone l hl, Option.isSome_none]
        exact Bool.false_ne_true]
      exact Nat.zero_le 1
    · exact hone.1
  have hstart := Dissection.isChain_start h memory
  cases hcomplete : Dissection.complete threshold f
      ((Protocol.builtin memory).map Dissector.worker) with
  | none =>
    rw [alone, hcomplete]
    exact hchain _ hstart
  | some d =>
    rw [alone_of_complete_eq_some hcomplete]
    exact hchain d (Dissection.of_complete_eq_some hcomplete (hstart.run threshold))

end Segment

end PacketTree
