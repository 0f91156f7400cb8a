import PacketTree.Proofs.Json.RoundTrip
import PacketTree.Report.Document

/-!
# Reports are read back from their documents

A report whose numbers are in the range of its fields (`Report.Fits`) is what its document reads as.
What was left out because it is empty or missing is put back, level by level: a part always nests
less deep than what it is a part of, so the depth of the document bounds how far the reader has to
go.

## Main results

* `PacketTree.Report.property?_propertyToJson`, `PacketTree.Report.layer?_layerToJson` - fields and
  layers with all below them are read back.
* `PacketTree.Report.ofJson?_toJson` - a whole report is read back from its document.
* `PacketTree.Report.fits_toJson` - the numbers in the document of a report have 64 bits.
-/

namespace PacketTree

/-! ### Reports of numbers in range -/

/-- The numbers of a field have 64 bits. -/
inductive PropertyReport.Fits : PropertyReport → Prop
  | intro {p : PropertyReport} (hvalue : p.value.Fits)
    (hrange : ∀ r ∈ p.range, r.1 < UInt64.size ∧ r.2 < UInt64.size)
    (hchildren : ∀ c ∈ p.children, PropertyReport.Fits c) : p.Fits

/-- The numbers of a layer have 64 bits, and how sure it is has a text. -/
inductive LayerReport.Fits : LayerReport → Prop
  | intro {l : LayerReport} (hconfidence : l.confidence.isFinite = true)
    (hlength : l.payloadLength < UInt64.size) (hproperties : ∀ p ∈ l.properties, p.Fits)
    (hchildren : ∀ c ∈ l.children, LayerReport.Fits c) : l.Fits

/-- The numbers of a frame are in range. -/
structure FrameReport.Fits (f : FrameReport) : Prop where
  index : f.index < UInt32.size
  length : f.length < UInt64.size
  linkType : f.linkType < UInt32.size
  root : f.root.Fits

/-- The numbers about all frames are in range. -/
structure CaptureSummary.Fits (s : CaptureSummary) : Prop where
  packets : s.packets < UInt64.size
  framesWithErrors : s.framesWithErrors < UInt64.size
  streamLayers : s.streamLayers < UInt64.size

/-- The numbers of a report are in range. -/
structure Report.Fits (r : Report) : Prop where
  version : r.version < UInt32.size
  bytes : r.bytes < UInt64.size
  summary : ∀ s ∈ r.summary, s.Fits
  frames : ∀ f ∈ r.frames, f.Fits

namespace Report

open Json

variable {j v : Json} {name k text : String} {α : Type} {d : ℕ}

/-! ### Members that may be left out -/

@[simp] theorem member?_object (members : Members) :
    (object members).member? name = members.lookup name := rfl

@[simp] theorem lookup_append (as bs : Members) :
    (as ++ bs).lookup name = (as.lookup name).or (bs.lookup name) := List.lookup_append

@[simp] theorem lookup_always : (always name v).lookup k = if k = name then some v else none := by
  rw [always, List.lookup_cons]
  by_cases h : k = name
  · rw [if_pos h, beq_iff_eq.mpr h]
  · rw [if_neg h, beq_eq_false_iff_ne.mpr h]
    rfl

@[simp] theorem lookup_ifSome {o : Option Json} :
    (ifSome name o).lookup k = if k = name then o else none := by
  cases o with
  | none => simp [ifSome]
  | some v => exact lookup_always

@[simp] theorem lookup_ifText : (ifText name text).lookup k =
    if k = name then if text = "" then none else some (.string text) else none := by
  unfold ifText
  by_cases ht : text = ""
  · simp [ht]
  · rw [if_neg ht, if_neg ht]
    exact lookup_always

@[simp] theorem lookup_ifItems {items : List Json} : (ifItems name items).lookup k =
    if k = name then if items = [] then none else some (.array items) else none := by
  cases items with
  | nil => simp [ifItems]
  | cons item items =>
    rw [if_neg (List.cons_ne_nil item items)]
    exact lookup_always

/-! ### Reading members -/

theorem nat?_nat {bound n : ℕ} (h : n < bound) : nat? bound (.nat n) = some n :=
  if_pos ⟨Int.natCast_nonneg n, Int.ofNat_lt.mpr h⟩

theorem double?_double {x : Double} (h : x.isFinite = true) : double? (.double x) = some x := by
  rw [Json.double, if_pos h]
  rfl

theorem range?_range {r : ℕ × ℕ} (hstart : r.1 < UInt64.size) (hstop : r.2 < UInt64.size) :
    range? (.array [.nat r.1, .nat r.2]) = some r := by
  rw [range?, nat?_nat hstart, nat?_nat hstop]
  rfl

theorem required_eq (read : Json → Option α) (h : j.member? name = some v) :
    required j name read = read v := by
  rw [required, h]
  rfl

/-- A missing part is read as missing, and one that is there as itself. -/
theorem optional_map {o : Option α} (write : α → Json) (read : Json → Option α)
    (h : j.member? name = o.map write)
    (hread : ∀ x ∈ o, write x ≠ .null ∧ read (write x) = some x) : optional j name read = some o := by
  cases o with
  | none => rw [optional, h, Option.map_none]
  | some x =>
    obtain ⟨hnull, hx⟩ := hread x rfl
    rw [optional, h, Option.map_some]
    split
    · next heq => cases heq
    · next heq => exact absurd (Option.some.inj heq) hnull
    · next heq =>
      cases heq
      rw [hx, Option.map_some]

theorem optional_text {o : Option String} (h : j.member? name = o.map .string) :
    optional j name string? = some o :=
  optional_map .string string? h fun _ _ => ⟨nofun, rfl⟩

theorem optional_range {o : Option (ℕ × ℕ)}
    (h : j.member? name = o.map fun r => .array [.nat r.1, .nat r.2])
    (hfits : ∀ r ∈ o, r.1 < UInt64.size ∧ r.2 < UInt64.size) :
    optional j name range? = some o :=
  optional_map _ range? h fun r hr => ⟨nofun, range?_range (hfits r hr).1 (hfits r hr).2⟩

/-- A text that was left out is read as empty. -/
theorem orElse_text (h : j.member? name = if text = "" then none else some (.string text)) :
    orElse j name "" string? = some text := by
  split_ifs at h with htext
  · rw [orElse, h, htext]
  · rw [orElse, h]
    rfl

theorem mapM_map {items : List α} {write : α → Json} {read : Json → Option α}
    (hread : ∀ x ∈ items, read (write x) = some x) : (items.map write).mapM read = some items := by
  induction items with
  | nil => rfl
  | cons x items ih =>
    obtain ⟨hx, hitems⟩ := List.forall_mem_cons.mp hread
    rw [List.map_cons, List.mapM_cons, hx, ih hitems]
    rfl

/-- A list that was left out is read as empty; one that is there has room for its items. -/
theorem orElse_items {items : List α} {write : α → Json} {read : Json → Option α}
    (h : j.member? name =
      if items.map write = [] then none else some (.array (items.map write)))
    (hdepth : j.depth ≤ d + 1)
    (hread : ∀ x ∈ items, (write x).depth ≤ d → read (write x) = some x) :
    orElse j name [] (fun c => (items? c).bind (·.mapM read)) = some items := by
  split_ifs at h with hempty
  · rw [orElse, h, List.map_eq_nil_iff.mp hempty]
  · rw [orElse, h]
    refine mapM_map fun x hx => hread x hx ?_
    have hitem := depth_lt_of_mem_items (List.mem_map_of_mem (f := write) hx)
    have hlist := depth_lt_of_member? h
    omega

/-! ### Fields and layers -/

theorem propertiesToJson_eq_map (ps : List PropertyReport) :
    propertiesToJson ps = ps.map propertyToJson := by
  induction ps with
  | nil => rfl
  | cons p ps ih => rw [propertiesToJson, ih, List.map_cons]

theorem layersToJson_eq_map (ls : List LayerReport) : layersToJson ls = ls.map layerToJson := by
  induction ls with
  | nil => rfl
  | cons l ls ih => rw [layersToJson, ih, List.map_cons]

/-- **A field is read back from its document.** -/
theorem property?_propertyToJson {p : PropertyReport} (hfits : p.Fits)
    (hdepth : (propertyToJson p).depth ≤ d) : property? d (propertyToJson p) = some p := by
  -- On the depth that is left and not on the field: the parts stand in a list within it.
  induction d generalizing p with
  | zero =>
    cases p
    exact absurd hdepth (Nat.not_succ_le_zero _)
  | succ d ih =>
    obtain ⟨-, hrange, hchildren⟩ := hfits
    obtain ⟨id, value, range, summary, error, children⟩ := p
    generalize hj : propertyToJson ⟨id, value, range, summary, error, children⟩ = j at hdepth
    rw [propertyToJson, propertiesToJson_eq_map] at hj
    have hid : required j "id" string? = some id :=
      required_eq (v := .string id) string? (by simp [← hj])
    have hvalue : required j "value" some = some value := required_eq some (by simp [← hj])
    have hrange : optional j "range" range? = some range :=
      optional_range (by simp [← hj]) hrange
    have hsummary : orElse j "summary" "" string? = some summary := orElse_text (by simp [← hj])
    have herror : orElse j "error" "" string? = some error := orElse_text (by simp [← hj])
    have hchildren : orElse j "children" [] (fun c => (items? c).bind (·.mapM (property? d))) =
        some children :=
      orElse_items (by simp [← hj]) hdepth fun c hc hlow => ih (hchildren c hc) hlow
    rw [property?, hid, hvalue, hrange, hsummary, herror, hchildren]
    rfl

/-- **A layer is read back from its document.** -/
theorem layer?_layerToJson {l : LayerReport} (hfits : l.Fits)
    (hdepth : (layerToJson l).depth ≤ d) : layer? d (layerToJson l) = some l := by
  induction d generalizing l with
  | zero =>
    cases l
    exact absurd hdepth (Nat.not_succ_le_zero _)
  | succ d ih =>
    obtain ⟨hconfidence, hlength, hproperties, hchildren⟩ := hfits
    obtain ⟨ns, confidence, summary, error, streamId, payloadLength, properties, children⟩ := l
    generalize hj : layerToJson ⟨ns, confidence, summary, error, streamId, payloadLength,
      properties, children⟩ = j at hdepth
    rw [layerToJson, propertiesToJson_eq_map, layersToJson_eq_map] at hj
    have hns : required j "namespace" string? = some ns :=
      required_eq (v := .string ns) string? (by simp [← hj])
    have hconfidence : required j "confidence" double? = some confidence :=
      (required_eq double? (by simp [← hj])).trans (double?_double hconfidence)
    have hsummary : orElse j "summary" "" string? = some summary := orElse_text (by simp [← hj])
    have herror : orElse j "error" "" string? = some error := orElse_text (by simp [← hj])
    have hstream : optional j "stream_id" string? = some streamId := optional_text (by simp [← hj])
    have hlength : required j "payload_length" (nat? UInt64.size) = some payloadLength :=
      (required_eq _ (by simp [← hj])).trans (nat?_nat hlength)
    have hproperties : orElse j "properties" [] (fun c => (items? c).bind (·.mapM (property? d))) =
        some properties :=
      orElse_items (by simp [← hj]) hdepth
        fun c hc hlow => property?_propertyToJson (hproperties c hc) hlow
    have hchildren : orElse j "children" [] (fun c => (items? c).bind (·.mapM (layer? d))) =
        some children :=
      orElse_items (by simp [← hj]) hdepth fun c hc hlow => ih (hchildren c hc) hlow
    rw [layer?, hns, hconfidence, hsummary, herror, hstream, hlength, hproperties, hchildren]
    rfl

/-! ### Frames and reports -/

/-- **A frame is read back from its document.** -/
theorem frame?_frameToJson {f : FrameReport} (hfits : f.Fits)
    (hdepth : (frameToJson f).depth ≤ maxDepth) : frame? (frameToJson f) = some f := by
  generalize hj : frameToJson f = j at hdepth
  rw [frameToJson] at hj
  have hindex : required j "index" (nat? UInt32.size) = some f.index :=
    (required_eq _ (by simp [← hj])).trans (nat?_nat hfits.index)
  have htimestamp : optional j "timestamp" string? = some f.timestamp :=
    optional_text (by simp [← hj])
  have hlength : required j "length" (nat? UInt64.size) = some f.length :=
    (required_eq _ (by simp [← hj])).trans (nat?_nat hfits.length)
  have hlink : required j "link_type" (nat? UInt32.size) = some f.linkType :=
    (required_eq _ (by simp [← hj])).trans (nat?_nat hfits.linkType)
  have hprimary : required j "primary" string? = some f.primary :=
    required_eq (v := .string f.primary) string? (by simp [← hj])
  have herror : required j "has_error" bool? = some f.hasError :=
    required_eq (v := .bool f.hasError) bool? (by simp [← hj])
  have hmember : j.member? "root" = some (layerToJson f.root) := by simp [← hj]
  have hroot : required j "root" (layer? maxDepth) = some f.root :=
    (required_eq _ hmember).trans <| layer?_layerToJson hfits.root <|
      (depth_lt_of_member? hmember).le.trans hdepth
  rw [frame?, hindex, htimestamp, hlength, hlink, hprimary, herror, hroot]
  rfl

/-- **The numbers about all frames are read back from their document.** -/
theorem summary?_summaryToJson {s : CaptureSummary} (hfits : s.Fits) :
    summary? (summaryToJson s) = some s := by
  generalize hj : summaryToJson s = j
  rw [summaryToJson] at hj
  have hpackets : required j "packets_total" (nat? UInt64.size) = some s.packets :=
    (required_eq _ (by simp [← hj])).trans (nat?_nat hfits.packets)
  have herrors : required j "frames_with_errors" (nat? UInt64.size) = some s.framesWithErrors :=
    (required_eq _ (by simp [← hj])).trans (nat?_nat hfits.framesWithErrors)
  have hlayers : required j "stream_layers" (nat? UInt64.size) = some s.streamLayers :=
    (required_eq _ (by simp [← hj])).trans (nat?_nat hfits.streamLayers)
  have hstart : optional j "time_start" string? = some s.timeStart := optional_text (by simp [← hj])
  have hend : optional j "time_end" string? = some s.timeEnd := optional_text (by simp [← hj])
  rw [summary?, hpackets, herrors, hlayers, hstart, hend]
  rfl

/-- **A report is read back from its document**, if that nests no deeper than a text may. -/
theorem ofJson?_toJson {r : Report} (hfits : r.Fits) (hdepth : r.toJson.depth ≤ maxDepth) :
    ofJson? r.toJson = some r := by
  generalize hj : r.toJson = j at hdepth
  rw [toJson] at hj
  obtain ⟨tool, htool, hname, hrelease⟩ : ∃ tool, required j "tool" some = some tool ∧
      required tool "name" string? = some r.toolName ∧
      required tool "version" string? = some r.toolVersion :=
    ⟨.object (always "name" (.string r.toolName) ++ always "version" (.string r.toolVersion)),
      required_eq some (by simp [← hj]),
      required_eq (v := .string r.toolName) string? (by simp),
      required_eq (v := .string r.toolVersion) string? (by simp)⟩
  obtain ⟨input, hinput, hpath, hbytes⟩ : ∃ input, required j "input" some = some input ∧
      required input "path" string? = some r.path ∧
      required input "bytes" (nat? UInt64.size) = some r.bytes :=
    ⟨.object (always "path" (.string r.path) ++ always "bytes" (.nat r.bytes)),
      required_eq some (by simp [← hj]),
      required_eq (v := .string r.path) string? (by simp),
      (required_eq _ (by simp)).trans (nat?_nat hfits.bytes)⟩
  have hversion : required j "report_version" (nat? UInt32.size) = some r.version :=
    (required_eq _ (by simp [← hj])).trans (nat?_nat hfits.version)
  have hgenerated : required j "generated_at" string? = some r.generatedAt :=
    required_eq (v := .string r.generatedAt) string? (by simp [← hj])
  have hsummary : optional j "capture_summary" summary? = some r.summary :=
    optional_map summaryToJson summary? (by simp [← hj]) fun s hs =>
      ⟨by simp [summaryToJson], summary?_summaryToJson (hfits.summary s hs)⟩
  have hmember : j.member? "frames" = some (.array (r.frames.map frameToJson)) := by simp [← hj]
  have hframes : required j "frames" (fun c => (items? c).bind (·.mapM frame?)) = some r.frames := by
    refine (required_eq _ hmember).trans (mapM_map fun f hf => ?_)
    have hitem := depth_lt_of_mem_items (List.mem_map_of_mem (f := frameToJson) hf)
    have hlist := depth_lt_of_member? hmember
    exact frame?_frameToJson (hfits.frames f hf) (by omega)
  rw [ofJson?, htool, hinput]
  simp only [Option.bind_eq_bind, Option.bind_some, hname, hrelease, hpath, hbytes, hversion,
    hgenerated, hsummary, hframes]
  rfl

/-! ### The numbers in a document -/

theorem fits_always (h : v.Fits) : ∀ m ∈ always name v, m.2.Fits := by
  intro m hm
  cases List.mem_singleton.mp hm
  exact h

theorem fits_ifSome {o : Option Json} (h : ∀ v ∈ o, v.Fits) : ∀ m ∈ ifSome name o, m.2.Fits := by
  cases o with
  | none => nofun
  | some v => exact fits_always (h v rfl)

theorem fits_ifText : ∀ m ∈ ifText name text, m.2.Fits := by
  unfold ifText
  split
  · nofun
  · exact fits_always (fits_string text)

theorem fits_ifItems {items : List Json} (h : ∀ v ∈ items, v.Fits) :
    ∀ m ∈ ifItems name items, m.2.Fits := by
  cases items with
  | nil => nofun
  | cons v items => exact fits_always (fits_array h)

theorem fits_propertyToJson {p : PropertyReport} (h : p.Fits) : (propertyToJson p).Fits := by
  induction h with
  | @intro p hvalue hrange _ ih =>
    obtain ⟨id, value, range, summary, error, children⟩ := p
    rw [propertyToJson, propertiesToJson_eq_map]
    refine fits_object ?_
    simp only [List.forall_mem_append]
    refine ⟨⟨⟨⟨⟨fits_always (fits_string id), fits_always hvalue⟩, fits_ifSome ?_⟩, fits_ifText⟩,
      fits_ifText⟩, fits_ifItems (List.forall_mem_map.mpr ih)⟩
    intro v hv
    obtain ⟨r, hr, rfl⟩ := Option.map_eq_some_iff.mp hv
    exact fits_array (List.forall_mem_cons.mpr
      ⟨fits_nat (hrange r hr).1, List.forall_mem_singleton.mpr (fits_nat (hrange r hr).2)⟩)

theorem fits_text {o : Option String} : ∀ v ∈ o.map Json.string, v.Fits := by
  intro v hv
  obtain ⟨text, -, rfl⟩ := Option.map_eq_some_iff.mp hv
  exact fits_string text

theorem fits_layerToJson {l : LayerReport} (h : l.Fits) : (layerToJson l).Fits := by
  induction h with
  | @intro l hconfidence hlength hproperties _ ih =>
    obtain ⟨ns, confidence, summary, error, streamId, payloadLength, properties, children⟩ := l
    rw [layerToJson, propertiesToJson_eq_map, layersToJson_eq_map]
    have hfields : ∀ v ∈ properties.map propertyToJson, v.Fits :=
      List.forall_mem_map.mpr fun p hp => fits_propertyToJson (hproperties p hp)
    refine fits_object ?_
    simp only [List.forall_mem_append]
    exact ⟨⟨⟨⟨⟨⟨⟨fits_always (fits_string ns), fits_always (fits_double confidence)⟩, fits_ifText⟩,
      fits_ifText⟩, fits_ifSome fits_text⟩, fits_always (fits_nat hlength)⟩, fits_ifItems hfields⟩,
      fits_ifItems (List.forall_mem_map.mpr ih)⟩

theorem fits_frameToJson {f : FrameReport} (h : f.Fits) : (frameToJson f).Fits := by
  have hlink : f.linkType < UInt64.size := h.linkType.trans (by decide)
  have hindex : f.index < UInt64.size := h.index.trans (by decide)
  refine fits_object ?_
  simp only [List.forall_mem_append]
  exact ⟨⟨⟨⟨⟨⟨fits_always (fits_nat hindex), fits_ifSome fits_text⟩,
    fits_always (fits_nat h.length)⟩, fits_always (fits_nat hlink)⟩, fits_always (fits_string f.primary)⟩,
    fits_always (fits_bool f.hasError)⟩, fits_always (fits_layerToJson h.root)⟩

theorem fits_summaryToJson {s : CaptureSummary} (h : s.Fits) : (summaryToJson s).Fits := by
  refine fits_object ?_
  simp only [List.forall_mem_append]
  exact ⟨⟨⟨⟨fits_always (fits_nat h.packets), fits_always (fits_nat h.framesWithErrors)⟩,
    fits_always (fits_nat h.streamLayers)⟩, fits_ifSome fits_text⟩, fits_ifSome fits_text⟩

/-- The numbers in the document of a report are those of the report. -/
theorem fits_toJson {r : Report} (h : r.Fits) : r.toJson.Fits := by
  have hversion : r.version < UInt64.size := h.version.trans (by decide)
  have htool : (Json.object (always "name" (.string r.toolName) ++
      always "version" (.string r.toolVersion))).Fits :=
    fits_object (List.forall_mem_append.mpr
      ⟨fits_always (fits_string r.toolName), fits_always (fits_string r.toolVersion)⟩)
  have hinput : (Json.object (always "path" (.string r.path) ++
      always "bytes" (.nat r.bytes))).Fits :=
    fits_object (List.forall_mem_append.mpr
      ⟨fits_always (fits_string r.path), fits_always (fits_nat h.bytes)⟩)
  have hsummary : ∀ v ∈ r.summary.map summaryToJson, v.Fits := by
    intro v hv
    obtain ⟨s, hs, rfl⟩ := Option.map_eq_some_iff.mp hv
    exact fits_summaryToJson (h.summary s hs)
  have hframes : ∀ v ∈ r.frames.map frameToJson, v.Fits :=
    List.forall_mem_map.mpr fun f hf => fits_frameToJson (h.frames f hf)
  refine fits_object ?_
  simp only [List.forall_mem_append]
  exact ⟨⟨⟨⟨⟨fits_always (fits_nat hversion), fits_always htool⟩,
    fits_always (fits_string r.generatedAt)⟩, fits_always hinput⟩, fits_ifSome hsummary⟩,
    fits_always (fits_array hframes)⟩

end Report

end PacketTree
