import PacketTree.Proofs.Report.Document

/-!
# Reports are read back from their texts

The report of any frames is what its compact text reads as: whatever the values, names and layers
are, no part that is empty or missing and left out makes the text unreadable, and writing what was
read gives the same text. The reader follows lists and objects `maxDepth` deep, and a layer adds two
to the depth of what it was read from: in the text of a deeper report the reader stops, and says where.

## Main results

* `PacketTree.Report.parse_text_of_made` - the text of a report made from frames stands for it.
* `PacketTree.Report.not_parse_text` - a report that nests too deep for the reader.
-/

namespace PacketTree

open Json

/-! ### What frames hold -/

namespace Confidence

/-- How sure a dissector is has a text. -/
theorem isFinite_value (c : Confidence) : c.value.isFinite = true := by
  have hzero := c.zero_le
  have hone := c.le_one
  simp only [Double.le, Double.key_zero, Double.key_one, Bool.and_eq_true, decide_eq_true_eq]
    at hzero hone
  have hlarge : (4607182418800017408 : ℤ) < Double.infiniteMagnitude := by decide
  rw [Double.isFinite, decide_eq_true_eq]
  unfold Double.key at hzero hone
  split_ifs at hzero hone <;> omega

end Confidence

namespace Value

mutual

/-- The numbers in a value have 64 bits. -/
theorem fits_toJson : ∀ x : Value, x.toJson.Fits
  | .nil => fits_null
  | .bool b => fits_bool b
  | .int i => by
    rw [toJson]
    exact fits_int i.le_toInt (Int.lt_trans i.toInt_lt (by decide))
  | .uint n => fits_nat n.toNat_lt
  | .double x => fits_double x
  | .string s => fits_string s
  | .bytes v => fits_string v.hex
  | .timestamp t offset => by
    rw [toJson]
    split
    · exact fits_string _
    · exact fits_null
  | .array items => fits_array (fits_itemsToJson items)
  | .map entries => fits_object (fits_entriesToJson entries)

theorem fits_itemsToJson : ∀ items : List Value, ∀ j ∈ itemsToJson items, j.Fits
  | [] => nofun
  | x :: xs => List.forall_mem_cons.mpr ⟨fits_toJson x, fits_itemsToJson xs⟩

theorem fits_entriesToJson :
    ∀ entries : List (String × Value), ∀ m ∈ entriesToJson entries, m.2.Fits
  | [] => nofun
  | (_, x) :: rest => List.forall_mem_cons.mpr ⟨fits_toJson x, fits_entriesToJson rest⟩

end

end Value

/-- The places of a field and of its parts have 64 bits. -/
inductive Property.Fits : Property → Prop
  | intro {p : Property} (hstart : p.range.start < UInt64.size) (hstop : p.range.stop < UInt64.size)
    (hchildren : ∀ c ∈ p.children, Property.Fits c) : p.Fits

/-- The numbers of a frame are in range. -/
structure Frame.Fits (f : Frame) : Prop where
  index : f.index < UInt32.size
  length : f.length < UInt64.size
  sourceId : f.sourceId < UInt32.size
  payload : ∀ l ∈ f.layers, l.payload.size < UInt64.size
  properties : ∀ l ∈ f.layers, ∀ p ∈ l.properties, p.Fits

namespace Report

/-! ### The reports of frames -/

theorem ofProperties_eq_map (ps : List Property) : ofProperties ps = ps.map ofProperty := by
  induction ps with
  | nil => rfl
  | cons p ps ih => rw [ofProperties, ih, List.map_cons]

theorem fits_ofProperty {p : Property} (h : p.Fits) : (ofProperty p).Fits := by
  induction h with
  | @intro p hstart hstop _ ih =>
    obtain ⟨id, value, range, summary, error, children⟩ := p
    rw [ofProperty, ofProperties_eq_map]
    refine .intro value.fits_toJson ?_ (List.forall_mem_map.mpr ih)
    intro r hr
    dsimp only at hr
    split_ifs at hr
    · cases hr
    · cases hr
      exact ⟨hstart, hstop⟩

theorem fits_ofLayer {l : Layer} {children : List LayerReport}
    (hpayload : l.payload.size < UInt64.size) (hproperties : ∀ p ∈ l.properties, p.Fits)
    (hchildren : ∀ c ∈ children, c.Fits) : (ofLayer l children).Fits := by
  refine .intro l.confidence.isFinite_value hpayload ?_ hchildren
  rw [ofLayer, ofProperties_eq_map]
  exact List.forall_mem_map.mpr fun p hp => fits_ofProperty (hproperties p hp)

/-- A layer of a frame is in range with all that was read from it. -/
theorem fits_ofLayers {f : Frame} (h : f.Fits) (id : ℕ) : (ofLayers f id).Fits := by
  fun_induction ofLayers f id with
  | case1 id ih =>
    have hchildren : ∀ c ∈ (f.below id).attach.map fun c => ofLayers f c.1, c.Fits :=
      List.forall_mem_map.mpr fun c _ => ih c.1 c.2
    rcases hl : f.layer? id with _ | l
    · exact fits_ofLayer (by decide) nofun hchildren
    · obtain ⟨e, he, rfl⟩ := Option.map_eq_some_iff.mp hl
      have hmem : e.layer ∈ f.layers :=
        List.mem_map_of_mem (Array.mem_toList_iff.mpr (Array.mem_of_getElem? he))
      exact fits_ofLayer (h.payload _ hmem) (h.properties _ hmem) hchildren

theorem fits_ofFrame {f : Frame} (h : f.Fits) : (ofFrame f).Fits :=
  ⟨h.index, h.length, h.sourceId, fits_ofLayers h Frame.rootId⟩

theorem streamLayers_le_size (f : Frame) : streamLayers f ≤ f.size := by
  rw [Frame.size, ← Array.length_toList, ← List.length_map Frame.Entry.layer]
  exact List.countP_le_length

/-- The number of layers of some frames. -/
def layerCount (frames : List Frame) : ℕ := frames.foldr (fun f n => f.size + n) 0

theorem fits_summarize {frames : List Frame} (hcount : frames.length < UInt64.size)
    (hlayers : layerCount frames < UInt64.size) : (summarize frames).Fits := by
  refine ⟨hcount, List.countP_le_length.trans_lt hcount, ?_⟩
  refine lt_of_le_of_lt ?_ hlayers
  rw [summarize]
  dsimp only
  clear hcount hlayers
  induction frames with
  | nil => exact le_rfl
  | cons f frames ih => exact Nat.add_le_add (streamLayers_le_size f) ih

/-- A report that was made for a capture, and filled with frames any number of times. -/
inductive Made : Report → Prop
  | stub (path : String) {bytes : ℕ} (h : bytes < UInt64.size) : Made (stub path bytes)
  | fill {r : Report} {frames : List Frame} (h : Made r) (hframes : ∀ f ∈ frames, f.Fits)
    (hcount : frames.length < UInt64.size) (hlayers : layerCount frames < UInt64.size) :
    Made (r.fill frames)

theorem fits_of_made {r : Report} (h : Made r) : r.Fits := by
  induction h with
  | stub path hbytes =>
    have hversion : 1 < UInt32.size := by decide
    exact ⟨hversion, hbytes, nofun, nofun⟩
  | fill h hframes hcount hlayers ih =>
    refine ⟨ih.version, ih.bytes, ?_, List.forall_mem_map.mpr fun f hf => fits_ofFrame (hframes f hf)⟩
    rintro s ⟨⟩
    exact fits_summarize hcount hlayers

/-! ### The text of a report -/

section

variable {text : String} {j : Json} {r : Report} {p : Problem}

theorem parse_of_ok (hread : Json.parse text = .ok j) (hr : ofJson? j = some r) : parse text = .ok r := by
  rw [parse, hread]
  simp only [bind, Except.bind, hr]
  rfl

theorem parse_of_error (hread : Json.parse text = .error p) : parse text = .error p := by
  rw [parse, hread]
  rfl

end

/-- The text of a report stands for it if lists and objects nest in it no deeper than the reader
follows, which otherwise stops within the text. -/
theorem reads_text {r : Report} (hfits : r.Fits)
    (hdoubles : ∀ x, Number.double x ∈ r.toJson.numbers → (Number.double x).Restored) :
    Reads r.text.toList (parse r.text) r (r.toJson.depth ≤ maxDepth) := by
  have hnumbers : ∀ n ∈ r.toJson.numbers, n.Restored := by
    rintro (i | x) hn
    · exact restored_int (fits_toJson hfits _ hn)
    · exact hdoubles x hn
  have hdocument := parse_compact r.toJson hnumbers
  refine ⟨fun hdepth => parse_of_ok (hdocument.ok hdepth) (ofJson?_toJson hfits hdepth), fun hdepth => ?_⟩
  obtain ⟨rest, hrest, herror⟩ := hdocument.stops hdepth
  exact ⟨rest, hrest, parse_of_error herror⟩

/-- **The text of a report made from frames stands for it**, if its doubles are restored by reading
their texts and its lists and objects nest no deeper than the reader follows. In the text of one that
nests deeper the reader stops, at a bracket that nests too deep. -/
theorem parse_text_of_made {r : Report} (hmade : Made r)
    (hdoubles : ∀ x, Number.double x ∈ r.toJson.numbers → (Number.double x).Restored) :
    (r.toJson.depth ≤ maxDepth → parse r.text = .ok r) ∧
      (maxDepth < r.toJson.depth →
        ∃ rest, rest <:+ r.text.toList ∧ parse r.text = .error (.tooDeep rest)) := by
  have hreads := reads_text (fits_of_made hmade) hdoubles
  exact ⟨hreads.ok, fun hdepth => hreads.stops (Nat.not_le_of_lt hdepth)⟩

/-- A report of one layer with a field of several values. -/
def sample : Report :=
  (stub "capture.pcap" 1).fill [.ofRoot 1 .epoch 1 1
    { ns := ⟨[.confirmed "root"]⟩
      properties := [
        { id := "field"
          value := .array [.double ⟨0x3fb999999999999a⟩, .nil, .string "\n"]
          range := ⟨0, 1⟩ }] }]

/-- All values of the sample are read back. -/
theorem parse_text_sample : Made sample ∧
    (∀ x, Number.double x ∈ sample.toJson.numbers → (Number.double x).Restored) ∧
    parse sample.text = .ok sample := by
  have hmade : Made sample := by
    refine .fill (.stub _ (by decide)) (List.forall_mem_singleton.mpr ?_) (by decide) (by decide)
    refine ⟨by decide, by decide, by decide, by decide, fun l hl p hp => ?_⟩
    cases List.mem_singleton.mp hl
    cases List.mem_singleton.mp hp
    exact .intro (by decide) (by decide) nofun
  have hnumbers : ∀ n ∈ sample.toJson.numbers, n.Restored := by decide +kernel
  have hdepth : sample.toJson.depth ≤ maxDepth := by decide +kernel
  exact ⟨hmade, fun x => hnumbers _,
    (parse_text_of_made hmade fun x => hnumbers _).1 hdepth⟩

/-- Layers on top of each other, each read from the one below. -/
def tower (n : ℕ) : Frame :=
  (List.range n).foldl (fun f i => (f.attach? i { ns := ⟨[.confirmed "x"]⟩ }).getD f)
    (.ofRoot 1 .epoch 1 1 { ns := ⟨[.confirmed "root"]⟩ })

/-- A report of sixty-two layers above the root: its text nests one level too deep. -/
def tall : Report := (stub "capture.pcap" 1).fill [tower 62]

/-- Not every report is read back: the reader does not follow the layers of a tall frame. -/
theorem not_parse_text : ¬∀ r, Made r →
    (∀ x, Number.double x ∈ r.toJson.numbers → (Number.double x).Restored) →
    ∃ read, parse r.text = .ok read ∧ read.text = r.text := by
  intro h
  have hmade : Made tall := by
    refine .fill (.stub _ (by decide)) (List.forall_mem_singleton.mpr ?_) (by decide)
      (by decide +kernel)
    have hempty : ∀ l ∈ (tower 62).layers, l.properties.isEmpty = true := by decide +kernel
    refine ⟨by decide +kernel, by decide +kernel, by decide +kernel, by decide +kernel, ?_⟩
    intro l hl p hp
    rw [List.isEmpty_iff.mp (hempty l hl)] at hp
    cases hp
  have hnumbers : ∀ n ∈ tall.toJson.numbers, n.Restored := by decide +kernel
  have hdepth : ¬tall.toJson.depth ≤ maxDepth := by decide +kernel
  obtain ⟨read, hread, -⟩ := h tall hmade fun x => hnumbers _
  obtain ⟨rest, -, herror⟩ := (reads_text (fits_of_made hmade) fun x => hnumbers _).stops hdepth
  rw [herror] at hread
  cases hread

end Report

end PacketTree
