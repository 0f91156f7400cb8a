import PacketTree.Proofs.Json.Forms
import PacketTree.Proofs.Numeric.Double
import PacketTree.Session.SettingsText

/-!
# Settings are read back from their text

The text of settings may name any of them, in any order. What it names is read back, and what it
leaves out has its standard value.

## What is proved

* `LinkTable.ofList_entries`: a table of link types is that of its entries.
* `validate_eq_ok_iff`: what passes the check, in numbers.
* `readField_write`: the value of a setting is read as that setting, and the others stay.
* `readMembers_fields`: members are read one by one; after each the settings are those named so far.
* `load_text_of_fields`: settings are read back from the text of all or some of them.
* `inRange_of_load`: what is read is in range.
* `load_fieldsToJson`: both.
-/

namespace PacketTree

namespace LinkTable

theorem insertEntry_of_forall_lt {n : UInt32} {text : String} {entries : List (UInt32 × String)}
    (h : ∀ e ∈ entries, e.1 < n) : insertEntry n text entries = entries ++ [(n, text)] := by
  induction entries with
  | nil => rfl
  | cons e entries ih =>
    obtain ⟨he, hentries⟩ := List.forall_mem_cons.mp h
    rw [insertEntry, if_neg (UInt32.lt_asymm he), if_neg (UInt32.ne_of_lt he).symm, ih hentries,
      List.cons_append]

/-- Entries in increasing order are put one behind the other. -/
theorem entries_foldl_insert (entries : List (UInt32 × String)) (t : LinkTable)
    (h : (t.entries ++ entries).Pairwise fun a b => a.1 < b.1) :
    (entries.foldl (fun t e => t.insert e.1 e.2) t).entries = t.entries ++ entries := by
  induction entries generalizing t with
  | nil => exact (List.append_nil _).symm
  | cons e entries ih =>
    have hbefore : ∀ a ∈ t.entries, a.1 < e.1 := fun a ha =>
      (List.pairwise_append.mp h).2.2 a ha e List.mem_cons_self
    have hinsert : (t.insert e.1 e.2).entries = t.entries ++ [e] := insertEntry_of_forall_lt hbefore
    have hentries : t.entries ++ e :: entries = (t.insert e.1 e.2).entries ++ entries := by
      rw [hinsert, List.append_assoc, List.singleton_append]
    rw [List.foldl_cons, ih _ (hentries ▸ h), hentries]

theorem eq_of_entries {t u : LinkTable} (h : t.entries = u.entries) : t = u := by
  cases t
  cases u
  cases h
  rfl

/-- A table is that of its entries. -/
theorem ofList_entries (t : LinkTable) : ofList t.entries = t :=
  eq_of_entries (entries_foldl_insert t.entries {} t.sorted)

end LinkTable

namespace Settings

open Json

variable {s : Settings} {f : Form} {rest t : List Char} {given fields : List Field} {field : Field}

/-! ### Settings in range -/

/-- The threshold lies from zero to one, and batches and queues are not empty. -/
structure InRange (s : Settings) : Prop where
  /-- The threshold is a number -/
  finite : s.confidenceThreshold.isFinite = true
  /-- that is not negative -/
  low : 0 ≤ s.confidenceThreshold.value
  /-- and no more than one. -/
  high : s.confidenceThreshold.value ≤ 1
  /-- A batch has a frame. -/
  batch : 1 ≤ s.batchSize
  /-- A queue holds an item. -/
  queue : 1 ≤ s.queueCapacity

/-- Settings pass the check if they are in range. -/
theorem validate_eq_ok_iff : s.validate = .ok () ↔ s.InRange := by
  have hone : ∀ n : UInt64, 1 ≤ n ↔ n ≠ 0 := fun n => by
    rw [UInt64.le_iff_toNat_le, ne_eq, ← UInt64.toNat_inj]
    exact Nat.one_le_iff_ne_zero
  unfold validate
  constructor
  · intro h
    split at h
    · cases h
    · next hthreshold =>
      split at h
      · cases h
      · next hbatch =>
        split at h
        · cases h
        · next hqueue =>
          obtain ⟨hfinite, hlow, hhigh⟩ := Double.zero_le_and_le_one_iff.mp (by simpa using hthreshold)
          exact ⟨hfinite, hlow, hhigh, (hone _).mpr hbatch, (hone _).mpr hqueue⟩
  · rintro ⟨hfinite, hlow, hhigh, hbatch, hqueue⟩
    rw [Double.zero_le_and_le_one_iff.mpr ⟨hfinite, hlow, hhigh⟩, if_neg (by decide),
      if_neg ((hone _).mp hbatch), if_neg ((hone _).mp hqueue)]

/-! ### Some of the settings -/

/-- Settings with those of a list, and the standard ones otherwise. -/
def only (fields : List Field) (s : Settings) : Settings where
  concurrency := if .concurrency ∈ fields then s.concurrency else ({} : Settings).concurrency
  streamConcurrency :=
    if .streamConcurrency ∈ fields then s.streamConcurrency else ({} : Settings).streamConcurrency
  confidenceThreshold :=
    if .confidenceThreshold ∈ fields then s.confidenceThreshold else ({} : Settings).confidenceThreshold
  queueCapacity := if .queueCapacity ∈ fields then s.queueCapacity else ({} : Settings).queueCapacity
  batchSize := if .batchSize ∈ fields then s.batchSize else ({} : Settings).batchSize
  sweepInterval := if .sweepInterval ∈ fields then s.sweepInterval else ({} : Settings).sweepInterval
  streamIdleTimeout :=
    if .streamIdleTimeout ∈ fields then s.streamIdleTimeout else ({} : Settings).streamIdleTimeout
  midstream := if .midstream ∈ fields then s.midstream else ({} : Settings).midstream
  linkLayers := if .linkLayers ∈ fields then s.linkLayers else ({} : Settings).linkLayers

theorem only_all (s : Settings) : s.only Field.all = s := rfl

theorem only_reverse (fields : List Field) (s : Settings) : s.only fields.reverse = s.only fields := by
  simp only [only, List.mem_reverse]

theorem inRange_standard : ({} : Settings).InRange := validate_eq_ok_iff.mp rfl

theorem InRange.only (h : s.InRange) (fields : List Field) : (s.only fields).InRange where
  finite := iteInduction (motive := fun x : Double => x.isFinite = true) (fun _ => h.finite)
    fun _ => inRange_standard.finite
  low := iteInduction (motive := fun x : Double => 0 ≤ x.value) (fun _ => h.low)
    fun _ => inRange_standard.low
  high := iteInduction (motive := fun x : Double => x.value ≤ 1) (fun _ => h.high)
    fun _ => inRange_standard.high
  batch := iteInduction (motive := fun n : UInt64 => 1 ≤ n) (fun _ => h.batch)
    fun _ => inRange_standard.batch
  queue := iteInduction (motive := fun n : UInt64 => 1 ≤ n) (fun _ => h.queue)
    fun _ => inRange_standard.queue

/-! ### Reading values -/

theorem startsNumber_iff {c : Char} : startsNumber c = true ↔ c = '-' ∨ c.isDigit = true := by
  simp [startsNumber]

theorem restored_nat (n : UInt64) : (Number.int n.toNat).Restored := by
  have hn : n.toNat < 0x10000000000000000 := n.toNat_lt
  exact restored_int ⟨by omega, by omega⟩

section

variable (hrest : Ends rest)

include hrest

/-- A number that is restored is read as what it stands for. -/
theorem readNumeric_text {α : Type} {convert : Number → Option α} {n : Number} {x : α}
    (hn : n.Restored) (hx : convert n = some x) (ht : skipSpace t = n.text ++ rest) :
    readNumeric convert t = .ok (x, rest) := by
  obtain ⟨c, text, htext, hc⟩ := exists_cons_of_readNumber hn
  have hread : readNumber (n.text ++ rest) = .ok (n, rest) := steady_readNumber hn hrest
  rw [htext, List.cons_append] at hread ht
  unfold readNumeric
  rw [ht]
  dsimp only
  rw [if_pos (startsNumber_iff.mpr hc), hread]
  dsimp only
  rw [hx]

theorem readNumeric_natural {n : UInt64} (ht : skipSpace t = f.write (.nat n.toNat) rest) :
    readNumeric natural? t = .ok (n, rest) := by
  have hn : natural? (.int n.toNat) = some n := by
    rw [natural?, if_pos (Int.natCast_nonneg _), Int.toNat_natCast, UInt64.ofNat_toNat]
  exact readNumeric_text hrest (restored_nat n) hn (ht.trans (f.write_number _ rest))

theorem readNumeric_real {x : Double} (hfinite : x.isFinite = true) (hx : (Number.double x).Restored)
    (ht : skipSpace t = f.write (.double x) rest) : readNumeric real? t = .ok (x, rest) := by
  rw [Json.double, if_pos hfinite] at ht
  exact readNumeric_text hrest hx rfl (ht.trans (f.write_number _ rest))

omit hrest

theorem readBool_write {b : Bool} (ht : skipSpace t = f.write (.bool b) rest) :
    readBool t = .ok (b, rest) := by
  rw [Form.write_bool] at ht
  unfold readBool
  rw [ht]
  cases b <;> rfl

theorem readText_write {text : String} (ht : skipSpace t = f.write (.string text) rest) :
    readText t = .ok (text, rest) := by
  obtain ⟨body, hquote, hunquote⟩ := unquote_quote text.toList rest
  rw [Form.write_string, hquote] at ht
  unfold readText
  rw [ht]
  change (unquote body).map _ = _
  rw [hunquote]
  exact congrArg (fun text => Except.ok (text, rest)) String.ofList_toList

end

/-! ### Reading link types -/

theorem escape_of_isDigit {c : Char} (h : c.isDigit = true) : escape c = [c] := by
  have hlow : 48 ≤ c.toNat := by
    simp only [Char.isDigit, ge_iff_le, Bool.and_eq_true, decide_eq_true_eq, UInt32.le_iff_toNat_le] at h
    exact h.1
  unfold escape
  split
  · exact absurd h (by decide)
  · exact absurd h (by decide)
  · exact absurd h (by decide)
  · exact absurd h (by decide)
  · exact absurd h (by decide)
  · rw [if_neg (by omega), if_neg (by omega), if_neg (by omega)]

/-- Digits stand between quotes as they are. -/
theorem quote_of_isDigit {digits : List Char} (h : ∀ c ∈ digits, c.isDigit = true) (rest : List Char) :
    quote digits rest = '"' :: (digits ++ '"' :: rest) := by
  rw [quote]
  congr 1
  induction digits with
  | nil => rfl
  | cons c digits ih =>
    obtain ⟨hc, hdigits⟩ := List.forall_mem_cons.mp h
    rw [List.foldr_cons, ih hdigits, escape_of_isDigit hc]
    rfl

theorem readLinkNumber_of_readNumber {n : Number} {link : UInt32} (hn : n.Restored)
    (hlink : link? n = some link) (rest : List Char) :
    readLinkNumber (n.text ++ '"' :: rest) = .ok (link, rest) := by
  have hends : Ends ('"' :: rest) := ends_cons (by decide)
  obtain ⟨c, text, hcons, hc⟩ := exists_cons_of_readNumber hn
  have hread : readNumber (n.text ++ '"' :: rest) = .ok (n, '"' :: rest) :=
    steady_readNumber hn hends
  rw [hcons, List.cons_append] at hread ⊢
  unfold readLinkNumber
  dsimp only
  rw [if_pos (startsNumber_iff.mpr hc), hread]
  dsimp only
  rw [hlink]
  rfl

/-- A number between quotes is read as a link type. -/
theorem readLinkNumber_digits (n : UInt32) (rest : List Char) :
    readLinkNumber ((toString n.toNat).toList ++ '"' :: rest) = .ok (n, rest) := by
  have hn : n.toNat < 0x100000000 := n.toNat_lt
  have htext : (toString n.toNat).toList = (Number.int n.toNat).text := by
    rw [show toString n.toNat = n.toNat.repr from rfl, Nat.toList_repr, Number.text,
      if_neg (by omega)]
    rfl
  have hlink : link? (.int n.toNat) = some n := by
    have hsize : (n.toNat : ℤ) < UInt32.size := Int.ofNat_lt.mpr n.toNat_lt_size
    rw [link?, if_pos ⟨Int.natCast_nonneg _, hsize⟩, Int.toNat_natCast, UInt32.ofNat_toNat]
  rw [htext]
  exact readLinkNumber_of_readNumber (restored_int ⟨by omega, by omega⟩) hlink rest

theorem isDigit_of_mem_toString {n : ℕ} {c : Char} (h : c ∈ (toString n).toList) : c.isDigit = true := by
  rw [show toString n = n.repr from rfl, Nat.toList_repr] at h
  exact Nat.isDigit_of_mem_toDigits (by decide) (by decide) h

/-- The member of a link type. -/
def linkMember (e : UInt32 × String) : String × Json := (toString e.1.toNat, .string e.2)

theorem readLink_member (e : UInt32 × String) (rest : List Char) :
    readLink (quote (linkMember e).1.toList (':' :: (f.gap ++ f.inner.write (linkMember e).2 rest))) =
      .ok (e, rest) := by
  rw [linkMember, quote_of_isDigit fun c => isDigit_of_mem_toString, readLink, readLinkNumber_digits]
  dsimp only [bind, Except.bind]
  rw [show readColon (':' :: _) = .ok _ from rfl]
  dsimp only
  rw [readText_write (Form.skipSpace_gap (.string e.2) nofun rest)]
  rfl

theorem readLinks_write {table : LinkTable} (ht : skipSpace t = f.write (linkTableToJson table) rest) :
    readLinks t = .ok (table, rest) := by
  have hmembers : linkTableToJson table = .object (table.entries.map linkMember) := rfl
  rw [hmembers, Form.write_object] at ht
  have hread := Form.readMany_object (f := f)
    (fun e (_ : e ∈ table.entries) rest _ => readLink_member e rest) rest
  unfold readLinks
  rw [ht]
  change (readMany readLink '\x7d' true _ _).map _ = _
  rw [hread]
  exact congrArg (fun table => Except.ok (table, rest)) (LinkTable.ofList_entries table)

/-! ### Reading settings -/

/-- The members of some settings. -/
def membersOf (fields : List Field) (s : Settings) : List (String × Json) :=
  fields.map fun field => (field.name, s.fieldToJson field)

theorem ofName?_name (field : Field) : Field.ofName? field.name = some field := by
  cases field <;> rfl

theorem readInto_ok {α : Type} (change : α → Settings) (x : α) (rest : List Char) :
    readInto change (.ok (x, rest)) = .ok (change x, rest) := rfl

theorem numbers_linkTableToJson (table : LinkTable) : (linkTableToJson table).numbers = [] := by
  unfold linkTableToJson
  rw [numbers]
  induction table.entries with
  | nil => rfl
  | cons e entries ih => exact ih

section

variable (hs : s.InRange) (hrestored : (Number.double s.confidenceThreshold).Restored)

include hrestored

/-- The numbers among the settings are restored. -/
theorem restored_of_mem_fieldToJson (field : Field) : ∀ n ∈ (s.fieldToJson field).numbers, n.Restored := by
  have hnat : ∀ k : UInt64, ∀ n ∈ (Json.nat k.toNat).numbers, n.Restored := fun k n hn => by
    rw [List.mem_singleton.mp hn]
    exact restored_nat k
  cases field with
  | concurrency => exact hnat _
  | streamConcurrency => exact hnat _
  | confidenceThreshold =>
    intro n hn
    rw [fieldToJson, Json.double] at hn
    split at hn
    · rw [List.mem_singleton.mp hn]
      exact hrestored
    · cases hn
  | queueCapacity => exact hnat _
  | batchSize => exact hnat _
  | sweepInterval => exact hnat _
  | streamIdleTimeout => exact hnat _
  | midstream => exact nofun
  | linkLayers =>
    intro n hn
    rw [fieldToJson, numbers_linkTableToJson] at hn
    cases hn

include hs

/-- The value of a setting is read as that setting. -/
theorem readField_write (hrest : Ends rest) (given : List Field)
    (ht : skipSpace t = f.write (s.fieldToJson field) rest) :
    readField (s.only given) t field = .ok (s.only (field :: given), rest) := by
  cases field with
  | concurrency => simp [readField, readNumeric_natural hrest ht, readInto_ok, only]
  | streamConcurrency => simp [readField, readNumeric_natural hrest ht, readInto_ok, only]
  | confidenceThreshold =>
    simp [readField, readNumeric_real hrest hs.finite hrestored ht, readInto_ok, only]
  | queueCapacity => simp [readField, readNumeric_natural hrest ht, readInto_ok, only]
  | batchSize => simp [readField, readNumeric_natural hrest ht, readInto_ok, only]
  | sweepInterval => simp [readField, readNumeric_natural hrest ht, readInto_ok, only]
  | streamIdleTimeout => simp [readField, readNumeric_natural hrest ht, readInto_ok, only]
  | midstream => simp [readField, readBool_write ht, readInto_ok, only]
  | linkLayers => simp [readField, readLinks_write ht, readInto_ok, only]

theorem readMember_field (hgiven : field ∉ given) (hrest : Ends rest) :
    readMember given (s.only given)
      (quote field.name.toList (':' :: (f.gap ++ f.inner.write (s.fieldToJson field) rest))) =
        .ok ((field :: given, s.only (field :: given)), rest) := by
  obtain ⟨body, hquote, hunquote⟩ := unquote_quote field.name.toList
    (':' :: (f.gap ++ f.inner.write (s.fieldToJson field) rest))
  have hskip := Form.skipSpace_gap (f := f) _ (restored_of_mem_fieldToJson hrestored field) rest
  have hcolon : readColon (':' :: (f.gap ++ f.inner.write (s.fieldToJson field) rest)) =
      .ok (f.gap ++ f.inner.write (s.fieldToJson field) rest) := rfl
  rw [hquote, readMember, hunquote]
  dsimp only [bind, Except.bind]
  rw [String.ofList_toList, ofName?_name]
  dsimp only
  rw [if_neg hgiven, hcolon]
  dsimp only
  rw [readField_write hs hrestored hrest given hskip]
  rfl

/-- **Members are read one by one**: after each of them the settings are those named so far, and the
standard ones otherwise. -/
theorem readMembers_fields {first : Bool} {count : ℕ} (hnodup : fields.Nodup)
    (hgiven : ∀ field ∈ fields, field ∉ given) (hclose : skipSpace t = '\x7d' :: rest) (hends : Ends t)
    (hcount : fields.length < count) :
    readMembers first given (s.only given) count (f.members first (s.membersOf fields) t) =
      .ok (s.only (fields.reverse ++ given), rest) := by
  -- by induction on the members still to come; those read before are `given`
  induction fields generalizing first given count with
  | nil =>
    obtain ⟨count, rfl⟩ := Nat.exists_eq_add_one_of_ne_zero (Nat.ne_of_gt hcount)
    rw [membersOf, List.map_nil, Form.members, readMembers, Form.nextItem_close hclose]
    rfl
  | cons field fields ih =>
    obtain ⟨count, rfl⟩ := Nat.exists_eq_add_one_of_ne_zero (Nat.ne_zero_of_lt hcount)
    obtain ⟨hfield, hnodup⟩ := List.nodup_cons.mp hnodup
    obtain ⟨hnew, hothers⟩ := List.forall_mem_cons.mp hgiven
    have hstill : ∀ other ∈ fields, other ∉ field :: given := fun other hother hmem =>
      (List.mem_cons.mp hmem).elim (fun heq => hfield (heq ▸ hother)) (hothers other hother)
    have hafter : Ends (f.members false (s.membersOf fields) t) := Form.ends_members hends
    have hread := readMember_field (f := f) hs hrestored hnew hafter
    obtain ⟨body, hquote, -⟩ := unquote_quote field.name.toList (':' :: (f.gap ++ f.inner.write
      (s.fieldToJson field) (f.members false (s.membersOf fields) t)))
    rw [hquote] at hread
    rw [membersOf, List.map_cons, ← membersOf, Form.members, hquote, readMembers, Form.nextItem_member]
    dsimp only
    rw [hread]
    dsimp only
    rw [ih hnodup hstill (Nat.lt_of_succ_lt_succ hcount), List.reverse_cons, List.append_assoc]
    rfl

/-- The text of some settings is read as these, whatever follows it. -/
theorem readSettings_write (hnodup : fields.Nodup) (rest : List Char) :
    readSettings (f.write (s.fieldsToJson fields) rest) = .ok (s.only fields, rest) := by
  have hlength := Form.length_le_length_members (f := f) true (s.membersOf fields)
    (f.close (s.membersOf fields) rest)
  rw [membersOf, List.length_map, ← membersOf] at hlength
  rw [fieldsToJson, ← membersOf, Form.write_object]
  -- what is not named has its standard value: at first no setting is
  change readMembers true [] (s.only []) _ _ = _
  rw [readMembers_fields hs hrestored hnodup (fun field _ => List.not_mem_nil)
    (Form.skipSpace_close _ rest) (Form.ends_close _ rest) (Nat.lt_succ_of_le hlength),
    List.append_nil, only_reverse]

/-- The text of some settings stands for these. -/
theorem load_write (hnodup : fields.Nodup) :
    load (String.ofList (f.write (s.fieldsToJson fields) [])) = .ok (s.only fields) := by
  have hvalid := validate_eq_ok_iff.mpr (hs.only fields)
  have hparse : parse (String.ofList (f.write (s.fieldsToJson fields) [])) = .ok (s.only fields) := by
    rw [parse, String.toList_ofList, readSettings_write hs hrestored hnodup]
    rfl
  rw [load, hparse]
  dsimp only
  rw [hvalid]
  rfl

end

/-- **Whatever the text, settings that are loaded are in range.** -/
theorem inRange_of_load {text : String} (h : load text = .ok s) : s.InRange := by
  unfold load at h
  cases hparse : parse text with
  | error p => rw [hparse] at h; cases h
  | ok s' =>
    rw [hparse] at h
    dsimp only at h
    cases hvalid : s'.validate with
    | error e => rw [hvalid] at h; cases h
    | ok _ =>
      rw [hvalid] at h
      cases h
      exact validate_eq_ok_iff.mp hvalid

/-- Settings are read back from the text of some of them, in any order and in either form. -/
theorem load_text_of_fields (hvalid : s.validate = .ok ())
    (hrestored : (Number.double s.confidenceThreshold).Restored) (hnodup : fields.Nodup) :
    load (s.fieldsToJson fields).compact = .ok (s.only fields) ∧
      load (s.fieldsToJson fields).indented = .ok (s.only fields) := by
  have hs := validate_eq_ok_iff.mp hvalid
  exact ⟨load_write (f := .compact) hs hrestored hnodup,
    load_write (f := .indented 0) hs hrestored hnodup⟩

/-- **Settings are read back from their text**, in either form. A text that leaves some of them out, and
has the others in any order, stands for the settings it names and the standard ones otherwise; the
table of link types is one of them. And whatever is read is in range. -/
theorem load_fieldsToJson :
    (∀ s : Settings, s.validate = .ok () → (Number.double s.confidenceThreshold).Restored →
      (load s.toJson.compact = .ok s ∧ load s.toJson.indented = .ok s) ∧
        ∀ fields : List Field, fields.Nodup →
          load (s.fieldsToJson fields).compact = .ok (s.only fields) ∧
            load (s.fieldsToJson fields).indented = .ok (s.only fields)) ∧
      ∀ text s', load text = .ok s' → s'.InRange := by
  refine ⟨fun s hvalid hrestored => ⟨?_, fun fields => load_text_of_fields hvalid hrestored⟩,
    fun text s' => inRange_of_load⟩
  have hall := load_text_of_fields hvalid hrestored (show Field.all.Nodup by decide)
  rwa [only_all] at hall

/-- Settings with a link type whose text needs escapes. -/
def sample : Settings where
  confidenceThreshold := ⟨0x3fe0000000000000⟩
  batchSize := 1
  midstream := true
  linkLayers := ⟨[(0, "\"\n"), (113, "*sll")], by decide⟩

/-- Of the sample the table of link types and the threshold are kept. -/
theorem load_sample :
    sample.validate = .ok () ∧ (Number.double sample.confidenceThreshold).Restored ∧
      load sample.toJson.compact = .ok sample ∧
      load (sample.fieldsToJson [.linkLayers, .confidenceThreshold]).compact =
        .ok { confidenceThreshold := sample.confidenceThreshold, linkLayers := sample.linkLayers } :=
  have hrestored : (Number.double sample.confidenceThreshold).Restored := by decide +kernel
  have hloaded := load_fieldsToJson.1 sample rfl hrestored
  ⟨rfl, hrestored, hloaded.1.1, (hloaded.2 [.linkLayers, .confidenceThreshold] (by decide)).1⟩

end Settings

end PacketTree
