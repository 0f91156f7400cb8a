import Mathlib.Data.List.Forall2
import PacketTree.Proofs.Header.Outcome

/-!
# Headers that are cut off

When a payload is cut off somewhere, its header is read as before up to the cut. The fields read from
the part are the first of those read from the whole, and if reading the part does not break off then
reading the whole does not either and gives the same.

## What is proved

* `persists_byte`, `persists_view`, `persists_word`: what can be read from the part is read from the
  whole.
* `truncates_read`: what the two layers have in common.

## The model

Two fields are `Alike` if they say the same, and their errors in words that belong together; views are
compared by their bytes, as two payloads have no bytes in common. Fields that `Match` may have different
words for an error, which may name the size of the payload, and of two fields that are the `Same` the words
are the same. What can be read `Persists` if it can be
read from another payload too. A step `Follows` another if it does to a layer what the other does to one
with the same header, and succeeds whenever the other does.
-/

namespace PacketTree

/-- An error is never without words. -/
theorem HeaderError.message_ne_empty (e : HeaderError) : e.message ≠ "" := by
  intro h
  cases e with
  | tooShort needed actual =>
    obtain ⟨hwords, -⟩ := String.append_eq_empty_iff.mp h
    exact absurd (String.append_eq_empty_iff.mp hwords).2 (by decide)
  | invalid field value =>
    obtain ⟨hwords, -⟩ := String.append_eq_empty_iff.mp h
    exact absurd (String.append_eq_empty_iff.mp hwords).2 (by decide)

/-! ### Fields that say the same -/

/-- Two values are the same, but for the place of bytes. -/
inductive Value.Matches : Value → Value → Prop where
  /-- Any value and itself. -/
  | refl (x : Value) : x.Matches x
  /-- The same bytes. -/
  | bytes {v w : ByteView} (h : v.toList = w.toList) : (Value.bytes v).Matches (.bytes w)

/-- Two fields and all their parts say the same, and their errors in words that belong together. -/
inductive Property.Alike (words : String → String → Prop) : Property → Property → Prop where
  /-- The fields do, and each part does. -/
  | intro {p q : Property} (id : p.id = q.id) (value : p.value.Matches q.value)
      (range : p.range = q.range) (summary : p.summary = q.summary) (error : words p.error q.error)
      (children : List.Forall₂ (Property.Alike words) p.children q.children) : p.Alike words q

/-- Two fields and all their parts say the same, whatever the words for an error. -/
abbrev Property.Matches : Property → Property → Prop :=
  Property.Alike fun words words' => words = "" ↔ words' = ""

/-- Two fields and all their parts say the same in the same words. -/
abbrev Property.Same : Property → Property → Prop := Property.Alike Eq

namespace Property

variable {words : String → String → Prop}

/-- A field says what it says. -/
theorem Alike.refl (hwords : ∀ e, words e e) (p : Property) : p.Alike words p :=
  ⟨rfl, .refl _, rfl, rfl, hwords _, List.forall₂_same.mpr fun c _ => Alike.refl hwords c⟩
termination_by sizeOf p
decreasing_by
  rename_i h
  have := List.sizeOf_lt_of_mem h
  cases p
  simp only [Property.mk.sizeOf_spec] at *
  omega

theorem Matches.refl (p : Property) : p.Matches p := Alike.refl (fun _ => Iff.rfl) p

theorem Same.refl (p : Property) : p.Same p := Alike.refl (fun _ => rfl) p

/-- A field without parts says what its value says. -/
theorem alike_of_value (hwords : ∀ e, words e e) {x y : Value} (h : x.Matches y) (id : String)
    (range : Span) (summary : String) :
    Alike words { id := id, value := x, range := range, summary := summary }
      { id := id, value := y, range := range, summary := summary } :=
  ⟨rfl, h, rfl, rfl, hwords "", .nil⟩

end Property

/-- Two layers say the same of a header, whatever they carry. -/
structure Layer.SameHeader (l m : Layer) : Prop where
  /-- The namespaces are the same, -/
  ns : l.ns = m.ns
  /-- how sure they are, -/
  confidence : l.confidence = m.confidence
  /-- the words for the layer, -/
  summary : l.summary = m.summary
  /-- the stream -/
  streamId : l.streamId = m.streamId
  /-- and the error. -/
  error : l.error = m.error
  /-- The fields say the same. -/
  properties : List.Forall₂ Property.Matches l.properties m.properties

/-- Two fields more that say the same. -/
theorem Layer.SameHeader.push {l m : Layer} {p q : Property} (h : l.SameHeader m) (hpq : p.Matches q) :
    (l.push p).SameHeader (m.push q) :=
  { h with properties := List.rel_append h.properties (.cons hpq .nil) }

/-- One layer was read from the first bytes of what the other was read from. -/
structure Layer.Truncates (short full : Layer) : Prop where
  /-- The fields of the one are the first fields of the other. -/
  properties : ∃ ps, ps <+: full.properties ∧ List.Forall₂ Property.Matches short.properties ps
  /-- If reading did not break off for the one, it did not for the other. -/
  whole : short.error = "" → short.SameHeader full

/-! ### Views that begin alike -/

namespace ByteView

variable {v w : ByteView} {m n : ℕ}

/-- Two views have the same first `n` bytes. -/
structure Agree (n : ℕ) (v w : ByteView) : Prop where
  /-- The one has as many, -/
  le_left : n ≤ v.size
  /-- and so has the other. -/
  le_right : n ≤ w.size
  /-- They are the same. -/
  take : v.toList.take n = w.toList.take n

theorem Agree.mono (h : Agree n v w) (hmn : m ≤ n) : Agree m v w where
  le_left := hmn.trans h.le_left
  le_right := hmn.trans h.le_right
  take := by
    have htake := congrArg (List.take m) h.take
    rwa [List.take_take, List.take_take, Nat.min_eq_left hmn] at htake

theorem agree_of_isPrefix (h : v.toList <+: w.toList) : Agree v.size v w where
  le_left := le_rfl
  le_right := by simpa using h.length_le
  take := by
    rw [← length_toList, List.take_length]
    exact List.prefix_iff_eq_take.mp h

end ByteView

namespace Header

open ByteView

variable {α β γ δ : Type} {r : α → β → Prop} {s : γ → δ → Prop} {x : Result α} {y : Result β}
  {v w : ByteView} {a b i n : ℕ}

/-! ### What can still be read -/

/-- If the one can be read, then the other, and they belong together. -/
def Persists (r : α → β → Prop) (x : Result α) (y : Result β) : Prop :=
  ∀ c, x = .ok c → ∃ d, y = .ok d ∧ r c d

theorem Persists.pure {c : α} {d : β} (h : r c d) :
    Persists r (Pure.pure c : Result α) (Pure.pure d : Result β) := by
  intro c' hc
  cases hc
  exact ⟨d, rfl, h⟩

theorem persists_error (e : HeaderError) : Persists r (.error e) y := nofun

theorem Persists.bind {k : α → Result γ} {k' : β → Result δ} (h : Persists r x y)
    (hk : ∀ c d, r c d → Persists s (k c) (k' d)) : Persists s (x >>= k) (y >>= k') := by
  intro z hz
  obtain ⟨c, hc, hz⟩ := exists_of_bind hz
  obtain ⟨d, rfl, hcd⟩ := h c hc
  exact hk c d hcd z hz

theorem Persists.map {f : α → γ} {g : β → δ} (h : Persists r x y) (hf : ∀ c d, r c d → s (f c) (g d)) :
    Persists s (x.map f) (y.map g) := by
  intro z hz
  cases x with
  | error e => cases hz
  | ok c =>
    cases hz
    obtain ⟨d, rfl, hcd⟩ := h c rfl
    exact ⟨g d, rfl, hf c d hcd⟩

theorem byte_of_agree (h : Agree n v w) (hi : i < n) : Persists Eq (byte v i) (byte w i) := by
  have hget : v.get? i = w.get? i := by
    rw [get?_eq, get?_eq, ← List.getElem?_take_of_lt hi, h.take, List.getElem?_take_of_lt hi]
  intro c hc
  have hlt : i < w.size := hi.trans_le h.le_right
  rw [byte] at hc ⊢
  rw [← hget]
  split at hc
  · next hv => exact ⟨c, hc, rfl⟩
  · cases hc

theorem view_of_agree (h : Agree n v w) (hb : b ≤ n) :
    Persists (fun u u' => u.toList = u'.toList) (view v a b) (view w a b) := by
  intro u hu
  obtain ⟨hab, -⟩ := view_fits hu
  obtain ⟨u', hu', hbytes⟩ := exists_slice? hab (hb.trans h.le_right)
  refine ⟨u', by rw [view, hu'], ?_⟩
  rw [view] at hu
  split at hu
  · next hslice =>
    cases hu
    rw [toList_of_slice?_eq_some hslice, hbytes, (h.mono hb).take]
  · cases hu

theorem word_of_agree (width : ℕ) (h : Agree n v w) (hb : b ≤ n) :
    Persists Eq (word width v a b) (word width w a b) := by
  intro c hc
  rw [word, bytes] at hc
  rw [word, bytes]
  cases hu : view v a b with
  | error e =>
    rw [hu] at hc
    cases hc
  | ok u =>
    obtain ⟨u', hu', hsame⟩ := view_of_agree h hb u hu
    rw [hu] at hc
    rw [hu']
    simp only [Except.map] at hc ⊢
    rw [← hsame]
    exact ⟨c, hc, rfl⟩

section

variable (h : v.toList <+: w.toList)
include h

theorem persists_byte (i : ℕ) : Persists Eq (byte v i) (byte w i) := fun c hc =>
  byte_of_agree (agree_of_isPrefix h) (byte_fits hc) c hc

theorem persists_view (a b : ℕ) :
    Persists (fun u u' => u.toList = u'.toList) (view v a b) (view w a b) := fun c hc =>
  view_of_agree (agree_of_isPrefix h) (view_fits hc).2 c hc

theorem persists_bytes (a b : ℕ) : Persists Eq (bytes v a b) (bytes w a b) :=
  (persists_view h a b).map fun _ _ => id

theorem persists_word (width a b : ℕ) : Persists Eq (word width v a b) (word width w a b) :=
  fun c hc => word_of_agree width (agree_of_isPrefix h) (word_fits hc).2 c hc

theorem persists_require (n : ℕ) : Persists (fun _ _ => True) (require v n) (require w n) := by
  intro _ hv
  have hle : v.size ≤ w.size := by simpa using h.length_le
  rw [require, if_neg (Nat.not_lt.mpr ((require_fits hv).trans hle))]
  exact ⟨(), rfl, trivial⟩

/-! ### Fields that can still be read -/

theorem persists_byteProperty (id : String) (i : ℕ) (read : ℕ → ℕ) :
    Persists Property.Matches (byteProperty id v i read) (byteProperty id w i read) :=
  (persists_byte h i).map fun _ _ hcd => hcd ▸ .refl _

theorem persists_wordProperty (id : String) (a b : ℕ) :
    Persists Property.Matches (wordProperty id v a b) (wordProperty id w a b) :=
  (persists_word h (b - a) a b).map fun _ _ hcd => hcd ▸ .refl _

theorem persists_addressProperty (id : String) (text : List UInt8 → String) (a b : ℕ) :
    Persists Property.Matches (addressProperty id text v a b) (addressProperty id text w a b) :=
  (persists_view h a b).map fun u u' hsame => by
    rw [hsame]
    exact Property.alike_of_value (fun _ => Iff.rfl) (.bytes hsame) _ _ _

end

/-! ### Steps that do the same -/

variable {p q : Result Property} {l m parent : Layer} {step step' : Step} {ss ts : List Step}

/-- The second step does to a layer what the first does to one with the same header, whenever that
succeeds. -/
def Follows (step step' : Step) : Prop :=
  ∀ l m : Layer, l.SameHeader m → Persists Layer.SameHeader (step l) (step' m)

theorem follows_field (h : Persists Property.Matches p q) : Follows (field p) (field q) :=
  fun _ _ hlm => h.map fun _ _ => hlm.push

theorem follows_check {x y : Result Unit} (h : Persists (fun _ _ => True) x y) :
    Follows (check x) (check y) := fun _ _ hlm => h.map fun _ _ _ => hlm

theorem Follows.bind {k : α → Step} {k' : β → Step} (h : Persists r x y)
    (hk : ∀ c d, r c d → Follows (k c) (k' d)) :
    Follows (fun l => x >>= fun c => k c l) fun l => y >>= fun d => k' d l :=
  fun l m hlm => h.bind fun c d hcd => hk c d hcd l m hlm

theorem Follows.ite {c : Prop} [Decidable c] {step₁ step₂ step₁' step₂' : Step}
    (h₁ : c → Follows step₁ step₁') (h₂ : ¬c → Follows step₂ step₂') :
    Follows (fun l => if c then step₁ l else step₂ l) fun l => if c then step₁' l else step₂' l := by
  by_cases hc : c
  · simpa only [if_pos hc] using h₁ hc
  · simpa only [if_neg hc] using h₂ hc

theorem follows_pure {change change' : Layer → Layer}
    (h : ∀ l m : Layer, l.SameHeader m → (change l).SameHeader (change' m)) :
    Follows (fun l => Pure.pure (change l)) fun l => Pure.pure (change' l) :=
  fun l m hlm => .pure (h l m hlm)

/-- If the step succeeds, the fields read before stay where they are. -/
def KeepsFields (step : Step) : Prop := ∀ l m, step l = .ok m → l.properties <+: m.properties

theorem Grows.keepsFields (h : Grows n step) : KeepsFields step := by
  intro l m hm
  obtain ⟨ps, summary, streamId, -, rfl⟩ := h l m hm
  exact List.prefix_append _ _

theorem HandsOn.keepsFields {tokens : List String} (h : HandsOn v tokens step) :
    KeepsFields step := by
  intro l m hm
  obtain ⟨ps, w, ns, -, -, -, rfl⟩ := h l m hm
  exact List.prefix_append _ _

/-! ### Whole headers -/

theorem properties_prefix_run (h : ∀ step ∈ ts, KeepsFields step) (l : Layer) :
    l.properties <+: (run ts l).properties := by
  induction ts generalizing l with
  | nil => exact List.prefix_refl _
  | cons step ts ih =>
    obtain ⟨hstep, hrest⟩ := List.forall_mem_cons.mp h
    rw [run]
    cases hm : step l with
    | error e => exact List.prefix_refl _
    | ok m => exact (hstep l m hm).trans (ih hrest m)

/-- **Steps that follow others step by step** read what these read, and more where these break off. -/
theorem truncates_run (hfollows : List.Forall₂ Follows ss ts) (hkeeps : ∀ step ∈ ts, KeepsFields step)
    (hlm : l.SameHeader m) : (run ss l).Truncates (run ts m) := by
  induction hfollows generalizing l m with
  | nil => exact ⟨⟨_, List.prefix_refl _, hlm.properties⟩, fun _ => hlm⟩
  | @cons step step' ss ts hstep _ ih =>
    obtain ⟨hfirst, hrest⟩ := List.forall_mem_cons.mp hkeeps
    cases hl : step l with
    | error e =>
      rw [run, hl]
      exact ⟨⟨_, properties_prefix_run hkeeps m, hlm.properties⟩,
        fun herror => absurd herror e.message_ne_empty⟩
    | ok l' =>
      obtain ⟨m', hm', hsame⟩ := hstep l m hlm l' hl
      rw [run, hl, run, hm']
      exact ih hrest hsame

/-- **A header that is cut off**, if all steps but the last only add to the layer. -/
theorem truncates_read {name : String} {tokens : List String} {u : ByteView} {last : Step}
    (hgrows : ∀ step ∈ ts, Grows n step) (hlast : HandsOn v tokens last)
    (hfollows : List.Forall₂ Follows ss (ts ++ [last])) :
    (read name ss { parent with payload := u }).Truncates (read name (ts ++ [last]) parent) := by
  refine truncates_run hfollows (fun step hstep => ?_) ⟨rfl, rfl, rfl, rfl, rfl, .nil⟩
  rcases List.mem_append.mp hstep with hstep | hstep
  · exact (hgrows step hstep).keepsFields
  · exact List.mem_singleton.mp hstep ▸ hlast.keepsFields

end Header

end PacketTree
