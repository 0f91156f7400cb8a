import Mathlib.Algebra.Order.Ring.Nat
import PacketTree.Header.Basic

/-!
# What reading a header leaves behind

A header is read step by step. Each step adds fields or words, and only the last one says what the
layer carries and which protocol comes next. So a layer whose reading broke off carries nothing and
names no further protocol, and otherwise it carries a part of what its parent does.

## What is proved

* `byte_fits`, `view_fits`, `word_fits`: what could be read lies in the payload.
* `leftBy_read`: what a layer looks like after reading, whether all of it could be read or not.

## The model

`FitsIn` says of a field and its parts that they lie in the first bytes of a payload. A step `Grows` a
layer if all it does is to add such fields and words; one that `HandsOn` also sets payload and
namespace. `LeftBy` is what becomes of a layer when steps of the first kind are followed by one of the
second.
-/

namespace PacketTree

/-- A field and all its parts lie in the first `n` bytes. -/
inductive Property.FitsIn (n : ℕ) : Property → Prop where
  /-- The field does, and each part does. -/
  | intro {p : Property} (start_le : p.range.start ≤ p.range.stop) (stop_le : p.range.stop ≤ n)
      (children : ∀ c ∈ p.children, c.FitsIn n) : p.FitsIn n

namespace Property

variable {p : Property} {m n : ℕ}

/-- A field without parts. -/
theorem fitsIn_of_children_eq_nil (hstart : p.range.start ≤ p.range.stop) (hstop : p.range.stop ≤ n)
    (h : p.children = []) : p.FitsIn n :=
  ⟨hstart, hstop, by simp [h]⟩

theorem FitsIn.mono (h : p.FitsIn m) (hmn : m ≤ n) : p.FitsIn n := by
  induction h with
  | intro start_le stop_le _ ih => exact ⟨start_le, stop_le.trans hmn, ih⟩

end Property

/-- The byte at a place is the one that stands there in the content. -/
theorem ByteView.get?_eq (v : ByteView) (i : ℕ) : v.get? i = v.toList[i]? := by
  have hstart := v.start_le_stop
  have hstop := v.stop_le_size
  rw [get?, toList, Array.getElem?_toList, Array.getElem?_extract, size]
  congr 1
  rw [eq_iff_iff]
  omega

/-- What reading the header of a protocol leaves behind in a layer below another. -/
structure Layer.LeftBy (name : String) (tokens : List String) (parent l : Layer) : Prop where
  /-- Nothing was guessed. -/
  confidence : l.confidence = .full
  /-- All fields lie in the payload that they were read from. -/
  fits : ∀ p ∈ l.properties, p.FitsIn parent.payload.size
  /-- What is carried is part of it, -/
  within : l.payload.Within parent.payload
  /-- and may be said to be one of some protocols. -/
  ns : l.ns = parent.ns.descend name ∨ ∃ t ∈ tokens, l.ns = (parent.ns.descend name).announce t
  /-- A layer in error carries nothing, and nothing is said. -/
  broken : l.error ≠ "" → l.payload = parent.payload.tail ∧ l.ns = parent.ns.descend name

namespace Header

variable {α : Type} {v w : ByteView} {a b i k n width : ℕ} {x : UInt8} {p : Property} {id : String}

/-! ### What could be read -/

theorem byte_fits (h : byte v i = .ok x) : i < v.size := by
  rw [byte] at h
  split at h
  · next hget =>
    by_contra hle
    rw [ByteView.get?, if_neg hle] at hget
    cases hget
  · cases h

theorem view_fits (h : view v a b = .ok w) : a ≤ b ∧ b ≤ v.size := by
  rw [view] at h
  split at h
  · next hslice => exact ByteView.range_of_slice?_eq_some hslice
  · cases h

theorem word_fits (h : word width v a b = .ok n) : a ≤ b ∧ b ≤ v.size := by
  rw [word, bytes] at h
  cases hview : view v a b with
  | error e =>
    rw [hview] at h
    cases h
  | ok w => exact view_fits hview

theorem require_fits (h : require v n = .ok ()) : n ≤ v.size := by
  rw [require] at h
  split at h
  · cases h
  · next hlt => exact Nat.le_of_not_lt hlt

/-- What follows on something that could be read. -/
theorem exists_of_bind {β : Type} {r : Result α} {k : α → Result β} {y : β}
    (h : r >>= k = .ok y) : ∃ c, r = .ok c ∧ k c = .ok y := by
  cases r with
  | error e => cases h
  | ok c => exact ⟨c, rfl, h⟩

/-- What is made from something that could be read. -/
theorem of_map_eq_ok {r : Result α} {make : α → Property} {P : Property → Prop}
    (hmake : ∀ c, r = .ok c → P (make c)) (h : r.map make = .ok p) : P p := by
  cases r with
  | error e => cases h
  | ok c =>
    cases h
    exact hmake c rfl

theorem byteProperty_fits {read : ℕ → ℕ} (h : byteProperty id v i read = .ok p) :
    p.FitsIn v.size := by
  refine of_map_eq_ok (fun c hc => ?_) h
  exact Property.fitsIn_of_children_eq_nil (Nat.le_succ i) (byte_fits hc) rfl

theorem wordProperty_fits (h : wordProperty id v a b = .ok p) : p.FitsIn v.size := by
  refine of_map_eq_ok (fun c hc => ?_) h
  exact Property.fitsIn_of_children_eq_nil (word_fits hc).1 (word_fits hc).2 rfl

theorem addressProperty_fits {text : List UInt8 → String}
    (h : addressProperty id text v a b = .ok p) : p.FitsIn v.size := by
  refine of_map_eq_ok (fun c hc => ?_) h
  exact Property.fitsIn_of_children_eq_nil (view_fits hc).1 (view_fits hc).2 rfl

/-- Single bits lie where their number does. -/
theorem flagProperty_fits {range : Span} (hstart : range.start ≤ range.stop) (hstop : range.stop ≤ n)
    (bits : List (ℕ × String)) : (flagProperty id k range bits).FitsIn n := by
  refine ⟨hstart, hstop, fun c hc => ?_⟩
  obtain ⟨bit, -, rfl⟩ := List.mem_map.mp hc
  exact Property.fitsIn_of_children_eq_nil hstart hstop rfl

/-! ### What a step adds -/

/-- If the step succeeds, it adds fields from the first `n` bytes and words, and nothing else. -/
def Grows (n : ℕ) (step : Step) : Prop := ∀ l m, step l = .ok m →
  ∃ ps summary streamId, (∀ p ∈ ps, p.FitsIn n) ∧
    m = { l with properties := l.properties ++ ps, summary := summary, streamId := streamId }

/-- If the step succeeds, it also sets what is carried, a part of the payload, and may announce one of
some protocols. -/
def HandsOn (v : ByteView) (tokens : List String) (step : Step) : Prop := ∀ l m, step l = .ok m →
  ∃ ps w ns, (∀ p ∈ ps, p.FitsIn v.size) ∧ w.Within v ∧
    (ns = l.ns ∨ ∃ t ∈ tokens, ns = l.ns.announce t) ∧
    m = { l with properties := l.properties ++ ps, payload := w, ns := ns }

variable {tokens : List String} {step : Step} {steps : List Step} {parent l m : Layer}

theorem grows_field {r : Result Property} (h : ∀ p, r = .ok p → p.FitsIn n) : Grows n (field r) := by
  intro l m hm
  cases r with
  | error e => cases hm
  | ok p =>
    cases hm
    exact ⟨[p], l.summary, l.streamId, by simpa using h p rfl, rfl⟩

@[simp] theorem grows_byteField (id : String) (v : ByteView) (i : ℕ) (read : ℕ → ℕ) :
    Grows v.size (field (byteProperty id v i read)) := grows_field fun _ => byteProperty_fits

@[simp] theorem grows_wordField (id : String) (v : ByteView) (a b : ℕ) :
    Grows v.size (field (wordProperty id v a b)) := grows_field fun _ => wordProperty_fits

@[simp] theorem grows_addressField (id : String) (text : List UInt8 → String) (v : ByteView)
    (a b : ℕ) : Grows v.size (field (addressProperty id text v a b)) :=
  grows_field fun _ => addressProperty_fits

@[simp] theorem grows_check (r : Result Unit) : Grows n (check r) := by
  intro l m hm
  cases r with
  | error e => cases hm
  | ok _ =>
    cases hm
    exact ⟨[], l.summary, l.streamId, by simp, by simp⟩

theorem Grows.bind {r : Result α} {k : α → Step} (h : ∀ c, r = .ok c → Grows n (k c)) :
    Grows n fun l => r >>= fun c => k c l := by
  intro l m hm
  cases r with
  | error e => cases hm
  | ok c => exact h c rfl l m hm

/-- Words alone. -/
theorem grows_words {change : Layer → Layer}
    (h : ∀ l, ∃ summary streamId, change l = { l with summary := summary, streamId := streamId }) :
    Grows n fun l => Pure.pure (change l) := by
  intro l m hm
  cases hm
  obtain ⟨summary, streamId, hchange⟩ := h l
  exact ⟨[], summary, streamId, by simp, by rw [hchange, List.append_nil]⟩

theorem HandsOn.bind {r : Result α} {k : α → Step} (h : ∀ c, r = .ok c → HandsOn v tokens (k c)) :
    HandsOn v tokens fun l => r >>= fun c => k c l := by
  intro l m hm
  cases r with
  | error e => cases hm
  | ok c => exact h c rfl l m hm

/-! ### Whole headers -/

/-- What is known of a layer before the last step. -/
structure Before (name : String) (parent l : Layer) : Prop where
  /-- It is as sure as it was. -/
  confidence : l.confidence = .full
  /-- All fields lie in the payload. -/
  fits : ∀ p ∈ l.properties, p.FitsIn parent.payload.size
  /-- Nothing is carried yet, -/
  payload : l.payload = parent.payload.tail
  /-- and nothing announced. -/
  ns : l.ns = parent.ns.descend name

variable {name : String}

theorem Before.grow (h : Before name parent l) (hstep : Grows parent.payload.size step)
    (hm : step l = .ok m) : Before name parent m := by
  obtain ⟨ps, summary, streamId, hps, rfl⟩ := hstep l m hm
  refine ⟨h.confidence, fun p hp => ?_, h.payload, h.ns⟩
  exact (List.mem_append.mp hp).elim (h.fits p) (hps p)

/-- A layer in which reading broke off. -/
theorem Before.leftBy (h : Before name parent l) (tokens : List String) (error : String) :
    Layer.LeftBy name tokens parent { l with error := error } where
  confidence := h.confidence
  fits := h.fits
  within := h.payload ▸ ByteView.within_drop _ _
  ns := .inl h.ns
  broken _ := ⟨h.payload, h.ns⟩

/-- **What reading leaves behind**, if all steps but the last only add to the layer. -/
theorem leftBy_run (hgrows : ∀ step ∈ steps, Grows parent.payload.size step)
    (hlast : HandsOn parent.payload tokens step) (h : Before name parent l) (herror : l.error = "") :
    Layer.LeftBy name tokens parent (run (steps ++ [step]) l) := by
  induction steps generalizing l with
  | nil =>
    rw [List.nil_append, run]
    cases hm : step l with
    | error e => exact h.leftBy tokens e.message
    | ok m =>
      obtain ⟨ps, w, ns, hps, hw, hns, rfl⟩ := hlast l m hm
      rw [h.ns] at hns
      exact
        { confidence := h.confidence
          fits := fun p hp => (List.mem_append.mp hp).elim (h.fits p) (hps p)
          within := hw
          ns := hns
          broken := fun hne => absurd herror hne }
  | cons first steps ih =>
    obtain ⟨hfirst, hrest⟩ := List.forall_mem_cons.mp hgrows
    rw [List.cons_append, run]
    cases hm : first l with
    | error e => exact h.leftBy tokens e.message
    | ok m =>
      refine ih hrest (h.grow hfirst hm) ?_
      obtain ⟨ps, summary, streamId, -, rfl⟩ := hfirst l m hm
      exact herror

theorem leftBy_read (hgrows : ∀ step ∈ steps, Grows parent.payload.size step)
    (hlast : HandsOn parent.payload tokens step) :
    Layer.LeftBy name tokens parent (read name (steps ++ [step]) parent) :=
  leftBy_run hgrows hlast ⟨rfl, by simp, rfl, rfl⟩ rfl

/-! ### Fields that need a check -/

/-- A step that is taken only after a check. -/
def checked (r : Result Unit) (step : Step) : Step := fun l => r >>= fun _ => step l

/-- A check may be made part of the step behind it. -/
theorem run_checked (before : List Step) (r : Result Unit) (step : Step) (steps : List Step)
    (l : Layer) : run (before ++ check r :: step :: steps) l =
      run (before ++ checked r step :: steps) l := by
  induction before generalizing l with
  | nil =>
    cases r with
    | error e => rfl
    | ok _ => rfl
  | cons first before ih =>
    rw [List.cons_append, List.cons_append, run, run]
    cases first l with
    | error e => rfl
    | ok m => exact ih m

end Header

end PacketTree
