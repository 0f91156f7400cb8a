import PacketTree.Proofs.Header.Truncation

/-!
# The end of a header

A header ends somewhere in its payload. Two payloads that are the same up to there are read alike, field
by field and error by error, as long as nothing is looked up behind the end. This module says what it
means for two readings to come to the same, and which readings stay in front of the end.

## What is proved

* `byte_eq_of_agree`, `word_eq_of_agree`: what lies in front of the end is the same.
* `run_carrying`: what the layer carries does not matter to the steps of reading.

## The model

Two readings are `Alike` if both succeed with things that belong together, or both fail in words that
belong together. A step is `Blind` if it does not look at what the layer carries.
-/

namespace PacketTree

/-! ### Fields in the same words -/

namespace Property

variable {p q : Property}

theorem Same.range_eq (h : p.Same q) : p.range = q.range := by
  obtain ⟨-, -, range, -, -, -⟩ := h
  exact range

theorem errors_eq {ps qs : List Property} (h : List.Forall₂ Property.Same ps qs) :
    ps.map error = qs.map error := by
  induction h with
  | nil => rfl
  | cons h _ ih =>
    obtain ⟨-, -, -, -, herror, -⟩ := h
    rw [List.map_cons, List.map_cons, ih, herror]

end Property

namespace Header

open ByteView

variable {α β γ δ : Type} {r : α → β → Prop} {s : γ → δ → Prop} {x : Result α} {y : Result β}
  {words : String → String → Prop} {v w : ByteView} {a b i n : ℕ}

/-! ### What lies in front of the end -/

theorem byte_eq_ok {c : UInt8} (h : v.toList[i]? = some c) : byte v i = .ok c := by
  rw [byte, get?_eq, h]

theorem view_eq_ok (hab : a ≤ b) (hb : b ≤ v.size) :
    ∃ u, view v a b = .ok u ∧ u.toList = (v.toList.take b).drop a := by
  obtain ⟨u, hu, hbytes⟩ := exists_slice? hab hb
  exact ⟨u, by rw [view, hu], hbytes⟩

theorem byte_eq_of_agree (h : Agree n v w) (hi : i < n) : byte v i = byte w i := by
  have hlt : i < v.toList.length := by
    rw [length_toList]
    exact hi.trans_le h.le_left
  have hv := byte_eq_ok (List.getElem?_eq_getElem hlt)
  obtain ⟨c, hw, rfl⟩ := byte_of_agree h hi _ hv
  rw [hv, hw]

theorem bytes_eq_of_agree (h : Agree n v w) (hab : a ≤ b) (hb : b ≤ n) :
    bytes v a b = bytes w a b := by
  obtain ⟨u, hu, -⟩ := view_eq_ok hab (hb.trans h.le_left)
  obtain ⟨u', hu', hsame⟩ := view_of_agree h hb u hu
  rw [bytes, bytes, hu, hu']
  exact congrArg Except.ok hsame

theorem word_eq_of_agree (width : ℕ) (h : Agree n v w) (hab : a ≤ b) (hb : b ≤ n) :
    word width v a b = word width w a b := by
  rw [word, word, bytes_eq_of_agree h hab hb]

/-! ### Readings that come to the same -/

/-- Both succeed, with things that belong together, or both fail, in words that belong together. -/
inductive Alike (words : String → String → Prop) (r : α → β → Prop) : Result α → Result β → Prop where
  /-- Both succeed. -/
  | ok {c : α} {d : β} (h : r c d) : Alike words r (.ok c) (.ok d)
  /-- Both fail. -/
  | error {e e' : HeaderError} (h : words e.message e'.message) : Alike words r (.error e) (.error e')

theorem alike_of_eq (hwords : ∀ e, words e e) {y : Result α} (h : x = y) :
    Alike words (fun c d => c = d ∧ x = .ok c) x y := by
  subst h
  cases x with
  | error e => exact .error (hwords _)
  | ok c => exact .ok ⟨rfl, rfl⟩

theorem Alike.bind {k : α → Result γ} {k' : β → Result δ} (h : Alike words r x y)
    (hk : ∀ c d, r c d → Alike words s (k c) (k' d)) : Alike words s (x >>= k) (y >>= k') := by
  cases h with
  | ok h => exact hk _ _ h
  | error h => exact .error h

theorem byteProperty_eq_of_agree (h : Agree n v w) (hi : i < n) (id : String) (read : ℕ → ℕ) :
    byteProperty id v i read = byteProperty id w i read := by
  rw [byteProperty, byteProperty, byte_eq_of_agree h hi]

theorem wordProperty_eq_of_agree (h : Agree n v w) (hab : a ≤ b) (hb : b ≤ n) (id : String) :
    wordProperty id v a b = wordProperty id w a b := by
  rw [wordProperty, wordProperty, word_eq_of_agree _ h hab hb]

/-! ### Steps that do not look at what is carried -/

/-- What the layer carries makes no difference to the step, and is kept. -/
def Blind (step : Step) : Prop := ∀ l u,
  step { l with payload := u } = (step l).map fun m => { m with payload := u }

theorem blind_field (r : Result Property) : Blind (field r) := by
  intro l u
  cases r <;> rfl

theorem blind_pure {change : Layer → Layer}
    (h : ∀ l u, change { l with payload := u } = { change l with payload := u }) :
    Blind fun l => Pure.pure (change l) := fun l u => congrArg Except.ok (h l u)

theorem Blind.bind {k : α → Step} (h : ∀ c, Blind (k c)) (x : Result α) :
    Blind fun l => x >>= fun c => k c l := by
  intro l u
  cases x with
  | error e => rfl
  | ok c => exact h c l u

theorem run_carrying {steps : List Step} (h : ∀ step ∈ steps, Blind step) (l : Layer) (u : ByteView) :
    run steps { l with payload := u } = { run steps l with payload := u } := by
  induction steps generalizing l with
  | nil => rfl
  | cons step steps ih =>
    obtain ⟨hstep, hrest⟩ := List.forall_mem_cons.mp h
    rw [run, run, hstep]
    cases step l with
    | error e => rfl
    | ok m => exact ih hrest m

/-! ### Steps in two parts -/

/-- If no step failed, the first steps and then the others were taken. -/
theorem run_append {ss ts : List Step} {l : Layer} (h : (run (ss ++ ts) l).error = "") :
    run (ss ++ ts) l = run ts (run ss l) := by
  induction ss generalizing l with
  | nil => rfl
  | cons step ss ih =>
    rw [List.cons_append, run] at h ⊢
    rw [run]
    cases hm : step l with
    | error e =>
      rw [hm] at h
      exact absurd h e.message_ne_empty
    | ok m =>
      rw [hm] at h
      exact ih h

end Header

end PacketTree
