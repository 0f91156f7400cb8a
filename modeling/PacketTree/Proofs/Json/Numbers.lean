import Mathlib.Data.List.TakeDrop
import PacketTree.Json.Number
import PacketTree.Proofs.Text.Runs

/-!
# Numbers are read back from their texts

Whole numbers of 64 bits are restored whatever follows them that does not go on with a number. Of a
double the text is read in double arithmetic, which need not find it again (`Number.Restored`).

## Main results

* `PacketTree.Json.steady_readNumber` - what is read of a number does not depend on what follows.
* `PacketTree.Json.restored_int` - whole numbers of 64 bits are restored.
-/

namespace PacketTree.Json

variable {rest s t : List Char} {n : Number}

/-! ### Texts that end a number -/

/-- A text that no number goes on with. -/
def Ends (t : List Char) : Prop :=
  ∀ c ∈ t.head?, c.isDigit = false ∧ c ≠ '.' ∧ c ≠ 'e' ∧ c ≠ 'E'

/-- A reader of a number that is not misled by what follows. -/
def Steady {α : Type} (read : List Char → Reading α) : Prop :=
  ∀ ⦃s a rest⦄, read s = .ok (a, rest) → ∀ {t}, Ends t → read (s ++ t) = .ok (a, rest ++ t)

theorem span_append (ht : Ends t) : (s ++ t).span Char.isDigit =
    ((s.span Char.isDigit).1, (s.span Char.isDigit).2 ++ t) := by
  have hstop : ∀ c ∈ t.head?, c.isDigit = false := fun c hc => (ht c hc).1
  rw [List.span_eq_takeWhile_dropWhile, List.span_eq_takeWhile_dropWhile,
    Text.takeWhile_append_of_head hstop, Text.dropWhile_append_of_head hstop]

theorem steady_scanWhole : Steady scanWhole := by
  intro s digits rest h t ht
  unfold scanWhole at h ⊢
  rw [span_append ht]
  split at h
  · cases h
  · next heq =>
    cases h
    rw [heq]
    rfl
  · cases h
  · next run after hnone hzero hzeros heq =>
    cases h
    rw [heq]
    split <;> simp_all

theorem steady_scanFraction : Steady scanFraction := by
  intro s digits rest h t ht
  unfold scanFraction at h
  split at h
  · next s =>
    rw [List.cons_append, scanFraction, span_append ht]
    split at h
    · cases h
    · next run after hnone heq =>
      cases h
      rw [heq]
      split <;> simp_all
  · next hpoint =>
    cases h
    unfold scanFraction
    split
    · next s' heq =>
      rcases s with _ | ⟨c, s⟩
      · rw [List.nil_append] at heq
        exact absurd rfl (ht '.' (by simp [heq])).2.1
      · exact absurd (congrArg (· :: s) (List.cons.inj heq).1) (hpoint s)
    · rfl

theorem steady_scanPower (negative : Bool) : Steady (scanPower negative) := by
  intro s power rest h t ht
  unfold scanPower at h ⊢
  rw [span_append ht]
  split at h
  · cases h
  · next run after hnone heq =>
    cases h
    rw [heq]
    split <;> simp_all

/-- Reads the digits of an exponent behind a sign that may be missing. -/
def scanSigned (s : List Char) : Reading (Option Int) :=
  match s with
  | '+' :: s' => scanPower false s'
  | '-' :: s' => scanPower true s'
  | _ => scanPower false s

theorem steady_scanSigned : Steady scanSigned := by
  intro s power rest h t ht
  unfold scanSigned at h
  split at h
  · exact steady_scanPower false h ht
  · exact steady_scanPower true h ht
  · next hplus hminus =>
    have hpower := steady_scanPower false h ht
    rcases s with _ | ⟨c, s⟩
    · cases h
    · unfold scanSigned
      split
      · next heq => exact absurd (congrArg (· :: s) (List.cons.inj heq).1) (hplus s)
      · next heq => exact absurd (congrArg (· :: s) (List.cons.inj heq).1) (hminus s)
      · exact hpower

theorem scanExponent_cons (c : Char) (s : List Char) :
    scanExponent (c :: s) = if c = 'e' ∨ c = 'E' then scanSigned s else .ok (none, c :: s) := rfl

theorem steady_scanExponent : Steady scanExponent := by
  intro s power rest h t ht
  rcases s with _ | ⟨c, s⟩
  · cases h
    rcases t with _ | ⟨c, t⟩
    · rfl
    · obtain ⟨-, -, hlower, hupper⟩ := ht c rfl
      rw [List.nil_append, scanExponent_cons, if_neg (by simp [hlower, hupper])]
  · rw [List.cons_append]
    rw [scanExponent_cons] at h ⊢
    split_ifs at h ⊢ with hc
    · exact steady_scanSigned h ht
    · cases h
      rfl

/-- A minus sign, and what follows it. -/
def scanSign (s : List Char) : Bool × List Char :=
  match s with
  | '-' :: s' => (true, s')
  | _ => (false, s)

/-- The parts of a number behind its sign. -/
def scanParts (negative : Bool) (s : List Char) : Except Problem (Numeral × List Char) := do
  let (whole, s) ← scanWhole s
  let (fraction, s) ← scanFraction s
  let (exponent, s) ← scanExponent s
  return (⟨negative, whole, fraction, exponent⟩, s)

theorem scanNumeral_eq (s : List Char) : scanNumeral s = scanParts (scanSign s).1 (scanSign s).2 := rfl

/-- What was computed before a result was. -/
theorem exists_of_bind_ok {α β : Type} {x : Except Problem α} {f : α → Except Problem β} {b : β}
    (h : x >>= f = .ok b) : ∃ a, x = .ok a ∧ f a = .ok b := by
  cases x with
  | error p => cases h
  | ok a => exact ⟨a, rfl, h⟩

theorem steady_scanParts (negative : Bool) : Steady (scanParts negative) := by
  intro s numeral rest h t ht
  obtain ⟨⟨whole, s₁⟩, hwhole, h⟩ := exists_of_bind_ok h
  obtain ⟨⟨fraction, s₂⟩, hfraction, h⟩ := exists_of_bind_ok h
  obtain ⟨⟨exponent, s₃⟩, hexponent, h⟩ := exists_of_bind_ok h
  cases h
  rw [scanParts, steady_scanWhole hwhole ht]
  dsimp only [bind, Except.bind]
  rw [steady_scanFraction hfraction ht]
  dsimp only
  rw [steady_scanExponent hexponent ht]
  rfl

theorem steady_scanNumeral : Steady scanNumeral := by
  intro s numeral rest h t ht
  rw [scanNumeral_eq] at h ⊢
  have hsign : scanSign (s ++ t) = ((scanSign s).1, (scanSign s).2 ++ t) := by
    rcases s with _ | ⟨c, s⟩
    · cases h
    · unfold scanSign
      simp only [List.cons_append]
      split <;> split <;> simp_all
  rw [hsign]
  exact steady_scanParts _ h ht

/-- **What is read of a number stays the same** if what follows does not go on with it. -/
theorem steady_readNumber : Steady readNumber := by
  intro s n rest h t ht
  obtain ⟨⟨numeral, after⟩, hnumeral, h⟩ := exists_of_bind_ok h
  rw [readNumber, steady_scanNumeral hnumeral ht]
  dsimp only [bind, Except.bind] at h ⊢
  split at h
  · next hnumber =>
    cases h
    rfl
  · cases h

/-- A number starts with a digit or a minus sign. -/
theorem exists_cons_of_readNumber (h : readNumber s = .ok (n, rest)) :
    ∃ c tail, s = c :: tail ∧ (c = '-' ∨ c.isDigit = true) := by
  obtain ⟨⟨numeral, after⟩, hnumeral, -⟩ := exists_of_bind_ok h
  rw [scanNumeral_eq] at hnumeral
  obtain ⟨⟨whole, after⟩, hwhole, -⟩ := exists_of_bind_ok hnumeral
  rcases s with _ | ⟨c, s⟩
  · cases hwhole
  · refine ⟨c, s, rfl, ?_⟩
    by_contra hne
    obtain ⟨hminus, hdigit⟩ := not_or.mp hne
    have hsign : scanSign (c :: s) = (false, c :: s) := by
      unfold scanSign
      split
      · next heq => exact absurd (List.cons.inj heq).1 hminus
      · rfl
    rw [hsign, scanWhole, List.span_eq_takeWhile_dropWhile,
      List.takeWhile_cons_of_neg (by simpa using hdigit)] at hwhole
    cases hwhole

/-- Reading its text restores a number. -/
def Number.Restored (n : Number) : Prop := readNumber n.text = .ok (n, [])

instance (n : Number) : Decidable n.Restored :=
  inferInstanceAs (Decidable (readNumber n.text = .ok (n, [])))

/-- The digits of a number are taken as long as it is small enough. -/
theorem takeDigits_of_lt {digits : List Char} {m taken : ℕ}
    (h : Nat.ofDigitChars 10 digits m < UInt64.size) :
    takeDigits m taken digits = (Nat.ofDigitChars 10 digits m, taken + digits.length) := by
  induction digits generalizing m taken with
  | nil => rfl
  | cons c digits ih =>
    rw [Nat.ofDigitChars_cons, Nat.mul_comm] at h ⊢
    have hle : m * 10 + (c.toNat - '0'.toNat) < UInt64.size := by
      refine Nat.lt_of_le_of_lt ?_ h
      rw [Nat.ofDigitChars_eq_ofDigitChars_zero]
      exact Nat.le_add_right_of_le (Nat.le_mul_of_pos_left _ (Nat.pow_pos (by decide)))
    have hnext : takeDigits m taken (c :: digits) =
        takeDigits (m * 10 + (c.toNat - '0'.toNat)) (taken + 1) digits := if_pos hle
    rw [hnext, ih h, List.length_cons, Nat.add_right_comm]
    rfl

/-- Only zero starts with a zero. -/
theorem eq_nil_of_toDigits {k : ℕ} {digits : List Char} (h : Nat.toDigits 10 k = '0' :: digits) :
    digits = [] := by
  induction k using Nat.strongRecOn generalizing digits with
  | ind k ih =>
    rcases Nat.lt_or_ge k 10 with hk | hk
    · rw [Nat.toDigits_of_lt_base hk] at h
      exact (List.cons.inj h).2.symm
    · rw [Nat.toDigits_of_base_le (by decide) hk] at h
      rcases hhigh : Nat.toDigits 10 (k / 10) with _ | ⟨c, high⟩
      · exact absurd hhigh Nat.toDigits_ne_nil
      · rw [hhigh, List.cons_append] at h
        obtain ⟨rfl, -⟩ := List.cons.inj h
        have hzero : Nat.toDigits 10 (k / 10) = ['0'] := by
          rw [hhigh, ih (k / 10) (by omega) hhigh]
        have := congrArg (Nat.ofDigitChars 10 · 0) hzero
        simp only [Nat.ofDigitChars_ten_toDigits] at this
        have hval : Nat.ofDigitChars 10 ['0'] 0 = 0 := rfl
        omega

/-- The digits of a number are read as a whole. -/
theorem scanWhole_toDigits (k : ℕ) : scanWhole (Nat.toDigits 10 k) = .ok (Nat.toDigits 10 k, []) := by
  have hdigits : ∀ c ∈ Nat.toDigits 10 k, c.isDigit = true :=
    fun c hc => Nat.isDigit_of_mem_toDigits (by decide) (by decide) hc
  have hspan : (Nat.toDigits 10 k).span Char.isDigit = (Nat.toDigits 10 k, []) := by
    rw [List.span_eq_takeWhile_dropWhile, List.takeWhile_eq_self_iff.mpr hdigits,
      List.dropWhile_eq_nil_iff.mpr hdigits]
  unfold scanWhole
  rw [hspan]
  rcases hk : Nat.toDigits 10 k with _ | ⟨c, digits⟩
  · exact absurd hk Nat.toDigits_ne_nil
  · by_cases hc : c = '0'
    · subst hc
      rw [eq_nil_of_toDigits hk]
      rfl
    · split <;> simp_all

/-- The parts of a whole number: its sign and its digits. -/
def Numeral.ofInt (i : ℤ) : Numeral := ⟨decide (i < 0), Nat.toDigits 10 i.natAbs, [], none⟩

/-- The text of a whole number is read as its parts. -/
theorem scanNumeral_int (i : ℤ) : scanNumeral (Number.int i).text = .ok (.ofInt i, []) := by
  have hparts : ∀ negative, scanParts negative (Nat.toDigits 10 i.natAbs) =
      .ok (⟨negative, Nat.toDigits 10 i.natAbs, [], none⟩, []) := by
    intro negative
    rw [scanParts, scanWhole_toDigits]
    rfl
  rw [scanNumeral_eq, Number.text, Decimal.digitChars]
  split_ifs with hneg
  · exact (hparts true).trans (by simp [Numeral.ofInt, hneg])
  · have hsign : scanSign (Nat.toDigits 10 i.natAbs) = (false, Nat.toDigits 10 i.natAbs) := by
      unfold scanSign
      split
      · next s heq =>
        have hmem : '-' ∈ Nat.toDigits 10 i.natAbs := by simp [heq]
        exact absurd (Nat.isDigit_of_mem_toDigits (by decide) (by decide) hmem) (by decide)
      · rfl
    rw [List.nil_append, hsign]
    exact (hparts false).trans (by simp [Numeral.ofInt, hneg])

/-- The parts of a whole number of 64 bits stand for it. -/
theorem number?_ofInt {i : ℤ} (hlow : -0x8000000000000000 ≤ i) (hhigh : i < 0x10000000000000000) :
    (Numeral.ofInt i).number? = some (.int i) := by
  have htake : takeDigits 0 0 (Nat.toDigits 10 i.natAbs) =
      (i.natAbs, (Nat.toDigits 10 i.natAbs).length) := by
    rw [takeDigits_of_lt] <;> rw [Nat.ofDigitChars_ten_toDigits]
    · rw [Nat.zero_add]
    · have : UInt64.size = 0x10000000000000000 := rfl
      omega
  unfold Numeral.ofInt Numeral.number?
  rw [htake]
  simp only [List.isEmpty_nil, Option.isNone_none, Nat.sub_self, and_self, if_true,
    decide_eq_true_eq]
  split_ifs with hneg hdouble
  · omega
  · rw [← Int.eq_neg_natAbs_of_nonpos (Int.le_of_lt hneg)]
  · rw [Int.natAbs_of_nonneg (Int.not_lt.mp hneg)]

/-- A number has no more than 64 bits. -/
def Number.Fits : Number → Prop
  | .int i => -0x8000000000000000 ≤ i ∧ i < 0x10000000000000000
  | .double _ => True

/-- **Whole numbers of 64 bits are restored.** -/
theorem restored_int {i : ℤ} (h : (Number.int i).Fits) : (Number.int i).Restored := by
  rw [Number.Restored, readNumber, scanNumeral_int]
  dsimp only [bind, Except.bind]
  rw [number?_ofInt h.1 h.2]
  rfl

end PacketTree.Json
