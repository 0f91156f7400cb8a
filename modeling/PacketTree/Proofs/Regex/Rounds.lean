import Mathlib.Data.Option.Basic
import Mathlib.Order.MinMax
import PacketTree.Regex.Plain

/-!
# Counts written out

A plain expression has the matches of the expression it was made from, although counts are written out
by halves, an optional expression loses its least number of rounds, and one that only matches empty
stretches loses all rounds but one.

## What is proved

* `Plain.spans_oneUpTo`: expressions joined by halves match from one round to the given number, and
  completely with all rounds.
* `spans_plain`: an expression and the plain expression of it match the same stretches.

## The model

`Plain.Spans` says which stretches a plain expression matches, and which of them completely. The bounds
of a repetition are in order in every expression that can be written: `Bounded`.
-/

namespace PacketTree.Regex

variable {text : Array Char} {R S : ℕ → ℕ → Prop} {i j k m n least : ℕ} {most : Option ℕ}

/-! ### Steps of a relation -/

theorem steps_one : Steps R 1 i j ↔ R i j := by
  simp [Steps]

theorem steps_add : Steps R (m + n) i j ↔ ∃ k, Steps R m i k ∧ Steps R n k j := by
  induction m generalizing i with
  | zero => simp [Steps]
  | succ m ih =>
    rw [Nat.succ_add, Steps]
    constructor
    · rintro ⟨k, hk, hrest⟩
      obtain ⟨l, hl, hrest⟩ := ih.mp hrest
      exact ⟨l, ⟨k, hk, hl⟩, hrest⟩
    · rintro ⟨l, ⟨k, hk, hl⟩, hrest⟩
      exact ⟨k, hk, ih.mpr ⟨l, hl, hrest⟩⟩

theorem Steps.mono (h : ∀ i j, R i j → S i j) (hs : Steps R n i j) : Steps S n i j := by
  induction n generalizing i with
  | zero => exact hs
  | succ n ih =>
    obtain ⟨k, hk, hrest⟩ := hs
    exact ⟨k, h i k hk, ih hrest⟩

theorem steps_congr (h : ∀ i j, R i j ↔ S i j) : Steps R n i j ↔ Steps S n i j :=
  ⟨Steps.mono fun i j => (h i j).mp, Steps.mono fun i j => (h i j).mpr⟩

/-- Steps of a relation that goes nowhere go nowhere. -/
theorem Steps.eq (h : ∀ i j, R i j → i = j) (hs : Steps R n i j) : i = j := by
  induction n generalizing i with
  | zero => exact hs
  | succ n ih =>
    obtain ⟨k, hk, hrest⟩ := hs
    exact (h i k hk).trans (ih hrest)

/-- Steps of a relation that never goes back do not go back. -/
theorem Steps.le (h : ∀ i j, R i j → i ≤ j) (hs : Steps R n i j) : i ≤ j := by
  induction n generalizing i with
  | zero => exact le_of_eq hs
  | succ n ih =>
    obtain ⟨k, hk, hrest⟩ := hs
    exact (h i k hk).trans (ih hrest)

/-- Steps that may also stay where they are can be left out. -/
theorem steps_or_eq : Steps (fun i j => i = j ∨ R i j) n i j ↔ ∃ m ≤ n, Steps R m i j := by
  induction n generalizing i with
  | zero => simp [Steps]
  | succ n ih =>
    constructor
    · rintro ⟨k, rfl | hk, hrest⟩
      · obtain ⟨m, hm, hsteps⟩ := ih.mp hrest
        exact ⟨m, by omega, hsteps⟩
      · obtain ⟨m, hm, hsteps⟩ := ih.mp hrest
        exact ⟨m + 1, by omega, k, hk, hsteps⟩
    · rintro ⟨m, hm, hsteps⟩
      rcases m with _ | m
      · exact ⟨i, .inl rfl, ih.mpr ⟨0, by omega, hsteps⟩⟩
      · obtain ⟨k, hk, hrest⟩ := hsteps
        exact ⟨k, .inr hk, ih.mpr ⟨m, by omega, hrest⟩⟩

/-- Some number of steps between two bounds. -/
def Between (R : ℕ → ℕ → Prop) (least : ℕ) (most : Option ℕ) (i j : ℕ) : Prop :=
  ∃ n, least ≤ n ∧ (∀ m ∈ most, n ≤ m) ∧ Steps R n i j

theorem between_congr (h : ∀ i j, R i j ↔ S i j) :
    Between R least most i j ↔ Between S least most i j :=
  exists_congr fun _ => and_congr_right fun _ => and_congr_right fun _ => steps_congr h

theorem between_zero : Between R 0 most i j ↔ i = j ∨ Between R 1 most i j := by
  constructor
  · rintro ⟨n, -, hmost, hsteps⟩
    rcases n with _ | n
    · exact .inl hsteps
    · exact .inr ⟨n + 1, by omega, hmost, hsteps⟩
  · rintro (rfl | ⟨n, -, hmost, hsteps⟩)
    · exact ⟨0, le_rfl, fun _ _ => Nat.zero_le _, rfl⟩
    · exact ⟨n, Nat.zero_le _, hmost, hsteps⟩

/-- Rounds of one or more rounds. -/
theorem between_between : Between (Between R 1 none) 1 none i j ↔ Between R 1 none i j := by
  constructor
  · rintro ⟨n, hleast, -, hsteps⟩
    have hflat : ∃ m, n ≤ m ∧ Steps R m i j := by
      clear hleast
      induction n generalizing i with
      | zero => exact ⟨0, le_rfl, hsteps⟩
      | succ n ih =>
        obtain ⟨k, ⟨a, ha, -, hfirst⟩, hrest⟩ := hsteps
        obtain ⟨b, hb, hsecond⟩ := ih hrest
        exact ⟨a + b, by omega, steps_add.mpr ⟨k, hfirst, hsecond⟩⟩
    obtain ⟨m, hm, hsteps⟩ := hflat
    exact ⟨m, hleast.trans hm, by simp, hsteps⟩
  · exact fun h => ⟨1, le_rfl, by simp, steps_one.mpr h⟩

theorem between_self : Between R n (some n) i j ↔ Steps R n i j := by
  constructor
  · rintro ⟨m, hleast, hmost, hsteps⟩
    obtain rfl : m = n := Nat.le_antisymm (hmost n rfl) hleast
    exact hsteps
  · exact fun h => ⟨n, le_rfl, by simp, h⟩

/-- Bounds that both grow by the same number of steps. -/
theorem between_add :
    Between R (m + least) (most.map (m + ·)) i j ↔
      ∃ k, Steps R m i k ∧ Between R least most k j := by
  constructor
  · rintro ⟨n, hleast, hmost, hsteps⟩
    obtain ⟨n, rfl⟩ := Nat.exists_eq_add_of_le (show m ≤ n by omega)
    obtain ⟨k, hk, hrest⟩ := steps_add.mp hsteps
    refine ⟨k, hk, n, by omega, fun l hl => ?_, hrest⟩
    exact Nat.add_le_add_iff_left.mp (hmost _ (Option.mem_map_of_mem _ hl))
  · rintro ⟨k, hk, n, hleast, hmost, hrest⟩
    refine ⟨m + n, by omega, fun l hl => ?_, steps_add.mpr ⟨k, hk, hrest⟩⟩
    obtain ⟨b, hb, rfl⟩ := Option.map_eq_some_iff.mp hl
    exact Nat.add_le_add_left (hmost b hb) m

/-- Rounds that may stay where they are have no least number. -/
theorem between_or_eq (h : ∀ m ∈ most, least ≤ m) :
    Between (fun i j => i = j ∨ R i j) least most i j ↔ Between R 0 most i j := by
  constructor
  · rintro ⟨n, -, hmost, hsteps⟩
    obtain ⟨m, hm, hsteps⟩ := steps_or_eq.mp hsteps
    exact ⟨m, Nat.zero_le _, fun l hl => hm.trans (hmost l hl), hsteps⟩
  · rintro ⟨n, -, hmost, hsteps⟩
    exact ⟨max least n, le_max_left .., fun l hl => max_le (h l hl) (hmost l hl),
      steps_or_eq.mpr ⟨n, le_max_right .., hsteps⟩⟩

/-- Rounds that go nowhere make no difference to each other. -/
theorem between_of_standing (hR : ∀ i j, R i j → i = j) (h : ∀ m ∈ most, least ≤ m) :
    Between R least most i j ↔ i = j ∧ (least = 0 ∨ R i i) := by
  constructor
  · rintro ⟨n, hleast, -, hsteps⟩
    refine ⟨hsteps.eq hR, ?_⟩
    rcases n with _ | n
    · exact .inl (by omega)
    · obtain ⟨k, hk, -⟩ := hsteps
      exact .inr (by rwa [← hR i k hk] at hk)
  · rintro ⟨rfl, hzero⟩
    refine ⟨least, le_rfl, h, ?_⟩
    rcases hzero with rfl | hstep
    · rfl
    · clear h
      induction least with
      | zero => rfl
      | succ n ih => exact ⟨i, hstep, ih⟩

/-! ### Plain expressions -/

namespace Plain

/-- A plain expression matches the stretch of a text between two places, completely if that is asked. -/
def Spans (text : Array Char) : Plain → Bool → ℕ → ℕ → Prop
  | .empty, _, i, j => i = j
  | .char s, _, i, j => j = i + 1 ∧ ∃ c, text[i]? = some c ∧ s.holds c
  | .place a, _, i, j => i = j ∧ a.holds (spotAt text i)
  | .seq e f, _, i, j => ∃ k, Spans text e false i k ∧ Spans text f false k j
  | .alt e f, _, i, j => Spans text e false i j ∨ Spans text f false i j
  | .plus e, _, i, j => ∃ n, Steps (Spans text e false) (n + 1) i j
  | .upTo e f, complete, i, j =>
    (complete = false ∧ Spans text e false i j) ∨
      ∃ k, Spans text e true i k ∧ Spans text f complete k j

variable {e f : Plain} {complete : Bool}

/-- An expression that holds no character matches empty stretches only. -/
theorem eq_of_spans (he : e.isStanding) (h : Spans text e complete i j) : i = j := by
  induction e generalizing complete i j with
  | empty => exact h
  | char s => cases he
  | place a => exact h.1
  | seq e f ihe ihf =>
    obtain ⟨he, hf⟩ := Bool.and_eq_true_iff.mp he
    obtain ⟨k, hk, hrest⟩ := h
    exact (ihe he hk).trans (ihf hf hrest)
  | alt e f ihe ihf =>
    obtain ⟨he, hf⟩ := Bool.and_eq_true_iff.mp he
    exact h.elim (ihe he) (ihf hf)
  | plus e ih =>
    obtain ⟨n, hsteps⟩ := h
    exact hsteps.eq fun i j => ih he
  | upTo e f ihe ihf =>
    obtain ⟨he, hf⟩ := Bool.and_eq_true_iff.mp he
    rcases h with ⟨-, h⟩ | ⟨k, hk, hrest⟩
    · exact ihe he h
    · exact (ihe he hk).trans (ihf hf hrest)

theorem spans_optional : Spans text e.optional complete i j ↔ i = j ∨ Spans text e false i j := .rfl

theorem spans_whole : Spans text e.whole complete i j ↔ Spans text e false i j := by
  cases e <;> simp [whole, Spans]

theorem spans_power : Spans text (e.power n) false i j ↔ Steps (Spans text e false) n i j := by
  induction n using Nat.strongRecOn generalizing i j with
  | ind n ih =>
    rw [power]
    split_ifs with hzero hone heven
    · subst hzero
      rfl
    · subst hone
      exact steps_one.symm
    · have hhalves : n = n / 2 + n / 2 := by omega
      have hhalf := fun i j => @ih (n / 2) (by omega) i j
      conv_rhs => rw [hhalves, steps_add]
      exact exists_congr fun k => and_congr (hhalf i k) (hhalf k j)
    · have hhalves : n = 1 + (n / 2 + n / 2) := by omega
      have hhalf := fun i j => @ih (n / 2) (by omega) i j
      conv_rhs => rw [hhalves, steps_add]
      refine exists_congr fun k => and_congr steps_one.symm ?_
      rw [steps_add]
      exact exists_congr fun l => and_congr (hhalf k l) (hhalf l j)

/-- From one step to `n`, and all of them if it is to be complete. -/
def UpTo (R : ℕ → ℕ → Prop) (n : ℕ) (complete : Bool) (i j : ℕ) : Prop :=
  ∃ m, 1 ≤ m ∧ m ≤ n ∧ (complete = true → m = n) ∧ Steps R m i j

theorem upTo_false : UpTo R n false i j ↔ Between R 1 (some n) i j :=
  exists_congr fun m => and_congr_right fun _ => by simp

theorem upTo_one : UpTo R 1 complete i j ↔ R i j := by
  constructor
  · rintro ⟨m, hleast, hmost, -, hsteps⟩
    obtain rfl : m = 1 := by omega
    exact steps_one.mp hsteps
  · exact fun h => ⟨1, le_rfl, le_rfl, fun _ => rfl, steps_one.mpr h⟩

/-- What is joined matches the rounds of both parts. -/
theorem spans_upTo (hm : 1 ≤ m) (hn : 1 ≤ n)
    (he : ∀ complete i j, Spans text e complete i j ↔ UpTo R m complete i j)
    (hf : ∀ complete i j, Spans text f complete i j ↔ UpTo R n complete i j) :
    Spans text (.upTo e f) complete i j ↔ UpTo R (m + n) complete i j := by
  constructor
  · rintro (⟨rfl, h⟩ | ⟨k, hk, hrest⟩)
    · obtain ⟨l, hleast, hmost, -, hsteps⟩ := (he false i j).mp h
      exact ⟨l, hleast, by omega, by simp, hsteps⟩
    · obtain ⟨a, ha, -, hall, hfirst⟩ := (he true i k).mp hk
      obtain rfl := hall rfl
      obtain ⟨b, hb, hmost, hall, hsecond⟩ := (hf complete k j).mp hrest
      exact ⟨a + b, by omega, by omega, fun hc => by rw [hall hc], steps_add.mpr ⟨k, hfirst, hsecond⟩⟩
  · rintro ⟨l, hleast, hmost, hall, hsteps⟩
    by_cases hl : l ≤ m
    · have hc : complete = false := by
        cases complete with
        | false => rfl
        | true => exact absurd (hall rfl) (by omega)
      exact .inl ⟨hc, (he false i j).mpr ⟨l, hleast, hl, by simp, hsteps⟩⟩
    · obtain ⟨b, rfl⟩ := Nat.exists_eq_add_of_le (Nat.le_of_not_le hl)
      obtain ⟨k, hfirst, hsecond⟩ := steps_add.mp hsteps
      refine .inr ⟨k, (he true i k).mpr ⟨m, hm, le_rfl, fun _ => rfl, hfirst⟩,
        (hf complete k j).mpr ⟨b, by omega, by omega, fun hc => ?_, hsecond⟩⟩
      exact Nat.add_left_cancel (hall hc)

/-- **Rounds joined by halves.** -/
theorem spans_oneUpTo (hn : 1 ≤ n) (he : ∀ complete i j, Spans text e complete i j ↔ R i j) :
    Spans text (e.oneUpTo n) complete i j ↔ UpTo R n complete i j := by
  have hone : ∀ complete i j, Spans text e complete i j ↔ UpTo R 1 complete i j :=
    fun complete i j => (he complete i j).trans upTo_one.symm
  induction n using Nat.strongRecOn generalizing complete i j with
  | ind n ih =>
    rw [oneUpTo]
    split_ifs with hle heven
    · obtain rfl : n = 1 := by omega
      exact hone complete i j
    · have hhalf : ∀ complete i j, Spans text (e.oneUpTo (n / 2)) complete i j ↔
          UpTo R (n / 2) complete i j := fun complete i j => ih (n / 2) (by omega) (by omega)
      rw [spans_upTo (by omega) (by omega) hhalf hhalf, show n / 2 + n / 2 = n by omega]
    · have hhalf : ∀ complete i j, Spans text (e.oneUpTo (n / 2)) complete i j ↔
          UpTo R (n / 2) complete i j := fun complete i j => ih (n / 2) (by omega) (by omega)
      rw [spans_upTo le_rfl (by omega) hone fun complete i j =>
          spans_upTo (by omega) (by omega) hhalf hhalf,
        show 1 + (n / 2 + n / 2) = n by omega]

theorem spans_plus :
    Spans text (.plus e) complete i j ↔ Between (Spans text e false) 1 none i j := by
  constructor
  · rintro ⟨n, hsteps⟩
    exact ⟨n + 1, by omega, by simp, hsteps⟩
  · rintro ⟨n, hleast, -, hsteps⟩
    obtain ⟨n, rfl⟩ := Nat.exists_eq_add_of_le' hleast
    exact ⟨n, hsteps⟩

theorem spans_oneOrMore :
    Spans text e.oneOrMore complete i j ↔ Between (Spans text e false) 1 none i j := by
  cases e with
  | plus e =>
    rw [oneOrMore, spans_plus, between_congr fun i j => spans_plus, between_between]
  | _ => exact spans_plus

/-- The rounds of an expression that is not optional itself. -/
theorem spans_roundsOf (h : ∀ m ∈ most, least ≤ m) :
    Spans text (e.roundsOf least most) false i j ↔ Between (Spans text e false) least most i j := by
  rcases most with _ | most
  · rw [roundsOf]
    split_ifs with hzero hone
    · rw [hzero, between_zero, spans_optional, spans_oneOrMore]
    · rw [hone, spans_oneOrMore]
    · have := @between_add (Spans text e false) i j (least - 1) 1 none
      rw [show least - 1 + 1 = least by omega] at this
      exact (exists_congr fun k => and_congr spans_power spans_oneOrMore).trans this.symm
  · have hle : least ≤ most := h most rfl
    rw [roundsOf]
    by_cases heq : most ≤ least
    · rw [if_pos heq, spans_power, Nat.le_antisymm hle heq, between_self]
    · have hmore : ∀ i j, Spans text (optional (e.whole.oneUpTo (most - least))) false i j ↔
          Between (Spans text e false) 0 (some (most - least)) i j := fun i j => by
        rw [spans_optional, spans_oneUpTo (by omega) fun complete i j => spans_whole, between_zero,
          upTo_false]
      rw [if_neg heq]
      dsimp only
      split_ifs with hzero
      · subst hzero
        exact hmore i j
      · have hadd := @between_add (Spans text e false) i j least 0 (some (most - least))
        rw [Option.map_some, Nat.add_sub_cancel' hle] at hadd
        exact (exists_congr fun k => and_congr spans_power (hmore k j)).trans hadd.symm

/-- **The rounds of an expression.** -/
theorem spans_rounds (h : ∀ m ∈ most, least ≤ m) :
    Spans text (e.rounds least most) false i j ↔ Between (Spans text e false) least most i j := by
  unfold rounds
  split_ifs with hstanding
  · have hR : ∀ i j, Spans text e false i j → i = j := fun i j => eq_of_spans hstanding
    have hclamped : ∀ m ∈ some ((most.getD 1).min 1), min least 1 ≤ m := by
      rintro m ⟨⟩
      rcases most with _ | most
      · exact min_le_right least 1
      · exact min_le_min_right 1 (h most rfl)
    rw [spans_roundsOf hclamped, between_of_standing hR hclamped, between_of_standing hR h,
      show min least 1 = 0 ↔ least = 0 by omega]
  · split
    · rw [spans_roundsOf fun _ _ => Nat.zero_le _]
      exact (between_or_eq h).symm
    · exact spans_roundsOf h

end Plain

/-! ### Expressions and their plain forms -/

/-- The bounds of all repetitions are in order. -/
def Bounded : Regex → Prop
  | .empty | .char _ | .place _ => True
  | .seq e f | .alt e f => e.Bounded ∧ f.Bounded
  | .group _ e => e.Bounded
  | .rep e least most _ => e.Bounded ∧ ∀ m ∈ most, least ≤ m

/-- **The plain form of an expression matches what the expression matches.** -/
theorem spans_plain {e : Regex} (he : e.Bounded) :
    e.plain.Spans text false i j ↔ e.Matches text i j := by
  induction e generalizing i j with
  | empty | char | place => rfl
  | seq e f ihe ihf => exact exists_congr fun k => and_congr (ihe he.1) (ihf he.2)
  | alt e f ihe ihf => exact or_congr (ihe he.1) (ihf he.2)
  | group n e ih => exact ih he
  | rep e least most few ih =>
    exact (Plain.spans_rounds he.2).trans (between_congr fun i j => ih he.1)

/-- A match does not end before it starts. -/
theorem Plain.le_of_spans {e : Plain} {complete : Bool} (h : e.Spans text complete i j) : i ≤ j := by
  induction e generalizing complete i j with
  | empty => exact le_of_eq h
  | char s => exact h.1 ▸ Nat.le_succ i
  | place a => exact le_of_eq h.1
  | seq e f ihe ihf =>
    obtain ⟨k, hk, hrest⟩ := h
    exact (ihe hk).trans (ihf hrest)
  | alt e f ihe ihf => exact h.elim ihe ihf
  | plus e ih =>
    obtain ⟨n, hsteps⟩ := h
    exact hsteps.le fun i j => ih
  | upTo e f ihe ihf =>
    rcases h with ⟨-, h⟩ | ⟨k, hk, hrest⟩
    · exact ihe h
    · exact (ihe hk).trans (ihf hrest)

end PacketTree.Regex
