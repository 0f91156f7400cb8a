import Mathlib.Tactic.Tauto
import PacketTree.Proofs.Regex.Rounds
import PacketTree.Regex.Marking

/-!
# What the search finds

The search moves marks over the text and says yes as soon as a match ends. This module proves that it
says yes exactly if the expression matches some stretch of the text.

## What is proved

* `Marked.tells_start`, `Marked.tells_enter`, `Marked.tells_read`: a place and a character make of the
  marks what they should.
* `isMatch_iff`: a search succeeds if and only if some stretch of the text matches.

## The model

`Marked.Leads` says where the matches end that the marks on an expression stand for. An outcome `Tells`
a set of ends: which of them are at the place it is for, and, by its marks, which of them come later.
The three functions put the outcomes of parts together in the same ways, and there is one lemma for each
way.
-/

namespace PacketTree.Regex

variable {text : Array Char} {i j k n : ℕ} {complete : Bool}

/-! ### Where matches end -/

/-- Steps that go somewhere have a first one that does. -/
theorem Steps.first {R : ℕ → ℕ → Prop} (hle : ∀ i j, R i j → i ≤ j) (hs : Steps R n i j) (hij : i < j) :
    ∃ k, i < k ∧ R i k ∧ ∃ m, Steps R m k j := by
  induction n generalizing i with
  | zero => exact absurd hs (Nat.ne_of_lt hij)
  | succ n ih =>
    obtain ⟨k, hk, hrest⟩ := hs
    rcases Nat.eq_or_lt_of_le (hle i k hk) with rfl | hik
    · exact ih hrest hij
    · exact ⟨k, hik, hk, n, hrest⟩

/-- A match that starts in the text ends in it. -/
theorem Plain.le_size_of_spans {e : Plain} (h : e.Spans text complete i j) (hi : i ≤ text.size) :
    j ≤ text.size := by
  induction e generalizing complete i j with
  | empty => exact h ▸ hi
  | char s =>
    obtain ⟨rfl, c, hc, -⟩ := h
    exact (Array.getElem?_eq_some_iff.mp hc).1
  | place a => exact h.1 ▸ hi
  | seq e f ihe ihf =>
    obtain ⟨k, hk, hrest⟩ := h
    exact ihf hrest (ihe hk hi)
  | alt e f ihe ihf => exact h.elim (ihe · hi) (ihf · hi)
  | plus e ih =>
    obtain ⟨n, hsteps⟩ := h
    revert hsteps
    generalize n + 1 = m
    intro hsteps
    induction m generalizing i with
    | zero => exact hsteps ▸ hi
    | succ m ihm =>
      obtain ⟨k, hk, hrest⟩ := hsteps
      exact ihm (ih hk hi) hrest
  | upTo e f ihe ihf =>
    rcases h with ⟨-, h⟩ | ⟨k, hk, hrest⟩
    · exact ihe h hi
    · exact ihf hrest (ihe hk hi)

namespace Marked

/-- The expression without its marks. -/
def erase : Marked → Plain
  | .quiet e => e
  | .awaited s => .char s
  | .seq t u => .seq t.erase u.erase
  | .alt t u => .alt t.erase u.erase
  | .plus t => .plus t.erase
  | .upTo t u => .upTo t.erase u.erase

/-- Marks at one place lead to a match, or to a complete one, that ends at another. -/
def Leads (text : Array Char) : Marked → Bool → ℕ → ℕ → Prop
  | .quiet _, _, _, _ => False
  | .awaited s, _, i, j => j = i + 1 ∧ ∃ c, text[i]? = some c ∧ s.holds c
  | .seq t u, _, i, j =>
    (∃ k, Leads text t false i k ∧ u.erase.Spans text false k j) ∨ Leads text u false i j
  | .alt t u, _, i, j => Leads text t false i j ∨ Leads text u false i j
  | .plus t, _, i, j =>
    ∃ k, Leads text t false i k ∧ Between (t.erase.Spans text false) 0 none k j
  | .upTo t u, complete, i, j =>
    (complete = false ∧ Leads text t false i j) ∨
      (∃ k, Leads text t true i k ∧ u.erase.Spans text complete k j) ∨ Leads text u complete i j

variable {t u : Marked} {e f : Plain}

/-- What marks lead to ends behind a character of the text. -/
theorem lt_of_leads (h : t.Leads text complete i j) : i < text.size ∧ i < j := by
  induction t generalizing complete i j with
  | quiet e => cases h
  | awaited s =>
    obtain ⟨rfl, c, hc, -⟩ := h
    exact ⟨(Array.getElem?_eq_some_iff.mp hc).1, Nat.lt_succ_self i⟩
  | seq t u iht ihu =>
    rcases h with ⟨k, hk, hrest⟩ | h
    · exact ⟨(iht hk).1, (iht hk).2.trans_le (Plain.le_of_spans hrest)⟩
    · exact ihu h
  | alt t u iht ihu => exact h.elim iht ihu
  | plus t ih =>
    obtain ⟨k, hk, n, -, -, hsteps⟩ := h
    exact ⟨(ih hk).1, (ih hk).2.trans_le (hsteps.le fun _ _ => Plain.le_of_spans)⟩
  | upTo t u iht ihu =>
    rcases h with ⟨-, h⟩ | ⟨k, hk, hrest⟩ | h
    · exact iht h
    · exact ⟨(iht hk).1, (iht hk).2.trans_le (Plain.le_of_spans hrest)⟩
    · exact ihu h

@[simp] theorem erase_mkSeq : (mkSeq t u).erase = .seq t.erase u.erase := by
  cases t <;> cases u <;> rfl

@[simp] theorem erase_mkAlt : (mkAlt t u).erase = .alt t.erase u.erase := by
  cases t <;> cases u <;> rfl

@[simp] theorem erase_mkPlus : (mkPlus t).erase = .plus t.erase := by
  cases t <;> rfl

@[simp] theorem erase_mkUpTo : (mkUpTo t u).erase = .upTo t.erase u.erase := by
  cases t <;> cases u <;> rfl

@[simp] theorem leads_mkSeq :
    (mkSeq t u).Leads text complete i j ↔ (Marked.seq t u).Leads text complete i j := by
  cases t <;> cases u <;> simp [mkSeq, Leads]

@[simp] theorem leads_mkAlt :
    (mkAlt t u).Leads text complete i j ↔ (Marked.alt t u).Leads text complete i j := by
  cases t <;> cases u <;> simp [mkAlt, Leads]

@[simp] theorem leads_mkPlus :
    (mkPlus t).Leads text complete i j ↔ (Marked.plus t).Leads text complete i j := by
  cases t <;> simp [mkPlus, Leads]

@[simp] theorem leads_mkUpTo :
    (mkUpTo t u).Leads text complete i j ↔ (Marked.upTo t u).Leads text complete i j := by
  cases t <;> cases u <;> simp [mkUpTo, Leads]

end Marked

/-! ### Outcomes -/

open Marked

/-- An outcome at a place tells the ends of some matches of an expression, and of complete ones. -/
structure Outcome.Tells (o : Outcome) (text : Array Char) (e : Plain) (i : ℕ)
    (S : Bool → ℕ → Prop) : Prop where
  /-- Whether one of them is here, -/
  ends : o.ends = true ↔ S false i
  /-- and a complete one; -/
  completes : o.completes = true ↔ S true i
  /-- the expression is kept, -/
  erase : o.tree.erase = e
  /-- and its marks lead to the others. -/
  leads : ∀ complete j, o.tree.Leads text complete i j ↔ i < j ∧ S complete j

namespace Outcome.Tells

variable {m o : Outcome} {e f : Plain} {S T U : Bool → ℕ → Prop}

theorem congr (h : o.Tells text e i S) (hS : ∀ complete j, S complete j ↔ T complete j) :
    o.Tells text e i T where
  ends := h.ends.trans (hS ..)
  completes := h.completes.trans (hS ..)
  erase := h.erase
  leads complete j := (h.leads complete j).trans (and_congr_right fun _ => hS ..)

/-- Marks that are kept tell what they lead to. -/
theorem kept (t : Marked) : (outcome false t).Tells text t.erase i fun complete => t.Leads text complete i where
  ends := ⟨nofun, fun h => absurd (lt_of_leads h).2 (lt_irrefl i)⟩
  completes := ⟨nofun, fun h => absurd (lt_of_leads h).2 (lt_irrefl i)⟩
  erase := rfl
  leads _ _ := ⟨fun h => ⟨(lt_of_leads h).2, h⟩, And.right⟩

/-- Nothing is marked if no match goes on from here. -/
theorem still {b : Bool} (hb : ∀ complete, b = true ↔ S complete i)
    (hS : ∀ complete j, S complete j → i = j) : (outcome b (.quiet e)).Tells text e i S where
  ends := hb false
  completes := hb true
  erase := rfl
  leads complete j := ⟨False.elim, fun h => absurd (hS complete j h.2) (ne_of_lt h.1)⟩

/-- One part, then another that is entered where the first ends. -/
theorem seq (hle : ∀ k, S false k → i ≤ k) (hm : m.Tells text e i S) (hn : o.Tells text f i T)
    (hT : ∀ complete j, T complete j ↔ U complete j ∨ (m.ends = true ∧ f.Spans text complete i j)) :
    (outcome o.ends (mkSeq m.tree o.tree)).Tells text (.seq e f) i fun _ j =>
      (∃ k, S false k ∧ f.Spans text false k j) ∨ U false j := by
  have hends : o.ends = true ↔ (∃ k, S false k ∧ f.Spans text false k i) ∨ U false i := by
    rw [hn.ends, hT, hm.ends, or_comm]
    refine or_congr_left ⟨fun h => ⟨i, h⟩, fun ⟨k, hk, hrest⟩ => ?_⟩
    obtain rfl : i = k := le_antisymm (hle k hk) (Plain.le_of_spans hrest)
    exact ⟨hk, hrest⟩
  refine ⟨hends, hends, by rw [outcome, erase_mkSeq, hm.erase, hn.erase], fun complete j => ?_⟩
  rw [outcome, leads_mkSeq, Leads, hn.erase, hn.leads, hT, hm.ends]
  constructor
  · rintro (⟨k, hk, hrest⟩ | ⟨hij, hu | ⟨hi, hrest⟩⟩)
    · obtain ⟨hik, hk⟩ := (hm.leads false k).mp hk
      exact ⟨hik.trans_le (Plain.le_of_spans hrest), .inl ⟨k, hk, hrest⟩⟩
    · exact ⟨hij, .inr hu⟩
    · exact ⟨hij, .inl ⟨i, hi, hrest⟩⟩
  · rintro ⟨hij, ⟨k, hk, hrest⟩ | hu⟩
    · rcases Nat.eq_or_lt_of_le (hle k hk) with rfl | hik
      · exact .inr ⟨hij, .inr ⟨hk, hrest⟩⟩
      · exact .inl ⟨k, (hm.leads false k).mpr ⟨hik, hk⟩, hrest⟩
    · exact .inr ⟨hij, .inl hu⟩

theorem alt (hm : m.Tells text e i S) (hn : o.Tells text f i T) :
    (outcome (m.ends || o.ends) (mkAlt m.tree o.tree)).Tells text (.alt e f) i fun _ j =>
      S false j ∨ T false j := by
  have hends : (m.ends || o.ends) = true ↔ S false i ∨ T false i := by
    rw [Bool.or_eq_true, hm.ends, hn.ends]
  refine ⟨hends, hends, by rw [outcome, erase_mkAlt, hm.erase, hn.erase], fun complete j => ?_⟩
  rw [outcome, leads_mkAlt, Leads, hm.leads, hn.leads, and_or_left]

/-- One or more rounds of a part that is entered again where it ends. -/
theorem plus {L : ℕ → Prop} (hle : ∀ k, L k → i ≤ k) (hm : m.Tells text e i S)
    (hS : ∀ j, S false j ↔ L j ∨ (L i ∧ e.Spans text false i j)) :
    (outcome m.ends (mkPlus m.tree)).Tells text (.plus e) i fun _ j =>
      ∃ k, L k ∧ Between (e.Spans text false) 0 none k j := by
  have hends : m.ends = true ↔ ∃ k, L k ∧ Between (e.Spans text false) 0 none k i := by
    rw [hm.ends, hS]
    constructor
    · intro h
      exact ⟨i, h.elim id And.left, 0, le_rfl, by simp, rfl⟩
    · rintro ⟨k, hk, n, -, -, hsteps⟩
      obtain rfl : i = k := le_antisymm (hle k hk) (hsteps.le fun _ _ => Plain.le_of_spans)
      exact .inl hk
  refine ⟨hends, hends, by rw [outcome, erase_mkPlus, hm.erase], fun complete j => ?_⟩
  rw [outcome, leads_mkPlus, Leads, hm.erase]
  constructor
  · rintro ⟨k, hk, n, -, -, hsteps⟩
    obtain ⟨hik, hk⟩ := (hm.leads false k).mp hk
    refine ⟨hik.trans_le (hsteps.le fun _ _ => Plain.le_of_spans), ?_⟩
    rcases (hS k).mp hk with hk | ⟨hi, hfirst⟩
    · exact ⟨k, hk, n, Nat.zero_le n, by simp, hsteps⟩
    · exact ⟨i, hi, n + 1, Nat.zero_le _, by simp, k, hfirst, hsteps⟩
  · rintro ⟨hij, k, hk, n, -, -, hsteps⟩
    rcases Nat.eq_or_lt_of_le (hle k hk) with rfl | hik
    · obtain ⟨l, hil, hfirst, m, hrest⟩ := hsteps.first (fun _ _ => Plain.le_of_spans) hij
      exact ⟨l, (hm.leads false l).mpr ⟨hil, (hS l).mpr (.inr ⟨hk, hfirst⟩)⟩, m, Nat.zero_le m, by simp,
        hrest⟩
    · exact ⟨k, (hm.leads false k).mpr ⟨hik, (hS k).mpr (.inl hk)⟩, n, Nat.zero_le n, by simp, hsteps⟩

/-- One part, or a complete match of it and then another that is entered where it is complete. -/
theorem upTo (hle : ∀ k, S true k → i ≤ k) (hm : m.Tells text e i S) (hn : o.Tells text f i T)
    (hT : ∀ complete j,
      T complete j ↔ U complete j ∨ (m.completes = true ∧ f.Spans text complete i j)) :
    Outcome.Tells ⟨m.ends || o.ends, o.completes, mkUpTo m.tree o.tree⟩ text (.upTo e f) i
      fun complete j => (complete = false ∧ S false j) ∨
        (∃ k, S true k ∧ f.Spans text complete k j) ∨ U complete j := by
  have hsecond : ∀ complete, T complete i ↔
      (∃ k, S true k ∧ f.Spans text complete k i) ∨ U complete i := by
    intro complete
    rw [hT, hm.completes, or_comm]
    refine or_congr_left ⟨fun h => ⟨i, h⟩, fun ⟨k, hk, hrest⟩ => ?_⟩
    obtain rfl : i = k := le_antisymm (hle k hk) (Plain.le_of_spans hrest)
    exact ⟨hk, hrest⟩
  refine ⟨?_, ?_, by rw [erase_mkUpTo, hm.erase, hn.erase], fun complete j => ?_⟩
  · rw [Bool.or_eq_true, hm.ends, hn.ends, hsecond]
    simp
  · rw [hn.completes, hsecond]
    simp
  · rw [leads_mkUpTo, Leads, hm.leads, hn.erase, hn.leads, hT, hm.completes]
    constructor
    · rintro (⟨hc, hij, hs⟩ | ⟨k, hk, hrest⟩ | ⟨hij, hu | ⟨hi, hrest⟩⟩)
      · exact ⟨hij, .inl ⟨hc, hs⟩⟩
      · obtain ⟨hik, hk⟩ := (hm.leads true k).mp hk
        exact ⟨hik.trans_le (Plain.le_of_spans hrest), .inr (.inl ⟨k, hk, hrest⟩)⟩
      · exact ⟨hij, .inr (.inr hu)⟩
      · exact ⟨hij, .inr (.inl ⟨i, hi, hrest⟩)⟩
    · rintro ⟨hij, ⟨hc, hs⟩ | ⟨k, hk, hrest⟩ | hu⟩
      · exact .inl ⟨hc, hij, hs⟩
      · rcases Nat.eq_or_lt_of_le (hle k hk) with rfl | hik
        · exact .inr (.inr ⟨hij, .inr ⟨hk, hrest⟩⟩)
        · exact .inr (.inl ⟨k, (hm.leads true k).mpr ⟨hik, hk⟩, hrest⟩)
      · exact .inr (.inr ⟨hij, .inl hu⟩)

/-- What is entered once more tells the matches that start here too. -/
theorem again {p : Spot} (hn : o.Tells text f i T)
    (he : (o.tree.enter p).Tells text f i fun complete j =>
      o.tree.Leads text complete i j ∨ f.Spans text complete i j) :
    Outcome.Tells ⟨o.ends || (o.tree.enter p).ends, o.completes || (o.tree.enter p).completes,
        (o.tree.enter p).tree⟩ text f i fun complete j => T complete j ∨ f.Spans text complete i j where
  ends := by
    rw [Bool.or_eq_true, hn.ends, he.ends, hn.leads]
    simp
  completes := by
    rw [Bool.or_eq_true, hn.completes, he.completes, hn.leads]
    simp
  erase := he.erase
  leads complete j := by
    rw [he.leads, hn.leads]
    exact and_congr_right fun hij => by simp [hij]

end Outcome.Tells

/-! ### Places and characters -/

namespace Marked

open Outcome

variable {t : Marked} {e : Plain} {c : Char}

theorem spans_plus_iff : (Plain.plus e).Spans text complete i j ↔
    ∃ k, e.Spans text false i k ∧ Between (e.Spans text false) 0 none k j := by
  constructor
  · rintro ⟨n, k, hk, hrest⟩
    exact ⟨k, hk, n, Nat.zero_le n, by simp, hrest⟩
  · rintro ⟨k, hk, n, -, -, hrest⟩
    exact ⟨n, k, hk, hrest⟩

/-- **What is marked where matches may start.** -/
theorem tells_start :
    (start (spotAt text i) e).Tells text e i fun complete => e.Spans text complete i := by
  induction e with
  | empty => exact .still (by simp [Plain.Spans]) fun _ _ h => h
  | char s => exact .kept (.awaited s)
  | place a => exact .still (by simp [Plain.Spans]) fun _ _ h => h.1
  | seq e f ihe ihf =>
    have hle : ∀ k, e.Spans text false i k → i ≤ k := fun _ => Plain.le_of_spans
    simp only [start]
    split
    · next hends =>
      exact (ihe.seq hle ihf (U := fun _ _ => False) (by simp [hends])).congr (by simp [Plain.Spans])
    · next hends =>
      exact (ihe.seq hle (.kept (.quiet f)) (U := fun _ _ => False) (by simp [hends, Leads])).congr
        (by simp [Plain.Spans, erase])
  | alt e f ihe ihf => exact ihe.alt ihf
  | plus e ih =>
    exact (ih.plus (L := e.Spans text false i) (fun _ => Plain.le_of_spans)
      fun j => by tauto).congr fun _ _ => spans_plus_iff.symm
  | upTo e f ihe ihf =>
    have hle : ∀ k, e.Spans text true i k → i ≤ k := fun _ => Plain.le_of_spans
    simp only [start]
    split
    · next hends =>
      exact (ihe.upTo hle ihf (U := fun _ _ => False) (by simp [hends])).congr (by simp [Plain.Spans])
    · next hends =>
      have hkept := ihe.upTo hle (.kept (.quiet f)) (U := fun _ _ => False) (by simp [hends, Leads])
      simp only [outcome, Bool.or_false] at hkept
      exact hkept.congr (by simp [Plain.Spans, erase])

/-- **What is marked where matches start too.** -/
theorem tells_enter : (t.enter (spotAt text i)).Tells text t.erase i fun complete j =>
    t.Leads text complete i j ∨ t.erase.Spans text complete i j := by
  have hle : ∀ (t : Marked) complete k,
      t.Leads text complete i k ∨ t.erase.Spans text complete i k → i ≤ k :=
    fun t complete k h => h.elim (fun h => (lt_of_leads h).2.le) Plain.le_of_spans
  induction t with
  | quiet e => exact tells_start.congr (by simp [Leads, erase])
  | awaited s => exact (Outcome.Tells.kept (.awaited s)).congr (by simp [Leads, erase, Plain.Spans])
  | seq t u iht ihu =>
    have hsum : ∀ complete j,
        ((∃ k, (t.Leads text false i k ∨ t.erase.Spans text false i k) ∧ u.erase.Spans text false k j) ∨
            u.Leads text false i j) ↔
          (Marked.seq t u).Leads text complete i j ∨ (Marked.seq t u).erase.Spans text complete i j := by
      intro complete j
      simp only [Leads, erase, Plain.Spans, or_and_right, exists_or]
      exact or_right_comm
    simp only [enter]
    split
    · next hends =>
      exact (iht.seq (hle t false) ihu (U := fun complete => u.Leads text complete i)
        (by simp [hends])).congr hsum
    · next hends =>
      exact (iht.seq (hle t false) (.kept u) (U := fun complete => u.Leads text complete i)
        (by simp [hends])).congr hsum
  | alt t u iht ihu =>
    refine (iht.alt ihu).congr fun complete j => ?_
    simp only [Leads, erase, Plain.Spans]
    tauto
  | plus t ih =>
    refine (ih.plus (L := fun k => t.Leads text false i k ∨ t.erase.Spans text false i k)
      (hle t false) fun j => by tauto).congr fun complete j => ?_
    rw [Leads, erase, spans_plus_iff]
    simp only [or_and_right, exists_or]
  | upTo t u iht ihu =>
    have hsum : ∀ complete j,
        ((complete = false ∧ (t.Leads text false i j ∨ t.erase.Spans text false i j)) ∨
          (∃ k, (t.Leads text true i k ∨ t.erase.Spans text true i k) ∧
            u.erase.Spans text complete k j) ∨ u.Leads text complete i j) ↔
          (Marked.upTo t u).Leads text complete i j ∨
            (Marked.upTo t u).erase.Spans text complete i j := by
      intro complete j
      simp only [Leads, erase, Plain.Spans, or_and_right, exists_or, and_or_left]
      ac_nf
    simp only [enter]
    split
    · next hends =>
      exact (iht.upTo (hle t true) ihu (U := fun complete => u.Leads text complete i)
        (by simp [hends])).congr hsum
    · next hends =>
      have hkept := iht.upTo (hle t true) (.kept u) (U := fun complete => u.Leads text complete i)
        (by simp [hends])
      simp only [outcome, Bool.or_false] at hkept
      exact hkept.congr hsum

/-- **What a character leaves of the marks.** -/
theorem tells_read (hc : text[i]? = some c) :
    (t.read c (spotAt text (i + 1))).Tells text t.erase (i + 1) fun complete =>
      t.Leads text complete i := by
  have hle : ∀ (t : Marked) complete k, t.Leads text complete i k → i + 1 ≤ k :=
    fun t complete k h => (lt_of_leads h).2
  induction t with
  | quiet e => exact .still (by simp [Leads]) fun _ _ h => h.elim
  | awaited s => exact .still (by simp [Leads, hc]) fun _ _ h => h.1.symm
  | seq t u iht ihu =>
    simp only [read]
    split
    · next hends =>
      exact iht.seq (hle t false) (ihu.again (ihu.erase ▸ tells_enter))
        (U := fun complete => u.Leads text complete i) (by simp [hends])
    · next hends =>
      exact iht.seq (hle t false) ihu (U := fun complete => u.Leads text complete i)
        (by simp [hends])
  | alt t u iht ihu => exact iht.alt ihu
  | plus t ih =>
    simp only [read]
    split
    · next hends =>
      have hplus := (ih.again (ih.erase ▸ tells_enter)).plus (hle t false)
        (by simp [← ih.ends, hends])
      rwa [hends, Bool.true_or] at hplus
    · next hends =>
      rw [Bool.not_eq_true] at hends
      have hplus := ih.plus (hle t false) (by simp [← ih.ends, hends])
      rwa [hends] at hplus
  | upTo t u iht ihu =>
    simp only [read]
    split
    · next hends =>
      have hupTo := iht.upTo (hle t true) (ihu.again (ihu.erase ▸ tells_enter))
        (U := fun complete => u.Leads text complete i) (by simp [hends])
      rwa [← Bool.or_assoc] at hupTo
    · next hends =>
      exact iht.upTo (hle t true) ihu (U := fun complete => u.Leads text complete i)
        (by simp [hends])

/-- What a round of a search leaves for the next: if no match ends at either of the two places, the
marks lead wherever they led, and to all matches that start here. -/
theorem leads_round_iff (hc : text[i]? = some c) (hends : ¬(t.enter (spotAt text i)).ends = true)
    (hreads : ¬((t.enter (spotAt text i)).tree.read c (spotAt text (i + 1))).ends = true) :
    ((t.enter (spotAt text i)).tree.read c (spotAt text (i + 1))).tree.Leads text false (i + 1) j ↔
      t.Leads text false i j ∨ t.erase.Spans text false i j := by
  have henter : (t.enter (spotAt text i)).Tells text t.erase i _ := tells_enter
  have hread := tells_read (t := (t.enter (spotAt text i)).tree) hc
  rw [hread.leads, henter.leads]
  constructor
  · exact fun h => h.2.2
  · intro h
    have hij : i ≤ j := h.elim (fun h => (lt_of_leads h).2.le) Plain.le_of_spans
    have hi : j ≠ i := by
      rintro rfl
      exact hends (henter.ends.mpr h)
    have hlead := (henter.leads false j).mpr ⟨by omega, h⟩
    have hsucc : j ≠ i + 1 := by
      rintro rfl
      exact hreads (hread.ends.mpr hlead)
    exact ⟨by omega, by omega, h⟩

/-- **A search finds** what the marks lead to and what matches from here on. -/
theorem search_iff (rest : List Char) (hrest : text.toList.drop i = rest) (hi : i ≤ text.size) :
    t.search (if i = 0 then none else text[i - 1]?) rest = true ↔
      (∃ j, t.Leads text false i j) ∨
        ∃ k, i ≤ k ∧ k ≤ text.size ∧ ∃ j, t.erase.Spans text false k j := by
  induction rest generalizing t i with
  | nil =>
    have hnone : text[i]? = none := by
      rw [← Array.getElem?_toList, ← List.head?_drop, hrest, List.head?_nil]
    have hsize : text.size ≤ i := Array.getElem?_eq_none_iff.mp hnone
    rw [search, show Spot.between _ none = spotAt text i by rw [spotAt, hnone], tells_enter.ends]
    constructor
    · rintro (h | h)
      · exact .inl ⟨i, h⟩
      · exact .inr ⟨i, le_rfl, hi, i, h⟩
    · rintro (⟨j, h⟩ | ⟨k, hik, hk, j, h⟩)
      · exact absurd (lt_of_leads h).1 (Nat.not_lt.mpr hsize)
      · have hkj := Plain.le_of_spans h
        have hj := Plain.le_size_of_spans h hk
        obtain rfl : k = i := by omega
        obtain rfl : j = k := by omega
        exact .inr h
  | cons c rest ih =>
    have hc : text[i]? = some c := by
      rw [← Array.getElem?_toList, ← List.head?_drop, hrest, List.head?_cons]
    have hnext : text.toList.drop (i + 1) = rest := by
      rw [← List.drop_drop, hrest, List.drop_succ_cons, List.drop_zero]
    have hbehind : (if i + 1 = 0 then none else text[i + 1 - 1]?) = some c := by
      simp [hc]
    have henter : (t.enter (spotAt text i)).Tells text t.erase i _ := tells_enter
    have hread := tells_read (t := (t.enter (spotAt text i)).tree) hc
    rw [henter.erase] at hread
    rw [search, show Spot.between _ (some c) = spotAt text i by rw [spotAt, hc],
      show Spot.between (some c) rest.head? = spotAt text (i + 1) by
        rw [spotAt, hbehind, ← hnext, List.head?_drop, Array.getElem?_toList]]
    split
    · next hends =>
      refine iff_of_true rfl ?_
      rcases henter.ends.mp hends with h | h
      · exact .inl ⟨i, h⟩
      · exact .inr ⟨i, le_rfl, hi, i, h⟩
    · next hends =>
      dsimp only
      split
      · next hreads =>
        refine iff_of_true rfl ?_
        rcases ((henter.leads ..).mp (hread.ends.mp hreads)).2 with h | h
        · exact .inl ⟨i + 1, h⟩
        · exact .inr ⟨i, le_rfl, hi, i + 1, h⟩
      · next hreads =>
        have hsize : i + 1 ≤ text.size := (Array.getElem?_eq_some_iff.mp hc).1
        rw [← hbehind, ih hnext hsize, hread.erase]
        simp only [leads_round_iff hc hends hreads]
        constructor
        · rintro (⟨j, h | h⟩ | ⟨k, hik, hk, j, h⟩)
          · exact .inl ⟨j, h⟩
          · exact .inr ⟨i, le_rfl, hi, j, h⟩
          · exact .inr ⟨k, by omega, hk, j, h⟩
        · rintro (⟨j, h⟩ | ⟨k, hik, hk, j, h⟩)
          · exact .inl ⟨j, .inl h⟩
          · rcases Nat.eq_or_lt_of_le hik with rfl | hik
            · exact .inl ⟨j, .inr h⟩
            · exact .inr ⟨k, hik, hk, j, h⟩

end Marked

/-- **A search succeeds** if and only if some stretch of the text matches. -/
theorem isMatch_iff {e : Regex} (he : e.Bounded) (s : String) :
    e.isMatch s = true ↔ ∃ i j, i ≤ s.length ∧ e.Matches s.toList.toArray i j := by
  have hsearch := @Marked.search_iff s.toList.toArray 0 (.quiet e.plain) s.toList (by simp) (Nat.zero_le _)
  rw [if_pos rfl] at hsearch
  rw [isMatch, hsearch]
  simp [Marked.Leads, Marked.erase, spans_plain he, String.length]

end PacketTree.Regex
