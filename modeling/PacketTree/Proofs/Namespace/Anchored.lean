import PacketTree.Namespace.Pattern
import PacketTree.Proofs.Regex.Reading
import PacketTree.Proofs.Regex.Search

/-!
# Patterns select by the whole text

The expression of a pattern is put between anchors before it is read, as text. This module proves that
the anchors hold as they should around every expression that can be read on its own, whatever flags,
classes, names and comments it holds and whatever Unicode says of characters, and shows that they do not
around one that closes their bracket.

## What is proved

* `read?_anchored`: an expression that can be read is, between its anchors, the same expression in a
  group.
* `selects_iff`: the pattern of such an expression selects the namespaces whose whole text it matches.
* `accepts_unbalanced`: a text that is no expression makes a pattern all the same, which then selects by
  the start or the end of the text.

## The model

A comment at the end of an expression takes in the closing anchor, so that the expression makes no
pattern. The flags of an expression end at the bracket of the anchors: `$` is the end of the text, also
behind `(?m)`.
-/

namespace PacketTree

open Regex

variable {tables : Tables} {expression : String} {e f : Regex} {p : Pattern}

namespace Pattern

/-- An expression between the two ends of a text. -/
def between (number : Option ℕ) (e : Regex) : Regex :=
  .seq (.seq (.place .start) (.group number e)) (.place .stop)

/-- **An expression that can be read is read inside its anchors** as it is read alone. -/
theorem read?_anchored (he : read? tables expression = some e)
    (hf : read? tables (anchored expression) = some f) : ∃ number, f = between number e := by
  unfold read? at he hf
  split at he
  · cases he
  · next alone halone =>
    split_ifs at he
    cases he
    split at hf
    · cases hf
    · next inside hinside =>
      split_ifs at hf
      cases hf
      have htext : (anchored expression).toList =
          '^' :: '(' :: '?' :: ':' :: (expression.toList ++ [')', '$']) := by
        simp [anchored]
      obtain ⟨k, hk, ⟨outer, group, count, names⟩, hlast, hrun⟩ :=
        Parser.readFrom_under (show '\n' ∉ ['$'] by decide) (.inl rfl) halone
          ((Parser.OpenGroup.start none {}).pushLeaf (.place .start))
      obtain ⟨m, hm⟩ : ∃ m, (anchored expression).length + 1 = k + (m + 3) + 1 + 1 := by
        refine ⟨(anchored expression).length - k - 4, ?_⟩
        rw [String.length, htext]
        simp only [List.length_cons, List.length_append, String.length] at hk ⊢
        omega
      have hopened : Parser.readFrom tables .start (k + (m + 3) + 1 + 1)
          ('^' :: '(' :: '?' :: ':' :: (expression.toList ++ [')', '$'])) =
          Parser.readFrom tables
            (.under .start ((Parser.OpenGroup.start none {}).pushLeaf (.place .start)))
            (k + (m + 3)) (expression.toList ++ [')', '$']) := rfl
      rw [hm, htext, hopened] at hinside
      rcases hrun with hrun | hnone
      · have houter : outer = [] ∧ group.content = alone := by
          rw [Parser.Reading.finish?] at hlast
          split_ifs at hlast with hempty
          exact ⟨List.isEmpty_iff.mp hempty, Option.some.inj hlast⟩
        obtain ⟨rfl, rfl⟩ := houter
        rw [hrun, Parser.readFrom_of_cons (Parser.skip_bracket ['$'])] at hinside
        cases hinside
        exact ⟨group.number, rfl⟩
      · -- A comment has taken in the closing bracket.
        rw [hnone] at hinside
        cases hinside

/-- A match between the two ends of a text is a match of the whole text. -/
theorem matches_between {number : Option ℕ} (he : e.Bounded) (text : Array Char) :
    (∃ i j, i ≤ text.size ∧ (between number e).Matches text i j) ↔ e.Matches text 0 text.size := by
  constructor
  · rintro ⟨i, j, hi, k, ⟨l, ⟨rfl, hstart⟩, hmatch⟩, rfl, hstop⟩
    have hzero : i = 0 := by
      by_contra hne
      have hlt : i - 1 < text.size := by omega
      simp [Assertion.holds, spotAt, hne, hlt] at hstart
    have hsize : text.size ≤ k := by
      simpa [Assertion.holds, spotAt] using hstop
    have hle : k ≤ text.size := Plain.le_size_of_spans ((spans_plain he).mpr hmatch) hi
    rwa [hzero, Nat.le_antisymm hle hsize] at hmatch
  · intro h
    refine ⟨0, text.size, Nat.zero_le _, text.size, ⟨0, ⟨rfl, rfl⟩, h⟩, rfl, ?_⟩
    simp [Assertion.holds, spotAt]

/-- **A pattern selects by the whole text**, whatever its expression sets for itself. -/
theorem selects_iff (he : read? tables expression = some e) (hp : regex? tables expression = some p)
    (ns : Namespace) :
    p.selects ns = true ↔ e.Matches ns.text.toList.toArray 0 ns.text.length := by
  obtain ⟨f, hparse, rfl⟩ := Option.map_eq_some_iff.mp hp
  obtain ⟨hf, -⟩ := Option.filter_eq_some_iff.mp hparse
  obtain ⟨number, rfl⟩ := read?_anchored he hf
  have hsize : ns.text.length = ns.text.toList.toArray.size := by simp [String.length]
  rw [selects, isMatch_iff (bounded_of_read? hf), hsize,
    matches_between (bounded_of_read? he)]

/-- The whole text does not match if there is more of it behind what matches. -/
theorem selects_iff_stream : ∃ e p,
    read? .ascii "(?x) eth (?<internet>\\ ipv4)* # any\n \\ tcp" = some e ∧
      regex? .ascii "(?x) eth (?<internet>\\ ipv4)* # any\n \\ tcp" = some p ∧
      e.Matches "eth ipv4 tcp".toList.toArray 0 "eth ipv4 tcp".length ∧
      ¬e.Matches "eth ipv4 tcp stream".toList.toArray 0 "eth ipv4 tcp stream".length := by
  obtain ⟨e, he⟩ := Option.isSome_iff_exists.mp
    (show (read? .ascii "(?x) eth (?<internet>\\ ipv4)* # any\n \\ tcp").isSome = true by
      decide +kernel)
  have hselects : (regex? .ascii "(?x) eth (?<internet>\\ ipv4)* # any\n \\ tcp").map
      (fun p => (p.selects (.parse "eth ipv4 tcp"), p.selects (.parse "eth ipv4 tcp stream"))) =
      some (true, false) := by decide +kernel
  obtain ⟨p, hp, hboth⟩ := Option.map_eq_some_iff.mp hselects
  obtain ⟨htrue, hfalse⟩ := Prod.mk.inj hboth
  have hwhole : (Namespace.parse "eth ipv4 tcp").text = "eth ipv4 tcp" := by decide +kernel
  have hmore : (Namespace.parse "eth ipv4 tcp stream").text = "eth ipv4 tcp stream" := by
    decide +kernel
  have hshort := selects_iff he hp (.parse "eth ipv4 tcp")
  have hlong := selects_iff he hp (.parse "eth ipv4 tcp stream")
  rw [hwhole, htrue] at hshort
  rw [hmore, hfalse] at hlong
  exact ⟨e, p, he, hp, hshort.mp rfl, fun hmatch => Bool.false_ne_true (hlong.mpr hmatch)⟩

/-- An expression that closes the bracket of its anchors is accepted although it is none itself, and
selects by a part of the text. -/
theorem accepts_unbalanced : parse? .ascii "a)|(?:b" = none ∧
    (regex? .ascii "a)|(?:b").map (fun p => [p.selects (.parse "a x"), p.selects (.parse "x b"),
      p.selects (.parse "x a")]) = some [true, true, false] := by
  constructor <;> decide +kernel

/-- An expression that ends with a comment makes no pattern, as the comment takes in the anchor. -/
example : (parse? .ascii "(?x)a#").isSome = true ∧ (regex? .ascii "(?x)a#").isNone = true := by
  constructor <;> decide +kernel

end Pattern

end PacketTree
