import PacketTree.Regex.Basic

/-!
# Plain expressions

Expressions with their counts written out: no brackets, and only repetitions of one or more rounds.

## The model

A count is written out by halves, so that `n` rounds of an expression take room for as many nodes as
`n` has binary digits. For up to `n` rounds the halves are joined by `upTo`, which has matches and,
among them, complete ones: the second half starts where a match of the first is complete, and the
whole may end wherever either has a match. An expression that only matches empty stretches needs one
round of any number, and an optional one needs no least number of rounds.
-/

namespace PacketTree.Regex

/-- An expression whose counts are written out. -/
inductive Plain where
  /-- Nothing. -/
  | empty
  /-- One character of a set. -/
  | char (s : CharSet)
  /-- An assertion. -/
  | place (a : Assertion)
  /-- One expression, then another. -/
  | seq (e f : Plain)
  /-- One of two expressions. -/
  | alt (e f : Plain)
  /-- One or more rounds of an expression. -/
  | plus (e : Plain)
  /-- One expression, or a complete match of it and then the other. -/
  | upTo (e f : Plain)
deriving DecidableEq, Repr

namespace Plain

/-- Whether an expression holds no character at all, so that all its matches are empty. -/
def isStanding : Plain → Bool
  | .empty | .place _ => true
  | .char _ => false
  | .seq e f | .alt e f | .upTo e f => e.isStanding && f.isStanding
  | .plus e => e.isStanding

/-- An expression or nothing. -/
def optional (e : Plain) : Plain := .alt .empty e

/-- The expression with all its matches complete. -/
def whole : Plain → Plain
  | .upTo e f => .seq (.upTo e f) .empty
  | e => e

/-- Exactly `n` rounds of an expression. -/
def power (e : Plain) (n : Nat) : Plain :=
  if n = 0 then .empty
  else if n = 1 then e
  else
    let half := e.power (n / 2)
    if n % 2 = 0 then .seq half half else .seq e (.seq half half)
termination_by n

/-- From one round to `n` of an expression whose matches are all complete. -/
def oneUpTo (e : Plain) (n : Nat) : Plain :=
  if n ≤ 1 then e
  else
    let half := e.oneUpTo (n / 2)
    if n % 2 = 0 then .upTo half half else .upTo e (.upTo half half)
termination_by n

/-- One or more rounds of an expression. -/
def oneOrMore : Plain → Plain
  | .plus e => .plus e
  | e => .plus e

/-- Rounds of an expression that is not optional itself. -/
def roundsOf (e : Plain) (least : Nat) : Option Nat → Plain
  | none =>
    if least = 0 then optional e.oneOrMore
    else if least = 1 then e.oneOrMore
    else .seq (e.power (least - 1)) e.oneOrMore
  | some most =>
    if most ≤ least then e.power least
    else
      let more := optional (e.whole.oneUpTo (most - least))
      if least = 0 then more else .seq (e.power least) more

/-- Rounds of an expression. -/
def rounds (e : Plain) (least : Nat) (most : Option Nat) : Plain :=
  if e.isStanding then e.roundsOf (min least 1) (some ((most.getD 1).min 1))
  else match e with
    | .alt .empty e => e.roundsOf 0 most
    | e => e.roundsOf least most

end Plain

/-- The expression with its counts written out. -/
def plain : Regex → Plain
  | .empty => .empty
  | .char s => .char s
  | .place a => .place a
  | .seq e f => .seq e.plain f.plain
  | .alt e f => .alt e.plain f.plain
  | .group _ e => e.plain
  | .rep e least most _ => e.plain.rounds least most

end PacketTree.Regex
