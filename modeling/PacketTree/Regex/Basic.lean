import PacketTree.Regex.CharSet

/-!
# Regular expressions

Expressions over characters and the places of a text they match.

## The model

An expression matches stretches of a text, from one place to another: `Matches` says which, by the
parts of the expression. Assertions match empty stretches. Whether a repetition prefers few or many
rounds makes no difference to what matches.
-/

namespace PacketTree

/-- A place of a text, between two characters, each of which may be missing. -/
structure Spot where
  between ::
  /-- The character before it. -/
  before : Option Char
  /-- The character behind it. -/
  after : Option Char
deriving DecidableEq, Repr

/-- How words stand around a place. -/
inductive WordEdge where
  /-- A word starts or ends here. -/
  | boundary
  /-- No word starts or ends here. -/
  | noBoundary
  /-- A word starts here. -/
  | start
  /-- A word ends here. -/
  | stop
  /-- No character of a word stands before. -/
  | noneBefore
  /-- No character of a word stands behind. -/
  | noneAfter
deriving DecidableEq, Repr

/-- Whether words stand so, by whether a character of a word stands before and behind. -/
def WordEdge.holds (before after : Bool) : WordEdge → Bool
  | .boundary => before != after
  | .noBoundary => before == after
  | .start => !before && after
  | .stop => before && !after
  | .noneBefore => !before
  | .noneAfter => !after

/-- An assertion about a place. -/
inductive Assertion where
  /-- The text starts here. -/
  | start
  /-- The text ends here. -/
  | stop
  /-- A line starts here. Lines end with a line feed or, with `carriage`, with a carriage return or
  both. -/
  | lineStart (carriage : Bool)
  /-- A line ends here. -/
  | lineStop (carriage : Bool)
  /-- Words of all scripts, or of ASCII only, stand so. -/
  | word (edge : WordEdge) (unicode : Bool)
deriving DecidableEq, Repr

/-- Whether an assertion is true of a place. No line ends between a carriage return and the line feed
behind it. -/
def Assertion.holds (p : Spot) : Assertion → Bool
  | .start => p.before.isNone
  | .stop => p.after.isNone
  | .lineStart carriage =>
    p.before.isNone || p.before == some '\n' ||
      (carriage && p.before == some '\r' && p.after != some '\n')
  | .lineStop carriage =>
    p.after.isNone || (p.after == some '\n' && !(carriage && p.before == some '\r')) ||
      (carriage && p.after == some '\r')
  | .word edge unicode =>
    let isWordChar := (CharSet.ofKind unicode .word).holds
    edge.holds (p.before.any isWordChar) (p.after.any isWordChar)

/-- A regular expression. -/
inductive Regex where
  /-- Nothing. -/
  | empty
  /-- One character of a set. -/
  | char (s : CharSet)
  /-- An assertion. -/
  | place (a : Assertion)
  /-- One expression, then another. -/
  | seq (e f : Regex)
  /-- One of two expressions. -/
  | alt (e f : Regex)
  /-- An expression in brackets, with its number among the brackets that are numbered. -/
  | group (number : Option Nat) (e : Regex)
  /-- Repetition of an expression, at least `least` times and at most `most` if that is given;
  `few` if it prefers few rounds. -/
  | rep (e : Regex) (least : Nat) (most : Option Nat) (few : Bool)
deriving DecidableEq, Repr

namespace Regex

/-- The expressions one after another, nested to little depth. -/
def gather (op : Regex → Regex → Regex) (es : List Regex) : Regex :=
  rounds es.length es
where
  /-- Neighbours put together, until one expression is left. -/
  rounds : Nat → List Regex → Regex
    | _, [] => .empty
    | _, [e] => e
    | 0, e :: _ => e
    | n + 1, es => rounds n (pairs [] es)
  /-- Each two neighbours put together, behind those done, which are last first. -/
  pairs (done : List Regex) : List Regex → List Regex
    | [] => done.reverse
    | [e] => (e :: done).reverse
    | e :: f :: rest => pairs (op e f :: done) rest

/-! ### What an expression matches -/

/-- The place of a text before its character `i`. -/
def spotAt (text : Array Char) (i : Nat) : Spot :=
  .between (if i = 0 then none else text[i - 1]?) text[i]?

/-- `n` steps of a relation between places. -/
def Steps (step : Nat → Nat → Prop) : Nat → Nat → Nat → Prop
  | 0, i, j => i = j
  | n + 1, i, j => ∃ k, step i k ∧ Steps step n k j

/-- An expression matches the stretch of a text between two places. -/
def Matches (text : Array Char) : Regex → Nat → Nat → Prop
  | .empty, i, j => i = j
  | .char s, i, j => j = i + 1 ∧ ∃ c, text[i]? = some c ∧ s.holds c
  | .place a, i, j => i = j ∧ a.holds (spotAt text i)
  | .seq e f, i, j => ∃ k, Matches text e i k ∧ Matches text f k j
  | .alt e f, i, j => Matches text e i j ∨ Matches text f i j
  | .group _ e, i, j => Matches text e i j
  | .rep e least most _, i, j =>
    ∃ n, least ≤ n ∧ (∀ m ∈ most, n ≤ m) ∧ Steps (Matches text e) n i j

end Regex

end PacketTree
