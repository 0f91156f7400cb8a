import PacketTree.Regex.Basic

/-!
# Outlines

The form of an expression that an automaton is built from: parts in lists, with no part that stands
for nothing and no list inside a list.

## The model

Neighbouring characters make one literal, alternatives of one character or set each make one set,
and what all alternatives begin with is put in front of them. Groups without a number are gone. None
of this changes what matches; it decides how large the automaton is.
-/

namespace PacketTree.Regex

/-- The outline of an expression. -/
inductive Outline where
  /-- Nothing. -/
  | empty
  /-- Characters one after another, at least one. -/
  | literal (cs : List Char)
  /-- One character of a set that does not have exactly one. -/
  | set (r : Text.Ranges)
  /-- An assertion. -/
  | place (a : Assertion)
  /-- Repetition of a part. -/
  | rep (part : Outline) (least : Nat) (most : Option Nat) (few : Bool)
  /-- A group with a number. -/
  | group (number : Nat) (part : Outline)
  /-- Two or more parts, one after another. -/
  | seq (parts : List Outline)
  /-- One of two or more parts. -/
  | alt (parts : List Outline)

namespace Outline

mutual

/-- Whether two outlines are the same. -/
def same : Outline → Outline → Bool
  | .empty, .empty => true
  | .literal cs, .literal ds => cs == ds
  | .set r, .set s => r == s
  | .place a, .place b => a == b
  | .rep p least most few, .rep q least' most' few' =>
    least == least' && most == most' && few == few' && same p q
  | .group n p, .group m q => n == m && same p q
  | .seq ps, .seq qs => sameAll ps qs
  | .alt ps, .alt qs => sameAll ps qs
  | _, _ => false

/-- Whether two lists of outlines are the same. -/
def sameAll : List Outline → List Outline → Bool
  | [], [] => true
  | p :: ps, q :: qs => if same p q then sameAll ps qs else false
  | _, _ => false

end

/-! ### The length of matches -/

mutual

/-- The least number of characters of a match; `none` if some part of it never matches. -/
def minLength? : Outline → Option Nat
  | .empty | .place _ => some 0
  | .literal cs => some cs.length
  | .set r => if r.isEmpty then none else some 1
  | .rep p least _ _ => p.minLength?.map (· * least)
  | .group _ p => p.minLength?
  | .seq ps => totalMin? 0 ps
  | .alt ps => leastMin? none ps

/-- The least number of characters of some parts, one after another, and `n` more. -/
def totalMin? (n : Nat) : List Outline → Option Nat
  | [] => some n
  | p :: ps =>
    match p.minLength? with
    | none => none
    | some m => totalMin? (n + m) ps

/-- The least number of characters of one of some parts, or `n` if that is given and less. -/
def leastMin? (n : Option Nat) : List Outline → Option Nat
  | [] => n
  | p :: ps =>
    match p.minLength? with
    | none => none
    | some m => leastMin? (some ((n.getD m).min m)) ps

end

mutual

/-- Whether all matches are known to be empty. -/
def isStanding : Outline → Bool
  | .empty | .place _ => true
  | .literal _ | .set _ => false
  | .rep p _ most _ => p.isStanding && most.isSome
  | .group _ p => p.isStanding
  | .seq ps => allStanding ps
  | .alt ps => allStanding ps

/-- Whether all matches of all parts are known to be empty. -/
def allStanding : List Outline → Bool
  | [] => true
  | p :: ps => if p.isStanding then allStanding ps else false

end

/-! ### Assertions at the ends -/

mutual

/-- Whether every match is known to begin with an assertion. -/
def beginsWith (a : Assertion) : Outline → Bool
  | .empty | .literal _ | .set _ => false
  | .place b => a == b
  | .rep p least _ _ => least != 0 && p.beginsWith a
  | .group _ p => p.beginsWith a
  | .seq ps => firstBegins a ps
  | .alt ps => allBegin a ps

/-- Whether one of some parts begins with an assertion and all before it match nothing. -/
def firstBegins (a : Assertion) : List Outline → Bool
  | [] => false
  | p :: ps => if p.beginsWith a then true else if p.isStanding then firstBegins a ps else false

/-- Whether all of some parts begin with an assertion. -/
def allBegin (a : Assertion) : List Outline → Bool
  | [] => true
  | p :: ps => if p.beginsWith a then allBegin a ps else false

end

mutual

/-- Whether every match is known to end with an assertion. -/
def endsWith (a : Assertion) : Outline → Bool
  | .empty | .literal _ | .set _ => false
  | .place b => a == b
  | .rep p least _ _ => least != 0 && p.endsWith a
  | .group _ p => p.endsWith a
  | .seq ps => lastEnds a false ps
  | .alt ps => allEnd a ps

/-- Whether one of some parts ends with an assertion and all behind it match nothing, or all of them
match nothing and `before` holds. -/
def lastEnds (a : Assertion) (before : Bool) : List Outline → Bool
  | [] => before
  | p :: ps => lastEnds a (p.endsWith a || (p.isStanding && before)) ps

/-- Whether all of some parts end with an assertion. -/
def allEnd (a : Assertion) : List Outline → Bool
  | [] => true
  | p :: ps => if p.endsWith a then allEnd a ps else false

end

/-! ### Putting parts together -/

/-- The parts of an outline that stand one after another. -/
def parts : Outline → List Outline
  | .empty => []
  | .seq ps => ps
  | p => [p]

/-- The parts that an outline is an alternative of. -/
def branches : Outline → List Outline
  | .alt ps => ps
  | p => [p]

/-- Parts behind others; two literals that meet are one. -/
def join (ps qs : List Outline) : List Outline :=
  match ps.getLast?, qs with
  | some (.literal cs), .literal ds :: qs => ps.dropLast ++ .literal (cs ++ ds) :: qs
  | _, qs => ps ++ qs

/-- Parts one after another. -/
def sequence (ps : List Outline) : Outline :=
  match ps.foldr (fun p rest => join p.parts rest) [] with
  | [] => .empty
  | [p] => p
  | ps => .seq ps

/-- One character of a set. -/
def ofRanges : Text.Ranges → Outline
  | [(low, high)] => if low = high then .literal [Char.ofNat low] else .set [(low, high)]
  | r => .set r

/-- The characters of parts that are one character each. -/
def singles? (ps : List Outline) : Option (List Nat) :=
  ps.mapM fun p => match p with
    | .literal [c] => some c.toNat
    | _ => none

/-- The sets of parts that are one set each. -/
def sets? (ps : List Outline) : Option (List Text.Ranges) :=
  ps.mapM fun p => match p with
    | .set r => some r
    | _ => none

/-- One of some parts, as one set if they are all characters or all sets. -/
def either (ps : List Outline) : Outline :=
  match ps.flatMap branches with
  | [p] => p
  | ps =>
    match singles? ps with
    | some points => ofRanges (Text.Ranges.ofPoints points)
    | none =>
      match sets? ps with
      | some sets => ofRanges (sets.foldl Text.Ranges.union [])
      | none => .alt ps

/-- What two lists of parts begin with. -/
def commonStart : List Outline → List Outline → List Outline
  | p :: ps, q :: qs => if same p q then p :: commonStart ps qs else []
  | _, _ => []

/-- What all of some lists of parts begin with. -/
def commonStarts : List (List Outline) → List Outline
  | [] => []
  | ps :: rest => rest.foldl commonStart ps

/-- The lists of parts of outlines that are such lists. -/
def sequences? (ps : List Outline) : Option (List (List Outline)) :=
  ps.mapM fun p => match p with
    | .seq ps => some ps
    | _ => none

/-- One of some parts, with what they all begin with in front. -/
def alternatives (ps : List Outline) : Outline :=
  match either ps with
  | .alt ps =>
    match sequences? ps with
    | none => .alt ps
    | some lists =>
      match commonStarts lists with
      | [] => .alt ps
      | front => sequence (front ++ [either (lists.map fun ps => sequence (ps.drop front.length))])
  | p => p

/-- Repetition of a part; one that matches nothing but empty stretches needs one round. -/
def repeated (p : Outline) (least : Nat) (most : Option Nat) (few : Bool) : Outline :=
  let (least, most) :=
    if p.isStanding then (min least 1, some ((most.getD 1).min 1)) else (least, most)
  if least = 0 ∧ most = some 0 then .empty
  else if least = 1 ∧ most = some 1 then p
  else .rep p least most few

end Outline

/-- The outlines of the alternatives that an expression lists. -/
def outlines : Regex → List Outline
  | .empty => [.empty]
  | .char s => [.ofRanges s.ranges]
  | .place a => [.place a]
  | .seq e f => [.sequence [one e.outlines, one f.outlines]]
  | .alt e f => e.outlines ++ f.outlines
  | .group none e => [one e.outlines]
  | .group (some n) e => [.group n (one e.outlines)]
  | .rep e least most few => [(one e.outlines).repeated least most few]
where
  /-- One of some alternatives. -/
  one : List Outline → Outline
    | [p] => p
    | ps => .alternatives ps

/-- The outline of an expression. -/
def outline (e : Regex) : Outline := outlines.one e.outlines

end PacketTree.Regex
