import PacketTree.Regex.Automaton.Class
import PacketTree.Regex.Automaton.Literals
import PacketTree.Regex.Outline
import PacketTree.Regex.Parser

/-!
# Expressions that are too large

An expression is refused if the automaton for it takes too much room, read in either direction. The
one that reads forwards also has states at the bounds of numbered groups and of the whole match.
-/

namespace PacketTree.Regex

namespace Outline

/-- The words that all of some parts are, unless one is no literal. -/
def words? (ps : List Outline) : Option (List (List UInt8)) :=
  ps.mapM fun p => match p with
    | .literal cs => some (cs.flatMap String.utf8EncodeChar)
    | _ => none

mutual

/-- The automaton of an outline. -/
def fragment (backward : Bool) : Outline → Fragment
  | .empty => .state
  | .literal cs => .copies .state (cs.foldl (fun n c => n + c.utf8Size) 0)
  | .set r => classFragment backward r
  | .place _ => .state
  | .rep p least most _ =>
    let part := p.fragment backward
    match least, most with
    | 0, some 1 => .optional part
    | 0, none => .star ((p.minLength?.getD 0) != 0) part
    | n + 1, none => .plus part n
    | least, some most =>
      if least = most then .copies part least else .between part least (most - least)
  | .group _ p =>
    if backward then p.fragment backward else .chain [.state, p.fragment backward, .state]
  | .seq ps =>
    let fragments := fragmentsOnto backward [] ps
    .chain (if backward then fragments else fragments.reverse)
  | .alt ps =>
    match words? ps with
    | some words => wordsFragment (if backward then words.map List.reverse else words)
    | none => .fork (fragmentsOnto backward [] ps).reverse

/-- The automata of some parts in front of others, last first. -/
def fragmentsOnto (backward : Bool) (done : List Fragment) : List Outline → List Fragment
  | [] => done
  | p :: ps => fragmentsOnto backward (p.fragment backward :: done) ps

end

/-- Where a search starts: at the start of the text only (`fixed`), or behind any bytes. -/
def lead (fixed : Bool) : Fragment := if fixed then .state else .ofCounts 3 1 2

/-- The whole automaton of an outline that reads forwards. -/
def forward (p : Outline) : Fragment :=
  .chain [lead (p.beginsWith .start), .state, p.fragment false, .state, .state]

/-- The whole automaton of an outline that reads backwards. -/
def backward (p : Outline) : Fragment :=
  .chain [lead (p.endsWith .stop), p.fragment true, .state]

/-- Whether there is room for the automata of an outline. -/
def fits (p : Outline) : Bool := (p.forward .zero).isSome && (p.backward .zero).isSome

end Outline

/-- The expression that a text stands for, if it is neither nested too deep nor too large. -/
def parse? (tables : Tables) (text : String) : Option Regex :=
  (read? tables text).filter fun e => e.outline.fits

end PacketTree.Regex
