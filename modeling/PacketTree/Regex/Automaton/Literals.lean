import PacketTree.Regex.Automaton.Tally

/-!
# Automata of words

One of several words, read through a tree in which words that begin alike share their way.

## The model

The words are counted node by node. A word that ends at a node closes the arrows gathered there: words
that come later start new ones, even with the same byte. A node where words end and nothing goes on
is the end of the whole fragment and takes no state.
-/

namespace PacketTree.Regex

/-- The words that begin with the same byte put together, without it, in the order of their first. -/
def byFirst (words : List (List UInt8)) : List (List (List UInt8)) :=
  (words.foldl insert []).map fun (_, tails) => tails.reverse
where
  /-- Puts a word to those with its first byte. -/
  insert (groups : List (UInt8 × List (List UInt8))) : List UInt8 →
      List (UInt8 × List (List UInt8))
    | [] => groups
    | b :: tail => place b tail groups
  /-- Puts what follows a byte to the words with that byte. -/
  place (b : UInt8) (tail : List UInt8) : List (UInt8 × List (List UInt8)) →
      List (UInt8 × List (List UInt8))
    | [] => [(b, [tail])]
    | (a, tails) :: rest =>
      if a = b then (a, tail :: tails) :: rest else (a, tails) :: place b tail rest

/-- The words between those that end at a node; words that end there before any other count once. -/
def betweenEnds (words : List (List UInt8)) : List (List (List UInt8)) :=
  let (done, current) := words.foldl step ([], [])
  (current.reverse :: done).reverse
where
  /-- Adds a word to the current list, or ends that list. -/
  step (lists : List (List (List UInt8)) × List (List UInt8)) (word : List UInt8) :
      List (List (List UInt8)) × List (List UInt8) :=
    match lists, word with
    | ([[]], []), [] => lists
    | (done, current), [] => (current.reverse :: done, [])
    | (done, current), word => (done, word :: current)

/-- Counts nodes, each given by the words that go on from it. `fuel` bounds their number. -/
def nodes? (t : Tally) : Nat → List (List (List UInt8)) → Option Tally
  | 0, _ => none
  | _, [] => some t
  | fuel + 1, words :: rest =>
    if words.all List.isEmpty then nodes? t fuel rest
    else
      let lists := betweenEnds words
      let groups := (lists.filter fun l => !l.isEmpty).map byFirst
      let arrows := groups.foldl (fun n g => if g.length = 1 then n else n + g.length) 0
      match t.add? (1 + groups.length) arrows (groups.length + (lists.length - 1)) with
      | none => none
      | some t => nodes? t fuel (groups.flatten ++ rest)

/-- One of some words. -/
def wordsFragment (words : List (List UInt8)) : Fragment := fun t => do
  let t ← t.add? 1 0 0
  let fuel := words.foldl (fun n w => n + w.length) 2
  return (← nodes? t fuel [words], false)

end PacketTree.Regex
