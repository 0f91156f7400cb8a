import PacketTree.Regex.Automaton.Tally
import PacketTree.Regex.Automaton.Utf8
import Std.Data.HashMap

/-!
# Automata of sets of characters

An automaton reads a character byte by byte. A set that goes beyond ASCII takes states for the first
bytes, for the second and so on, and states that lead to the same are shared where that is noticed.

## The model

A state is looked for in a table of limited size under a hash of what leaves it; one that falls on
another's row replaces it, and so some states are counted twice. Since the hash covers the numbers of
the states led to, it depends on where in the automaton the set stands.
-/

namespace PacketTree.Regex

/-- The hash of some numbers of at most 64 bits: each is combined with what came before by exclusive
or, then multiplied. -/
def rowHash (ns : List Nat) : UInt64 :=
  ns.foldl (fun h n => (h ^^^ n.toUInt64) * 1099511628211) 14695981039346656037

/-- A table of states already built, by the hash of what describes them. -/
structure Known where
  /-- The number of rows. -/
  size : Nat
  /-- The description and number of the state in a row. -/
  rows : Std.HashMap Nat (List Nat × Nat)

namespace Known

/-- An empty table with a number of rows. -/
def empty (size : Nat) : Known := ⟨size, {}⟩

/-- The row of a description. -/
def row (k : Known) (key : List Nat) : Nat := (rowHash key).toNat % k.size

/-- The state with a description, if it is still in its row. -/
def find? (k : Known) (key : List Nat) : Option Nat :=
  match k.rows[k.row key]? with
  | some (known, n) => if known = key then some n else none
  | none => none

/-- The table with a state in its row. -/
def insert (k : Known) (key : List Nat) (n : Nat) : Known :=
  { k with rows := k.rows.insert (k.row key) (key, n) }

end Known

/-! ### Reading forwards -/

/-- A state whose arrows are not complete. -/
structure OpenState where
  /-- The bounds and targets of its arrows, last first. -/
  arrows : List (Nat × Nat × Nat)
  /-- The bounds of the arrow to the next open state. -/
  last : Option (Nat × Nat)

namespace OpenState

/-- The state with its last arrow led to a target. -/
def close (s : OpenState) (target : Nat) : OpenState :=
  match s.last with
  | none => s
  | some (low, high) => ⟨(low, high, target) :: s.arrows, none⟩

/-- What describes a state: its arrows in order. -/
def key (s : OpenState) : List Nat :=
  s.arrows.foldl (fun rest (low, high, target) => low :: high :: target :: rest) []

end OpenState

/-- The states of a set that are counted, and those that are still open. -/
structure ForwardClass where
  /-- What was counted. -/
  tally : Tally
  /-- The states to be shared. -/
  known : Known
  /-- The state behind the character. -/
  target : Nat
  /-- The open states, from the last byte to the first. -/
  opened : List OpenState

namespace ForwardClass

/-- Counts a state whose arrows are complete, unless it is known; gives its number. -/
def count? (c : ForwardClass) (s : OpenState) : Option (ForwardClass × Nat) :=
  match c.known.find? s.key with
  | some n => some (c, n)
  | none => do
    let n := c.tally.states
    return ({ c with tally := ← c.tally.add? 1 s.arrows.length 0, known := c.known.insert s.key n },
      n)

/-- Completes the states of the bytes after the first `depth + 1`, and the arrow to them. -/
def complete? (c : ForwardClass) (depth : Nat) (next : Nat) : List OpenState → Option ForwardClass
  | [] => some c
  | [s] => some { c with opened := [s.close next] }
  | s :: rest =>
    if depth < rest.length then do
      let (c, next) ← c.count? (s.close next)
      c.complete? depth next rest
    else some { c with opened := s.close next :: rest }

/-- The number of byte ranges that a sequence shares with the open states from the first on. -/
def shared (opened : List OpenState) (ranges : List (Nat × Nat)) : Nat :=
  ((opened.reverse.zip ranges).takeWhile fun (s, range) => s.last == some range).length

/-- Adds a sequence of byte ranges, which lie behind those added before. -/
def add? (c : ForwardClass) (ranges : List (Nat × Nat)) : Option ForwardClass := do
  let depth := shared c.opened ranges
  let c ← c.complete? depth c.target c.opened
  match c.opened, ranges.drop depth with
  | s :: rest, range :: more =>
    let opened := { s with last := some range } :: rest
    return { c with opened := (more.map fun range => ⟨[], some range⟩).reverse ++ opened }
  | _, _ => some c

end ForwardClass

/-- The sequences of byte ranges of a set. -/
def byteRanges (r : Text.Ranges) : List (List (Nat × Nat)) :=
  r.flatMap fun (low, high) => Utf8.sequences low high

/-- A set, its bytes read forwards: the ends of sequences are shared. -/
def forwardClass (r : Text.Ranges) : Fragment := fun t => do
  let tally ← t.add? 1 0 0
  let c ← (byteRanges r).foldlM ForwardClass.add?
    ⟨tally, .empty 10000, t.states, [⟨[], none⟩]⟩
  let c ← c.complete? 0 c.target c.opened
  match c.opened with
  | [s] => (c.count? s).map fun (c, _) => (c.tally, false)
  | _ => none

/-! ### Reading backwards -/

/-- A set, its bytes read backwards: a branch for each sequence, whose starts are shared. -/
def backwardClass (r : Text.Ranges) : Fragment := fun t => do
  let last := t.states + 1
  let t ← t.add? 2 0 0
  let (t, _) ← (byteRanges r).foldlM (sequence? last) (t, Known.empty 1000)
  return (t, false)
where
  /-- Counts the states of a sequence, and the branch to it. -/
  sequence? (last : Nat) (counted : Tally × Known) (ranges : List (Nat × Nat)) :
      Option (Tally × Known) := do
    let (t, known, _) ← ranges.foldlM range? (counted.1, counted.2, last)
    return (← t.add? 0 0 1, known)
  /-- Counts the state of a byte range that leads to another state, unless it is known. -/
  range? (counted : Tally × Known × Nat) (range : Nat × Nat) : Option (Tally × Known × Nat) :=
    let (t, known, target) := counted
    let key := [target, range.1, range.2]
    match known.find? key with
    | some n => some (t, known, n)
    | none => do
      return (← t.add? 1 0 0, known.insert key t.states, t.states)

/-! ### Either way -/

/-- One character of a set. -/
def classFragment (backward : Bool) (r : Text.Ranges) : Fragment :=
  if r.all fun (_, high) => high < 0x80 then .ofCounts 2 r.length 0
  else if backward then backwardClass r
  else forwardClass r

end PacketTree.Regex
