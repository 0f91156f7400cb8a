/-!
# The room that an automaton takes

An automaton is counted, not kept: the number of its states, of the arrows that leave the states
which read one of several bytes, and of the branches that leave the states which read nothing.

## The model

A fragment is added to the end of what was counted before. It has one start and one end; `forks`
says whether its end is a state with branches, since what is put behind such an end takes one more
branch. Counting fails as soon as there is no more room.
-/

namespace PacketTree.Regex

/-- The size of an automaton. -/
structure Tally where
  /-- The number of states, which is the number of the next one. -/
  states : Nat
  /-- The number of arrows. -/
  arrows : Nat
  /-- The number of branches. -/
  branches : Nat

namespace Tally

/-- Nothing was counted. -/
def zero : Tally := ⟨0, 0, 0⟩

/-- The number of bytes that an automaton takes. -/
def bytes (t : Tally) : Nat := 32 * t.states + 8 * t.arrows + 4 * t.branches

/-- The number of bytes that an automaton may take. -/
def limit : Nat := 10 * 1024 * 1024

/-- The tally with more of each, if there is room. -/
def add? (t : Tally) (states arrows branches : Nat) : Option Tally :=
  let t := ⟨t.states + states, t.arrows + arrows, t.branches + branches⟩
  if t.bytes ≤ limit then some t else none

end Tally

/-- A part of an automaton: what it adds to a tally, and whether its end is a state with branches. -/
abbrev Fragment := Tally → Option (Tally × Bool)

namespace Fragment

/-- Adds to the tally, for a fragment whose end has no branches. -/
def ofCounts (states arrows branches : Nat) : Fragment := fun t =>
  (t.add? states arrows branches).map (·, false)

/-- A single state with one way on. -/
def state : Fragment := ofCounts 1 0 0

/-- Puts something behind an end. -/
def behind (t : Tally) (forks : Bool) : Option Tally := t.add? 0 0 (if forks then 1 else 0)

/-- A fragment behind what ends as `forks` says. -/
def chainFrom (t : Tally) (forks : Bool) : List Fragment → Option (Tally × Bool)
  | [] => some (t, forks)
  | f :: rest =>
    match f t with
    | none => none
    | some (t, next) =>
      match behind t forks with
      | none => none
      | some t => chainFrom t next rest

/-- Fragments one after another. -/
def chain : List Fragment → Fragment
  | [] => state
  | f :: rest => fun t =>
    match f t with
    | none => none
    | some (t, forks) => chainFrom t forks rest

/-- More copies of a fragment behind what ends as `forks` says. -/
def copiesFrom (f : Fragment) (t : Tally) (forks : Bool) : Nat → Option (Tally × Bool)
  | 0 => some (t, forks)
  | n + 1 =>
    match f t with
    | none => none
    | some (t, next) =>
      match behind t forks with
      | none => none
      | some t => copiesFrom f t next n

/-- `n` copies of a fragment, one after another. -/
def copies (f : Fragment) : Nat → Fragment
  | 0 => state
  | n + 1 => fun t =>
    match f t with
    | none => none
    | some (t, forks) => copiesFrom f t forks n

/-- More fragments, each a branch, with their ends joined. -/
def forkFrom (t : Tally) : List Fragment → Option (Tally × Bool)
  | [] => some (t, false)
  | f :: rest =>
    match f t with
    | none => none
    | some (t, forks) =>
      match t.add? 0 0 (if forks then 2 else 1) with
      | none => none
      | some t => forkFrom t rest

/-- One of some fragments: a state with a branch for each, and a state where all of them end. -/
def fork : List Fragment → Fragment
  | [] => state
  | [f] => f
  | f :: g :: rest => fun t => do
    let (t, first) ← f t
    let (t, second) ← g t
    let t ← t.add? 2 0 2
    let t ← behind t first
    let t ← behind t second
    forkFrom t rest

/-- A fragment or nothing. -/
def optional (f : Fragment) : Fragment := fun t => do
  let t ← t.add? 1 0 0
  let (t, forks) ← f t
  let t ← t.add? 1 0 2
  return (← behind t forks, false)

/-- Any number of copies; `consumes` says whether each of them reads something, in which case one
state with branches does. -/
def star (consumes : Bool) (f : Fragment) : Fragment := fun t =>
  if consumes then do
    let t ← t.add? 1 0 1
    let (t, forks) ← f t
    return (← behind t forks, true)
  else do
    let (t, forks) ← f t
    let t ← behind t forks
    return (← t.add? 3 0 4, false)

/-- `n + 1` copies or more. -/
def plus (f : Fragment) (n : Nat) : Fragment := fun t => do
  let (t, forks) ← copies f (n + 1) t
  let t ← behind t forks
  return (← t.add? 1 0 1, true)

/-- More copies, each of which may be the last, behind what ends as `forks` says. -/
def optionalCopiesFrom (f : Fragment) (t : Tally) (forks : Bool) : Nat → Option (Tally × Bool)
  | 0 => (behind t forks).map (·, false)
  | n + 1 =>
    match t.add? 1 0 2 with
    | none => none
    | some t =>
      match f t with
      | none => none
      | some (t, next) =>
        match behind t forks with
        | none => none
        | some t => optionalCopiesFrom f t next n

/-- From `least` copies to `least + more`. -/
def between (f : Fragment) (least more : Nat) : Fragment := fun t => do
  let (t, forks) ← copies f least t
  let t ← t.add? 1 0 0
  optionalCopiesFrom f t forks more

end Fragment

end PacketTree.Regex
