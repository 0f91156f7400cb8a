import PacketTree.Regex.Parser.Escape

/-!
# Bracketed classes

The written form of sets: characters, ranges, escapes, the names of `[:alpha:]` and its like, nested
classes, `^` for the characters outside, and the operators `&& -- ~~`, which group to the left.

## The model

What was read of a class is kept item by item, together with the number of levels that the item is
nested to: a class, a list of two or more items and an operator are a level each.
-/

namespace PacketTree.Regex.Parser

/-- Sets put together, nested to little depth. -/
def unionAll (sets : List CharSet) : CharSet :=
  rounds sets.length sets
where
  /-- Neighbours put together, until one set is left. -/
  rounds : Nat → List CharSet → CharSet
    | _, [] => .empty
    | _, [s] => s
    | 0, s :: _ => s
    | n + 1, sets => rounds n (pairs [] sets)
  /-- Each two neighbours put together, behind those done, which are last first. -/
  pairs (done : List CharSet) : List CharSet → List CharSet
    | [] => done.reverse
    | [s] => (s :: done).reverse
    | s :: t :: rest => pairs (.union s t :: done) rest

/-! ### Names -/

/-- The set that a name such as `alpha` stands for. -/
def setNamed? (name : List Char) : Option CharSet :=
  let upper := CharSet.range 'A' 'Z'
  let lower := CharSet.range 'a' 'z'
  let digit := CharSet.range '0' '9'
  let alpha := CharSet.union upper lower
  let alnum := CharSet.union digit alpha
  let delete := CharSet.single (Char.ofNat 0x7F)
  [("alnum", alnum),
    ("alpha", alpha),
    ("ascii", .range (Char.ofNat 0) (Char.ofNat 0x7F)),
    ("blank", .union (.single '\t') (.single ' ')),
    ("cntrl", .union (.range (Char.ofNat 0) (Char.ofNat 0x1F)) delete),
    ("digit", digit),
    ("graph", .range '!' '~'),
    ("lower", lower),
    ("print", .range ' ' '~'),
    ("punct", .diff (.range '!' '~') alnum),
    ("space", .union (.range '\t' '\r') (.single ' ')),
    ("upper", upper),
    ("word", .union alnum (.single '_')),
    ("xdigit", .union digit (.union (.range 'A' 'F') (.range 'a' 'f')))].lookup
      (String.ofList name)

/-- Reads a name between colons behind its bracket, `^` in front of it standing for the characters
outside; `none` if there is no such name. -/
def readNamed? : List Char → Option ((Bool × CharSet) × List Char)
  | ':' :: s =>
    let (negated, s) := match s with
      | '^' :: s => (true, s)
      | s => (false, s)
    let name := s.takeWhile (· != ':')
    match s.drop name.length with
    | ':' :: ']' :: rest => (setNamed? name).map fun set => ((negated, set), rest)
    | _ => none
  | _ => none

/-! ### Items -/

/-- What stands for itself or for a set inside a class. -/
def readClassItem (tables : Tables) (flags : Flags) : List Char → Option ((Char ⊕ CharSet) × List Char)
  | [] => none
  | '\\' :: s =>
    match readEscape tables flags s with
    | some (.literal c, rest) => if flags.allows c then some (.inl c, rest) else none
    | some (.set t, rest) => some (.inr t, rest)
    | _ => none
  | c :: s => if flags.allows c then some (.inl c, s) else none

/-- The set that an item stands for. -/
def itemSet : Char ⊕ CharSet → CharSet
  | .inl c => .single c
  | .inr t => t

/-- The characters between two items, which have to be in order. -/
def itemRange? : Char ⊕ CharSet → Char ⊕ CharSet → Option CharSet
  | .inl low, .inl high => if low ≤ high then some (.range low high) else none
  | _, _ => none

/-- Whether the dash in front of a text stands for no range: what follows is the end of the class or
another dash. Of a comment only the hash is passed over here. -/
def isLastDash (free : Bool) (s : List Char) : Bool :=
  let s := if free then s.dropWhile Text.isBlank else s
  let s := if free && s.head? == some '#' then s.tail.dropWhile Text.isBlank else s
  s.head? == some ']' || s.head? == some '-'

/-- Reads an item of a class, and the end of the range that it starts if it starts one. -/
def readClassRange (tables : Tables) (flags : Flags) (s : List Char) :
    Option (CharSet × List Char) := do
  let (item, rest) ← readClassItem tables flags s
  let rest := skip flags.free rest
  match after? '-' rest with
  | none => return (itemSet item, rest)
  | some after =>
    if isLastDash flags.free after then return (itemSet item, rest)
    else
      let (last, rest) ← readClassItem tables flags (skip flags.free after)
      return (← itemRange? item last, rest)

/-! ### Classes -/

/-- A set with the number of levels it is nested to. -/
structure NestedSet where
  /-- The set. -/
  set : CharSet
  /-- The number of levels. -/
  levels : Nat

/-- An operator on sets. -/
inductive SetOperator where
  /-- The characters in both. -/
  | inter
  /-- The characters in the first only. -/
  | diff
  /-- The characters in one only. -/
  | symmDiff

/-- What an operator makes of two sets. -/
def SetOperator.apply : SetOperator → CharSet → CharSet → CharSet
  | .inter, s, t => .inter s t
  | .diff, s, t => .diff s t
  | .symmDiff, s, t => s.symmDiff t

/-- Reads an operator. -/
def readOperator? : List Char → Option (SetOperator × List Char)
  | '&' :: '&' :: rest => some (.inter, rest)
  | '-' :: '-' :: rest => some (.diff, rest)
  | '~' :: '~' :: rest => some (.symmDiff, rest)
  | _ => none

/-- A class of which the end is still to be read. -/
structure OpenClass where
  /-- It stands for the characters outside. -/
  negated : Bool
  /-- The items since the last operator, last first. -/
  items : List NestedSet
  /-- What stands before the last operator, and that operator. -/
  operand : Option (NestedSet × SetOperator)

namespace OpenClass

/-- The class with one more item. -/
def push (c : OpenClass) (item : NestedSet) : OpenClass := { c with items := item :: c.items }

/-- The items since the last operator as one set. -/
def listed (c : OpenClass) : NestedSet where
  set := unionAll (c.items.reverse.map NestedSet.set)
  levels := match c.items with
    | [] => 0
    | [item] => item.levels
    | items => items.foldl (fun n item => max n item.levels) 0 + 1

/-- What was read, its operators applied. -/
def content (tables : Tables) (flags : Flags) (c : OpenClass) : NestedSet :=
  match c.operand with
  | none => c.listed
  | some (left, op) =>
    ⟨op.apply (flags.cased tables left.set) (flags.cased tables c.listed.set),
      max left.levels c.listed.levels + 1⟩

/-- The class behind an operator. -/
def split (tables : Tables) (flags : Flags) (c : OpenClass) (op : SetOperator) : OpenClass :=
  { c with items := [], operand := some (c.content tables flags, op) }

/-- The set that the class stands for. Case is taken out of account before the set is negated. -/
def close? (tables : Tables) (flags : Flags) (c : OpenClass) : Option NestedSet :=
  let content := c.content tables flags
  (flags.negate? c.negated (flags.cased tables content.set)).map fun set => ⟨set, content.levels + 1⟩

end OpenClass

/-- Reads the start of a class behind its bracket: a mark of negation, and the characters that stand
for themselves there, which are dashes and one closing bracket. -/
def openClass (free : Bool) (s : List Char) : OpenClass × List Char :=
  match after? '^' (skip free s) with
  | some rest => firstItems true (skip free rest)
  | none => firstItems false (skip free s)
where
  /-- Reads the characters that stand for themselves. -/
  firstItems (negated : Bool) (s : List Char) : OpenClass × List Char :=
    let (dashes, rest) := takeRun free (· == '-') s
    match dashes, after? ']' rest with
    | [], some rest => (⟨negated, [⟨.single ']', 0⟩], none⟩, skip free rest)
    | _, _ => (⟨negated, dashes.map fun c => ⟨.single c, 0⟩, none⟩, rest)

/-- What one item makes of a class and of those around it, innermost first: the set, if it ends the
outermost one. -/
def classStep? (tables : Tables) (flags : Flags) (outer : List OpenClass) (c : OpenClass)
    (s : List Char) : Option ((NestedSet ⊕ List OpenClass × OpenClass) × List Char) :=
  let s := skip flags.free s
  match after? ']' s, after? '[' s with
  | some rest, _ =>
    (c.close? tables flags).map fun closed =>
      (match outer with
        | [] => .inl closed
        | parent :: outer => .inr (outer, parent.push closed), rest)
  | none, some rest =>
    match readNamed? rest with
    | some ((negated, set), rest) =>
      (flags.negate? negated (flags.cased tables set)).map fun set =>
        (.inr (outer, c.push ⟨set, 0⟩), rest)
    | none =>
      let (inner, rest) := openClass flags.free rest
      some (.inr (c :: outer, inner), rest)
  | none, none =>
    match readOperator? s with
    | some (op, rest) => some (.inr (outer, c.split tables flags op), rest)
    | none =>
      (readClassRange tables flags s).map fun (set, rest) => (.inr (outer, c.push ⟨set, 0⟩), rest)

/-- Reads a class behind its opening; `outer` holds the classes it stands in, innermost first.
`count` bounds the number of items. -/
def readClass (tables : Tables) (flags : Flags) (outer : List OpenClass) (c : OpenClass) :
    Nat → List Char → Option (NestedSet × List Char)
  | 0, _ => none
  | count + 1, s =>
    match classStep? tables flags outer c s with
    | none => none
    | some (.inl set, rest) => some (set, rest)
    | some (.inr (outer, c), rest) => readClass tables flags outer c count rest

end PacketTree.Regex.Parser
