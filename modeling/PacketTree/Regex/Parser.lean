import PacketTree.Regex.Parser.Class

/-!
# Reading regular expressions

The written form of expressions: literals, `.`, escapes, bracketed classes, `^` and `$`, groups, flags,
`|`, and the repetitions `* + ? {m} {m,} {m,n}`, each of which may be followed by `?`. Any other
character stands for itself. What does not fit has no reading.

## The model

Reading keeps the groups that are open, innermost first, and for each the flags that hold in it, and the
number of levels that its parts are nested to: a group, a class, a repetition, a list of two or more parts
and a list of two or more alternatives are a level each, and there may be `levelLimit` of them. Flags that
are set count as a part of the group, which stands for nothing and cannot be repeated.
-/

namespace PacketTree.Regex

namespace Parser

/-! ### Repetition counts -/

/-- Reads a decimal number of 32 bits with blanks around it. -/
def readCount (free : Bool) (s : List Char) : Option (Nat × List Char) :=
  let (digits, rest) := takeRun free Char.isDigit (s.dropWhile Text.isBlank)
  let n := digits.foldl (fun n c => n * 10 + (c.toNat - 0x30)) 0
  if digits.isEmpty ∨ n ≥ UInt32.size then none else some (n, rest.dropWhile Text.isBlank)

/-- Reads the upper bound of a repetition behind its comma, unless there is none. -/
def readMost (free : Bool) (least : Nat) (s : List Char) : Option (Option Nat × List Char) :=
  match after? '\x7d' s with
  | some rest => some (none, rest)
  | none => do
    let (most, rest) ← readCount free s
    if least ≤ most then return (some most, ← after? '\x7d' rest) else none

/-- Reads the bounds of a repetition behind their opening brace. -/
def readBounds (free : Bool) (s : List Char) : Option ((Nat × Option Nat) × List Char) := do
  let (least, rest) ← readCount free s
  match after? '\x7d' rest with
  | some rest => return ((least, some least), rest)
  | none =>
    (after? ',' rest).bind fun rest =>
      (readMost free least (skip free rest)).map fun (most, rest) => ((least, most), rest)

/-- Reads a mark that makes a repetition prefer few rounds. -/
def readFew (s : List Char) : Bool × List Char :=
  match after? '?' s with
  | some rest => (true, rest)
  | none => (false, s)

/-! ### Groups -/

/-- The opening of a group, or flags for the rest of the group they stand in. -/
inductive Opening where
  /-- Flags. -/
  | flags (changes : List (Flag × Bool))
  /-- A group without a number, with flags of its own. -/
  | plain (changes : List (Flag × Bool))
  /-- A group with a number and perhaps a name. -/
  | numbered (name : Option String)

/-- A character of the name of a group, which may be its first one. -/
def isNameChar (tables : Tables) (isFirst : Bool) (c : Char) : Bool :=
  c == '_' || Text.inRanges tables.alphabetic c.toNat ||
    (!isFirst && (c == '.' || c == '[' || c == ']' || Text.inRanges tables.numeric c.toNat))

/-- A name of a group. -/
def isName (tables : Tables) : List Char → Bool
  | [] => false
  | c :: cs => isNameChar tables true c && cs.all (isNameChar tables false)

/-- Reads a name up to its closing angle. -/
def readName (tables : Tables) (s : List Char) : Option (String × List Char) :=
  let name := s.takeWhile (· != '>')
  match s.drop name.length with
  | _ :: rest => if isName tables name then some (String.ofList name, rest) else none
  | [] => none

/-- Reads flags up to the colon or the bracket behind them. Those behind a dash are turned off. -/
def readFlags (on : Bool) (changes : List (Flag × Bool)) : List Char → Option (Opening × List Char)
  | [] => none
  | ':' :: s => some (.plain changes, s)
  | ')' :: s => if changes.isEmpty then none else some (.flags changes, s)
  | '-' :: s =>
    if on && s.head? != some ':' && s.head? != some ')' then readFlags false changes s else none
  | c :: s =>
    match Flag.ofLetter? c with
    | none => none
    | some flag =>
      if changes.any (·.1 == flag) then none else readFlags on (changes ++ [(flag, on)]) s

/-- Reads the opening of a group behind its bracket. -/
def readOpening (tables : Tables) (s : List Char) : Option (Opening × List Char) :=
  match after? '?' s with
  | none => some (.numbered none, s)
  | some s =>
    match after? '<' ((after? 'P' s).getD s) with
    | some s => (readName tables s).map fun (name, rest) => (.numbered name, rest)
    | none => readFlags true [] s

/-! ### Expressions -/

/-- An expression with the number of levels it is nested to. -/
structure Part where
  /-- The expression. -/
  expr : Regex
  /-- The number of levels. -/
  levels : Nat

/-- The number of levels of some parts, of which two or more make a level of their own. -/
def Part.levelsOf : List Part → Nat
  | [] => 0
  | [p] => p.levels
  | parts => parts.foldl (fun n p => max n p.levels) 0 + 1

/-- What was read of a group: the alternatives before the current one, and the parts of the current
one, both last first. -/
structure OpenGroup where
  /-- The number of the group, if it has one. -/
  number : Option Nat
  /-- The flags that hold. -/
  flags : Flags
  /-- The alternatives before the current one. -/
  alternatives : List Part
  /-- The parts of the current alternative. -/
  parts : List Part

namespace OpenGroup

/-- A group of which nothing was read. -/
def start (number : Option Nat) (flags : Flags) : OpenGroup := ⟨number, flags, [], []⟩

/-- The parts of the current alternative one after another. -/
def sequence (g : OpenGroup) : Part :=
  ⟨gather .seq (g.parts.reverse.map Part.expr), Part.levelsOf g.parts⟩

/-- What was read as one expression. -/
def content (g : OpenGroup) : Part :=
  let alternatives := g.sequence :: g.alternatives
  ⟨gather .alt (alternatives.reverse.map Part.expr), Part.levelsOf alternatives⟩

/-- The group in its brackets. -/
def close (g : OpenGroup) : Part := ⟨.group g.number g.content.expr, g.content.levels + 1⟩

/-- The group with one more part. -/
def push (g : OpenGroup) (p : Part) : OpenGroup := { g with parts := p :: g.parts }

/-- The group with one more part that is nested to no level. -/
def pushLeaf (g : OpenGroup) (e : Regex) : OpenGroup := g.push ⟨e, 0⟩

/-- The group after the mark of an alternative. -/
def split (g : OpenGroup) : OpenGroup :=
  { g with alternatives := g.sequence :: g.alternatives, parts := [] }

/-- The group with flags set from here on. -/
def change (g : OpenGroup) (changes : List (Flag × Bool)) : OpenGroup :=
  { g.pushLeaf .empty with flags := g.flags.change changes }

/-- The group with its last part repeated, if that stands for something. -/
def repeatLast? (g : OpenGroup) (least : Nat) (most : Option Nat) (few : Bool) :
    Option OpenGroup :=
  match g.parts with
  | [] => none
  | p :: parts =>
    if p.expr = .empty then none
    else some { g with parts := ⟨.rep p.expr least most few, p.levels + 1⟩ :: parts }

end OpenGroup

/-- What was read of an expression. -/
structure Reading where
  /-- The groups around the current one, innermost first. -/
  outer : List OpenGroup
  /-- The current group, or what stands outside all groups. -/
  group : OpenGroup
  /-- The number of numbered groups so far. -/
  count : Nat
  /-- The names of groups so far. -/
  names : List String

namespace Reading

/-- Nothing was read. -/
def start : Reading := ⟨[], .start none {}, 0, []⟩

/-- The reading with another current group. -/
def withGroup (r : Reading) (g : OpenGroup) : Reading := { r with group := g }

/-- The reading with one more part of the current group. -/
def push (r : Reading) (e : Regex) : Reading := r.withGroup (r.group.pushLeaf e)

/-- The reading inside a new group with a number or without. -/
def enter (r : Reading) (number : Option Nat) (flags : Flags) : Reading :=
  { r with outer := r.group :: r.outer, group := .start number flags }

/-- The reading behind an opening; `none` if the name of the group is taken. -/
def open? (r : Reading) : Opening → Option Reading
  | .flags changes => some (r.withGroup (r.group.change changes))
  | .plain changes => some (r.enter none (r.group.flags.change changes))
  | .numbered name =>
    if name.any r.names.contains then none
    else
      some { r.enter (some (r.count + 1)) r.group.flags with
        count := r.count + 1
        names := name.toList ++ r.names }

/-- The reading behind the current group, unless that was not opened. -/
def leave? (r : Reading) : Option Reading :=
  match r.outer with
  | [] => none
  | parent :: outer => some { r with outer := outer, group := parent.push r.group.close }

/-- The reading with the last part of the current group repeated, and the text behind the mark that
may follow. -/
def repeatLast? (r : Reading) (least : Nat) (most : Option Nat) (s : List Char) :
    Option (Reading × List Char) :=
  let (few, s) := readFew s
  (r.group.repeatLast? least most (few != r.group.flags.few)).map fun g => (r.withGroup g, s)

/-- The expression, unless a group is open. -/
def finish? (r : Reading) : Option Part := if r.outer.isEmpty then some r.group.content else none

end Reading

/-- Reads one part of an expression, which starts with a character. -/
def readPart (tables : Tables) (r : Reading) (c : Char) (s : List Char) :
    Option (Reading × List Char) :=
  let flags := r.group.flags
  match c with
  | '(' => do
    let (opening, s) ← readOpening tables (skip flags.free s)
    return (← r.open? opening, s)
  | ')' => r.leave?.map (·, s)
  | '|' => some (r.withGroup r.group.split, s)
  | '*' => r.repeatLast? 0 none s
  | '+' => r.repeatLast? 1 none s
  | '?' => r.repeatLast? 0 (some 1) s
  | '\x7b' => do
    let ((least, most), s) ← readBounds flags.free s
    r.repeatLast? least most (skip flags.free s)
  | '[' => do
    let (c, rest) := openClass flags.free s
    let (set, s) ← readClass tables flags [] c (s.length + 1) rest
    return (r.withGroup (r.group.push ⟨.char set.set, set.levels⟩), s)
  | '\\' => do
    let (escape, s) ← readEscape tables flags s
    return (r.push (match escape with
      | .literal c => .char (flags.cased tables (.single c))
      | .set t => .char t
      | .place a => .place a), s)
  | '.' => flags.dot?.map fun t => (r.push (.char t), s)
  | '^' => some (r.push (.place flags.start), s)
  | '$' => some (r.push (.place flags.stop), s)
  | c => some (r.push (.char (flags.cased tables (.single c))), s)

/-- Reads an expression to the end of the text. `count` bounds the number of parts. -/
def readFrom (tables : Tables) (r : Reading) : Nat → List Char → Option Part
  | 0, _ => none
  | count + 1, s =>
    match skip r.group.flags.free s with
    | [] => r.finish?
    | c :: s =>
      match readPart tables r c s with
      | none => none
      | some (r, s) => readFrom tables r count s

/-- The number of levels that the parts of an expression may be nested to. -/
def levelLimit : Nat := 250

end Parser

open PacketTree.Regex.Parser in
/-- The expression that a text stands for, if it is not nested too deep. -/
def read? (tables : Tables) (text : String) : Option Regex :=
  match readFrom tables .start (text.length + 1) text.toList with
  | none => none
  | some p => if p.levels ≤ levelLimit then some p.expr else none

end PacketTree.Regex
