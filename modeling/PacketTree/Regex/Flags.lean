import PacketTree.Regex.Basic

/-!
# Flags

What an expression means can be changed from within: whether case matters, what the ends of lines are,
whether blanks stand for themselves, and whether it is about all characters or about ASCII. A flag holds
up to the end of the group in which it is set.

## The model

What Unicode says of characters is given by `Tables`: which characters have a property, which differ by
case only, and which are letters and numbers. A set to which case does not matter is made of all
characters that differ from its own by case only. Without Unicode no set may go beyond ASCII.
-/

namespace PacketTree.Regex

/-- What Unicode says of characters. -/
structure Tables where
  /-- The characters with a property, or of a category or script, by its name. -/
  named? : String → Option Text.Ranges
  /-- The characters for which a property has a value, by the names of both. -/
  valued? : String → String → Option Text.Ranges
  /-- The characters that differ from others by case only, each with these others. -/
  cases : List (Nat × List Nat)
  /-- Letters and other alphabetic characters. -/
  alphabetic : Text.Ranges
  /-- Digits and other numbers. -/
  numeric : Text.Ranges

/-- The letters of ASCII, each with the one that differs from it by case. -/
def asciiCases : List (Nat × List Nat) :=
  (List.range' 0x41 26).flatMap fun n => [(n, [n + 0x20]), (n + 0x20, [n])]

/-- Some code points and all that differ from them by case only. -/
def foldCase (cases : List (Nat × List Nat)) (r : Text.Ranges) : Text.Ranges :=
  r.union (.ofPoints ((cases.filter fun (n, _) => Text.inRanges r n).flatMap Prod.snd))

/-- Tables that know the letters and digits of ASCII, the two other characters that differ from letters
of ASCII by case only, and the properties for which there is a table. -/
def Tables.ascii : Tables where
  named? name :=
    [("Any", [(0, Text.Ranges.lastCodePoint)]), ("ASCII", [(0, 0x7F)]), ("Nd", Text.digitRanges),
      ("White_Space", Text.blankRanges)].lookup name
  valued? property value :=
    if property ∈ ["gc", "General_Category"] ∧ value = "Nd" then some Text.digitRanges else none
  cases := asciiCases ++
    [(0x4B, [0x212A]), (0x6B, [0x212A]), (0x212A, [0x4B, 0x6B]), (0x53, [0x17F]), (0x73, [0x17F]),
      (0x17F, [0x53, 0x73])]
  alphabetic := [(0x41, 0x5A), (0x61, 0x7A)]
  numeric := [(0x30, 0x39)]

/-- What can be changed within an expression. -/
inductive Flag where
  /-- Case does not matter. -/
  | caseless
  /-- `^` and `$` are about lines. -/
  | lines
  /-- `.` stands for ends of lines, too. -/
  | dotAll
  /-- Repetitions prefer few rounds unless they are marked. -/
  | few
  /-- Lines may end with a carriage return. -/
  | carriage
  /-- The expression is about all characters, not about ASCII only. -/
  | unicode
  /-- Blanks and comments are passed over. -/
  | free
deriving DecidableEq, Repr

/-- The flag with a letter. -/
def Flag.ofLetter? : Char → Option Flag
  | 'i' => some .caseless
  | 'm' => some .lines
  | 's' => some .dotAll
  | 'U' => some .few
  | 'R' => some .carriage
  | 'u' => some .unicode
  | 'x' => some .free
  | _ => none

/-- The flags that hold at some place of an expression. -/
structure Flags where
  /-- Case does not matter. -/
  caseless : Bool := false
  /-- `^` and `$` are about lines. -/
  lines : Bool := false
  /-- `.` stands for ends of lines, too. -/
  dotAll : Bool := false
  /-- Repetitions prefer few rounds unless they are marked. -/
  few : Bool := false
  /-- Lines may end with a carriage return. -/
  carriage : Bool := false
  /-- The expression is about all characters, not about ASCII only. -/
  unicode : Bool := true
  /-- Blanks and comments are passed over. -/
  free : Bool := false
deriving DecidableEq, Repr

namespace Flags

/-- The flags with one of them turned on or off. -/
def set (flags : Flags) (on : Bool) : Flag → Flags
  | .caseless => { flags with caseless := on }
  | .lines => { flags with lines := on }
  | .dotAll => { flags with dotAll := on }
  | .few => { flags with few := on }
  | .carriage => { flags with carriage := on }
  | .unicode => { flags with unicode := on }
  | .free => { flags with free := on }

/-- The flags after some of them were turned on or off. -/
def change (flags : Flags) (changes : List (Flag × Bool)) : Flags :=
  changes.foldl (fun flags (flag, on) => flags.set on flag) flags

/-- A set may go beyond ASCII, or the character does not. -/
def allows (flags : Flags) (c : Char) : Bool := flags.unicode || c.toNat < 0x80

/-- A set, with all that differs from its characters by case only unless case matters. -/
def cased (flags : Flags) (tables : Tables) (s : CharSet) : CharSet :=
  if flags.caseless then
    .points (foldCase (if flags.unicode then tables.cases else asciiCases) s.ranges)
  else s

/-- A set, or the characters outside it if it is `negated`, which need Unicode. -/
def negate? (flags : Flags) (negated : Bool) (s : CharSet) : Option CharSet :=
  if !negated then some s else if flags.unicode then some (.complement s) else none

/-- The set of the characters of a kind, or of those outside it. -/
def kind? (flags : Flags) (negated : Bool) (k : CharKind) : Option CharSet :=
  flags.negate? negated (.ofKind flags.unicode k)

/-- The set that a dot stands for, which needs Unicode. -/
def dot? (flags : Flags) : Option CharSet :=
  flags.negate? true <|
    if flags.dotAll then .empty
    else if flags.carriage then .union (.single '\r') (.single '\n')
    else .single '\n'

/-- What `^` asserts. -/
def start (flags : Flags) : Assertion := if flags.lines then .lineStart flags.carriage else .start

/-- What `$` asserts. -/
def stop (flags : Flags) : Assertion := if flags.lines then .lineStop flags.carriage else .stop

end Flags

end PacketTree.Regex
