import PacketTree.Regex.Flags
import PacketTree.Regex.Parser.Space
import PacketTree.Text.Hex

/-!
# Escapes

What a backslash and the characters behind it stand for: `\d \s \w` and their negations, the properties
`\p \P` with a letter or with a name in braces, the assertions `\b \B \A \z \< \>`, the control characters
`\n \r \t \a \v \f`, the code points `\xHH \uHHHH \UHHHHHHHH` (or digits in braces), and punctuation,
which stands for itself.
-/

namespace PacketTree.Regex.Parser

/-- What a backslash and the characters behind it stand for. -/
inductive Escape where
  /-- A character. -/
  | literal (c : Char)
  /-- A set of characters. -/
  | set (s : CharSet)
  /-- An assertion about a place. -/
  | place (a : Assertion)

/-- Punctuation that may follow a backslash to stand for itself. -/
def isPunctuation (c : Char) : Bool :=
  c.toNat < 128 && !c.isAlphanum && c != '<' && c != '>'

/-- Reads what stands in braces, behind the opening one. -/
def readBraced (free : Bool) (s : List Char) : Option (List Char × List Char) :=
  match takeRun free (· != '\x7d') s with
  | (content, _ :: rest) => some (content, rest)
  | _ => none

/-! ### Code points -/

/-- The character with a code point, unless that is a surrogate or too large. -/
def charOfNat? (n : Nat) : Option Char := if n.isValidChar then some (Char.ofNat n) else none

/-- The character of which hexadecimal digits are the code point. -/
def charOfHex? (digits : List Char) : Option Char :=
  if digits.isEmpty then none
  else (digits.foldlM (fun n c => (Text.hexDigit? c).map (n * 16 + ·)) 0).bind charOfNat?

/-- Reads so many characters. -/
def readMany (free : Bool) : Nat → List Char → Option (List Char × List Char)
  | 0, s => some ([], s)
  | _ + 1, [] => none
  | n + 1, c :: s => (readMany free n (skip free s)).map fun (cs, rest) => (c :: cs, rest)

/-- Reads so many digits, or any number of them in braces. -/
def readDigits (free : Bool) (count : Nat) (s : List Char) : Option (List Char × List Char) :=
  match after? '\x7b' s with
  | some s => (readBraced free s).map fun (digits, rest) => (digits, skip free rest)
  | none => readMany free count s

/-- Reads a code point in hexadecimal digits. -/
def readCodePoint (free : Bool) (count : Nat) (s : List Char) : Option (Char × List Char) := do
  let (digits, rest) ← readDigits free count s
  return (← charOfHex? digits, rest)

/-- Reads a code point that is a byte unless it stands in braces. Without Unicode it is the byte itself,
which has to be ASCII. -/
def readByte (flags : Flags) (s : List Char) : Option (Char × List Char) :=
  match after? '\x7b' s with
  | some _ => readCodePoint flags.free 2 s
  | none => (readCodePoint flags.free 2 s).filter fun (c, _) => flags.allows c

/-! ### Words -/

/-- How words stand by a name, which stands in braces behind `\b`. -/
def edgeNamed? (name : List Char) : Option WordEdge :=
  [("start", WordEdge.start), ("end", .stop), ("start-half", .noneBefore),
    ("end-half", .noneAfter)].lookup (String.ofList name)

/-- A character of such a name. -/
def isEdgeChar (c : Char) : Bool := c.isAlpha || c == '-'

/-- Reads what follows `\b`: a name in braces, which may also be a count of repetitions. -/
def readEdge (free : Bool) (s : List Char) : Option (WordEdge × List Char) :=
  match after? '\x7b' s with
  | none => some (.boundary, s)
  | some inner =>
    match takeRun free isEdgeChar inner with
    | ([], []) => none
    | ([], _) => some (.boundary, s)
    | (name, rest) => do return (← edgeNamed? name, ← after? '\x7d' rest)

/-! ### Properties -/

/-- The text before a mark and the text behind it. -/
def cutAt? (mark : List Char) : List Char → Option (List Char × List Char)
  | [] => none
  | c :: s =>
    if mark.isPrefixOf (c :: s) then some ([], (c :: s).drop mark.length)
    else (cutAt? mark s).map fun (before, behind) => (c :: before, behind)

/-- The characters with a property of a name, or for which a property has a value, or has not. -/
def property? (tables : Tables) (name : List Char) : Option (Bool × Text.Ranges) :=
  let valued (differs : Bool) (parts : List Char × List Char) :=
    (tables.valued? (String.ofList parts.1) (String.ofList parts.2)).map (differs, ·)
  match cutAt? ['!', '='] name, cutAt? [':'] name, cutAt? ['='] name with
  | some parts, _, _ => valued true parts
  | none, some parts, _ => valued false parts
  | none, none, some parts => valued false parts
  | none, none, none => (tables.named? (String.ofList name)).map (false, ·)

/-- Reads a property behind `\p`: one letter, or a name in braces. -/
def readProperty (tables : Tables) (free : Bool) (s : List Char) :
    Option ((Bool × Text.Ranges) × List Char) :=
  match after? '\x7b' s with
  | some s => do
    let (name, rest) ← readBraced free s
    return (← property? tables name, rest)
  | none => do
    let (name, rest) ← readMany free 1 s
    if name = ['\\'] then none
    else return ((false, ← tables.named? (String.ofList name)), skip free rest)

/-- The set of the characters with a property, or of those without, which needs Unicode. -/
def propertySet? (tables : Tables) (flags : Flags) (negated : Bool) (found : Bool × Text.Ranges) :
    Option CharSet :=
  if flags.unicode then flags.negate? (negated != found.1) (flags.cased tables (.points found.2))
  else none

/-- Reads the set of the characters with a property, or of those without. -/
def readPropertySet (tables : Tables) (flags : Flags) (negated : Bool) (s : List Char) :
    Option (CharSet × List Char) := do
  let (found, rest) ← readProperty tables flags.free (skip flags.free s)
  return (← propertySet? tables flags negated found, rest)

/-! ### All escapes -/

/-- Reads what follows a backslash. -/
def readEscape (tables : Tables) (flags : Flags) : List Char → Option (Escape × List Char)
  | [] => none
  | c :: s =>
    match c with
    | 'd' => (flags.kind? false .digit).map (.set ·, s)
    | 'D' => (flags.kind? true .digit).map (.set ·, s)
    | 's' => (flags.kind? false .space).map (.set ·, s)
    | 'S' => (flags.kind? true .space).map (.set ·, s)
    | 'w' => (flags.kind? false .word).map (.set ·, s)
    | 'W' => (flags.kind? true .word).map (.set ·, s)
    | 'p' => (readPropertySet tables flags false s).map fun (t, rest) => (.set t, rest)
    | 'P' => (readPropertySet tables flags true s).map fun (t, rest) => (.set t, rest)
    | 'b' => (readEdge flags.free s).map fun (edge, rest) => (.place (.word edge flags.unicode), rest)
    | 'B' => some (.place (.word .noBoundary flags.unicode), s)
    | 'A' => some (.place .start, s)
    | 'z' => some (.place .stop, s)
    | '<' => some (.place (.word .start flags.unicode), s)
    | '>' => some (.place (.word .stop flags.unicode), s)
    | 'n' => some (.literal '\n', s)
    | 'r' => some (.literal '\r', s)
    | 't' => some (.literal '\t', s)
    | 'a' => some (.literal (Char.ofNat 7), s)
    | 'v' => some (.literal (Char.ofNat 11), s)
    | 'f' => some (.literal (Char.ofNat 12), s)
    | 'x' => (readByte flags (skip flags.free s)).map fun (c, rest) => (.literal c, rest)
    | 'u' => (readCodePoint flags.free 4 (skip flags.free s)).map fun (c, rest) => (.literal c, rest)
    | 'U' => (readCodePoint flags.free 8 (skip flags.free s)).map fun (c, rest) => (.literal c, rest)
    | c => if isPunctuation c then some (.literal c, s) else none

end PacketTree.Regex.Parser
