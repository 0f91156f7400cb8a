import PacketTree.Json.Number

/-!
# Reading JSON

A reader takes a text from the front and returns what it read with the rest of the text, or the
first problem it met. `readValue` builds the document and limits how deep lists and objects may
nest; `skipValue` only checks the grammar, at any depth and for numbers of any size.
-/

namespace PacketTree.Json

/-- The characters that may stand between the parts of a text. -/
def isSpace (c : Char) : Bool := c == ' ' || c == '\n' || c == '\t' || c == '\r'

/-- The text from its first character that is no space. -/
def skipSpace (s : List Char) : List Char := s.dropWhile isSpace

/-- Reads the given letters. -/
def readWord : List Char → List Char → Except Problem (List Char)
  | [], rest => .ok rest
  | _ :: _, [] => .error .endsEarly
  | c :: word, d :: rest => if c = d then readWord word rest else .error .malformed

/-- Looks for the next item of a list or object: `some` text that starts with it, past the comma, or
`none` if the closing bracket comes, with the text behind it. -/
def nextItem (close : Char) (first : Bool) (s : List Char) :
    Except Problem (Option (List Char) × List Char) :=
  match skipSpace s with
  | [] => .error .endsEarly
  | c :: rest =>
    if c = close then .ok (none, rest)
    else if first then .ok (some (c :: rest), rest)
    else if c = ',' then
      match skipSpace rest with
      | [] => .error .endsEarly
      | d :: rest' => if d = close then .error .malformed else .ok (some (d :: rest'), rest')
    else .error .malformed

/-- Reads the items of a list or object up to its closing bracket, one `item` after another with
commas between them. `count` bounds their number: the length of the text always suffices. -/
def readMany {α : Type} (item : List Char → Reading α) (close : Char) (first : Bool) :
    Nat → List Char → Reading (List α)
  | 0, _ => .error .malformed
  | count + 1, s =>
    match nextItem close first s with
    | .error p => .error p
    | .ok (none, rest) => .ok ([], rest)
    | .ok (some text, _) =>
      match item text with
      | .error p => .error p
      | .ok (x, s) => (readMany item close false count s).map fun (xs, rest) => (x :: xs, rest)

/-- Reads the colon after a name. -/
def readColon (s : List Char) : Except Problem (List Char) :=
  match skipSpace s with
  | [] => .error .endsEarly
  | ':' :: rest => .ok rest
  | _ => .error .malformed

/-- Reads a name, a colon and a value. -/
def readMember {α : Type} (value : List Char → Reading α) (s : List Char) :
    Except Problem ((String × α) × List Char) := do
  match s with
  | [] => throw .endsEarly
  | '"' :: s =>
    let (name, s) ← unquote s
    let (x, s) ← value (← readColon s)
    return ((String.ofList name, x), s)
  | _ => throw .malformed

/-- Reads a document in which lists and objects nest at most `depth` deep and hold fewer than `count`
items each. -/
def readValue (count depth : Nat) (s : List Char) : Reading Json :=
  match skipSpace s with
  | [] => .error .endsEarly
  | 'n' :: rest => (readWord ['u', 'l', 'l'] rest).map (.null, ·)
  | 't' :: rest => (readWord ['r', 'u', 'e'] rest).map (.bool true, ·)
  | 'f' :: rest => (readWord ['a', 'l', 's', 'e'] rest).map (.bool false, ·)
  | '"' :: rest => (unquote rest).map fun (text, rest) => (.string (String.ofList text), rest)
  | '[' :: rest =>
    match depth with
    | 0 => .error (.tooDeep ('[' :: rest))
    | inner + 1 =>
      (readMany (readValue count inner) ']' true count rest).map
        fun (items, rest) => (.array items, rest)
  | '\x7b' :: rest =>
    match depth with
    | 0 => .error (.tooDeep ('\x7b' :: rest))
    | inner + 1 =>
      (readMany (readMember (readValue count inner)) '\x7d' true count rest).map
        fun (members, rest) => (.object members, rest)
  | c :: rest =>
    if c = '-' ∨ c.isDigit then (readNumber (c :: rest)).map fun (n, rest) => (.number n, rest)
    else .error .malformed

/-- How deep lists and objects may nest in a document. -/
def maxDepth : Nat := 127

/-- Nothing but space may follow a complete text. -/
def finish {α : Type} (r : Reading α) : Except Problem α := do
  let (x, rest) ← r
  if (skipSpace rest).isEmpty then return x else throw .malformed

/-- The document that a text stands for. -/
def parse (text : String) : Except Problem Json :=
  finish (readValue (text.length + 1) maxDepth text.toList)

/-- The line and the column of the first character of `rest` in a text that ends with it, both counted
from one, columns in bytes. -/
def placeOf (text rest : List Char) : Nat × Nat :=
  let before := text.take (text.length - rest.length)
  let line := before.reverse.takeWhile (· != '\n')
  (before.count '\n' + 1, line.foldl (fun n c => n + c.utf8Size) 1)

/-- The problem with a text in words, with the place of a bracket that nests too deep. -/
def Problem.describe (text : String) (p : Problem) : String :=
  match p with
  | .tooDeep rest =>
    let (line, column) := placeOf text.toList rest
    p.message ++ " at line " ++ toString line ++ " column " ++ toString column
  | _ => p.message

example : (Problem.tooDeep ['[', '1']).describe "[\n[\"é\",[1" =
    "recursion limit exceeded at line 2 column 7" := by decide +kernel

/-! ### Passing over values -/

/-- Passes over a number. One that the text cuts short is malformed here. -/
def skipNumeral (s : List Char) : Reading Unit :=
  match scanNumeral s with
  | .error _ => .error .malformed
  | .ok (_, rest) => .ok ((), rest)

/-- Passes over a name, a colon and a value. -/
def skipMember (value : List Char → Reading Unit) (s : List Char) :
    Except Problem (Unit × List Char) := do
  match s with
  | [] => throw .endsEarly
  | '"' :: s => value (← readColon (← skipQuoted s))
  | _ => throw .malformed

/-- Passes over a value in which lists and objects nest at most `depth` deep and hold fewer than
`count` items each. -/
def skipNested (count depth : Nat) (s : List Char) : Reading Unit :=
  match skipSpace s with
  | [] => .error .endsEarly
  | 'n' :: rest => (readWord ['u', 'l', 'l'] rest).map ((), ·)
  | 't' :: rest => (readWord ['r', 'u', 'e'] rest).map ((), ·)
  | 'f' :: rest => (readWord ['a', 'l', 's', 'e'] rest).map ((), ·)
  | '"' :: rest => (skipQuoted rest).map ((), ·)
  | '[' :: rest =>
    match depth with
    | 0 => .error .malformed
    | inner + 1 =>
      (readMany (skipNested count inner) ']' true count rest).map
        fun (_, rest) => ((), rest)
  | '\x7b' :: rest =>
    match depth with
    | 0 => .error .malformed
    | inner + 1 =>
      (readMany (skipMember (skipNested count inner)) '\x7d' true count rest).map
        fun (_, rest) => ((), rest)
  | c :: rest =>
    if c = '-' ∨ c.isDigit then skipNumeral (c :: rest) else .error .malformed

/-- Passes over a value of any depth: a text cannot nest deeper than it is long. -/
def skipValue (s : List Char) : Reading Unit := skipNested (s.length + 1) s.length s

end PacketTree.Json
