import PacketTree.Json.Basic
import PacketTree.Text.Hex

/-!
# Quoted texts

A JSON string between its quotes. Writing escapes the quote, the backslash and the control
characters, and nothing else; reading also takes the other escapes, among them pairs of surrogate
escapes, and refuses a surrogate that stands alone.
-/

namespace PacketTree.Json

/-- Why a text cannot be read as what is asked for. -/
inductive Problem where
  /-- The text stops before the value is complete. -/
  | endsEarly
  /-- The text is no JSON. -/
  | malformed
  /-- The text is JSON, of another type or range than the one asked for. -/
  | mismatched
  /-- Lists and objects nest too deep. What is left of the text starts with the bracket that is one too
  many. -/
  | tooDeep (rest : List Char)
deriving DecidableEq, Repr

/-- The kind of a problem in words. -/
def Problem.message : Problem → String
  | .endsEarly => "the text ends early"
  | .malformed => "the text is malformed"
  | .mismatched => "a value has the wrong type"
  | .tooDeep _ => "recursion limit exceeded"

/-- What a reader returns: a value and the rest of the text, or the first problem met. -/
abbrev Reading (α : Type) := Except Problem (α × List Char)

/-! ### Writing -/

/-- The escape of a character inside quotes. -/
def escape (c : Char) : List Char :=
  match c with
  | '"' => ['\\', '"']
  | '\\' => ['\\', '\\']
  | '\n' => ['\\', 'n']
  | '\r' => ['\\', 'r']
  | '\t' => ['\\', 't']
  | c =>
    if c.toNat = 8 then ['\\', 'b']
    else if c.toNat = 12 then ['\\', 'f']
    else if c.toNat < 32 then '\\' :: 'u' :: '0' :: '0' :: Text.hexPair (UInt8.ofNat c.toNat)
    else [c]

/-- The quoted form of a text, put before `rest`. -/
def quote (s : List Char) (rest : List Char) : List Char :=
  '"' :: s.foldr (fun c r => escape c ++ r) ('"' :: rest)

/-! ### Reading -/

/-- The number that four hexadecimal digits stand for. -/
def hexQuad? (a b c d : Char) : Option Nat := do
  let a ← Text.hexDigit? a
  let b ← Text.hexDigit? b
  let c ← Text.hexDigit? c
  let d ← Text.hexDigit? d
  return ((a * 16 + b) * 16 + c) * 16 + d

/-- The character of an escape of one letter. -/
def unescape? (c : Char) : Option Char :=
  match c with
  | '"' => some '"'
  | '\\' => some '\\'
  | '/' => some '/'
  | 'b' => some (Char.ofNat 8)
  | 'f' => some (Char.ofNat 12)
  | 'n' => some '\n'
  | 'r' => some '\r'
  | 't' => some '\t'
  | _ => none

/-- The problem with an escape that lacks its four digits: the text ends early if it has fewer than
four bytes left. -/
def shortEscape (rest : List Char) : Problem :=
  if (String.ofList (rest.take 4)).utf8ByteSize < 4 then .endsEarly else .malformed

/-- The first of two surrogates. -/
def isLeading (n : Nat) : Bool := 0xD800 ≤ n && n ≤ 0xDBFF

/-- The second of two surrogates. -/
def isTrailing (n : Nat) : Bool := 0xDC00 ≤ n && n ≤ 0xDFFF

/-- The character that two surrogates stand for. -/
def ofSurrogates (high low : Nat) : Char :=
  Char.ofNat ((high - 0xD800) * 0x400 + (low - 0xDC00) + 0x10000)

/-- The problem with what follows a leading surrogate, where no trailing one could be read. -/
def unpaired : List Char → Problem
  | [] => .endsEarly
  | ['\\'] => .endsEarly
  | '\\' :: 'u' :: rest => shortEscape rest
  | _ => .malformed

/-- Reads the rest of a quoted text, its opening quote gone; `seen` is what was read, last first. -/
def unquoteFrom (seen : List Char) : List Char → Reading (List Char)
  | [] => .error .endsEarly
  | '"' :: rest => .ok (seen.reverse, rest)
  | '\\' :: tail =>
    match tail with
    | [] => .error .endsEarly
    | 'u' :: a :: b :: c :: d :: rest =>
      match hexQuad? a b c d with
      | none => .error .malformed
      | some n =>
        if isTrailing n then .error .malformed
        else if isLeading n then
          match rest with
          | '\\' :: 'u' :: e :: f :: g :: h :: rest' =>
            match hexQuad? e f g h with
            | none => .error .malformed
            | some m =>
              if isTrailing m then unquoteFrom (ofSurrogates n m :: seen) rest'
              else .error .malformed
          | _ => .error (unpaired rest)
        else unquoteFrom (Char.ofNat n :: seen) rest
    | 'u' :: rest => .error (shortEscape rest)
    | c :: rest =>
      match unescape? c with
      | none => .error .malformed
      | some e => unquoteFrom (e :: seen) rest
  | c :: rest => if c.toNat < 32 then .error .malformed else unquoteFrom (c :: seen) rest

/-- Reads a quoted text, its opening quote gone. -/
def unquote (s : List Char) : Reading (List Char) := unquoteFrom [] s

/-- Passes over a quoted text, its opening quote gone. Surrogates may stand alone in it. -/
def skipQuoted : List Char → Except Problem (List Char)
  | [] => .error .endsEarly
  | '"' :: rest => .ok rest
  | '\\' :: tail =>
    match tail with
    | [] => .error .endsEarly
    | 'u' :: a :: b :: c :: d :: rest =>
      if (hexQuad? a b c d).isSome then skipQuoted rest else .error .malformed
    | 'u' :: rest => .error (shortEscape rest)
    | c :: rest => if (unescape? c).isSome then skipQuoted rest else .error .malformed
  | c :: rest => if c.toNat < 32 then .error .malformed else skipQuoted rest

end PacketTree.Json
