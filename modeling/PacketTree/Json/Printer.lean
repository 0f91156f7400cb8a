import PacketTree.Json.Number

/-!
# Writing JSON

Two forms of one document: compact, without any space, and indented by two spaces a level. Both are
written before a given rest of text, so that a document and what follows it need no appending.
-/

namespace PacketTree.Json

mutual

/-- The compact form of a document, put before `rest`. -/
def write : Json → List Char → List Char
  | .null, rest => 'n' :: 'u' :: 'l' :: 'l' :: rest
  | .bool true, rest => 't' :: 'r' :: 'u' :: 'e' :: rest
  | .bool false, rest => 'f' :: 'a' :: 'l' :: 's' :: 'e' :: rest
  | .number n, rest => n.text ++ rest
  | .string s, rest => quote s.toList rest
  | .array [], rest => '[' :: ']' :: rest
  | .array (item :: items), rest => '[' :: write item (writeItems items (']' :: rest))
  | .object [], rest => '\x7b' :: '\x7d' :: rest
  | .object ((name, value) :: members), rest =>
    '\x7b' :: quote name.toList (':' :: write value (writeMembers members ('\x7d' :: rest)))

/-- The items after the first, each behind a comma. -/
def writeItems : List Json → List Char → List Char
  | [], rest => rest
  | item :: items, rest => ',' :: write item (writeItems items rest)

/-- The members after the first, each behind a comma. -/
def writeMembers : List (String × Json) → List Char → List Char
  | [], rest => rest
  | (name, value) :: members, rest =>
    ',' :: quote name.toList (':' :: write value (writeMembers members rest))

end

/-- The compact form of a document. -/
def compact (j : Json) : String := String.ofList (j.write [])

/-- A new line with its indentation, put before `rest`. -/
def newline (depth : Nat) (rest : List Char) : List Char :=
  '\n' :: (List.replicate (2 * depth) ' ' ++ rest)

mutual

/-- The indented form of a document that stands at a depth, put before `rest`. -/
def writeIndented (depth : Nat) : Json → List Char → List Char
  | .array (item :: items), rest =>
    '[' :: newline (depth + 1) (writeIndented (depth + 1) item
      (indentItems depth items (newline depth (']' :: rest))))
  | .object ((name, value) :: members), rest =>
    '\x7b' :: newline (depth + 1) (quote name.toList (':' :: ' ' ::
      writeIndented (depth + 1) value
        (indentMembers depth members (newline depth ('\x7d' :: rest)))))
  | .array [], rest => '[' :: ']' :: rest
  | .object [], rest => '\x7b' :: '\x7d' :: rest
  | .null, rest => write .null rest
  | .bool b, rest => write (.bool b) rest
  | .number n, rest => write (.number n) rest
  | .string s, rest => write (.string s) rest

/-- The items after the first, each on a line of its own. -/
def indentItems (depth : Nat) : List Json → List Char → List Char
  | [], rest => rest
  | item :: items, rest =>
    ',' :: newline (depth + 1) (writeIndented (depth + 1) item (indentItems depth items rest))

/-- The members after the first, each on a line of its own. -/
def indentMembers (depth : Nat) : List (String × Json) → List Char → List Char
  | [], rest => rest
  | (name, value) :: members, rest =>
    ',' :: newline (depth + 1) (quote name.toList (':' :: ' ' ::
      writeIndented (depth + 1) value (indentMembers depth members rest)))

end

/-- The indented form of a document. -/
def indented (j : Json) : String := String.ofList (j.writeIndented 0 [])

end PacketTree.Json
