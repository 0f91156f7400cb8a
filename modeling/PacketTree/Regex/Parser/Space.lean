import PacketTree.Text.Blank

/-!
# Blanks and comments

In a free text blanks and comments are passed over, unless they stand inside of what belongs together. A
comment goes from a hash to the end of its line.
-/

namespace PacketTree.Regex.Parser

/-- The longest run of characters of which something is true, and the text behind it. Blanks and comments
are left out if the text is `free`; `comment` says that a comment has begun. -/
def runFrom (free : Bool) (p : Char → Bool) (comment : Bool) : List Char → List Char × List Char
  | [] => ([], [])
  | c :: s =>
    if comment then runFrom free p (c != '\n') s
    else if free && Text.isBlank c then runFrom free p false s
    else if free && c == '#' then runFrom free p true s
    else if p c then
      let (cs, rest) := runFrom free p false s
      (c :: cs, rest)
    else ([], c :: s)

/-- The longest run of characters of which something is true, and the text behind it. -/
def takeRun (free : Bool) (p : Char → Bool) (s : List Char) : List Char × List Char :=
  runFrom free p false s

/-- The text behind the blanks and comments, if it is free. -/
def skip (free : Bool) (s : List Char) : List Char := (takeRun free (fun _ => false) s).2

/-- The text behind a character, if it starts with that. -/
def after? (c : Char) : List Char → Option (List Char)
  | [] => none
  | d :: s => if d = c then some s else none

example : takeRun true Char.isDigit " 1 2 # 3\n4.5".toList = ("124".toList, ".5".toList) := by
  decide +kernel

end PacketTree.Regex.Parser
