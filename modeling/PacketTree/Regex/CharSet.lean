import PacketTree.Text.Blank
import PacketTree.Text.WordTable

/-!
# Sets of characters

What one item of a regular expression may stand for: ranges, the named kinds of characters, and
their combinations.

## The model

A set is kept as it is written, so that membership follows its parts; `ranges` brings it into the
one form that two equal sets share.
-/

namespace PacketTree

/-- The three named kinds of characters. -/
inductive CharKind where
  /-- Decimal digits. -/
  | digit
  /-- White space. -/
  | space
  /-- Characters of words. -/
  | word
deriving DecidableEq, Repr

/-- The code points of the characters of a kind. -/
def CharKind.ranges : CharKind → Text.Ranges
  | .digit => Text.digitRanges
  | .space => Text.blankRanges
  | .word => Text.wordRanges

/-- The code points of the characters of a kind that are ASCII. -/
def CharKind.asciiRanges : CharKind → Text.Ranges
  | .digit => [(0x30, 0x39)]
  | .space => [(0x9, 0xD), (0x20, 0x20)]
  | .word => [(0x30, 0x39), (0x41, 0x5A), (0x5F, 0x5F), (0x61, 0x7A)]

/-- A set of characters. -/
inductive CharSet where
  /-- No character. -/
  | empty
  /-- The characters between two, both included. -/
  | range (low high : Char)
  /-- The characters of a kind. -/
  | kind (k : CharKind)
  /-- The characters with some code points. -/
  | points (r : Text.Ranges)
  /-- The characters in one of two sets. -/
  | union (s t : CharSet)
  /-- The characters in both of two sets. -/
  | inter (s t : CharSet)
  /-- The characters in the first of two sets but not in the second. -/
  | diff (s t : CharSet)
  /-- The characters outside a set. -/
  | complement (s : CharSet)
deriving DecidableEq, Repr

namespace CharSet

/-- Whether a character belongs to a set. -/
def holds : CharSet → Char → Bool
  | .empty, _ => false
  | .range low high, c => low ≤ c && c ≤ high
  | .kind k, c => Text.inRanges k.ranges c.toNat
  | .points r, c => Text.inRanges r c.toNat
  | .union s t, c => s.holds c || t.holds c
  | .inter s t, c => s.holds c && t.holds c
  | .diff s t, c => s.holds c && !t.holds c
  | .complement s, c => !s.holds c

/-- The set of one character. -/
def single (c : Char) : CharSet := .range c c

/-- The characters of a kind, or those of them that are ASCII. -/
def ofKind (unicode : Bool) (k : CharKind) : CharSet :=
  if unicode then .kind k else .points k.asciiRanges

/-- The characters in exactly one of two sets. -/
def symmDiff (s t : CharSet) : CharSet := .diff (.union s t) (.inter s t)

/-- The code points of a set. -/
def ranges : CharSet → Text.Ranges
  | .empty => []
  | .range low high => if low ≤ high then [(low.toNat, high.toNat)] else []
  | .kind k => k.ranges
  | .points r => r
  | .union s t => s.ranges.union t.ranges
  | .inter s t => s.ranges.inter t.ranges
  | .diff s t => s.ranges.diff t.ranges
  | .complement s => s.ranges.complement

end CharSet

end PacketTree
