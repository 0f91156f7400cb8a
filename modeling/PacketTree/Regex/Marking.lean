import PacketTree.Regex.Plain

/-!
# Searching a text

The search reads a text once, from left to right, and keeps marks on the expression.

## The model

A mark on a character says that the text read so far leads there, so that the next character has to
be of its set. `enter` puts the marks of a match that starts at a place, and says whether the match
may end there at once; `read` moves the marks over one character, and says whether a match ends
behind it. What carries no mark is kept as it is, so a step takes time for the marks only. A stretch
of the text matches if some place to start at, or some character read, ends a match.
-/

namespace PacketTree.Regex

/-- An expression with marks. -/
inductive Marked where
  /-- An expression without marks. -/
  | quiet (e : Plain)
  /-- A character that is the next to be read. -/
  | awaited (s : CharSet)
  /-- One expression, then another. -/
  | seq (t u : Marked)
  /-- One of two expressions. -/
  | alt (t u : Marked)
  /-- One or more rounds of an expression. -/
  | plus (t : Marked)
  /-- One expression, or a complete match of it and then the other. -/
  | upTo (t u : Marked)
deriving Repr

/-- What a place or a character makes of an expression. -/
structure Outcome where
  /-- A match may end here. -/
  ends : Bool
  /-- A complete match may end here. -/
  completes : Bool
  /-- The marks from here on. -/
  tree : Marked

namespace Marked

/-- An outcome in which every match is complete. -/
def outcome (ends : Bool) (t : Marked) : Outcome := ⟨ends, ends, t⟩

/-- One expression, then another; quiet if both are. -/
def mkSeq : Marked → Marked → Marked
  | .quiet e, .quiet f => .quiet (.seq e f)
  | t, u => .seq t u

/-- One of two expressions; quiet if both are. -/
def mkAlt : Marked → Marked → Marked
  | .quiet e, .quiet f => .quiet (.alt e f)
  | t, u => .alt t u

/-- One or more rounds of an expression; quiet if that is. -/
def mkPlus : Marked → Marked
  | .quiet e => .quiet (.plus e)
  | t => .plus t

/-- One expression, or a complete match of it and then the other; quiet if both are. -/
def mkUpTo : Marked → Marked → Marked
  | .quiet e, .quiet f => .quiet (.upTo e f)
  | t, u => .upTo t u

/-- Marks an expression where a match may start. -/
def start (p : Spot) : Plain → Outcome
  | .empty => outcome true (.quiet .empty)
  | .char s => outcome false (.awaited s)
  | .place a => outcome (a.holds p) (.quiet (.place a))
  | .seq e f =>
    let m := start p e
    if m.ends then
      let n := start p f
      outcome n.ends (mkSeq m.tree n.tree)
    else outcome false (mkSeq m.tree (.quiet f))
  | .alt e f =>
    let m := start p e
    let n := start p f
    outcome (m.ends || n.ends) (mkAlt m.tree n.tree)
  | .plus e =>
    let m := start p e
    outcome m.ends (mkPlus m.tree)
  | .upTo e f =>
    let m := start p e
    if m.completes then
      let n := start p f
      ⟨m.ends || n.ends, n.completes, mkUpTo m.tree n.tree⟩
    else ⟨m.ends, false, mkUpTo m.tree (.quiet f)⟩

/-- Adds the marks of a match that starts at a place. -/
def enter (p : Spot) : Marked → Outcome
  | .quiet e => start p e
  | .awaited s => outcome false (.awaited s)
  | .seq t u =>
    let m := t.enter p
    if m.ends then
      let n := u.enter p
      outcome n.ends (mkSeq m.tree n.tree)
    else outcome false (mkSeq m.tree u)
  | .alt t u =>
    let m := t.enter p
    let n := u.enter p
    outcome (m.ends || n.ends) (mkAlt m.tree n.tree)
  | .plus t =>
    let m := t.enter p
    outcome m.ends (mkPlus m.tree)
  | .upTo t u =>
    let m := t.enter p
    if m.completes then
      let n := u.enter p
      ⟨m.ends || n.ends, n.completes, mkUpTo m.tree n.tree⟩
    else ⟨m.ends, false, mkUpTo m.tree u⟩

/-- Moves the marks over a character to the place behind it. -/
def read (c : Char) (p : Spot) : Marked → Outcome
  | .quiet e => outcome false (.quiet e)
  | .awaited s => outcome (s.holds c) (.quiet (.char s))
  | .seq t u =>
    let m := t.read c p
    let n := u.read c p
    if m.ends then
      let r := n.tree.enter p
      outcome (n.ends || r.ends) (mkSeq m.tree r.tree)
    else outcome n.ends (mkSeq m.tree n.tree)
  | .alt t u =>
    let m := t.read c p
    let n := u.read c p
    outcome (m.ends || n.ends) (mkAlt m.tree n.tree)
  | .plus t =>
    let m := t.read c p
    if m.ends then outcome true (mkPlus (m.tree.enter p).tree)
    else outcome false (mkPlus m.tree)
  | .upTo t u =>
    let m := t.read c p
    let n := u.read c p
    if m.completes then
      let r := n.tree.enter p
      ⟨m.ends || n.ends || r.ends, n.completes || r.completes, mkUpTo m.tree r.tree⟩
    else ⟨m.ends || n.ends, n.completes, mkUpTo m.tree n.tree⟩

/-- Some match that the marks stand for, or that starts here or later, ends in the text to come;
`before` is the character in front of it. -/
def search (before : Option Char) (t : Marked) : List Char → Bool
  | [] => (t.enter (.between before none)).ends
  | c :: rest =>
    let m := t.enter (.between before (some c))
    if m.ends then true
    else
      let n := m.tree.read c (.between (some c) rest.head?)
      if n.ends then true else search (some c) n.tree rest

end Marked

/-- Some stretch of the text matches. -/
def isMatch (e : Regex) (text : String) : Bool := (Marked.quiet e.plain).search none text.toList

end PacketTree.Regex
