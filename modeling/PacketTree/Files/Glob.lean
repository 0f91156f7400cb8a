/-!
# Path patterns

A pattern stands for names: `?` for any character, `*` for any run of them, and a bracket for one
character of a set or, with an exclamation mark, outside of it. A name of two stars stands for any
number of directories. Everything else stands for itself.

## The model

A pattern is parsed as a whole first, only to see that it is one. Then each name between slashes is
parsed on its own, so a bracket must not reach beyond a slash.
-/

namespace PacketTree

/-- Why a text is no pattern. -/
inductive GlobError where
  /-- More than two stars stand in a row. -/
  | stars
  /-- Two stars stand beside something else than slashes. -/
  | recursion
  /-- A bracket has no end, or nothing in it. -/
  | range
deriving DecidableEq, Repr

/-- The error in words. -/
def GlobError.message : GlobError → String
  | .stars => "wildcards are either regular \x60*\x60 or recursive \x60**\x60"
  | .recursion => "recursive wildcards must form a single path component"
  | .range => "invalid range pattern"

/-- A part of a pattern. -/
inductive GlobToken where
  /-- This character. -/
  | char (c : Char)
  /-- Any character. -/
  | any
  /-- Any run of characters. -/
  | run
  /-- Any number of directories. -/
  | directories
  /-- A character in one of these ranges. -/
  | within (ranges : List (Char × Char))
  /-- A character in none of these ranges. -/
  | except (ranges : List (Char × Char))
deriving DecidableEq, Repr

/-- A pattern for one name. -/
structure Glob where
  /-- Its parts. -/
  tokens : List GlobToken
deriving DecidableEq, Repr

namespace Glob

/-! ### Reading -/

/-- A text with something that stands for other text. -/
def isPattern (text : String) : Bool := text.toList.any fun c => c = '*' ∨ c = '?' ∨ c = '['

/-- The ranges of a bracket: two characters with a dash between them, or one alone. -/
def ranges : List Char → List (Char × Char)
  | a :: '-' :: b :: rest => (a, b) :: ranges rest
  | a :: rest => (a, a) :: ranges rest
  | [] => []

/-- The characters up to a closing bracket, the first of which may be a closing bracket itself, and
what follows it. -/
def bracket? : List Char → Option (List Char × List Char)
  | [] => none
  | first :: rest =>
    match rest.dropWhile (· ≠ ']') with
    | [] => none
    | _ :: after => some (first :: rest.takeWhile (· ≠ ']'), after)

theorem bracket?_length {s inside rest : List Char} (h : bracket? s = some (inside, rest)) :
    rest.length < s.length := by
  unfold bracket? at h
  split at h
  · simp at h
  · rename_i first tail
    split at h
    · simp at h
    · rename_i c after heq
      simp only [Option.some.injEq, Prod.mk.injEq] at h
      obtain ⟨-, rfl⟩ := h
      have := (List.dropWhile_suffix (fun c => decide (c ≠ ']')) (l := tail)).length_le
      simp only [heq, List.length_cons] at this ⊢
      omega

/-- The set of a bracket whose opening was read. -/
def set? : List Char → Option (GlobToken × List Char)
  | '!' :: rest => (bracket? rest).map fun (inside, rest) => (.except (ranges inside), rest)
  | rest => (bracket? rest).map fun (inside, rest) => (.within (ranges inside), rest)

theorem set?_length {s rest : List Char} {t : GlobToken} (h : set? s = some (t, rest)) :
    rest.length < s.length := by
  unfold set? at h
  split at h <;>
  · rw [Option.map_eq_some_iff] at h
    obtain ⟨⟨inside, r⟩, hb, he⟩ := h
    have := bracket?_length hb
    simp only [Prod.mk.injEq] at he
    obtain ⟨-, rfl⟩ := he
    first | omega | (rw [List.length_cons]; omega)

/-- The token of some stars, of which `before` comes right before them and `rest` follows. -/
def starToken (count : Nat) (before : Option Char) (rest : List Char) : Except GlobError GlobToken :=
  if count = 1 then .ok .run
  else if count ≠ 2 then .error .stars
  else if before.all (· = '/') ∧ rest.head?.all (· = '/') then .ok .directories
  else .error .recursion

/-- The tokens of a pattern, of which `before` comes right before the rest given. A slash after two
stars belongs to them. -/
def tokensFrom (before : Option Char) (s : List Char) : Except GlobError (List GlobToken) :=
  match s with
  | [] => .ok []
  | '?' :: rest => (tokensFrom (some '?') rest).map (.any :: ·)
  | '*' :: tail =>
    let count := (tail.takeWhile (· = '*')).length + 1
    let rest := tail.dropWhile (· = '*')
    match starToken count before rest with
    | .error e => .error e
    | .ok .directories => (tokensFrom (some '/') (rest.drop 1)).map (.directories :: ·)
    | .ok token => (tokensFrom (some '*') rest).map (token :: ·)
  | '[' :: tail =>
    match _h : set? tail with
    | none => .error .range
    | some (token, rest) => (tokensFrom (some ']') rest).map (token :: ·)
  | c :: rest => (tokensFrom (some c) rest).map (.char c :: ·)
termination_by s.length
decreasing_by
  · simp
  · have := (List.dropWhile_suffix (fun c => decide (c = '*')) (l := tail)).length_le
    simp only [List.length_drop, List.length_cons]
    omega
  · have := (List.dropWhile_suffix (fun c => decide (c = '*')) (l := tail)).length_le
    simp only [List.length_cons]
    omega
  · have := set?_length _h
    simp only [List.length_cons]
    omega
  · simp

/-- The pattern of a text. -/
def parse (text : String) : Except GlobError Glob := (tokensFrom none text.toList).map Glob.mk

/-! ### What a pattern stands for -/

/-- The pattern stands for directories. -/
def isRecursive (g : Glob) : Bool := g.tokens.contains .directories

/-- The text of a pattern that stands for itself alone. -/
def literal? (g : Glob) : Option String :=
  (g.tokens.mapM fun | GlobToken.char c => some c | _ => none).map String.ofList

/-- A character lies in one of some ranges. -/
def inRanges (ranges : List (Char × Char)) (c : Char) : Bool :=
  ranges.any fun r => decide (r.1 ≤ c ∧ c ≤ r.2)

/-- A token stands for a character. -/
def tokenMatches : GlobToken → Char → Bool
  | .char d, c => c = d
  | .any, _ => true
  | .within ranges, c => inRanges ranges c
  | .except ranges, c => !inRanges ranges c
  | .run, _ | .directories, _ => true

/-- Tokens stand for some characters. This tells what a pattern means; `accepts` finds it out without
trying a star anew for every way to go on. -/
def tokensMatch : List GlobToken → List Char → Bool
  | [], s => s.isEmpty
  | .run :: ts, [] | .directories :: ts, [] => tokensMatch ts []
  | .run :: ts, c :: s => tokensMatch ts (c :: s) || tokensMatch (.run :: ts) s
  | .directories :: ts, c :: s => tokensMatch ts (c :: s) || tokensMatch (.directories :: ts) s
  | _ :: _, [] => false
  | t :: ts, c :: s => tokenMatches t c && tokensMatch ts s

/-- Whether the first of some answers is yes. -/
def first : List Bool → Bool
  | [] => false
  | b :: _ => b

/-- For tokens and what is left of them behind each: whether they stand for no character. -/
def emptyRow : List GlobToken → List Bool
  | [] => [true]
  | t :: ts =>
    let row := emptyRow ts
    (match t with
      | .run | .directories => first row
      | _ => false) :: row

/-- For tokens and what is left of them behind each: whether they stand for a character and what
follows it, given the answers for what follows alone. -/
def nextRow (c : Char) : List GlobToken → List Bool → List Bool
  | [], _ => [false]
  | t :: ts, below =>
    let row := nextRow c ts below.tail
    (match t with
      | .run | .directories => first row || first below
      | t => tokenMatches t c && first below.tail) :: row

/-- For tokens and what is left of them behind each: whether they stand for some characters. -/
def rowOf (ts : List GlobToken) (s : List Char) : List Bool :=
  s.foldr (fun c below => nextRow c ts below) (emptyRow ts)

/-- The pattern stands for a name. -/
def accepts (g : Glob) (name : String) : Bool := first (rowOf g.tokens name.toList)

/-! ### Laws -/

/-- Characters stand for themselves. -/
theorem tokensMatch_char (s t : List Char) : tokensMatch (s.map .char) t = decide (t = s) := by
  induction s generalizing t with
  | nil => cases t <;> simp [tokensMatch]
  | cons c s ih =>
    cases t with
    | nil => simp [tokensMatch]
    | cons d t => simp [tokensMatch, tokenMatches, ih]

/-- For tokens and what is left of them behind each: whether they stand for some characters. -/
def answers : List GlobToken → List Char → List Bool
  | [], s => [tokensMatch [] s]
  | t :: ts, s => tokensMatch (t :: ts) s :: answers ts s

theorem first_answers (ts : List GlobToken) (s : List Char) :
    first (answers ts s) = tokensMatch ts s := by
  cases ts <;> rfl

theorem emptyRow_eq (ts : List GlobToken) : emptyRow ts = answers ts [] := by
  induction ts with
  | nil => simp [emptyRow, answers, tokensMatch]
  | cons t ts ih => cases t <;> simp [emptyRow, answers, tokensMatch, ih, first_answers]

theorem nextRow_eq (c : Char) (s : List Char) (ts : List GlobToken) :
    nextRow c ts (answers ts s) = answers ts (c :: s) := by
  induction ts with
  | nil => simp [nextRow, answers, tokensMatch]
  | cons t ts ih =>
    have head : ∀ b row, first (b :: row) = b := fun _ _ => rfl
    cases t <;> simp [nextRow, answers, tokensMatch, ih, first_answers, head]

theorem rowOf_eq (ts : List GlobToken) (s : List Char) : rowOf ts s = answers ts s := by
  induction s with
  | nil => exact emptyRow_eq ts
  | cons c s ih => rw [rowOf, List.foldr_cons, ← rowOf, ih, nextRow_eq]

/-- A pattern stands for the names that its tokens stand for. -/
theorem accepts_eq_tokensMatch (g : Glob) (name : String) :
    g.accepts name = tokensMatch g.tokens name.toList := by
  rw [accepts, rowOf_eq, first_answers]

/-- A star alone stands for every name. -/
theorem tokensMatch_run (s : List Char) : tokensMatch [.run] s = true := by
  induction s with
  | nil => simp [tokensMatch]
  | cons c s ih => rw [tokensMatch, ih, Bool.or_true]

end Glob

end PacketTree
