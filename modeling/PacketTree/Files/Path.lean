/-!
# Paths

A path is a text: names with slashes between them. A slash in front makes it absolute. Two slashes in
a row count as one, and so do slashes with a single dot between them; a slash or a dot at the end adds
nothing to what a path names.

## The model

`segments` cuts a text at its slashes, so the segment before a slash in front is empty.
`significant` drops those at the end that add nothing, but never the first. Operations work on these
segments and put the text back together, so that what they return is a piece of the text given.
-/

namespace PacketTree.Path

/-- What lies between the slashes. -/
def cut : List Char → List (List Char)
  | [] => [[]]
  | '/' :: rest => [] :: cut rest
  | c :: rest =>
    match cut rest with
    | [] => [[c]]
    | piece :: pieces => (c :: piece) :: pieces

theorem cut_ne_nil (s : List Char) : cut s ≠ [] := by
  unfold cut
  split
  · exact List.cons_ne_nil _ _
  · exact List.cons_ne_nil _ _
  · split <;> exact List.cons_ne_nil _ _

/-- Slashes between the pieces give back the text. -/
theorem intercalate_cut (s : List Char) : ['/'].intercalate (cut s) = s := by
  induction s with
  | nil => rfl
  | cons c rest ih =>
    obtain ⟨piece, pieces, h⟩ := List.exists_cons_of_ne_nil (cut_ne_nil rest)
    rw [h] at ih
    by_cases hc : c = '/'
    · subst hc
      rw [cut, h, List.intercalate_cons_cons, ih]
      rfl
    · rw [cut.eq_3 _ _ (fun e => hc e), h]
      cases pieces with
      | nil => simpa using ih
      | cons next pieces =>
        rw [List.intercalate_cons_cons] at ih ⊢
        rw [← ih]
        rfl

/-- No piece holds a slash. -/
theorem not_mem_of_mem_cut {s piece : List Char} (h : piece ∈ cut s) : '/' ∉ piece := by
  induction s generalizing piece with
  | nil => simp_all [cut]
  | cons c rest ih =>
    obtain ⟨first, pieces, hcut⟩ := List.exists_cons_of_ne_nil (cut_ne_nil rest)
    by_cases hc : c = '/'
    · subst hc
      rw [cut, List.mem_cons] at h
      rcases h with rfl | h
      · exact List.not_mem_nil
      · exact ih h
    · rw [cut.eq_3 _ _ (fun e => hc e), hcut] at h
      rw [hcut] at ih
      rcases List.mem_cons.1 h with rfl | h
      · intro hm
        rcases List.mem_cons.1 hm with e | hm
        · exact hc e.symm
        · exact ih List.mem_cons_self hm
      · exact ih (List.mem_cons_of_mem _ h)

/-- What lies between the slashes of a path. -/
def segments (path : String) : List String := (cut path.toList).map String.ofList

/-- The text of segments. -/
def ofSegments (segments : List String) : String :=
  if segments = [""] then "/" else String.ofList (['/'].intercalate (segments.map String.toList))

/-- The path starts at the root. -/
def isAbsolute (path : String) : Bool := path.toList.head? = some '/'

/-- The path ends with a slash. -/
def isOpen (path : String) : Bool := path.toList.getLast? = some '/'

/-- A segment that stays where it is. -/
def isIdle (segment : String) : Bool := segment = "" ∨ segment = "."

/-- The number of bytes that a name may have. -/
def nameLimit : Nat := 255

/-- A name that no file can have. -/
def isLongName (name : String) : Bool := nameLimit < name.utf8ByteSize

/-- The number of bytes of a path from which it cannot be followed. -/
def pathLimit : Nat := 4096

/-- A path that cannot be followed. -/
def isLong (path : String) : Bool := pathLimit ≤ path.utf8ByteSize

/-- Segments without idle ones at the end; the first one stays. -/
def trim : List String → List String
  | [] => []
  | first :: rest => first :: (rest.reverse.dropWhile isIdle).reverse

/-- The segments up to the last one that adds something. -/
def significant (path : String) : List String := trim (segments path)

/-- The path of what contains the named thing. There is none for the root and for the empty path;
that of a single name is empty. -/
def parent? (path : String) : Option String :=
  match significant path with
  | [] | [""] => none
  | [_] => some ""
  | parts => some (ofSegments (trim parts.dropLast))

/-- The last name of a path; none if the path ends at the root or in dots. -/
def fileName? (path : String) : Option String :=
  match (significant path).getLast? with
  | none => none
  | some name => if isIdle name ∨ name = ".." then none else some name

/-- A path and all that contain the named thing, from the inside out, at most `count` of them. -/
def ancestorsUpTo : Nat → String → List String
  | 0, _ => []
  | count + 1, path => path :: ((parent? path).map (ancestorsUpTo count)).getD []

/-- A path and all that contain the named thing, from the inside out. -/
def ancestors (path : String) : List String := ancestorsUpTo ((segments path).length + 1) path

/-- What follows the last dot of the last name; none if there is no dot but one in front. -/
def extension? (path : String) : Option String := do
  let name ← fileName? path
  let (after, before) := name.toList.reverse.span (· ≠ '.')
  if before.length < 2 then none else some (String.ofList after.reverse)

/-- A path taken from where another one leads to. -/
def join (base path : String) : String :=
  if isAbsolute path ∨ base = "" then path
  else if isOpen base then base ++ path
  else base ++ "/" ++ path

/-- The path names the current directory by a dot. -/
def isHere (path : String) : Bool := significant path = ["."]

end PacketTree.Path
