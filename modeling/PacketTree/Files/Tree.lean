import PacketTree.Files.System

/-!
# File trees

A file system in memory: a tree of directories with files at its leaves, and the place in it that
paths without a slash in front start from. There are no links, so every file has one place.

## The model

A place is the list of names that leads to it from the root. `walk` follows the segments of a path
from a place: every segment needs a directory to stand in, a dot stays there, two dots go back to
what contains it. So a path through a directory that does not exist leads nowhere, also where two
dots follow; once the directory is made the same path leads somewhere.
-/

namespace PacketTree

/-- A file or a directory with all it holds. -/
inductive FileNode where
  /-- A file. -/
  | file (bytes : List UInt8)
  /-- A directory. -/
  | directory (entries : List (String × FileNode))
deriving Inhabited

namespace FileNode

/-- The kind of a node. -/
def kind : FileNode → FileKind
  | .file _ => .file
  | .directory _ => .directory

/-- The node of a name in a directory. -/
def child? : FileNode → String → Option FileNode
  | .file _, _ => none
  | .directory entries, name => entries.lookup name

/-- The node at a place. -/
def at? (t : FileNode) : List String → Option FileNode
  | [] => some t
  | name :: rest => (t.child? name).bind fun t => t.at? rest

/-- Entries with a node for a name, in place of the one there was. -/
def put (entries : List (String × FileNode)) (name : String) (t : FileNode) :
    List (String × FileNode) :=
  match entries with
  | [] => [(name, t)]
  | e :: rest => if e.1 = name then (name, t) :: rest else e :: put rest name t

/-- The tree with a node at a place. Directories that are missing on the way are made; a file on the
way stays, and nothing changes. -/
def insert (t : FileNode) (place : List String) (new : FileNode) : FileNode :=
  match place, t with
  | [], _ => new
  | _ :: _, .file bytes => .file bytes
  | name :: rest, .directory entries =>
    .directory (put entries name (((entries.lookup name).getD (.directory [])).insert rest new))

/-! ### Laws -/

theorem lookup_put (entries : List (String × FileNode)) (name : String) (t : FileNode)
    (other : String) :
    (put entries name t).lookup other = if other = name then some t else entries.lookup other := by
  induction entries with
  | nil =>
    by_cases h : other = name
    · simp [put, h]
    · simp [put, List.lookup_cons, h, beq_eq_false_iff_ne.2 h]
  | cons e rest ih =>
    obtain ⟨key, node⟩ := e
    by_cases hk : key = name
    · subst hk
      by_cases h : other = key
      · simp [put, h]
      · simp [put, List.lookup_cons, h, beq_eq_false_iff_ne.2 h]
    · by_cases h : other = key
      · subst h
        simp [put, hk]
      · simp [put, List.lookup_cons, hk, beq_eq_false_iff_ne.2 h, ih]

theorem at?_append (t : FileNode) (p q : List String) :
    t.at? (p ++ q) = (t.at? p).bind fun t => t.at? q := by
  induction p generalizing t with
  | nil => rfl
  | cons name rest ih =>
    simp only [List.cons_append, at?]
    cases t.child? name with
    | none => rfl
    | some t => exact ih t

/-- What lies at a place that does not start with the first name of another place stays. -/
theorem child?_insert_of_ne {t new : FileNode} {name other : String} {rest : List String}
    (h : other ≠ name) : (t.insert (name :: rest) new).child? other = t.child? other := by
  cases t with
  | file bytes => rfl
  | directory entries => simp only [insert, child?, lookup_put, if_neg h]

/-- The new node is at its place in a directory that is there. -/
theorem at?_insert_self {t new : FileNode} {place : List String}
    (h : ∀ p, p <+: place → p ≠ place → ∃ entries, t.at? p = some (.directory entries)) :
    (t.insert place new).at? place = some new := by
  induction place generalizing t with
  | nil => rfl
  | cons name rest ih =>
    obtain ⟨entries, he⟩ := h [] List.nil_prefix (List.cons_ne_nil _ _).symm
    simp only [at?, Option.some.injEq] at he
    subst he
    simp only [insert, at?, child?, lookup_put, if_true, Option.bind_some]
    refine ih fun p hp hne => ?_
    obtain ⟨below, hb⟩ := h (name :: p) (List.prefix_cons_iff.2 (Or.inr ⟨p, rfl, hp⟩))
      (fun e => hne (List.cons_inj_right name |>.1 e))
    simp only [at?, child?] at hb
    cases hl : entries.lookup name with
    | none => rw [hl] at hb; cases hb
    | some t => rw [hl] at hb; exact ⟨below, hb⟩

end FileNode

/-- A tree of files, and a place in it to start from. -/
structure FileTree where
  /-- The directory that holds all. -/
  root : FileNode := .directory []
  /-- The current directory. -/
  current : List String := []
deriving Inhabited

namespace FileTree

/-- Where segments lead from a place. -/
def walk (t : FileTree) (place : List String) : List String → Except FileError (List String)
  | [] => .ok place
  | segment :: rest =>
    match t.root.at? place with
    | none => .error .notFound
    | some (.file _) => .error .notDirectory
    | some (.directory _) =>
      if Path.isIdle segment then walk t place rest
      else if segment = ".." then walk t place.dropLast rest
      else if Path.isLongName segment then .error .nameTooLong
      else if (t.root.at? (place ++ [segment])).isSome then walk t (place ++ [segment]) rest
      else .error .notFound

/-- The place that a path starts from. -/
def origin (t : FileTree) (path : String) : List String :=
  if Path.isAbsolute path then [] else t.current

/-- Where a path leads. -/
def resolve (t : FileTree) (path : String) : Except FileError (List String) :=
  if path = "" then .error .notFound
  else if Path.isLong path then .error .nameTooLong
  else t.walk (t.origin path) (Path.segments path)

/-- The node that a path leads to. -/
def find (t : FileTree) (path : String) : Except FileError FileNode :=
  (t.resolve path).bind fun place =>
    match t.root.at? place with
    | some node => .ok node
    | none => .error .notFound

/-- The bytes of the file that a path leads to. -/
def read (t : FileTree) (path : String) : Except FileError (List UInt8) :=
  (t.find path).bind fun
    | .file bytes => .ok bytes
    | .directory _ => .error .isDirectory

/-- The names in the directory that a path leads to. -/
def list (t : FileTree) (path : String) : Except FileError (List String) :=
  (t.find path).bind fun
    | .file _ => .error .notDirectory
    | .directory entries => .ok (entries.map Prod.fst)

/-- A place for something new. -/
structure Target where
  /-- The directory. -/
  directory : List String
  /-- The name in it; it can still be one of dots. -/
  name : String
  /-- A slash follows the name, as for a directory. -/
  slash : Bool
deriving DecidableEq, Repr

namespace Target

/-- The name is no name of its own but leads to some directory. -/
def isDots (g : Target) : Bool := Path.isIdle g.name ∨ g.name = ".."

/-- The place. -/
def place (g : Target) : List String := g.directory ++ [g.name]

end Target

/-- The target of a path: all but the last name has to lead to a directory. -/
def target (t : FileTree) (path : String) : Except FileError Target :=
  if path = "" then .error .notFound
  else if Path.isLong path then .error .nameTooLong
  else
    let segments := Path.segments path
    let names := (segments.reverse.dropWhile (· = "")).reverse
    match t.walk (t.origin path) names.dropLast with
    | .error e => .error e
    | .ok place =>
      match t.root.at? place with
      | some (.directory _) =>
        .ok
          { directory := place
            name := names.getLastD "."
            slash := names.length < segments.length }
      | some (.file _) => .error .notDirectory
      | none => .error .notFound

/-- The tree with a node at a place. -/
def insert (t : FileTree) (place : List String) (node : FileNode) : FileTree :=
  { t with root := t.root.insert place node }

/-- The tree with a new directory. -/
def makeDirectory (t : FileTree) (path : String) : Except FileError FileTree :=
  (t.target path).bind fun g =>
    if g.isDots then .error .exists
    else if Path.isLongName g.name then .error .nameTooLong
    else if (t.root.at? g.place).isSome then .error .exists
    else .ok (t.insert g.place (.directory []))

/-- The tree with bytes in a file. -/
def write (t : FileTree) (path : String) (bytes : List UInt8) : Except FileError FileTree :=
  (t.target path).bind fun g =>
    if g.isDots ∨ g.slash then .error .isDirectory
    else if Path.isLongName g.name then .error .nameTooLong
    else
      match t.root.at? g.place with
      | some (.directory _) => .error .isDirectory
      | _ => .ok (t.insert g.place (.file bytes))

/-- Changes the tree unless that fails. -/
def update (change : FileTree → Except FileError FileTree) :
    StateM FileTree (Except FileError Unit) := fun t =>
  match change t with
  | .ok t => (.ok (), t)
  | .error e => (.error e, t)

/-- The operations on a tree. -/
def fileSystem : FileSystem (StateM FileTree) where
  kind path := return ((← get).find path).toOption.map FileNode.kind
  read path := return (← get).read path
  write path bytes := update fun t => t.write path bytes
  makeDirectory path := update fun t => t.makeDirectory path
  list path := return (← get).list path
  resolve path := return (← get).resolve path

end FileTree

end PacketTree
