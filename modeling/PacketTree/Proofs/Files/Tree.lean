import PacketTree.Files.Tree
import PacketTree.Proofs.Files.Path

/-!
# What changes in a file tree

Making directories and writing a file changes a tree in one place. This module says which place that
is, by the names of the path alone, and that all other files stay.

## What is proved

* `FileNode.at?_insert_of_file`: a file stays if nothing is put at its place or above it.
* `FileTree.aim_eq_of_walk`: segments that can be followed lead where their names say.
* `FileTree.Keeps`: directories are made without a change to any file.
* `FileTree.Written`, `written_of_write`: what is written goes to the aim of the path.

## The model

The `aim` of a path is where it leads if every directory that it goes through exists. There are no
links, so it can be told without looking at the tree: two dots take back the name before them.
-/

namespace PacketTree

namespace FileNode

variable {t new : FileNode} {place q : List String} {bytes : List UInt8}

/-- A file stays if nothing is put at its place or at the place of what it lies in. -/
theorem at?_insert_of_file (h : t.at? q = some (.file bytes)) (hne : ¬place <+: q) :
    (t.insert place new).at? q = some (.file bytes) := by
  induction place generalizing t q with
  | nil => exact absurd List.nil_prefix hne
  | cons name rest ih =>
    cases t with
    | file other => exact h
    | directory entries =>
      cases q with
      | nil => cases h
      | cons first q =>
        by_cases hfirst : first = name
        · subst hfirst
          simp only [at?, child?, insert, lookup_put, if_true, Option.bind_some] at h ⊢
          obtain ⟨node, hnode, hq⟩ := Option.bind_eq_some_iff.mp h
          rw [hnode, Option.getD_some]
          exact ih hq fun hprefix => hne (List.cons_prefix_cons.mpr ⟨rfl, hprefix⟩)
        · rw [at?, child?_insert_of_ne hfirst]
          exact h

/-- What lies in a place with something below it is a directory. -/
theorem exists_directory {p : List String} {name : String} (h : (t.at? (p ++ name :: q)).isSome) :
    ∃ entries, t.at? p = some (.directory entries) := by
  rw [at?_append] at h
  cases hp : t.at? p with
  | none => rw [hp] at h; cases h
  | some node =>
    cases node with
    | directory entries => exact ⟨entries, rfl⟩
    | file bytes => rw [hp] at h; cases h

/-- The same for a place that another one starts with. -/
theorem exists_directory_of_prefix {p : List String} (h : (t.at? q).isSome) (hp : p <+: q)
    (hne : p ≠ q) : ∃ entries, t.at? p = some (.directory entries) := by
  obtain ⟨rest, rfl⟩ := hp
  cases rest with
  | nil => exact absurd (List.append_nil p).symm hne
  | cons name rest => exact exists_directory h

end FileNode

namespace FileTree

variable {t t' : FileTree} {place d : List String} {parts front : List String} {path last : String}
  {bytes : List UInt8}

/-! ### Where a path aims -/

/-- Where a path leads if every directory that it goes through exists. -/
def aim (t : FileTree) (path : String) : List String :=
  (Path.segments path).foldl Path.stride (t.origin path)

theorem aim_eq_of_walk (h : t.walk place parts = .ok d) : d = parts.foldl Path.stride place := by
  induction parts generalizing place with
  | nil => exact (Except.ok.inj h).symm
  | cons part parts ih =>
    rw [walk] at h
    rw [List.foldl_cons, Path.stride]
    split at h
    · cases h
    · cases h
    · split at h
      · next hidle =>
        rw [if_pos hidle]
        exact ih h
      · next hidle =>
        rw [if_neg hidle]
        split at h
        · next hdots =>
          rw [if_pos hdots]
          exact ih h
        · next hdots =>
          rw [if_neg hdots]
          split at h
          · cases h
          · split at h
            · exact ih h
            · cases h

/-- What leads somewhere leads to its aim. -/
theorem aim_of_resolve (h : t.resolve path = .ok d) : d = t.aim path := by
  unfold resolve at h
  split at h
  · cases h
  · split at h
    · cases h
    · exact aim_eq_of_walk h

theorem walk_append (parts more place : List String) :
    t.walk place (parts ++ more) = (t.walk place parts).bind fun d => t.walk d more := by
  induction parts generalizing place with
  | nil => rfl
  | cons part parts ih =>
    rw [List.cons_append, walk, walk]
    split
    · rfl
    · rfl
    · simp only [ih]
      split_ifs <;> rfl

/-- Segments that lead to a directory without two dots lead there in every tree that has the
directory. -/
theorem walk_of_walk (h : t'.walk place parts = .ok d) (hdots : ".." ∉ parts)
    (hd : ∃ entries, t.root.at? d = some (.directory entries)) : t.walk place parts = .ok d := by
  induction parts generalizing place with
  | nil => exact h
  | cons part parts ih =>
    obtain ⟨hpart, hparts⟩ := List.ne_and_not_mem_of_not_mem_cons hdots
    -- all places on the way lie above the last one, as no segment goes back
    have hprefix : ∀ p, p <+: d → ∃ entries, t.root.at? p = some (.directory entries) := by
      intro p hp
      by_cases hpd : p = d
      · exact hpd ▸ hd
      · obtain ⟨entries, hentries⟩ := hd
        exact FileNode.exists_directory_of_prefix (by rw [hentries]; rfl) hp hpd
    have haim := aim_eq_of_walk h
    obtain ⟨entries, hplace⟩ := hprefix place (haim ▸ Path.prefix_foldl_stride hdots place)
    rw [walk, hplace]
    dsimp only
    rw [walk] at h
    split at h
    · cases h
    · cases h
    · split at h
      · next hidle => rw [if_pos hidle, ih h hparts]
      · next hidle =>
        rw [if_neg (Ne.symm hpart)] at h
        rw [if_neg hidle, if_neg (Ne.symm hpart)]
        split at h
        · cases h
        · next hshort =>
          rw [if_neg hshort]
          split at h
          · have hnext := aim_eq_of_walk h
            obtain ⟨entries, hentries⟩ :=
              hprefix _ (hnext ▸ Path.prefix_foldl_stride hparts (place ++ [part]))
            rw [if_pos (by rw [hentries]; rfl), ih h hparts]
          · cases h

/-- Idle segments stay in a directory. -/
theorem walk_of_idle (idle : List String) (h : ∀ part ∈ idle, Path.isIdle part = true)
    (hplace : ∃ entries, t.root.at? place = some (.directory entries)) :
    t.walk place idle = .ok place := by
  obtain ⟨entries, hentries⟩ := hplace
  induction idle with
  | nil => rfl
  | cons part idle ih =>
    obtain ⟨hpart, hidle⟩ := List.forall_mem_cons.mp h
    rw [walk, hentries]
    dsimp only
    rw [if_pos hpart, ih hidle]

/-- Idle segments at the end can be left out. -/
theorem walk_trim (h : t.walk place parts = .ok d) : t.walk place (Path.trim parts) = .ok d := by
  obtain ⟨idle, hparts, hidle⟩ := Path.exists_idle parts
  rw [hparts, walk_append] at h
  cases hfront : t.walk place (Path.trim parts) with
  | error e => rw [hfront] at h; cases h
  | ok d' =>
    rw [hfront] at h
    exact congrArg Except.ok ((aim_eq_of_walk h).trans (Path.foldl_stride_of_idle hidle d')).symm

/-- The path made of segments can be followed where they can. -/
theorem walk_ofSegments (hne : parts ≠ []) (hslash : ∀ part ∈ parts, '/' ∉ part.toList)
    (h : t.walk place parts = .ok d) (hd : ∃ entries, t.root.at? d = some (.directory entries)) :
    t.walk place (Path.segments (Path.ofSegments parts)) = .ok d := by
  by_cases hroot : parts = [""]
  · have hplace : d = place := by
      rw [aim_eq_of_walk h, hroot]
      rfl
    subst hplace
    rw [Path.ofSegments, if_pos hroot]
    exact walk_of_idle ["", ""] (by decide) hd
  · rwa [Path.segments_ofSegments hne hroot hslash]

theorem resolve_of_walk (hne : path ≠ "") (hshort : Path.isLong path = false)
    (h : t.walk (t.origin path) (Path.segments path) = .ok d) : t.resolve path = .ok d := by
  rw [resolve, if_neg hne, if_neg (by simp [hshort]), h]

theorem read_of_resolve (h : t.resolve path = .ok place) (hfile : t.root.at? place = some (.file bytes)) :
    t.read path = .ok bytes := by
  simp only [read, find, h, hfile, Except.bind]

/-! ### Making directories -/

/-- All files stay, and so does the place to start from. -/
def Keeps (t t' : FileTree) : Prop :=
  t'.current = t.current ∧
    ∀ q bytes, t.root.at? q = some (.file bytes) → t'.root.at? q = some (.file bytes)

theorem Keeps.aim_eq (h : t.Keeps t') (path : String) : t'.aim path = t.aim path := by
  rw [aim, aim, origin, origin, h.1]

theorem Keeps.refl (t : FileTree) : t.Keeps t := ⟨rfl, fun _ _ h => h⟩

theorem Keeps.trans {t'' : FileTree} (h : t.Keeps t') (h' : t'.Keeps t'') : t.Keeps t'' :=
  ⟨h'.1.trans h.1, fun q bytes hq => h'.2 q bytes (h.2 q bytes hq)⟩

/-- What is put at a free place leaves all files as they are. -/
theorem keeps_insert (h : t.root.at? place = none) (node : FileNode) : t.Keeps (t.insert place node) := by
  refine ⟨rfl, fun q bytes hq => FileNode.at?_insert_of_file hq ?_⟩
  rintro ⟨rest, rfl⟩
  rw [FileNode.at?_append, h] at hq
  cases hq

theorem keeps_makeDirectory (h : t.makeDirectory path = .ok t') : t.Keeps t' := by
  unfold makeDirectory at h
  cases hg : t.target path with
  | error e => rw [hg] at h; cases h
  | ok g =>
    rw [hg] at h
    dsimp only [Except.bind] at h
    split at h
    · cases h
    · split at h
      · cases h
      · split at h
        · cases h
        · next hfree =>
          cases h
          exact keeps_insert (by simpa using hfree) _

/-! ### Writing -/

/-- What writing to a path comes to: the file is put where the path aims, in a directory that is there,
and the path ends with its name. -/
structure Written (t : FileTree) (path : String) (bytes : List UInt8) (t' : FileTree) : Prop where
  /-- The path is not too long. -/
  short : Path.isLong path = false
  /-- It ends with a name, and the segments in front of it lead to the directory. -/
  segments : ∃ front last d, Path.segments path = front ++ [last] ∧ Path.isIdle last = false ∧
    last ≠ ".." ∧ t.walk (t.origin path) front = .ok d ∧ t.aim path = d ++ [last]
  /-- The directory is there. -/
  directory : ∀ p, p <+: t.aim path → p ≠ t.aim path →
    ∃ entries, t.root.at? p = some (.directory entries)
  /-- It is the place of no directory. -/
  free : ∀ entries, t.root.at? (t.aim path) ≠ some (.directory entries)
  /-- The file is put in. -/
  tree : t' = t.insert (t.aim path) (.file bytes)

/-- Segments of which none is dropped at the end. -/
theorem dropWhile_reverse_eq_self {parts : List String} {p : String → Bool}
    (h : ¬(parts.reverse.dropWhile p).reverse.length < parts.length) :
    (parts.reverse.dropWhile p).reverse = parts := by
  have hlength : (parts.reverse.dropWhile p).length = parts.reverse.length := by
    have hle := (List.dropWhile_suffix p (l := parts.reverse)).length_le
    rw [List.length_reverse] at h hle ⊢
    omega
  rw [(List.dropWhile_suffix p).eq_of_length hlength, List.reverse_reverse]

/-- A target without a slash behind it is the last segment, in the directory that the others lead to. -/
theorem target_of_not_slash {g : Target} (h : t.target path = .ok g) (hslash : g.slash = false) :
    Path.isLong path = false ∧ t.walk (t.origin path) (Path.segments path).dropLast = .ok g.directory ∧
      (Path.segments path).getLastD "." = g.name ∧
      ∃ entries, t.root.at? g.directory = some (.directory entries) := by
  unfold target at h
  split at h
  · cases h
  · split at h
    · cases h
    · next hlong =>
      dsimp only at h
      split at h
      · cases h
      · next place hwalk =>
        split at h
        · next entries hentries =>
          cases h
          have hnames := dropWhile_reverse_eq_self (of_decide_eq_false hslash)
          rw [hnames] at hwalk
          exact ⟨Bool.eq_false_iff.mpr hlong, hwalk, by rw [hnames], entries, hentries⟩
        · cases h
        · cases h

theorem written_of_write (h : t.write path bytes = .ok t') : t.Written path bytes t' := by
  unfold write at h
  cases hg : t.target path with
  | error e => rw [hg] at h; cases h
  | ok g =>
    rw [hg] at h
    dsimp only [Except.bind] at h
    split at h
    · cases h
    · next hplain =>
      obtain ⟨hdots, hslash⟩ := not_or.mp hplain
      obtain ⟨hlong, hwalk, hname, hentries⟩ :=
        target_of_not_slash hg (Bool.eq_false_iff.mpr hslash)
      have hdots : Path.isIdle g.name = false ∧ g.name ≠ ".." := by
        simpa [Target.isDots] using hdots
      have hsegments : Path.segments path = (Path.segments path).dropLast ++ [g.name] := by
        have hne := Path.segments_ne_nil path
        rw [← hname, List.getLastD_eq_getLast?, List.getLast?_eq_some_getLast hne, Option.getD_some,
          List.dropLast_concat_getLast]
      have haim : t.aim path = g.place := by
        rw [aim, hsegments, List.foldl_append, ← aim_eq_of_walk hwalk, List.foldl_cons, List.foldl_nil,
          Path.stride, if_neg (by simp [hdots.1]), if_neg hdots.2]
        rfl
      have htree : (∀ entries, t.root.at? g.place ≠ some (.directory entries)) ∧
          t' = t.insert g.place (.file bytes) := by
        split at h
        · cases h
        · split at h
          · cases h
          · next hfree => exact ⟨hfree, (Except.ok.inj h).symm⟩
      rw [← haim] at htree
      refine ⟨hlong, ⟨_, _, _, hsegments, hdots.1, hdots.2, hwalk, haim⟩, fun p hp hne => ?_,
        htree.1, htree.2⟩
      rw [haim] at hp hne
      have hprefix : p <+: g.directory := (List.prefix_concat_iff.mp hp).resolve_left hne
      by_cases hpd : p = g.directory
      · exact hpd ▸ hentries
      · obtain ⟨entries, hentries⟩ := hentries
        exact FileNode.exists_directory_of_prefix (by rw [hentries]; rfl) hprefix hpd

/-- The file is there. -/
theorem Written.at?_aim (h : t.Written path bytes t') :
    t'.root.at? (t.aim path) = some (.file bytes) := by
  rw [h.tree]
  exact FileNode.at?_insert_self h.directory

/-- All other files stay. -/
theorem Written.at?_of_ne {q : List String} {other : List UInt8} (h : t.Written path bytes t')
    (hq : t.root.at? q = some (.file other)) (hne : t.aim path ≠ q) :
    t'.root.at? q = some (.file other) := by
  rw [h.tree]
  refine FileNode.at?_insert_of_file hq fun hprefix => ?_
  obtain ⟨entries, hentries⟩ :=
    FileNode.exists_directory_of_prefix (by rw [hq]; rfl) hprefix hne
  exact h.free entries hentries

end FileTree

end PacketTree
