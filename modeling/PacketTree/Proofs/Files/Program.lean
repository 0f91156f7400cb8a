import Mathlib.Order.Defs.Unbundled
import PacketTree.Files.Expansion
import PacketTree.Proofs.Files.Tree

/-!
# Programs that use a file tree

A program is made of operations on files, one after the other. What every operation keeps is kept by
the program. So a program that only looks at files leaves the tree as it is, and making directories
keeps all files.

## What is proved

* `Moves.bind`, `Moves.run_bind`: a relation between trees that each part of a program keeps is kept by
  the program, whether its parts can fail or not.
* `Moves.cases_bind`: a part that only reads either ends the program or hands on a result.
* `moves_expand`: to find the paths that a pattern stands for is only to read.
* `keeps_ensureDirectories`: all files stay when directories are made.
-/

namespace PacketTree.FileTree

variable {R : FileTree → FileTree → Prop} [IsPreorder FileTree R] {α β ε : Type}

/-- A program takes every tree to one that it is related to. -/
def Moves (R : FileTree → FileTree → Prop) (x : StateM FileTree α) : Prop := ∀ t, R t (x t).2

/-! ### Putting programs together -/

theorem moves_pure (a : α) : Moves R (pure a : StateM FileTree α) := fun t => refl t

/-- One program after the other. -/
theorem bind_apply (x : StateM FileTree α) (f : α → StateM FileTree β) (t : FileTree) :
    (x >>= f) t = f (x t).1 (x t).2 := rfl

theorem Moves.bind {x : StateM FileTree α} {f : α → StateM FileTree β} (hx : Moves R x)
    (hf : ∀ a, Moves R (f a)) : Moves R (x >>= f) :=
  fun t => IsTrans.trans _ _ _ (hx t) (hf (x t).1 (x t).2)

theorem moves_run_pure (a : α) : Moves R (pure a : ExceptT ε (StateM FileTree) α).run :=
  fun t => refl t

theorem moves_run_throw (e : ε) : Moves R (throw e : ExceptT ε (StateM FileTree) α).run :=
  fun t => refl t

/-- A part that fails ends the program. -/
theorem run_bind_apply (x : ExceptT ε (StateM FileTree) α) (f : α → ExceptT ε (StateM FileTree) β)
    (t : FileTree) : (x >>= f).run t =
      match (x.run t).1 with
      | .ok a => (f a).run (x.run t).2
      | .error e => (.error e, (x.run t).2) := by
  rw [ExceptT.run_bind, bind_apply]
  cases (x.run t).1 <;> rfl

/-- A part that cannot fail hands on its result. -/
theorem run_lift_bind_apply (x : StateM FileTree α) (f : α → ExceptT ε (StateM FileTree) β)
    (t : FileTree) : ((liftM x : ExceptT ε (StateM FileTree) α) >>= f).run t = (f (x t).1).run (x t).2 := by
  rw [run_bind_apply]
  rfl

theorem Moves.run_bind {x : ExceptT ε (StateM FileTree) α} {f : α → ExceptT ε (StateM FileTree) β}
    (hx : Moves R x.run) (hf : ∀ a, Moves R (f a).run) : Moves R (x >>= f).run := by
  intro t
  rw [run_bind_apply]
  cases (x.run t).1 with
  | ok a => exact IsTrans.trans _ _ _ (hx t) (hf a _)
  | error e => exact hx t

omit [IsPreorder FileTree R] in
theorem Moves.run_lift {x : StateM FileTree α} (hx : Moves R x) :
    Moves R (liftM x : ExceptT ε (StateM FileTree) α).run :=
  hx

theorem moves_run_mapM {f : α → ExceptT ε (StateM FileTree) β} (hf : ∀ a, Moves R (f a).run)
    (l : List α) : Moves R (l.mapM f).run := by
  induction l with
  | nil => exact moves_run_pure []
  | cons a l ih =>
    rw [List.mapM_cons]
    exact (hf a).run_bind fun b => ih.run_bind fun bs => moves_run_pure (b :: bs)

/-! ### Only reading -/

theorem moves_kind (path : String) : Moves R (fileSystem.kind path) := fun t => refl t

theorem moves_isDirectory (path : String) : Moves R (fileSystem.isDirectory path) := fun t => refl t

theorem moves_holds (path : String) : Moves R (fileSystem.holds path) := fun t => refl t

open Expansion

theorem moves_sortedNames (path : String) : Moves R (sortedNames fileSystem path).run := by
  refine Moves.run_bind (Moves.run_lift fun t => refl t) fun outcome => ?_
  cases outcome with
  | ok names => exact moves_run_pure _
  | error e => exact moves_run_throw _

section

variable {below : List Glob → String → Paths (StateM FileTree)}
  (hbelow : ∀ names path, Moves R (below names path).run) (onlyDirectories : Bool)

include hbelow

theorem moves_found (rest : List Glob) (path : String) : Moves R (found below rest path).run := by
  unfold found
  split
  · exact moves_run_pure [path]
  · exact hbelow rest path

/-- A path that may have to be that of a directory. -/
theorem moves_foundDirectory (rest : List Glob) (path : String) :
    Moves R (do
      let directory ← liftM (fileSystem.isDirectory path)
      if (rest.isEmpty && onlyDirectories && !directory) = true then pure []
        else found below rest path : Paths (StateM FileTree)).run := by
  refine Moves.run_bind (Moves.run_lift (moves_isDirectory path)) fun directory => ?_
  split
  · exact moves_run_pure []
  · exact moves_found hbelow rest path

theorem moves_tryName (directory : Bool) (path : String) (names : List Glob) :
    Moves R (tryName below onlyDirectories directory path names).run := by
  unfold tryName
  split
  · exact moves_run_pure []
  · split
    · exact moves_run_pure []
    · split
      · exact hbelow _ path
      · split
        · exact moves_run_pure _
        · exact moves_run_pure _

theorem moves_visit (g : Glob) (rest : List Glob) (path : String) :
    Moves R (visit fileSystem below onlyDirectories g rest path).run := by
  unfold visit
  refine Moves.run_bind (Moves.run_lift (moves_isDirectory path)) fun directory => ?_
  split
  · exact moves_tryName hbelow onlyDirectories directory path _
  · have hinside : ∀ own : List String, Moves R (do
        let inside ← if directory then below (g :: rest.dropWhile Glob.isRecursive) path else pure []
        return own ++ inside : Paths (StateM FileTree)).run := by
      intro own
      split
      · exact (hbelow _ path).run_bind fun inside => moves_run_pure _
      · exact moves_run_pure _
    dsimp only
    split
    · exact (moves_run_pure _).run_bind hinside
    · exact (moves_tryName hbelow onlyDirectories directory path _).run_bind hinside

end

/-- To find paths from a path on is only to read. -/
theorem moves_fill (onlyDirectories : Bool) (rounds : ℕ) (names : List Glob) (path : String) :
    Moves R (fill fileSystem onlyDirectories rounds names path).run := by
  induction rounds generalizing names path with
  | zero => exact moves_run_pure []
  | succ rounds ih =>
    cases names with
    | nil => exact moves_run_pure []
    | cons g rest =>
      rw [fill]
      refine Moves.run_bind (Moves.run_lift (moves_isDirectory path)) fun here => ?_
      split
      · next name _ =>
        have hnext : ∀ there : Bool, Moves R (do
            if !there then return []
            else if rest.isEmpty && onlyDirectories &&
              !(← fileSystem.isDirectory (entry path name)) then return []
            else found (fill fileSystem onlyDirectories rounds) rest (entry path name) :
              Paths (StateM FileTree)).run := by
          intro there
          split
          · exact moves_run_pure []
          · exact moves_foundDirectory ih onlyDirectories rest _
        dsimp only
        split
        · exact (moves_run_pure here).run_bind hnext
        · exact (Moves.run_lift (moves_holds _)).run_bind hnext
      · split
        · exact moves_run_pure []
        · refine (moves_sortedNames path).run_bind fun entries => ?_
          refine (moves_run_mapM (fun name => ?_) (dots g)).run_bind fun special => ?_
          · exact moves_foundDirectory ih onlyDirectories rest _
          · refine (moves_run_mapM (fun name => ?_) entries).run_bind fun children => ?_
            · exact moves_visit ih onlyDirectories g rest _
            · exact moves_run_pure _

theorem moves_expand (p : PathPattern) : Moves R (p.expand fileSystem).run :=
  moves_fill p.directories _ p.names _

/-- A part that only reads ends the program or hands on a result, and the tree is still the same. -/
theorem Moves.cases_bind {x : ExceptT ε (StateM FileTree) α} (hx : Moves Eq x.run)
    (f : α → ExceptT ε (StateM FileTree) β) (t : FileTree) :
    (∃ e, x.run t = (.error e, t) ∧ (x >>= f).run t = (.error e, t)) ∨
      ∃ a, x.run t = (.ok a, t) ∧ (x >>= f).run t = (f a).run t := by
  have ht : (x.run t).2 = t := (hx t).symm
  rw [run_bind_apply]
  cases hresult : (x.run t).1 with
  | error e => exact .inl ⟨e, Prod.ext hresult ht, by rw [ht]⟩
  | ok a => exact .inr ⟨a, Prod.ext hresult ht, by rw [ht]⟩

/-! ### Making directories -/

instance : IsPreorder FileTree Keeps where
  refl := Keeps.refl
  trans _ _ _ h h' := h.trans h'

theorem moves_makeDirectory (path : String) : Moves Keeps (fileSystem.makeDirectory path) := by
  intro t
  change t.Keeps (update (fun t => t.makeDirectory path) t).2
  unfold update
  split
  · next hmade => exact keeps_makeDirectory hmade
  · exact Keeps.refl t

theorem moves_ensureDirectory (path : String) : Moves Keeps (fileSystem.ensureDirectory path) := by
  refine (moves_makeDirectory path).bind fun outcome => ?_
  cases outcome with
  | ok made => exact moves_pure _
  | error e =>
    refine (moves_isDirectory path).bind fun directory => ?_
    split
    · exact moves_pure _
    · exact moves_pure _

theorem moves_ensureFirst (paths : List String) : Moves Keeps (fileSystem.ensureFirst paths) := by
  induction paths with
  | nil => exact moves_pure _
  | cons path above ih =>
    rw [FileSystem.ensureFirst]
    split
    · exact moves_pure _
    · refine (moves_ensureDirectory path).bind fun outcome => ?_
      split
      · refine ih.bind fun outcome => ?_
        cases outcome with
        | ok made => exact moves_ensureDirectory path
        | error e => exact moves_pure _
      · exact moves_pure _

/-- **All files stay when directories are made**, also if not all of them can be made. -/
theorem keeps_ensureDirectories (path : String) :
    Moves Keeps (fileSystem.ensureDirectories path) :=
  moves_ensureFirst _

/-! ### Writing -/

theorem toList_loop_eq (bytes : ByteArray) (i : ℕ) (r : List UInt8) :
    ByteArray.toList.loop bytes i r = r.reverse ++ bytes.data.toList.drop i := by
  fun_induction ByteArray.toList.loop bytes i r with
  | case1 i r h ih =>
    have hi : i < bytes.data.toList.length := by simpa using h
    rw [ih, List.drop_eq_getElem_cons hi]
    simp [ByteArray.get!, getElem!_pos, h]
  | case2 i r h =>
    simp only [not_lt] at h
    simp [h]

/-- The bytes of a text are those of its characters. -/
theorem toList_toUTF8_ofList (s : List Char) :
    (String.ofList s).toUTF8.toList = s.flatMap String.utf8EncodeChar := by
  rw [String.toUTF8, ByteArray.toList, toList_loop_eq, String.toByteArray_ofList]
  simp [List.utf8Encode]

theorem writeText_cases (t : FileTree) (path text : String) :
    (∃ t', t.Written path text.toUTF8.toList t' ∧
        fileSystem.writeText path text t = (.ok (), t')) ∨
      ∃ e, fileSystem.writeText path text t = (.error e, t) := by
  have hwrite : fileSystem.writeText path text t =
      update (fun t => t.write path text.toUTF8.toList) t := rfl
  rw [hwrite, update]
  split
  · next t' hok => exact .inl ⟨t', written_of_write hok, rfl⟩
  · next e _ => exact .inr ⟨e, rfl⟩

end PacketTree.FileTree
