import PacketTree.CommandLine.Dissect
import PacketTree.Proofs.Capture.Reading
import PacketTree.Proofs.Files.Program

/-!
# What a run does to the files

A run makes directories and writes one report. All other files stay. Whether the capture file is among
them is the question of this module: the report's place is checked before its directories are made, and
the path of a report can lead elsewhere once they are there.

## What is proved

* `run_cases`: all steps before the report only read; then directories are made and the report is put
  where its path aims.
* `aim_ne_of_checkReport`: a report that passes the check does not go to the place of the input, if its
  directory is there when it is checked.
* `input_kept_iff`: the input stays, unless the run succeeds with a path that aims at the input, and
  such a path goes up again from a directory that is not there yet.
* `not_input_kept`: with a path of that kind the input is lost.
-/

namespace PacketTree.CommandLine.Dissect

open FileTree

variable {R : FileTree → FileTree → Prop} [IsPreorder FileTree R] {α ε : Type} {t t' : FileTree}
  {args : Arguments} {report path text : String} {machine : ℕ}

/-! ### Only reading -/

theorem moves_orFail (tell : ε → CommandError) (outcome : Except ε α) :
    Moves R (orFail tell outcome : Steps (StateM FileTree) α).run := by
  cases outcome with
  | ok x => exact moves_run_pure x
  | error e => exact moves_run_throw (Halt.failure (tell e))

theorem moves_matchingFiles (pattern : String) : Moves R (matchingFiles fileSystem pattern).run := by
  refine (moves_orFail _ _).run_bind fun p => ?_
  refine (Moves.run_lift (moves_expand p)).run_bind fun outcome => ?_
  refine (moves_orFail _ outcome).run_bind fun paths => ?_
  refine (moves_run_mapM (fun path => ?_) paths).run_bind fun files => moves_run_pure _
  exact (Moves.run_lift fun t => refl t).run_bind fun file => moves_run_pure _

theorem moves_resolveInput (input : String) : Moves R (resolveInput fileSystem input).run := by
  unfold resolveInput
  split
  · exact moves_run_pure input
  · refine (moves_matchingFiles input).run_bind fun paths => ?_
    split
    · exact moves_run_throw _
    · exact moves_run_pure _
    · exact moves_run_throw _

theorem moves_checkInput (path : String) : Moves R (checkInput fileSystem path).run := by
  refine (Moves.run_lift (moves_kind path)).run_bind fun kind => ?_
  split
  · exact moves_run_throw _
  · split
    · exact moves_run_throw _
    · exact moves_run_pure _
  · exact moves_run_throw _

theorem moves_settingsIn (path : String) : Moves R (settingsIn fileSystem path).run := by
  refine Moves.run_bind (Moves.run_lift fun t => refl t) fun text => ?_
  exact (moves_orFail _ text).run_bind fun text => moves_orFail _ _

theorem moves_settingsFor (args : Arguments) : Moves R (settingsFor fileSystem args).run := by
  have hrest : ∀ s : Settings, Moves R (do
      let s := override args s
      orFail .settings s.validate
      return s : Steps (StateM FileTree) Settings).run := fun s =>
    (moves_orFail _ _).run_bind fun _ => moves_run_pure _
  unfold settingsFor
  split
  · exact (moves_settingsIn _).run_bind hrest
  · exact (moves_run_pure _).run_bind hrest

theorem moves_checkReport (input report : String) :
    Moves R (checkReport fileSystem input report).run := by
  refine Moves.run_bind (Moves.run_lift fun t => refl t) fun outcome => ?_
  refine (moves_orFail _ outcome).run_bind fun inputPlace => ?_
  refine Moves.run_bind (Moves.run_lift fun t => refl t) fun outcome => ?_
  split
  · exact moves_run_pure _
  · split
    · exact moves_run_throw _
    · split
      · exact moves_run_throw _
      · exact moves_run_pure _

theorem moves_analyze (machine : ℕ) (settings : Settings) (path : String) :
    Moves R (analyze fileSystem machine settings path).run := by
  refine Moves.run_bind (Moves.run_lift fun t => refl t) fun file => ?_
  dsimp only
  split
  · exact moves_orFail _ _
  · exact moves_run_throw _

/-! ### Steps -/

theorem steps_cases (hreport : args.report = some report) (t : FileTree) :
    (∃ e, (steps fileSystem machine args).run t = (.error e, t)) ∨
      ∃ input settings r, (resolveInput fileSystem args.input).run t = (.ok input, t) ∧
        (checkReport fileSystem input report).run t = (.ok (), t) ∧
        (analyze fileSystem machine settings input).run t = (.ok r, t) ∧
        (steps fileSystem machine args).run t = (do
          writeReport fileSystem report (reportText args.pretty r)
          return { code := some 0, output := "", errors := if args.quiet then "" else doneText r report } :
            Steps (StateM FileTree) Outcome).run t := by
  unfold steps
  simp only [hreport]
  rcases (moves_resolveInput args.input).cases_bind _ t with ⟨e, -, h⟩ | ⟨input, hinput, h⟩
  · exact .inl ⟨e, h⟩
  rw [h]
  rcases (moves_checkInput input).cases_bind _ t with ⟨e, -, h⟩ | ⟨_, -, h⟩
  · exact .inl ⟨e, h⟩
  rw [h]
  rcases (moves_settingsFor args).cases_bind _ t with ⟨e, -, h⟩ | ⟨settings, -, h⟩
  · exact .inl ⟨e, h⟩
  rw [h]
  rcases (moves_checkReport input report).cases_bind _ t with ⟨e, -, h⟩ | ⟨_, hcheck, h⟩
  · exact .inl ⟨e, h⟩
  rw [h]
  rcases (moves_analyze machine settings input).cases_bind _ t with ⟨e, -, h⟩ | ⟨r, hanalyze, h⟩
  · exact .inl ⟨e, h⟩
  rw [h]
  exact .inr ⟨input, settings, r, hinput, hcheck, hanalyze, rfl⟩

/-- A report whose directory is there does not go to the place of the input. -/
theorem of_checkReport {input : String} (h : (checkReport fileSystem input report).run t = (.ok (), t)) :
    ∃ place, t.resolve input = .ok place ∧ ∀ d name, t.resolve (directoryOf report) = .ok d →
      Path.fileName? report = some name → d ++ [name] ≠ place := by
  rw [checkReport, run_lift_bind_apply] at h
  change (orFail _ (t.resolve input) >>= _ : Steps (StateM FileTree) Unit).run t = _ at h
  cases hplace : t.resolve input with
  | error e =>
    rw [hplace] at h
    cases h
  | ok place =>
    refine ⟨place, rfl, fun d name hd hname hsame => ?_⟩
    have hdirectory : (fileSystem.resolve (directoryOf report) t).1 = .ok d := hd
    rw [hplace, orFail, pure_bind, run_lift_bind_apply, hdirectory] at h
    simp only [hname, if_pos hsame] at h
    cases h

theorem of_analyze {settings : Settings} {r : Report}
    (h : (analyze fileSystem machine settings path).run t = (.ok r, t)) :
    Analysis.reportOfFile settings machine path ((t.read path).map (ByteView.ofBytes .nothing)) =
      some (.ok r) := by
  have hread : fileSystem.read path t = (t.read path, t) := rfl
  rw [analyze, run_lift_bind_apply, hread] at h
  dsimp only at h
  cases hr : Analysis.reportOfFile settings machine path
      ((t.read path).map (ByteView.ofBytes .nothing)) with
  | none => rw [hr] at h; cases h
  | some outcome =>
    rw [hr] at h
    cases outcome with
    | error e => cases h
    | ok r' =>
      cases h
      rfl

/-! ### Where the report goes -/

section

variable {front : List String} {last : String} (hpath : Path.segments report = front ++ [last])
  (hidle : Path.isIdle last = false)

include hpath

theorem not_mem_of_mem_trim : ∀ part ∈ Path.trim front, '/' ∉ part.toList := by
  intro part hpart
  obtain ⟨idle, hfront, -⟩ := Path.exists_idle front
  have hmem : part ∈ Path.segments report := by
    rw [hpath, hfront]
    exact List.mem_append_left _ (List.mem_append_left _ hpart)
  exact Path.not_mem_of_mem_segments hmem

include hidle

/-- The directory of a report, written out: all segments in front of its name. -/
theorem directoryOf_eq : directoryOf report =
    if front = [] then "." else Path.ofSegments (Path.trim front) := by
  split
  · next hfront =>
    subst hfront
    simp only [directoryOf, Path.parent?_of_single hpath hidle]
  · next hfront =>
    have hne := Path.ofSegments_ne_empty (Path.trim_ne_nil hfront) (not_mem_of_mem_trim hpath)
    rw [directoryOf, Path.parent?_of_segments hpath hidle hfront]
    split
    · next heq => cases heq
    · next heq => exact absurd (Option.some.inj heq) hne
    · next heq => exact (Option.some.inj heq).symm

theorem origin_directoryOf (t : FileTree) : t.origin (directoryOf report) = t.origin report := by
  unfold origin
  congr 1
  rw [directoryOf_eq hpath hidle]
  split
  · next hfront =>
    subst hfront
    rw [Path.isAbsolute_of_single hpath (Path.ne_empty_of_not_idle hidle)]
    rfl
  · next hfront =>
    have hhead : (Path.trim front).head? = front.head? := by
      cases front with
      | nil => rfl
      | cons first more => rfl
    rw [eq_iff_iff, Path.isAbsolute_of_segments hpath hfront, ← hhead,
      Path.isAbsolute_ofSegments (Path.trim_ne_nil hfront) (not_mem_of_mem_trim hpath)]

/-- The directory of a report aims at what the report's path aims at, without the name. -/
theorem aim_directoryOf (t : FileTree) :
    t.aim (directoryOf report) = front.foldl Path.stride (t.origin report) := by
  rw [aim, origin_directoryOf hpath hidle, directoryOf_eq hpath hidle]
  split
  · next hfront =>
    subst hfront
    rfl
  · next hfront =>
    rw [Path.foldl_stride_ofSegments (Path.trim_ne_nil hfront) (not_mem_of_mem_trim hpath),
      Path.foldl_stride_trim]

/-- The directory of a report can be followed if the segments in front of the name can. -/
theorem resolve_directoryOf {d : List String} (hshort : Path.isLong report = false)
    (hwalk : t.walk (t.origin report) front = .ok d)
    (hd : ∃ entries, t.root.at? d = some (.directory entries)) :
    t.resolve (directoryOf report) = .ok d := by
  have horigin := origin_directoryOf hpath hidle t
  rw [directoryOf_eq hpath hidle] at horigin ⊢
  split at horigin
  · next hfront =>
    rw [if_pos hfront]
    subst hfront
    cases hwalk
    refine resolve_of_walk (by decide) (by decide) ?_
    rw [horigin]
    exact walk_of_idle ["."] (by decide) hd
  · next hfront =>
    have hne := Path.trim_ne_nil hfront
    have hslash := not_mem_of_mem_trim hpath
    rw [if_neg hfront]
    refine resolve_of_walk (Path.ofSegments_ne_empty hne hslash) ?_ ?_
    · obtain ⟨idle, hfront, -⟩ := Path.exists_idle front
      have hsegments : Path.segments report = Path.trim front ++ (idle ++ [last]) := by
        rw [hpath, ← List.append_assoc, ← hfront]
      have hsize := Path.utf8ByteSize_ofSegments_le (by simp) hsegments
      simp only [Path.isLong, decide_eq_false_iff_not, not_le] at hshort ⊢
      omega
    · rw [horigin]
      exact walk_ofSegments hne hslash (walk_trim hwalk) hd

end

/-- A text is written, or the tree is as before. -/
theorem write_cases (t : FileTree) (path text : String) :
    let write : Steps (StateM FileTree) Unit := do
      orFail (.reportFile path) (← fileSystem.writeText path text)
    (∃ e, write.run t = (.error e, t)) ∨
      ∃ t', t.Written path text.toUTF8.toList t' ∧ write.run t = (.ok (), t') := by
  intro write
  rw [run_lift_bind_apply]
  rcases writeText_cases t path text with ⟨t', hwritten, hrun⟩ | ⟨e, hrun⟩
  · exact .inr ⟨t', hwritten, by rw [hrun]; rfl⟩
  · exact .inl ⟨_, by rw [hrun]; rfl⟩

/-- A report is written, or it is not; its directories may have been made in either case. -/
theorem writeReport_cases (t : FileTree) (path text : String) : ∃ u, t.Keeps u ∧
    ((∃ e, (writeReport fileSystem path text).run t = (.error e, u)) ∨
      ∃ t', u.Written path text.toUTF8.toList t' ∧
        (writeReport fileSystem path text).run t = (.ok (), t')) := by
  unfold writeReport
  split
  · exact ⟨t, Keeps.refl t, write_cases t path text⟩
  · exact ⟨t, Keeps.refl t, write_cases t path text⟩
  · next directory _ _ =>
    refine ⟨(fileSystem.ensureDirectories directory t).2, keeps_ensureDirectories directory t, ?_⟩
    rw [run_lift_bind_apply]
    cases (fileSystem.ensureDirectories directory t).1 with
    | ok made => exact write_cases _ path text
    | error e => exact .inl ⟨_, rfl⟩

/-! ### The input -/

/-- A step that fails is told as an error. -/
theorem run_apply (machine : ℕ) (args : Arguments) (t : FileTree) :
    run fileSystem machine args t =
      match ((steps fileSystem machine args).run t).1 with
      | .ok outcome => (outcome, ((steps fileSystem machine args).run t).2)
      | .error (.failure e) => ({ code := some failureCode, output := "", errors := e.text },
          ((steps fileSystem machine args).run t).2)
      | .error .stuck => ({ code := none, output := "", errors := "" },
          ((steps fileSystem machine args).run t).2) := by
  rw [run, bind_apply]
  rcases ((steps fileSystem machine args).run t).1 with (e | -) | outcome <;> rfl

/-- It does not end with success. -/
theorem run_of_error {e : Halt} {u : FileTree}
    (h : (steps fileSystem machine args).run t = (.error e, u)) :
    (run fileSystem machine args t).2 = u ∧ (run fileSystem machine args t).1.code ≠ some 0 := by
  rw [run_apply, h]
  cases e with
  | failure e => exact ⟨rfl, by simp [failureCode]⟩
  | stuck => exact ⟨rfl, by simp⟩

/-- What a run leaves: nothing but new directories, or also a report, which goes to its path's aim. -/
theorem run_cases (machine : ℕ) (hreport : args.report = some report) (t : FileTree) :
    (t.Keeps (run fileSystem machine args t).2 ∧ (run fileSystem machine args t).1.code ≠ some 0) ∨
      ∃ input settings r u, (resolveInput fileSystem args.input).run t = (.ok input, t) ∧
        (checkReport fileSystem input report).run t = (.ok (), t) ∧
        (analyze fileSystem machine settings input).run t = (.ok r, t) ∧
        t.Keeps u ∧ u.Written report (reportText args.pretty r).toUTF8.toList
          (run fileSystem machine args t).2 ∧
        (run fileSystem machine args t).1.code = some 0 := by
  rcases steps_cases hreport t with ⟨e, h⟩ | ⟨input, settings, r, hinput, hcheck, hanalyze, h⟩
  · obtain ⟨htree, hcode⟩ := run_of_error h
    refine .inl ⟨?_, hcode⟩
    rw [htree]
    exact Keeps.refl t
  · rw [run_bind_apply] at h
    obtain ⟨u, hkeeps, ⟨e, hwrite⟩ | ⟨t', hwritten, hwrite⟩⟩ :=
      writeReport_cases t report (reportText args.pretty r)
    · rw [hwrite] at h
      obtain ⟨htree, hcode⟩ := run_of_error h
      exact .inl ⟨htree.symm ▸ hkeeps, hcode⟩
    · rw [hwrite] at h
      rw [run_apply, h]
      exact .inr ⟨input, settings, r, u, hinput, hcheck, hanalyze, hkeeps, hwritten, rfl⟩

/-- The text of a report starts with a brace. -/
theorem exists_reportText (pretty : Bool) (r : Report) :
    ∃ rest, (reportText pretty r).toUTF8.toList = 0x7b :: rest := by
  unfold reportText
  split
  · rw [Json.indented, toList_toUTF8_ofList]
    exact ⟨_, rfl⟩
  · rw [Json.compact, toList_toUTF8_ofList]
    exact ⟨_, rfl⟩

/-- A file stays unless the report goes to its place. -/
theorem at?_run_of_ne {q : List String} {bytes : List UInt8} (hreport : args.report = some report)
    (hq : t.root.at? q = some (.file bytes)) (hne : t.aim report ≠ q) :
    (run fileSystem machine args t).2.root.at? q = some (.file bytes) := by
  rcases run_cases machine hreport t with
    ⟨hkeeps, -⟩ | ⟨input, settings, r, u, -, -, -, hkeeps, hwritten, -⟩
  · exact hkeeps.2 q bytes hq
  · exact hwritten.at?_of_ne (hkeeps.2 q bytes hq) ((hkeeps.aim_eq report).symm ▸ hne)

/-- Where its directory is there, a report that passes the check aims at another place. -/
theorem aim_ne_of_checkReport {u : FileTree} {input : String} {place d : List String}
    {bytes : List UInt8} (hcheck : (checkReport fileSystem input report).run t = (.ok (), t))
    (hplace : t.resolve input = .ok place) (hd : t.resolve (directoryOf report) = .ok d)
    (hwritten : u.Written report bytes t') : t.aim report ≠ place := by
  obtain ⟨place', hplace', hother⟩ := of_checkReport hcheck
  obtain rfl : place' = place := Except.ok.inj (hplace'.symm.trans hplace)
  obtain ⟨front, last, -, hpath, hidle, hdots, -, -⟩ := hwritten.segments
  have haim : t.aim report = d ++ [last] := by
    rw [aim_of_resolve hd, aim_directoryOf hpath hidle, aim, hpath, List.foldl_append,
      List.foldl_cons, List.foldl_nil, Path.stride, if_neg (by simp [hidle]), if_neg hdots]
  rw [haim]
  exact hother d last hd (Path.fileName?_of_segments hpath hidle hdots)

/-- Without two dots in its path, the directory of a report that lands on a file was there before. -/
theorem exists_resolve_directoryOf {u : FileTree} {bytes : List UInt8} (hkeeps : t.Keeps u)
    (hwritten : u.Written report bytes t') (hdots : ".." ∉ Path.segments report)
    (hfile : (t.root.at? (t.aim report)).isSome) : ∃ d, t.resolve (directoryOf report) = .ok d := by
  obtain ⟨front, last, d, hpath, hidle, -, hwalk, haim⟩ := hwritten.segments
  rw [← hkeeps.aim_eq report, haim] at hfile
  have hd := FileNode.exists_directory hfile
  have horigin : u.origin report = t.origin report := by rw [origin, origin, hkeeps.1]
  rw [horigin] at hwalk
  have hfront : ".." ∉ front := fun hmem => hdots (hpath ▸ List.mem_append_left _ hmem)
  exact ⟨d, resolve_directoryOf hpath hidle hwritten.short (walk_of_walk hwalk hfront hd) hd⟩

/-- Only of a capture file there is a report. -/
theorem exists_reader_of_reportOfFile {settings : Settings} {file : ByteView} {r : Report}
    (h : Analysis.reportOfFile settings machine path (.ok file) = some (.ok r)) :
    ∃ reader, CaptureReader.ofFile file = .ok reader := by
  cases hopened : CaptureReader.ofFile file with
  | ok reader => exact ⟨reader, rfl⟩
  | error e =>
    rw [Analysis.reportOfFile, hopened] at h
    cases h

/-- A report is no capture file. -/
theorem reportText_ne_of_analyze {settings : Settings} {r : Report} {bytes : List UInt8} (pretty : Bool)
    (h : (analyze fileSystem machine settings path).run t = (.ok r, t)) (hread : t.read path = .ok bytes) :
    (reportText pretty r).toUTF8.toList ≠ bytes := by
  have hreport := of_analyze h
  rw [hread] at hreport
  obtain ⟨reader, hopened⟩ := exists_reader_of_reportOfFile hreport
  obtain ⟨b, rest, hbytes, hb⟩ := CaptureReader.exists_first_of_ofFile hopened
  obtain ⟨more, htext⟩ := exists_reportText pretty r
  rw [ByteView.toList_ofBytes] at hbytes
  rw [htext, hbytes]
  intro heq
  rw [← (List.cons.inj heq).1] at hb
  exact absurd hb (by decide)

/-- A report that takes the place of the input leaves other bytes there. -/
theorem at?_run_ne {place : List String} {bytes : List UInt8} (hreport : args.report = some report)
    (hinput : ((resolveInput fileSystem args.input).run t).1 = .ok path)
    (hplace : t.resolve path = .ok place) (hfile : t.root.at? place = some (.file bytes))
    (hcode : (run fileSystem machine args t).1.code = some 0) (haim : t.aim report = place) :
    (run fileSystem machine args t).2.root.at? place ≠ some (.file bytes) := by
  rcases run_cases machine hreport t with
    ⟨-, hfailed⟩ | ⟨input, settings, r, u, hinput', -, hanalyze, hkeeps, hwritten, -⟩
  · exact absurd hcode hfailed
  · rw [hinput'] at hinput
    obtain rfl : input = path := Except.ok.inj hinput
    have hthere := hwritten.at?_aim
    rw [hkeeps.aim_eq, haim] at hthere
    rw [hthere]
    rintro ⟨⟩
    exact reportText_ne_of_analyze args.pretty hanalyze (read_of_resolve hplace hfile) rfl

/-- **When a report takes the place of the input.** The file that the input leads to holds the same
bytes after the run unless the run succeeds and the report's path, with two dots taken back by name,
aims at that file. This happens only if the path goes up again by two dots and its directory could not
be found before the run; in all other cases the input stays. -/
theorem input_kept_iff {place : List String} {bytes : List UInt8} (machine : ℕ)
    (hreport : args.report = some report)
    (hinput : ((resolveInput fileSystem args.input).run t).1 = .ok path)
    (hplace : t.resolve path = .ok place) (hfile : t.root.at? place = some (.file bytes)) :
    let after := run fileSystem machine args t
    (after.2.root.at? place = some (.file bytes) ↔ ¬(after.1.code = some 0 ∧ t.aim report = place)) ∧
      ((∃ d, t.resolve (directoryOf report) = .ok d) ∨ ".." ∉ Path.segments report →
        after.2.root.at? place = some (.file bytes)) := by
  intro after
  constructor
  · refine ⟨fun hkept h => at?_run_ne hreport hinput hplace hfile h.1 h.2 hkept, fun h => ?_⟩
    rcases run_cases machine hreport t with ⟨hkeeps, -⟩ | ⟨-, -, -, -, -, -, -, -, -, hcode⟩
    · exact hkeeps.2 place bytes hfile
    · exact at?_run_of_ne hreport hfile fun haim => h ⟨hcode, haim⟩
  · intro hpath
    rcases run_cases machine hreport t with
      ⟨hkeeps, -⟩ | ⟨input, settings, r, u, hinput', hcheck, -, hkeeps, hwritten, -⟩
    · exact hkeeps.2 place bytes hfile
    · rw [hinput'] at hinput
      obtain rfl : input = path := Except.ok.inj hinput
      refine at?_run_of_ne hreport hfile fun haim => ?_
      have hd : ∃ d, t.resolve (directoryOf report) = .ok d := hpath.elim id fun hdots =>
        exists_resolve_directoryOf hkeeps hwritten hdots (by rw [haim, hfile]; rfl)
      obtain ⟨d, hd⟩ := hd
      exact aim_ne_of_checkReport hcheck hplace hd hwritten haim

/-- A capture file with one section and no packets. -/
def blankCapture : List UInt8 :=
  [0x0a, 0x0d, 0x0d, 0x0a, 28, 0, 0, 0, 0x4d, 0x3c, 0x2b, 0x1a, 1, 0, 0, 0, 0, 0, 0, 0, 0, 0, 0, 0,
    28, 0, 0, 0]

/-- The capture file alone in the current directory. -/
def blankTree : FileTree where
  root := .directory [("input.pcapng", .file blankCapture)]

/-- The command that takes it apart. -/
def blankArguments (report : String) : Arguments where
  input := "input.pcapng"
  report := some report
  pretty := false
  quiet := false
  verbose := false
  config := none
  concurrency := none
  confidence := none
  midstream := false

/-- A report in a directory that has to be made. -/
theorem input_kept_out :
    blankTree.resolve "input.pcapng" = .ok ["input.pcapng"] ∧
      blankTree.root.at? ["input.pcapng"] = some (.file blankCapture) ∧
      ".." ∉ Path.segments "out/report.json" ∧
      (run fileSystem 1 (blankArguments "out/report.json") blankTree).2.root.at? ["input.pcapng"] =
        some (.file blankCapture) :=
  have hdots : ".." ∉ Path.segments "out/report.json" := by decide +kernel
  ⟨rfl, rfl, hdots, (input_kept_iff 1 rfl rfl rfl rfl).2 (.inr hdots)⟩

/-- A report does take the place of the input: the directory of its path cannot be found before the run
and goes back to that of the input once it is made. -/
theorem not_input_kept : ¬∀ (args : Arguments) (report path : String) (t : FileTree)
    (place : List String) (bytes : List UInt8), args.report = some report →
      ((resolveInput fileSystem args.input).run t).1 = .ok path → t.resolve path = .ok place →
      t.root.at? place = some (.file bytes) →
      (run fileSystem 1 args t).2.root.at? place = some (.file bytes) := by
  intro h
  have hcode : (run fileSystem 1 (blankArguments "new/../input.pcapng") blankTree).1.code =
      some 0 := by
    decide +kernel
  exact at?_run_ne rfl rfl rfl rfl hcode (by decide +kernel)
    (h _ _ _ _ _ _ rfl rfl rfl rfl)

end PacketTree.CommandLine.Dissect
