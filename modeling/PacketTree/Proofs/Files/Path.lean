import PacketTree.Files.Path
import PacketTree.Proofs.Text.Runs

/-!
# The segments of a path

A path is taken apart into segments and put together again. This module says when that gives back the
segments, what the last name of a path and the path in front of it are made of, and where the segments
lead if all of them can be followed.

## What is proved

* `segments_ofSegments`: segments without slashes are found again in the path made of them.
* `parent?_of_segments` and `fileName?_of_segments`: the two parts of a path that ends with a name.
* `foldl_stride_trim`: idle segments at the end lead nowhere else.
-/

namespace PacketTree.Path

variable {path : String} {segment last : String} {front : List String}

/-! ### Cutting and joining -/

theorem cut_append_slash {s : List Char} (h : '/' ∉ s) (rest : List Char) :
    cut (s ++ '/' :: rest) = s :: cut rest := by
  induction s with
  | nil => rfl
  | cons c s ih =>
    obtain ⟨hc, hs⟩ := List.ne_and_not_mem_of_not_mem_cons h
    rw [List.cons_append, cut.eq_3 _ _ fun e => hc e.symm, ih hs]

theorem cut_of_not_mem {s : List Char} (h : '/' ∉ s) : cut s = [s] := by
  induction s with
  | nil => rfl
  | cons c s ih =>
    obtain ⟨hc, hs⟩ := List.ne_and_not_mem_of_not_mem_cons h
    rw [cut.eq_3 _ _ fun e => hc e.symm, ih hs]

/-- Pieces without slashes are cut apart where they were put together. -/
theorem cut_intercalate {pieces : List (List Char)} (hne : pieces ≠ [])
    (h : ∀ piece ∈ pieces, '/' ∉ piece) : cut (['/'].intercalate pieces) = pieces := by
  induction pieces with
  | nil => exact absurd rfl hne
  | cons piece pieces ih =>
    obtain ⟨hpiece, hpieces⟩ := List.forall_mem_cons.mp h
    cases pieces with
    | nil =>
      rw [List.intercalate_singleton]
      exact cut_of_not_mem hpiece
    | cons next pieces =>
      rw [List.intercalate_cons_cons, List.append_assoc, List.singleton_append,
        cut_append_slash hpiece, ih (List.cons_ne_nil _ _) hpieces]

theorem not_mem_of_mem_segments (h : segment ∈ segments path) : '/' ∉ segment.toList := by
  obtain ⟨piece, hpiece, rfl⟩ := List.mem_map.mp h
  rw [String.toList_ofList]
  exact not_mem_of_mem_cut hpiece

theorem segments_ne_nil (path : String) : segments path ≠ [] :=
  mt List.map_eq_nil_iff.mp (cut_ne_nil _)

/-- **Segments without slashes are those of the path made of them**; the root is written as the slash
behind its one empty segment. -/
theorem segments_ofSegments {parts : List String} (hne : parts ≠ []) (hroot : parts ≠ [""])
    (h : ∀ part ∈ parts, '/' ∉ part.toList) : segments (ofSegments parts) = parts := by
  have hpieces : ∀ piece ∈ parts.map String.toList, '/' ∉ piece := by
    intro piece hpiece
    obtain ⟨part, hpart, rfl⟩ := List.mem_map.mp hpiece
    exact h part hpart
  rw [ofSegments, if_neg hroot, segments, String.toList_ofList,
    cut_intercalate (by simpa using hne) hpieces, List.map_map]
  exact List.map_id'' (fun s => String.ofList_toList) parts

/-- A path is absolute if it starts with an empty segment and is not empty itself. -/
theorem isAbsolute_iff :
    isAbsolute path = true ↔ (segments path).head? = some "" ∧ segments path ≠ [""] := by
  unfold isAbsolute segments
  cases hs : path.toList with
  | nil => simp [cut]
  | cons c s =>
    by_cases hc : c = '/'
    · subst hc
      simp [cut, cut_ne_nil]
    · obtain ⟨piece, pieces, hcut⟩ := List.exists_cons_of_ne_nil (cut_ne_nil s)
      rw [cut.eq_3 _ _ fun e => hc e, hcut]
      simp [hc]

theorem isAbsolute_of_single (hpath : segments path = [last]) (hlast : last ≠ "") :
    isAbsolute path = false := by
  rw [← Bool.not_eq_true, isAbsolute_iff, hpath]
  simp [hlast]

theorem isAbsolute_of_segments (hpath : segments path = front ++ [last]) (hfront : front ≠ []) :
    isAbsolute path = true ↔ front.head? = some "" := by
  obtain ⟨first, more, rfl⟩ := List.exists_cons_of_ne_nil hfront
  rw [isAbsolute_iff, hpath]
  simp

/-! ### Idle segments at the end -/

theorem exists_idle (parts : List String) :
    ∃ idle, parts = trim parts ++ idle ∧ ∀ part ∈ idle, isIdle part = true := by
  cases parts with
  | nil => exact ⟨[], rfl, nofun⟩
  | cons first rest =>
    refine ⟨(rest.reverse.takeWhile isIdle).reverse, ?_, fun part hpart => ?_⟩
    · rw [trim, List.cons_append, ← List.reverse_append, List.takeWhile_append_dropWhile,
        List.reverse_reverse]
    · exact List.mem_takeWhile_imp (List.mem_reverse.mp hpart)

theorem trim_ne_nil {parts : List String} (h : parts ≠ []) : trim parts ≠ [] := by
  cases parts with
  | nil => exact absurd rfl h
  | cons first rest => exact List.cons_ne_nil _ _

theorem trim_of_last (h : isIdle last = false) (front : List String) :
    trim (front ++ [last]) = front ++ [last] := by
  cases front with
  | nil => rfl
  | cons first front =>
    rw [List.cons_append, trim, List.reverse_append, List.reverse_singleton, List.singleton_append,
      List.dropWhile_cons_of_neg (by simpa using h), List.reverse_cons, List.reverse_reverse]

/-! ### The parts of a path that ends with a name -/

theorem fileName?_of_segments (hpath : segments path = front ++ [last]) (hidle : isIdle last = false)
    (hdots : last ≠ "..") : fileName? path = some last := by
  rw [fileName?, significant, hpath, trim_of_last hidle, List.getLast?_concat]
  simp [hidle, hdots]

theorem ne_empty_of_not_idle (h : isIdle segment = false) : segment ≠ "" := by
  rintro rfl
  exact absurd h (by decide)

theorem parent?_of_single (hpath : segments path = [last]) (hidle : isIdle last = false) :
    parent? path = some "" := by
  have hlast := ne_empty_of_not_idle hidle
  rw [parent?, significant, hpath, show trim [last] = [last] from trim_of_last hidle []]
  split
  · next heq => exact absurd heq (List.cons_ne_nil _ _)
  · next heq => exact absurd (List.cons.inj heq).1 hlast
  · rfl
  · next heq => exact absurd rfl (heq last)

theorem parent?_of_segments (hpath : segments path = front ++ [last]) (hidle : isIdle last = false)
    (hfront : front ≠ []) : parent? path = some (ofSegments (trim front)) := by
  obtain ⟨first, front, rfl⟩ := List.exists_cons_of_ne_nil hfront
  rw [parent?, significant, hpath, trim_of_last hidle]
  split
  · next heq => exact absurd heq (by simp)
  · next heq => exact absurd heq (by simp)
  · next heq => exact absurd heq (by simp)
  · rw [List.dropLast_concat]

/-! ### The path of a directory -/

section

variable {parts : List String} (hne : parts ≠ []) (h : ∀ part ∈ parts, '/' ∉ part.toList)

include hne h

theorem ofSegments_ne_empty : ofSegments parts ≠ "" := by
  by_cases hroot : parts = [""]
  · rw [ofSegments, if_pos hroot]
    decide
  · intro hempty
    have hparts := segments_ofSegments hne hroot h
    rw [hempty] at hparts
    exact hroot hparts.symm

theorem isAbsolute_ofSegments : isAbsolute (ofSegments parts) = true ↔ parts.head? = some "" := by
  by_cases hroot : parts = [""]
  · rw [ofSegments, if_pos hroot, hroot]
    decide
  · rw [isAbsolute_iff, segments_ofSegments hne hroot h]
    exact and_iff_left hroot

end

/-- Segments make no longer path than more segments. -/
theorem utf8ByteSize_ofSegments_le {parts more : List String} (hmore : more ≠ [])
    (hpath : segments path = parts ++ more) :
    (ofSegments parts).utf8ByteSize ≤ path.utf8ByteSize := by
  have htext := intercalate_cut path.toList
  have hpieces : cut path.toList = parts.map String.toList ++ more.map String.toList := by
    rw [← List.map_append, ← hpath, segments, List.map_map]
    exact (List.map_id'' (fun s => String.toList_ofList) _).symm
  by_cases hempty : parts = []
  · rw [hempty, ofSegments, if_neg (by decide)]
    exact Nat.zero_le _
  · rw [hpieces, Text.intercalate_append _ (by simpa using hempty) (by simpa using hmore)] at htext
    have hjoined : path = String.ofList (['/'].intercalate (parts.map String.toList)) ++
        ("/" ++ String.ofList (['/'].intercalate (more.map String.toList))) :=
      String.toList_injective (by simp [← htext])
    rw [ofSegments, hjoined, String.utf8ByteSize_append, String.utf8ByteSize_append]
    split
    · omega
    · omega

/-! ### Where segments lead -/

/-- Where a segment leads from a place, if it can be followed. -/
def stride (place : List String) (segment : String) : List String :=
  if isIdle segment then place
  else if segment = ".." then place.dropLast
  else place ++ [segment]

theorem foldl_stride_of_idle {idle : List String} (h : ∀ part ∈ idle, isIdle part = true)
    (place : List String) : idle.foldl stride place = place := by
  induction idle with
  | nil => rfl
  | cons part idle ih =>
    obtain ⟨hpart, hidle⟩ := List.forall_mem_cons.mp h
    rw [List.foldl_cons, stride, if_pos hpart, ih hidle]

theorem foldl_stride_trim (parts place : List String) :
    (trim parts).foldl stride place = parts.foldl stride place := by
  obtain ⟨idle, hparts, hidle⟩ := exists_idle parts
  calc (trim parts).foldl stride place
      _ = idle.foldl stride ((trim parts).foldl stride place) := (foldl_stride_of_idle hidle _).symm
      _ = parts.foldl stride place := by rw [← List.foldl_append, ← hparts]

/-- The path made of segments leads where they do. -/
theorem foldl_stride_ofSegments {parts : List String} (hne : parts ≠ [])
    (h : ∀ part ∈ parts, '/' ∉ part.toList) (place : List String) :
    (segments (ofSegments parts)).foldl stride place = parts.foldl stride place := by
  by_cases hroot : parts = [""]
  · rw [ofSegments, if_pos hroot, hroot]
    rfl
  · rw [segments_ofSegments hne hroot h]

/-- Without two dots segments only lead further. -/
theorem prefix_foldl_stride {parts : List String} (h : ".." ∉ parts) (place : List String) :
    place <+: parts.foldl stride place := by
  induction parts generalizing place with
  | nil => exact List.prefix_refl place
  | cons part parts ih =>
    obtain ⟨hpart, hparts⟩ := List.ne_and_not_mem_of_not_mem_cons h
    have hstep : place <+: stride place part := by
      unfold stride
      split
      · exact List.prefix_refl place
      · rw [if_neg (Ne.symm hpart)]
        exact List.prefix_append place [part]
    exact hstep.trans (ih hparts _)

end PacketTree.Path
