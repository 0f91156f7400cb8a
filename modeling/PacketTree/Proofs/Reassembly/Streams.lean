import Mathlib.Data.List.Basic
import PacketTree.Reassembly.Context

/-!
# Every stream has a worker of its own

What a stream dissector finds in a segment depends on the earlier segments of the same stream and on
nothing else. This module shows that the table of a context keeps exactly this, and that segments of
other streams can be left out.

## What is proved

* `Holds.process`, `Holds.sweep`: the table of a context holds a worker for each stream it has seen,
  in the state that the segments of that stream have put it in.
* `filter_answersFrom`: the answers to some streams are those given if there are no other streams.

## The model

`memoryAfter` is the memory of a worker after some segments of its stream. `answer` is what it finds in
the next one, and `answersFrom` lists a number of segments with the answers to them.
-/

namespace PacketTree

variable {τ : Type}

namespace Segment

variable {ds : List (StreamDissector τ)} {f : Frame} {s : Segment}

/-! ### Segments of a frame -/

/-- What a segment tells of the layer that carries it. -/
theorem of_ofLayer?_eq_some {frame id : ℕ} {l : Layer} (h : ofLayer? frame id l = some s) :
    s.frame = frame ∧ s.layer = id ∧ s.ns = l.ns ∧ l.streamId = some s.stream := by
  rw [ofLayer?, Option.bind_eq_bind, Option.bind_eq_some_iff] at h
  obtain ⟨stream, hstream, h⟩ := h
  rw [Option.bind_eq_bind, Option.bind_eq_some_iff] at h
  obtain ⟨seq, -, h⟩ := h
  cases h
  exact ⟨rfl, rfl, rfl, hstream⟩

/-- A segment knows its frame, and some dissector takes it. -/
theorem of_mem_ofFrame (h : s ∈ ofFrame ds f) :
    s.frame = f.index ∧ ds.any (·.selects s.ns) = true := by
  rw [ofFrame, List.mem_filterMap] at h
  obtain ⟨⟨l, id⟩, -, h⟩ := h
  dsimp only at h
  split at h
  · next hany =>
    obtain ⟨hframe, -, hns, -⟩ := of_ofLayer?_eq_some h
    exact ⟨hframe, hns ▸ hany⟩
  · cases h

theorem frame_of_mem_ofFrame (h : s ∈ ofFrame ds f) : s.frame = f.index := (of_mem_ofFrame h).1

theorem selects_of_mem_ofFrame {d : StreamDissector τ} (h : s ∈ ofFrame [d] f) :
    d.selects s.ns = true := by
  simpa using (of_mem_ofFrame h).2

end Segment

namespace StreamDissector

variable (d : StreamDissector τ)

/-! ### Answers -/

/-- What a worker remembers after some segments of its stream. -/
def memoryAfter (segments : List Segment) : τ := segments.foldl (fun m s => (d.analyze m s).1) d.fresh

/-- What the worker of its stream finds in a segment, after other segments of all streams. -/
def answer (earlier : List Segment) (s : Segment) : Option Layer :=
  (d.analyze (d.memoryAfter (earlier.filter (·.stream = s.stream))) s).2

/-- Segments with what is found in them, after other segments. -/
def answersFrom (earlier : List Segment) : List Segment → List (Segment × Option Layer)
  | [] => []
  | s :: segments => (s, d.answer earlier s) :: answersFrom (earlier ++ [s]) segments

theorem memoryAfter_append_singleton (segments : List Segment) (s : Segment) :
    d.memoryAfter (segments ++ [s]) = (d.analyze (d.memoryAfter segments) s).1 :=
  List.foldl_append ..

theorem answersFrom_append (earlier l m : List Segment) :
    d.answersFrom earlier (l ++ m) = d.answersFrom earlier l ++ d.answersFrom (earlier ++ l) m := by
  induction l generalizing earlier with
  | nil => rw [List.append_nil]; rfl
  | cons s l ih =>
    rw [List.cons_append, answersFrom, answersFrom, ih, List.append_assoc, List.singleton_append]
    rfl

theorem answersFrom_append_singleton (l : List Segment) (s : Segment) :
    d.answersFrom [] (l ++ [s]) = d.answersFrom [] l ++ [(s, d.answer l s)] := by
  rw [answersFrom_append]
  rfl

theorem fst_mem_of_mem_answersFrom {earlier segments : List Segment} {a : Segment × Option Layer}
    (h : a ∈ d.answersFrom earlier segments) : a.1 ∈ segments := by
  induction segments generalizing earlier with
  | nil => cases h
  | cons s segments ih =>
    rcases List.mem_cons.mp h with rfl | h
    · exact List.mem_cons_self
    · exact List.mem_cons_of_mem s (ih h)

theorem exists_of_mem_answersFrom {earlier segments : List Segment} {a : Segment × Option Layer}
    (h : a ∈ d.answersFrom earlier segments) : ∃ before, a.2 = d.answer before a.1 := by
  induction segments generalizing earlier with
  | nil => cases h
  | cons s segments ih =>
    rcases List.mem_cons.mp h with rfl | h
    · exact ⟨earlier, rfl⟩
    · exact ih h

/-- **Streams are independent.** Leaving out whole streams does not change the answers to the
others. -/
theorem filter_answersFrom {keep : Segment → Bool}
    (h : ∀ s t : Segment, s.stream = t.stream → keep s = keep t) (earlier segments : List Segment) :
    (d.answersFrom earlier segments).filter (fun a => keep a.1) =
      d.answersFrom (earlier.filter keep) (segments.filter keep) := by
  induction segments generalizing earlier with
  | nil => rfl
  | cons s segments ih =>
    rw [answersFrom, List.filter_cons, ih, List.filter_cons, List.filter_append, List.filter_singleton]
    cases hs : keep s with
    | false => simp
    | true =>
      have hsame : (earlier.filter keep).filter (·.stream = s.stream) =
          earlier.filter (·.stream = s.stream) := by
        rw [List.filter_filter]
        refine List.filter_congr fun t _ => ?_
        by_cases ht : t.stream = s.stream
        · rw [h t s ht, hs, Bool.and_true]
        · simp [ht]
      simp only [if_true, cond_true, answersFrom, answer, hsame]

end StreamDissector

namespace StreamTable

variable {d : StreamDissector τ} {t : StreamTable τ} {done : List Segment} {s : Segment} {now : ℕ}

/-! ### The table of a context -/

/-- The table has a worker for each stream with segments, and it has seen exactly these. -/
structure Holds (d : StreamDissector τ) (done : List Segment) (t : StreamTable τ) : Prop where
  /-- Every worker remembers the segments of its stream. -/
  workers : ∀ e ∈ t.entries,
    e.workers = [⟨d, d.memoryAfter (done.filter (·.stream = e.stream))⟩]
  /-- Every stream has an entry. -/
  names : ∀ s ∈ done, ∃ e ∈ t.entries, e.stream = s.stream

theorem holds_empty (d : StreamDissector τ) : ({} : StreamTable τ).Holds d [] := ⟨nofun, nofun⟩

/-- The workers of a stream are those of its entry, or new ones. -/
theorem workersFor_cases (ds : List (StreamDissector τ)) (s : Segment)
    (entries : List (StreamEntry τ)) :
    (∃ e ∈ entries, e.stream = s.stream ∧ workersFor ds s entries = e.workers) ∨
      (∀ e ∈ entries, e.stream ≠ s.stream) ∧
        workersFor ds s entries = (ds.filter (·.selects s.ns)).map StreamDissector.worker := by
  induction entries with
  | nil => exact .inr ⟨nofun, rfl⟩
  | cons e entries ih =>
    rw [workersFor]
    by_cases heq : e.stream = s.stream
    · exact .inl ⟨e, List.mem_cons_self, heq, if_pos heq⟩
    · rw [if_neg heq]
      rcases ih with ⟨k, hk, hstream, hworkers⟩ | ⟨hnone, hworkers⟩
      · exact .inl ⟨k, List.mem_cons_of_mem e hk, hstream, hworkers⟩
      · exact .inr ⟨List.forall_mem_cons.mpr ⟨heq, hnone⟩, hworkers⟩

theorem Holds.workersFor_eq (h : t.Holds d done) (hs : d.selects s.ns = true) :
    workersFor [d] s t.entries = [⟨d, d.memoryAfter (done.filter (·.stream = s.stream))⟩] := by
  rcases workersFor_cases [d] s t.entries with ⟨e, he, hstream, hworkers⟩ | ⟨hnone, hworkers⟩
  · rw [hworkers, h.workers e he, hstream]
  · -- A stream without an entry has had no segment, so that its worker is new.
    have hnil : done.filter (·.stream = s.stream) = [] := by
      refine List.filter_eq_nil_iff.mpr fun u hu heq => ?_
      obtain ⟨e, he, hstream⟩ := h.names u hu
      exact hnone e he (hstream.trans (of_decide_eq_true heq))
    rw [hworkers, hnil, List.filter_singleton, hs]
    rfl

/-- **A context answers as the worker of the stream does.** -/
theorem Holds.process (h : t.Holds d done) (hs : d.selects s.ns = true) (now : ℕ) :
    (t.process [d] s now).2 = (d.answer done s).toList ∧
      (t.process [d] s now).1.Holds d (done ++ [s]) := by
  have hprocess : t.process [d] s now =
      (⟨put ⟨s.stream, [⟨d, d.memoryAfter ((done ++ [s]).filter (·.stream = s.stream))⟩], now⟩
          t.entries⟩,
        (d.answer done s).toList) := by
    have hown : (done ++ [s]).filter (·.stream = s.stream) =
        done.filter (·.stream = s.stream) ++ [s] := by simp
    rw [StreamTable.process, h.workersFor_eq hs, hown, d.memoryAfter_append_singleton]
    simp [StreamWorker.callAll, StreamWorker.call, StreamDissector.answer]
  rw [hprocess]
  refine ⟨rfl, fun e he => ?_, fun u hu => ?_⟩
  · rcases List.mem_cons.mp he with rfl | he
    · rfl
    · obtain ⟨he, hne⟩ := List.mem_filter.mp he
      have hother : ¬s.stream = e.stream := fun heq => of_decide_eq_true hne heq.symm
      have hsame : (done ++ [s]).filter (·.stream = e.stream) =
          done.filter (·.stream = e.stream) := by simp [hother]
      rw [h.workers e he, hsame]
  · by_cases hstream : s.stream = u.stream
    · exact ⟨_, List.mem_cons_self, hstream⟩
    · rcases List.mem_append.mp hu with hu | hu
      · obtain ⟨e, he, heq⟩ := h.names u hu
        refine ⟨e, List.mem_cons_of_mem _ (List.mem_filter.mpr ⟨he, ?_⟩), heq⟩
        exact decide_eq_true fun h => hstream (h.symm.trans heq)
      · rw [List.mem_singleton] at hu
        exact absurd (hu ▸ rfl) hstream

/-- Sweeping changes nothing unless a stream is given up. -/
theorem Holds.sweep (h : t.Holds d done)
    (hkept : ∀ e ∈ t.entries, ∃ k ∈ (t.sweep now).entries, k.stream = e.stream) :
    (t.sweep now).Holds d done where
  workers e he := h.workers e (List.mem_of_mem_filter he)
  names u hu := by
    obtain ⟨e, he, heq⟩ := h.names u hu
    obtain ⟨k, hk, hke⟩ := hkept e he
    exact ⟨k, hk, hke.trans heq⟩

end StreamTable

end PacketTree
