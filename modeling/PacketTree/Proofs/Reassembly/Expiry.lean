import Mathlib.Data.List.Induction
import Mathlib.Logic.Function.Basic
import PacketTree.Proofs.Reassembly.Streams
import PacketTree.Reassembly.TcpWorker

/-!
# Streams that are given up

A context processes the segments of many streams and gives up the streams that were idle for too long, at
any time between two segments. This module proves that no stream notices anything of the others, and that
a stream that was given up and comes back is a new one.

## What is proved

* `Watch.Sound.take`: in every step the table keeps the worker of each stream and the time of its last
  segment.
* `Watch.Sound.givesUp_iff`: which streams a sweep gives up.
* `Watch.streams_apart`: the layers, the sweeps and the streams that come back, for every run.

## The model

A `Watch` notes beside the table of a context what has come: the segments of all streams, each since its
stream was last given up, and the time of the last segment of each stream. That a stream is given up is
read off the table, before and after a sweep. The steps of a run carry a proof that the dissector takes
their segments, as it does all segments of a frame that a context is given.
-/

namespace PacketTree

variable {τ : Type}

/-- A step of a context with one dissector, and the time of the clock. -/
inductive ContextStep (d : StreamDissector τ) where
  /-- A segment that the dissector takes is processed. -/
  | process (segment : Segment) (taken : d.selects segment.ns = true) (now : ℕ)
  /-- Idle streams are given up. -/
  | sweep (now : ℕ)

namespace ContextStep

variable {d : StreamDissector τ}

/-- The time of a step. -/
def time : ContextStep d → ℕ
  | process _ _ now => now
  | sweep now => now

/-- A step with a segment of the stream, or one that may give it up. -/
def concerns (stream : String) : ContextStep d → Bool
  | process s _ _ => s.stream = stream
  | sweep _ => true

end ContextStep

namespace StreamTable

variable {d : StreamDissector τ} {t : StreamTable τ} {stream : String} {now : ℕ}

/-! ### Giving up streams -/

/-- The table has a stream. -/
def Has (t : StreamTable τ) (stream : String) : Prop := ∃ e ∈ t.entries, e.stream = stream

instance : Decidable (t.Has stream) := inferInstanceAs (Decidable (∃ e ∈ t.entries, e.stream = stream))

/-- A sweep gives a stream up. -/
def GivesUp (t : StreamTable τ) (now : ℕ) (stream : String) : Prop :=
  t.Has stream ∧ ¬(t.sweep now).Has stream

instance : Decidable (t.GivesUp now stream) := inferInstanceAs (Decidable (_ ∧ _))

/-- A context, and what has come to it. -/
structure Watch (d : StreamDissector τ) where
  /-- The table of the context. -/
  table : StreamTable τ := {}
  /-- The segments of all streams, each since its stream was last given up. -/
  recent : List Segment := []
  /-- When the last segment of a stream was processed. -/
  last : String → ℕ := fun _ => 0

namespace Watch

variable {w : Watch d}

/-- Takes a step: the layers that it gives. -/
def take (w : Watch d) : ContextStep d → Watch d × List Layer
  | .process s _ now =>
    let (table, layers) := w.table.process [d] s now
    (⟨table, w.recent ++ [s], Function.update w.last s.stream now⟩, layers)
  | .sweep now =>
    (⟨w.table.sweep now, w.recent.filter fun s => ¬w.table.GivesUp now s.stream, w.last⟩, [])

/-- A context after a number of steps. -/
def after (steps : List (ContextStep d)) : Watch d := steps.foldl (fun w step => (w.take step).1) {}

theorem after_append_singleton (steps : List (ContextStep d)) (step : ContextStep d) :
    after (steps ++ [step]) = ((after steps).take step).1 := List.foldl_append ..

/-- The table has a worker for each stream with segments, which has seen exactly these, and knows the
time of the last one. -/
structure Sound (w : Watch d) : Prop where
  /-- Each worker remembers its segments. -/
  holds : w.table.Holds d w.recent
  /-- Each stream has segments. -/
  names : ∀ e ∈ w.table.entries, ∃ s ∈ w.recent, s.stream = e.stream
  /-- Each entry has the time of its last segment. -/
  touched : ∀ e ∈ w.table.entries, e.touched = w.last e.stream

theorem sound_new (d : StreamDissector τ) : Sound ({} : Watch d) := ⟨holds_empty d, nofun, nofun⟩

theorem Sound.has_iff (h : w.Sound) : w.table.Has stream ↔ ∃ s ∈ w.recent, s.stream = stream := by
  constructor
  · rintro ⟨e, he, rfl⟩
    exact h.names e he
  · rintro ⟨s, hs, rfl⟩
    exact h.holds.names s hs

theorem Sound.process (h : w.Sound) {s : Segment} (hs : d.selects s.ns = true) (now : ℕ) :
    Sound (w.take (.process s hs now)).1 where
  holds := (h.holds.process hs now).2
  names := by
    intro e he
    rcases List.mem_cons.mp he with rfl | he
    · exact ⟨s, List.mem_concat_self, rfl⟩
    · obtain ⟨u, hu, hstream⟩ := h.names e (List.mem_of_mem_filter he)
      exact ⟨u, List.mem_append_left _ hu, hstream⟩
  touched := by
    intro e he
    change e.touched = Function.update w.last s.stream now e.stream
    rcases List.mem_cons.mp he with rfl | he
    · exact (Function.update_self s.stream now w.last).symm
    · obtain ⟨he, hne⟩ := List.mem_filter.mp he
      have hother : e.stream ≠ s.stream := of_decide_eq_true hne
      rw [Function.update_of_ne hother, h.touched e he]

/-- What a sweep keeps, it keeps as it is, and all that came since. -/
theorem Sound.sweep (h : w.Sound) (now : ℕ) : Sound (w.take (.sweep now)).1 where
  holds := by
    refine ⟨fun e he => ?_, fun s hs => ?_⟩
    · have hkept : ¬w.table.GivesUp now e.stream := fun hgone => hgone.2 ⟨e, he, rfl⟩
      have hsame : (w.recent.filter fun s => ¬w.table.GivesUp now s.stream).filter
          (·.stream = e.stream) = w.recent.filter (·.stream = e.stream) := by
        rw [List.filter_filter]
        refine List.filter_congr fun s _ => ?_
        by_cases hs : s.stream = e.stream
        · simp [hs, hkept]
        · simp [hs]
      exact hsame ▸ h.holds.workers e (List.mem_of_mem_filter he)
    · obtain ⟨hs, hkept⟩ := List.mem_filter.mp hs
      by_contra hnone
      exact of_decide_eq_true hkept ⟨h.holds.names s hs, hnone⟩
  names := by
    intro e he
    obtain ⟨s, hs, hstream⟩ := h.names e (List.mem_of_mem_filter he)
    refine ⟨s, List.mem_filter.mpr ⟨hs, decide_eq_true fun hgone => ?_⟩, hstream⟩
    exact hgone.2 ⟨e, he, hstream.symm⟩
  touched := fun e he => h.touched e (List.mem_of_mem_filter he)

/-- **The table keeps what belongs to each stream**, in every step. -/
theorem Sound.take (h : w.Sound) (step : ContextStep d) : Sound (w.take step).1 := by
  cases step with
  | process s taken now => exact h.process taken now
  | sweep now => exact h.sweep now

theorem after_sound (steps : List (ContextStep d)) : (after steps).Sound := by
  induction steps using List.reverseRecOn with
  | nil => exact sound_new d
  | append_singleton steps step ih =>
    rw [after_append_singleton]
    exact ih.take step

/-- A segment is answered by a worker that has seen the segments of the stream since it was last given
up. -/
theorem Sound.layers (h : w.Sound) {s : Segment} (hs : d.selects s.ns = true) (now : ℕ) :
    (w.take (.process s hs now)).2 = (d.answer w.recent s).toList :=
  (h.holds.process hs now).1

/-- After a stream was given up there is nothing left of it. -/
theorem answer_of_givesUp {s : Segment} (h : w.table.GivesUp now s.stream) :
    d.answer (w.take (.sweep now)).1.recent s = d.answer [] s := by
  have hnone : (w.take (.sweep now)).1.recent.filter (·.stream = s.stream) = [] := by
    refine List.filter_eq_nil_iff.mpr fun u hu heq => ?_
    obtain ⟨-, hkept⟩ := List.mem_filter.mp hu
    exact of_decide_eq_true hkept (of_decide_eq_true heq ▸ h)
  rw [StreamDissector.answer, hnone]
  rfl

theorem last_le {steps : List (ContextStep d)} (h : ∀ step ∈ steps, step.time ≤ now) (stream : String) :
    (after steps).last stream ≤ now := by
  induction steps using List.reverseRecOn with
  | nil => exact Nat.zero_le now
  | append_singleton steps step ih =>
    have hearlier := ih fun step hstep => h step (List.mem_append_left _ hstep)
    rw [after_append_singleton]
    cases step with
    | sweep => exact hearlier
    | process s taken time =>
      have htime : time ≤ now := h (.process s taken time) List.mem_concat_self
      change Function.update (after steps).last s.stream time stream ≤ now
      by_cases hs : stream = s.stream
      · rwa [hs, Function.update_self]
      · rwa [Function.update_of_ne hs]

end Watch

end StreamTable

/-! ### Streams of a connection -/

namespace StreamTable.Watch

open TcpStream (dissector)

variable {timeout : ℕ} {midstream : Bool} {w : Watch (dissector timeout midstream)} {stream : String}

/-- **A sweep gives up the streams that were idle for long enough.** -/
theorem Sound.givesUp_iff (h : w.Sound) (now : ℕ) (stream : String) :
    w.table.GivesUp now stream ↔ w.table.Has stream ∧ timeout ≤ now - w.last stream := by
  have hexpired : ∀ e ∈ w.table.entries,
      expired now e = true ↔ timeout ≤ now - w.last e.stream := by
    intro e he
    simp [expired, h.holds.workers e he, h.touched e he, StreamWorker.expired, dissector]
  constructor
  · rintro ⟨⟨e, he, rfl⟩, hgone⟩
    refine ⟨⟨e, he, rfl⟩, ?_⟩
    by_contra hidle
    refine hgone ⟨e, List.mem_filter.mpr ⟨he, ?_⟩, rfl⟩
    rw [← hexpired e he] at hidle
    simpa using hidle
  · rintro ⟨hhas, hidle⟩
    refine ⟨hhas, ?_⟩
    rintro ⟨e, he, rfl⟩
    obtain ⟨he, hkept⟩ := List.mem_filter.mp he
    rw [(hexpired e he).mpr hidle] at hkept
    cases hkept

/-- A context with one stream is as far as another one is with that stream. -/
structure Follows (stream : String) (v w : Watch (dissector timeout midstream)) : Prop where
  /-- It has had the same segments, -/
  recent : v.recent = w.recent.filter (·.stream = stream)
  /-- at the same time. -/
  last : v.last stream = w.last stream

theorem Follows.has_iff {v : Watch (dissector timeout midstream)} (h : Follows stream v w) (hv : v.Sound)
    (hw : w.Sound) : v.table.Has stream ↔ w.table.Has stream := by
  simp [hv.has_iff, hw.has_iff, h.recent]

/-- Each step that concerns the stream does the same to both. -/
theorem Follows.take {v : Watch (dissector timeout midstream)} (h : Follows stream v w) (hv : v.Sound)
    (hw : w.Sound) {step : ContextStep (dissector timeout midstream)} (hstep : step.concerns stream = true) :
    Follows stream (v.take step).1 (w.take step).1 := by
  cases step with
  | process s taken now =>
    obtain rfl : s.stream = stream := of_decide_eq_true hstep
    constructor
    · change v.recent ++ [s] = (w.recent ++ [s]).filter (·.stream = s.stream)
      rw [h.recent, List.filter_append, List.filter_singleton, decide_eq_true rfl, cond_true]
    · change Function.update v.last s.stream now s.stream = Function.update w.last s.stream now s.stream
      rw [Function.update_self, Function.update_self]
  | sweep now =>
    have hgone : v.table.GivesUp now stream ↔ w.table.GivesUp now stream := by
      rw [hv.givesUp_iff, hw.givesUp_iff, h.has_iff hv hw, h.last]
    constructor
    · change v.recent.filter (fun s => ¬v.table.GivesUp now s.stream) =
        (w.recent.filter fun s => ¬w.table.GivesUp now s.stream).filter (·.stream = stream)
      rw [h.recent, List.filter_filter, List.filter_filter]
      refine List.filter_congr fun s _ => ?_
      by_cases hs : s.stream = stream
      · simp [hs, hgone]
      · simp [hs]
    · exact h.last

/-- Any other step does nothing to the stream. -/
theorem Follows.skip {v : Watch (dissector timeout midstream)} (h : Follows stream v w)
    {step : ContextStep (dissector timeout midstream)} (hstep : step.concerns stream = false) :
    Follows stream v (w.take step).1 := by
  cases step with
  | process s taken now =>
    have hs : s.stream ≠ stream := of_decide_eq_false hstep
    constructor
    · change v.recent = (w.recent ++ [s]).filter (·.stream = stream)
      rw [h.recent, List.filter_append, List.filter_singleton, decide_eq_false hs, cond_false,
        List.append_nil]
    · exact h.last.trans (Function.update_of_ne hs.symm ..).symm
  | sweep now => cases hstep

/-- The steps that concern a stream do to it what all steps do. -/
theorem follows_after (steps : List (ContextStep (dissector timeout midstream))) (stream : String) :
    Follows stream (after (steps.filter (·.concerns stream))) (after steps) := by
  induction steps using List.reverseRecOn with
  | nil => exact ⟨rfl, rfl⟩
  | append_singleton steps step ih =>
    rw [List.filter_append, List.filter_singleton, after_append_singleton]
    cases hstep : step.concerns stream with
    | true =>
      rw [cond_true, after_append_singleton]
      exact ih.take (after_sound _) (after_sound _) hstep
    | false =>
      rw [cond_false, List.append_nil]
      exact ih.skip hstep

/-- **Streams are independent, and a stream that comes back is a new one.** For every run of a context: a
segment is answered by a worker that has seen the segments of its stream since the stream was last given
up, and no others. A sweep gives up a stream with segments exactly if the last one was processed at least
`timeout` ago. A segment that comes then is answered like the first one of all. The steps that do not
concern a stream make no difference to it. -/
theorem streams_apart (timeout : ℕ) (midstream : Bool)
    (steps : List (ContextStep (dissector timeout midstream))) :
    let d := dissector timeout midstream
    let w := after steps
    (∀ s taken now, (w.take (.process s taken now)).2 = (d.answer w.recent s).toList) ∧
      (∀ stream, w.table.Has stream ↔ ∃ s ∈ w.recent, s.stream = stream) ∧
      (∀ now, (∀ step ∈ steps, step.time ≤ now) → ∀ stream,
        w.table.GivesUp now stream ↔ w.table.Has stream ∧ w.last stream + timeout ≤ now) ∧
      (∀ now s taken later, w.table.GivesUp now s.stream →
        ((w.take (.sweep now)).1.take (.process s taken later)).2 =
          (({} : Watch d).take (.process s taken later)).2) ∧
      ∀ stream, Follows stream (after (steps.filter (·.concerns stream))) w := by
  intro d w
  have hw : w.Sound := after_sound steps
  refine ⟨fun s taken now => hw.layers taken now, fun stream => hw.has_iff, fun now hnow stream => ?_,
    fun now s taken later hgone => ?_, follows_after steps⟩
  · have hle : w.last stream ≤ now := last_le hnow stream
    rw [hw.givesUp_iff]
    exact and_congr_right fun _ => by omega
  · rw [(hw.take (.sweep now)).layers, (sound_new d).layers, answer_of_givesUp hgone]

/-- Two streams take turns, one of them longer than the other. The sweep that gives the shorter one up
keeps the longer one, and what comes then on the shorter one is its first segment. -/
theorem streams_apart_reused :
    let d := dissector 100 false
    let segment := fun (stream : String) (seq : UInt32) (flags : UInt16) (bytes : List UInt8) =>
      { frame := 1, layer := 0, stream := stream, ns := ⟨[.confirmed "tcp"]⟩, seq := seq, ack := 0,
        flags := flags, window := 1000, payload := .ofBytes (.packet 1) bytes : Segment }
    let steps : List (ContextStep d) :=
      [.process (segment "a" 100 2 []) rfl 0, .process (segment "b" 7 2 []) rfl 50,
        .process (segment "a" 101 16 [97, 98, 99]) rfl 60, .sweep 100]
    let w := after steps
    let again := ContextStep.process (d := d) (segment "b" 5000 2 [110]) rfl 200
    (∀ step ∈ steps, step.time ≤ 155) ∧ ¬w.table.GivesUp 155 "a" ∧ w.table.GivesUp 155 "b" ∧
      ((w.take (.sweep 155)).1.take again).2 = (({} : Watch d).take again).2 := by
  intro d segment steps w again
  obtain ⟨-, -, hgone, hnew, -⟩ := streams_apart 100 false steps
  have htime : ∀ step ∈ steps, step.time ≤ 155 := by decide
  have hb : w.table.GivesUp 155 "b" := (hgone 155 htime "b").mpr ⟨by decide, by decide⟩
  have ha : ¬w.table.GivesUp 155 "a" := fun h => absurd ((hgone 155 htime "a").mp h).2 (by decide)
  exact ⟨htime, ha, hb, hnew 155 _ rfl 200 hb⟩

end StreamTable.Watch

end PacketTree
