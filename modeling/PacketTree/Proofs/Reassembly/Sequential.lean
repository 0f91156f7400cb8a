import Mathlib.Logic.Function.Basic
import PacketTree.Proofs.Frame.Tree
import PacketTree.Proofs.Reassembly.Streams

/-!
# Streams one segment after the other

The reference for everything that works on streams at the same time: frame by frame and segment by
segment, each stream has one worker, and what it finds is added below the layer of the segment. The
segments of a frame are those of the frame as it was taken apart, before anything was added.

## What is proved

* `sequential_eq`: every frame gets the answers to its own segments, and the answers depend only on
  the order of the segments within each stream.

## The model

`sequential` carries the memories of all workers from frame to frame. `graft` adds given answers to a
frame.
-/

namespace PacketTree

variable {τ : Type}

/-- Adds what was found in the segments of a frame, each layer below the one of its segment. -/
def Frame.graft (f : Frame) (found : List (Segment × Option Layer)) : Frame :=
  found.foldl (fun g a => (a.2.bind (g.attach? a.1.layer)).getD g) f

theorem Frame.graft_append (f : Frame) (l m : List (Segment × Option Layer)) :
    f.graft (l ++ m) = (f.graft l).graft m := List.foldl_append ..

theorem Frame.index_graft (f : Frame) (found : List (Segment × Option Layer)) :
    (f.graft found).index = f.index := by
  induction found generalizing f with
  | nil => rfl
  | cons a found ih =>
    rw [graft, List.foldl_cons]
    cases hg : a.2.bind (f.attach? a.1.layer) with
    | none => exact ih f
    | some g =>
      obtain ⟨l, -, hg⟩ := Option.bind_eq_some_iff.mp hg
      exact (ih g).trans (index_attach? hg)

/-- Layers that nobody takes segments from bring no segments to a frame. -/
theorem Segment.ofFrame_graft {ds : List (StreamDissector τ)} (f : Frame)
    {found : List (Segment × Option Layer)}
    (h : ∀ a ∈ found, ∀ l ∈ a.2, ds.any (·.selects l.ns) = false) :
    ofFrame ds (f.graft found) = ofFrame ds f := by
  induction found generalizing f with
  | nil => rfl
  | cons a found ih =>
    obtain ⟨ha, hfound⟩ := List.forall_mem_cons.mp h
    rw [Frame.graft, List.foldl_cons]
    cases hg : a.2.bind (f.attach? a.1.layer) with
    | none => exact ih f hfound
    | some g =>
      obtain ⟨l, hl, hg⟩ := Option.bind_eq_some_iff.mp hg
      refine (ih g hfound).trans ?_
      rw [ofFrame, Frame.layers_attach? hg, Frame.index_attach? hg, List.zipIdx_append,
        List.filterMap_append, ofFrame]
      simp only [List.zipIdx_singleton, List.filterMap_cons, List.filterMap_nil, ha l hl,
        Bool.false_eq_true, if_false, List.append_nil]

namespace StreamDissector

variable (d : StreamDissector τ)

/-- The worker of its stream looks at a segment of a frame. -/
def visit (state : (String → τ) × Frame) (s : Segment) : (String → τ) × Frame :=
  let (memory, found) := d.analyze (state.1 s.stream) s
  (Function.update state.1 s.stream memory, (found.bind (state.2.attach? s.layer)).getD state.2)

/-- Works on the streams of frames, one frame after the other and one segment after the other. -/
def sequential : (String → τ) → List Frame → List Frame
  | _, [] => []
  | memory, f :: frames =>
    let (memory, g) := (Segment.ofFrame [d] f).foldl d.visit (memory, f)
    g :: sequential memory frames

/-! ### Answers frame by frame -/

/-- The memories of all workers after some segments. -/
def memories (earlier : List Segment) (stream : String) : τ :=
  d.memoryAfter (earlier.filter (·.stream = stream))

theorem update_memories (earlier : List Segment) (s : Segment) :
    Function.update (d.memories earlier) s.stream
      (d.analyze (d.memories earlier s.stream) s).1 = d.memories (earlier ++ [s]) := by
  funext stream
  rw [Function.update_apply]
  split
  · next heq =>
    subst heq
    have hown : (earlier ++ [s]).filter (·.stream = s.stream) =
        earlier.filter (·.stream = s.stream) ++ [s] := by simp
    rw [memories, memories, hown, d.memoryAfter_append_singleton]
  · next hne =>
    have hother : (earlier ++ [s]).filter (·.stream = stream) =
        earlier.filter (·.stream = stream) := by simp [Ne.symm hne]
    rw [memories, memories, hother]

theorem foldl_visit (earlier segments : List Segment) (f : Frame) :
    segments.foldl d.visit (d.memories earlier, f) =
      (d.memories (earlier ++ segments), f.graft (d.answersFrom earlier segments)) := by
  induction segments generalizing earlier f with
  | nil => rw [List.append_nil]; rfl
  | cons s segments ih =>
    have hvisit : d.visit (d.memories earlier, f) s =
        (d.memories (earlier ++ [s]), f.graft [(s, d.answer earlier s)]) := by
      rw [visit, ← update_memories]
      rfl
    rw [List.foldl_cons, hvisit, ih, List.append_assoc, List.singleton_append]
    rfl

/-- A frame keeps all answers to its own segments and none to others. -/
theorem filter_answersFrom_frame {earlier segments : List Segment} {index : ℕ} :
    (∀ s ∈ segments, s.frame = index) →
      (d.answersFrom earlier segments).filter (·.1.frame = index) =
        d.answersFrom earlier segments := fun h =>
  List.filter_eq_self.mpr fun _ ha => decide_eq_true (h _ (d.fst_mem_of_mem_answersFrom ha))

theorem filter_answersFrom_other {earlier segments : List Segment} {index : ℕ}
    (h : ∀ s ∈ segments, s.frame ≠ index) :
    (d.answersFrom earlier segments).filter (·.1.frame = index) = [] :=
  List.filter_eq_nil_iff.mpr fun _ ha heq =>
    h _ (d.fst_mem_of_mem_answersFrom ha) (of_decide_eq_true heq)

theorem sequential_memories (earlier : List Segment) (frames : List Frame)
    (hnodup : (frames.map Frame.index).Nodup) :
    d.sequential (d.memories earlier) frames = frames.map fun f =>
      f.graft ((d.answersFrom earlier (frames.flatMap (Segment.ofFrame [d]))).filter
        (·.1.frame = f.index)) := by
  induction frames generalizing earlier with
  | nil => rfl
  | cons f frames ih =>
    rw [List.map_cons, List.nodup_cons] at hnodup
    obtain ⟨hf, hnodup⟩ := hnodup
    have hlater : ∀ s ∈ frames.flatMap (Segment.ofFrame [d]), s.frame ≠ f.index := by
      intro s hs heq
      obtain ⟨g, hg, hs⟩ := List.mem_flatMap.mp hs
      exact hf (heq ▸ Segment.frame_of_mem_ofFrame hs ▸ List.mem_map_of_mem hg)
    rw [sequential, foldl_visit, List.map_cons, List.flatMap_cons, answersFrom_append]
    refine congrArg₂ List.cons ?_ ((ih _ hnodup).trans (List.map_congr_left fun g hg => ?_))
    · rw [List.filter_append, d.filter_answersFrom_other hlater, List.append_nil,
        d.filter_answersFrom_frame fun s hs => Segment.frame_of_mem_ofFrame hs]
    · have hother : ∀ s ∈ Segment.ofFrame [d] f, s.frame ≠ g.index := fun s hs heq =>
        hf ((Segment.frame_of_mem_ofFrame hs).symm.trans heq ▸ List.mem_map_of_mem hg)
      rw [List.filter_append, d.filter_answersFrom_other hother, List.nil_append]

/-- **Each frame gets the answers to its segments.** -/
theorem sequential_eq {frames : List Frame} (hnodup : (frames.map Frame.index).Nodup) :
    d.sequential (fun _ => d.fresh) frames = frames.map fun f =>
      f.graft ((d.answersFrom [] (frames.flatMap (Segment.ofFrame [d]))).filter
        (·.1.frame = f.index)) :=
  d.sequential_memories [] frames hnodup

/-- Frames keep their numbers, -/
theorem map_index_sequential {frames : List Frame} (hnodup : (frames.map Frame.index).Nodup) :
    (d.sequential (fun _ => d.fresh) frames).map Frame.index = frames.map Frame.index := by
  rw [d.sequential_eq hnodup, List.map_map]
  exact List.map_congr_left fun f _ => f.index_graft _

/-- and their segments, if none are taken from the layers that are found. -/
theorem map_ofFrame_sequential {frames : List Frame} (hnodup : (frames.map Frame.index).Nodup)
    (hfound : ∀ earlier s, ∀ l ∈ d.answer earlier s, d.selects l.ns = false) :
    (d.sequential (fun _ => d.fresh) frames).map (Segment.ofFrame [d]) =
      frames.map (Segment.ofFrame [d]) := by
  rw [d.sequential_eq hnodup, List.map_map]
  refine List.map_congr_left fun f _ => Segment.ofFrame_graft f fun a ha l hl => ?_
  obtain ⟨earlier, hanswer⟩ := d.exists_of_mem_answersFrom (List.mem_of_mem_filter ha)
  simpa using hfound earlier a.1 l (hanswer ▸ hl)

end StreamDissector

end PacketTree
