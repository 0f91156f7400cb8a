import Mathlib.Data.List.Infix
import PacketTree.Proofs.Reassembly.Work

/-!
# What the stream stage says is safe

The contexts that work on streams share one record of how far they are, as those do that take frames
apart. But the feeder tells one context after the other of a run of frames, and may be several runs
ahead of them. This module proves when the safe index still says that no context will look at a segment
of an earlier frame again, and that it does not always say so.

## What is proved

* `Watch.settled_of_inStep`: as long as no context has more than one run before it, and some context is
  busy whenever a run was told to some contexts only, the safe index is right whatever comes after.
* `Watch.not_settled`: a feeder that is two runs ahead is enough to make it wrong.

## The model

A `Watch` is a stage with its store and the segments that were looked at. A run of frames is
`outstanding` for a context from the moment it is told of it until it reports; while it is, the share
of the context tells that it is not done with these frames. That fails for the first of two such runs:
being told of the second counts as being done with all frames before it.
-/

namespace PacketTree

variable {τ : Type}

/-! ### Runs of frames that are not done -/

namespace FeederPhase

/-- The batches that the feeder still has. -/
def batches : FeederPhase → List StreamBatch
  | .announcing _ batches | .handing _ batches => batches
  | _ => []

/-- The batch that a context was told of and not yet given. -/
def announced : FeederPhase → ℕ → List StreamBatch
  | .handing place (b :: _), j => if j = place then [b] else []
  | _, _ => []

/-- Some contexts were told of a run of frames and some were not. -/
def Partway : FeederPhase → Prop
  | .announcing place (_ :: _) => 0 < place
  | _ => False

instance (phase : FeederPhase) : Decidable phase.Partway := by
  unfold Partway
  split <;> infer_instance

end FeederPhase

/-- The batches that the context was given and has not reported. -/
def StreamContext.given (c : StreamContext τ) : List StreamBatch := c.inHand ++ c.queue.items

/-- Every batch of the second list is what is left of one of the first. -/
def StreamBatch.Left (bs bs' : List StreamBatch) : Prop :=
  ∀ b' ∈ bs', ∃ b ∈ bs, b'.last = b.last ∧ b'.segments ⊆ b.segments

theorem StreamBatch.Left.of_subset {bs bs' : List StreamBatch} (h : bs' ⊆ bs) : Left bs bs' :=
  fun b hb => ⟨b, h hb, rfl, List.Subset.refl _⟩

theorem StreamBatch.Left.append {bs bs' : List StreamBatch} (h : Left bs bs')
    (more : List StreamBatch) : Left (bs ++ more) (bs' ++ more) := by
  intro b' hb'
  rcases List.mem_append.mp hb' with hb' | hb'
  · obtain ⟨b, hb, hleft⟩ := h b' hb'
    exact ⟨b, List.mem_append_left _ hb, hleft⟩
  · exact ⟨b', List.mem_append_right _ hb', rfl, List.Subset.refl _⟩

namespace StreamStage

open StreamBatch (Left)

variable {s s' : StreamStage τ} {store store' : Store} {n m i now : ℕ}

/-- The batches that a context was told of and has not reported. -/
def outstanding (s : StreamStage τ) (j : ℕ) : List StreamBatch :=
  (s.contexts[j]?.elim [] StreamContext.given) ++ s.feeder.announced j

/-- The segment that a context looks at in its next turn, if it does. -/
def next? (s : StreamStage τ) (i : ℕ) : Option Segment :=
  s.contexts[i]?.bind fun c =>
    match c.phase with
    | .working (segment :: _) _ => some segment
    | _ => none

/-! ### Frames that are done with -/

/-- The contexts will look at no segment of the first `n` frames. -/
structure Over (n : ℕ) (s : StreamStage τ) (store : Store) : Prop where
  /-- None is before a context, -/
  outstanding : ∀ j, ∀ b ∈ s.outstanding j, ∀ segment ∈ b.segments, n < segment.frame
  /-- the feeder has none for a context, -/
  batches : ∀ b ∈ s.feeder.batches, ∀ segment ∈ b.segments, n < segment.frame
  /-- it has taken these frames, -/
  le : n ≤ s.offset
  /-- and the others have other numbers. -/
  numbered : Frame.Numbered store.frames.toList

theorem Over.max (hn : s.Over n store) (hm : s.Over m store) : s.Over (max n m) store where
  outstanding j b hb segment hs := max_lt (hn.outstanding j b hb segment hs)
    (hm.outstanding j b hb segment hs)
  batches b hb segment hs := max_lt (hn.batches b hb segment hs) (hm.batches b hb segment hs)
  le := max_le hn.le hm.le
  numbered := hn.numbered

/-- The segments of a batch are of its frames, which lie between its ends. -/
theorem of_mem_batches {ds : List (StreamDissector τ)} {contexts first last : ℕ} {frames : List Frame}
    {b : StreamBatch} (h : b ∈ batches ds contexts frames first last) :
    b.first = first ∧ b.last = last ∧
      ∀ segment ∈ b.segments, ∃ f ∈ frames, segment.frame = f.index := by
  obtain ⟨place, -, rfl⟩ := List.mem_map.mp h
  refine ⟨rfl, rfl, fun segment hs => ?_⟩
  obtain ⟨r, hr, rfl⟩ := List.mem_map.mp hs
  obtain ⟨t, ht, rfl⟩ := List.mem_map.mp (List.mem_of_mem_filter hr)
  obtain ⟨f, hf, hof⟩ := List.mem_flatMap.mp ht
  exact ⟨f, hf, Segment.frame_of_mem_ofFrame hof⟩

/-- The frames that the feeder takes are numbered from its place on. -/
theorem drop_of_wait {frames : List Frame} {offset most : ℕ}
    (hwait : store.wait offset most = .done frames) :
    frames ≠ [] ∧ ∃ rest, store.frames.toList.drop offset = frames ++ rest := by
  obtain ⟨hlt, rfl⟩ := Store.wait_eq_done_iff.mp hwait
  refine ⟨?_, _, (List.take_append_drop _ _).symm⟩
  rw [← List.length_pos_iff, List.length_take, List.length_drop, Array.length_toList]
  have : offset < store.frames.size := hlt
  omega

theorem offset_lt_index {frames : List Frame} {offset most : ℕ} {f : Frame}
    (hnum : Frame.Numbered store.frames.toList) (hwait : store.wait offset most = .done frames)
    (hf : f ∈ frames) : offset < f.index := by
  obtain ⟨-, rest, hdrop⟩ := drop_of_wait hwait
  obtain ⟨k, hk⟩ := List.mem_iff_getElem?.mp hf
  have := hnum.index_of_drop hdrop hk
  omega

/-! ### Quiet turns -/

/-- A turn that puts nothing before a context and tells none of a run. -/
structure Quiet (s s' : StreamStage τ) : Prop where
  /-- What is before the contexts was before them already. -/
  left : ∀ j, Left (s.outstanding j) (s'.outstanding j)
  /-- The feeder has no more batches than it had. -/
  batches : s'.feeder.batches ⊆ s.feeder.batches
  /-- Contexts that were told of its last run still are. -/
  told : ∀ j, s.feeder.Told j → s'.feeder.Told j
  /-- It still has a batch for each of the contexts that come next. -/
  ready : s.feeder.Ready s.contexts.length s.offset → s'.feeder.Ready s'.contexts.length s'.offset
  /-- It has taken as many frames as before. -/
  offset : s'.offset = s.offset
  /-- There are as many contexts as before. -/
  contexts : s'.contexts.length = s.contexts.length

theorem outstanding_of_some {c : StreamContext τ} (here : s.contexts[i]? = some c) :
    s.outstanding i = c.given ++ s.feeder.announced i := by
  rw [outstanding, here, Option.elim_some]

/-- A context gets on with what is before it. -/
theorem quiet_set {c e : StreamContext τ} (progress : Progress) (here : s.contexts[i]? = some c)
    (hleft : Left c.given e.given) :
    s.Quiet { s with progress := progress, contexts := s.contexts.set i e } where
  left j := by
    have hi := (List.getElem?_eq_some_iff.mp here).1
    have hset : { s with progress := progress, contexts := s.contexts.set i e }.outstanding j =
        (s.contexts.set i e)[j]?.elim [] StreamContext.given ++ s.feeder.announced j := rfl
    rw [hset, List.getElem?_set]
    by_cases hij : i = j
    · subst hij
      rw [if_pos rfl, if_pos hi, Option.elim_some, outstanding_of_some here]
      exact hleft.append _
    · rw [if_neg hij]
      exact .of_subset (List.Subset.refl _)
  batches := List.Subset.refl _
  told _ h := h
  ready h := by rwa [List.length_set]
  offset := rfl
  contexts := List.length_set

/-- All turns of contexts are quiet. -/
theorem Work.quiet (ht : s.Work store i now s' store') : s.Quiet s' := by
  cases ht with
  | @pull c b rest here idle items =>
    refine quiet_set s.progress here fun b' hb' => ?_
    simp only [StreamContext.given, StreamContext.inHand, idle, items, List.nil_append,
      List.singleton_append, List.mem_cons] at hb' ⊢
    rcases hb' with rfl | hb'
    · exact ⟨b, .inl rfl, rfl, List.Subset.refl _⟩
    · exact ⟨b', .inr hb', rfl, List.Subset.refl _⟩
  | leave here idle empty closed =>
    refine quiet_set s.progress here (.of_subset ?_)
    simp [StreamContext.given, StreamContext.inHand, idle]
  | look here working =>
    refine quiet_set s.progress here fun b' hb' => ?_
    simp only [StreamContext.given, StreamContext.inHand, working, List.singleton_append,
      List.mem_cons] at hb' ⊢
    rcases hb' with rfl | hb'
    · exact ⟨_, .inl rfl, rfl, List.subset_cons_self _ _⟩
    · exact ⟨b', .inr hb', rfl, List.Subset.refl _⟩
  | @report c last here working =>
    refine quiet_set (s.progress.finish i last) here (.of_subset ?_)
    simp [StreamContext.given, StreamContext.inHand, working]

/-- Closing the queues takes nothing from the contexts. -/
theorem quiet_leave (waiting : s.feeder = .waiting) :
    s.Quiet
      { s with
        feeder := .left
        contexts := s.contexts.map fun c => { c with queue := c.queue.close } } where
  left j := by
    refine .of_subset ?_
    simp only [outstanding, waiting, FeederPhase.announced, List.getElem?_map]
    cases s.contexts[j]? <;> exact List.Subset.refl _
  batches := List.nil_subset _
  told _ _ := trivial
  ready _ := trivial
  offset := rfl
  contexts := List.length_map _

/-- The feeder may be done with a run, or give up the batches it has. -/
theorem quiet_feeder {phase : FeederPhase} (h : phase = .waiting ∨ phase = .left) :
    s.Quiet { s with feeder := phase } := by
  have hannounced : ∀ j, phase.announced j = [] := by rcases h with rfl | rfl <;> exact fun _ => rfl
  refine ⟨fun j => .of_subset ?_, ?_, fun j _ => ?_, fun _ => ?_, rfl, rfl⟩
  · simp [outstanding, hannounced]
  all_goals rcases h with rfl | rfl
  · exact List.nil_subset _
  · exact List.nil_subset _
  all_goals trivial

/-- A context that is given the batch it was told of has as much before it as then. -/
theorem quiet_hand {place : ℕ} {b : StreamBatch} {bs : List StreamBatch} {c : StreamContext τ}
    {queue : Queue StreamBatch} (handing : s.feeder = .handing place (b :: bs))
    (here : s.contexts[place]? = some c) (push : c.queue.push b = .done queue) :
    s.Quiet
      { s with
        feeder := .announcing (place + 1) bs
        contexts := s.contexts.set place { c with queue := queue } } where
  left j := by
    have hitems := Queue.items_of_push_eq_done push
    have hlt := (List.getElem?_eq_some_iff.mp here).1
    refine .of_subset ?_
    rw [outstanding, outstanding, handing, List.getElem?_set]
    by_cases hj : place = j
    · subst hj
      rw [if_pos rfl, if_pos hlt, here, Option.elim_some, Option.elim_some]
      simp [FeederPhase.announced, StreamContext.given, StreamContext.inHand, hitems]
    · simp [hj, Ne.symm hj, FeederPhase.announced]
  batches := by
    rw [handing]
    exact List.subset_cons_self _ _
  told j htold := by
    rw [handing] at htold
    exact Nat.lt_succ_of_le htold
  ready hready := by
    rw [handing] at hready
    obtain ⟨-, hplace, hlast⟩ := hready
    refine ⟨?_, fun k hk => hlast k (List.mem_cons_of_mem b hk)⟩
    rw [List.length_set, ← hplace, List.length_cons]
    omega
  offset := rfl
  contexts := List.length_set

theorem outstanding_announce {place : ℕ} {b : StreamBatch} {bs : List StreamBatch}
    (announcing : s.feeder = .announcing place (b :: bs)) (j : ℕ) :
    { s with
      feeder := .handing place (b :: bs)
      progress := s.progress.begin place b.first b.last }.outstanding j =
        s.outstanding j ++ if j = place then [b] else [] := by
  simp [outstanding, announcing, FeederPhase.announced]

/-! ### Frames that are done with stay so -/

theorem Over.quiet (h : s.Over n store) (hq : s.Quiet s')
    (hnum : Frame.Numbered store'.frames.toList) : s'.Over n store' where
  outstanding j b' hb' segment hs := by
    obtain ⟨b, hb, -, hsub⟩ := hq.left j b' hb'
    exact h.outstanding j b hb segment (hsub hs)
  batches b hb := h.batches b (hq.batches hb)
  le := hq.offset ▸ h.le
  numbered := hnum

theorem Over.feed (h : s.Over n store) (ht : s.Feed store s') : s'.Over n store := by
  cases ht with
  | @take frames waiting ready =>
    have hle := h.le
    refine ⟨fun j b hb => ?_, fun b hb segment hs => ?_, h.le.trans (Nat.le_add_right _ _), h.numbered⟩
    · refine h.outstanding j b ?_
      rwa [StreamStage.outstanding, waiting]
    · obtain ⟨-, -, hsegments⟩ := of_mem_batches hb
      obtain ⟨f, hf, hframe⟩ := hsegments segment hs
      rw [hframe]
      exact hle.trans_lt (offset_lt_index h.numbered ready hf)
  | announce announcing =>
    refine ⟨fun j b hb => ?_, fun b hb => h.batches b ?_, h.le, h.numbered⟩
    · rw [outstanding_announce announcing] at hb
      rcases List.mem_append.mp hb with hb | hb
      · exact h.outstanding j b hb
      · refine h.batches b ?_
        split at hb
        · rw [announcing, List.mem_singleton.mp hb]
          exact List.mem_cons_self
        · cases hb
    · rwa [announcing]
  | leave waiting ended => exact h.quiet (quiet_leave waiting) h.numbered
  | turn hdone => exact h.quiet (quiet_feeder (.inl rfl)) h.numbered
  | hand handing here push => exact h.quiet (quiet_hand handing here push) h.numbered
  | quit handing here closed => exact h.quiet (quiet_feeder (.inr rfl)) h.numbered

theorem numbered_attachAll (h : Frame.Numbered store.frames.toList) (frame parent : ℕ)
    (layers : List Layer) :
    Frame.Numbered (attachAll store frame parent layers).frames.toList := by
  induction layers generalizing store with
  | nil => exact h
  | cons l layers ih =>
    rw [attachAll, List.foldl_cons]
    cases hl : store.attach? frame parent l with
    | none => exact ih h
    | some r => exact ih (Store.numbered_attach? h hl)

theorem Work.numbered (ht : s.Work store i now s' store')
    (h : Frame.Numbered store.frames.toList) : Frame.Numbered store'.frames.toList := by
  cases ht with
  | pull | leave | report => exact h
  | look => exact numbered_attachAll h _ _ _

theorem Over.work (h : s.Over n store) (ht : s.Work store i now s' store') : s'.Over n store' :=
  h.quiet ht.quiet (ht.numbered h.numbered)

/-- The segment that a context looks at is before it. -/
theorem Over.next (h : s.Over n store) {segment : Segment} (hnext : s.next? i = some segment) :
    n < segment.frame := by
  rw [next?, Option.bind_eq_some_iff] at hnext
  obtain ⟨c, here, hc⟩ := hnext
  split at hc
  · next segment' rest last working =>
    obtain rfl : segment' = segment := Option.some.inj hc
    refine h.outstanding i ⟨segment' :: rest, 0, last⟩ ?_ segment' List.mem_cons_self
    rw [outstanding_of_some here]
    simp [StreamContext.given, StreamContext.inHand, working]
  · cases hc

/-! ### In step -/

/-- No context has more than one run before it, and some context is busy as long as a run was told to
some contexts only. -/
structure InStep (s : StreamStage τ) : Prop where
  /-- A context has at most one run before it. -/
  one : ∀ j < s.contexts.length, (s.outstanding j).length ≤ 1
  /-- Someone is busy while the others are told. -/
  busy : s.feeder.Partway → ∃ j < s.contexts.length, s.outstanding j ≠ []

instance (s : StreamStage τ) : Decidable s.InStep :=
  decidable_of_iff (_ ∧ _) ⟨fun ⟨h₁, h₂⟩ => ⟨h₁, h₂⟩, fun h => ⟨h.one, h.busy⟩⟩

/-- The shares know of all runs that are not done, and the feeder is beyond the first `base` frames. -/
structure Guarded (base : ℕ) (s : StreamStage τ) : Prop where
  /-- The feeder has a batch for each of the contexts that come next, -/
  ready : s.feeder.Ready s.contexts.length s.offset
  /-- of frames behind the first ones. -/
  batches : ∀ b ∈ s.feeder.batches, b.first = base + 1 ∧ base < b.last ∧
    ∀ segment ∈ b.segments, base < segment.frame
  /-- Every context has a share, -/
  shares : s.progress.shares.length = s.contexts.length
  /-- is not done with more than it was given, -/
  fair : s.progress.Fair
  /-- and was not given more than was taken, -/
  given : ∀ sh ∈ s.progress.shares, sh.given ≤ s.offset
  /-- nor more than the first ones if it was not told of the last run. -/
  untold : ∀ (j : ℕ) (sh : Share), s.progress.shares[j]? = some sh → ¬s.feeder.Told j →
    sh.given ≤ base
  /-- It is not done with the runs before it, -/
  held : ∀ (j : ℕ) (sh : Share), s.progress.shares[j]? = some sh → ∀ b ∈ s.outstanding j,
    sh.done < sh.given ∧ b.last ≤ sh.given ∧ ∀ segment ∈ b.segments, sh.done < segment.frame
  /-- nor, with a run before it, with more than the first frames while others are told. -/
  early : s.feeder.batches ≠ [] → ∀ (j : ℕ) (sh : Share), s.progress.shares[j]? = some sh →
    s.outstanding j ≠ [] → sh.done ≤ base

variable {base : ℕ}

/-- Only contexts that are there have something before them. -/
theorem Guarded.exists_share (h : s.Guarded base) {j : ℕ} (hj : s.outstanding j ≠ []) :
    ∃ sh, s.progress.shares[j]? = some sh := by
  refine ⟨_, List.getElem?_eq_getElem (?_ : j < _)⟩
  rw [h.shares]
  by_contra hlt
  rw [outstanding, List.getElem?_eq_none (Nat.le_of_not_lt hlt), Option.elim_none,
    List.nil_append] at hj
  have hready := h.ready
  revert hj hready
  cases s.feeder with
  | waiting | announcing | left => exact fun hj => absurd rfl hj
  | handing place bs =>
    cases bs with
    | nil => exact fun hj => absurd rfl hj
    | cons b bs =>
      rw [FeederPhase.announced]
      split
      · rintro - ⟨-, hplace, -⟩
        rw [List.length_cons] at hplace
        omega
      · exact fun hj => absurd rfl hj

/-- A context with a run before it holds the safe index back. -/
theorem Guarded.candidate_le_done (h : s.Guarded base) {j : ℕ} {sh : Share}
    (hs : s.progress.shares[j]? = some sh) (hj : s.outstanding j ≠ []) :
    s.progress.candidate ≤ sh.done := by
  obtain ⟨b, hb⟩ := List.exists_mem_of_ne_nil _ hj
  exact Progress.candidate_le_done (List.mem_of_getElem? hs) (h.held j sh hs b hb).1

/-- While contexts are told of a run, nothing of it is safe. -/
theorem Guarded.candidate_le_base (h : s.Guarded base) (hstep : s.InStep)
    (hbatches : s.feeder.batches ≠ []) : s.progress.candidate ≤ base := by
  have hbusy (hj : ∃ j, s.outstanding j ≠ []) : s.progress.candidate ≤ base := by
    obtain ⟨j, hj⟩ := hj
    obtain ⟨sh, hs⟩ := h.exists_share hj
    exact (h.candidate_le_done hs hj).trans (h.early hbatches j sh hs hj)
  cases hphase : s.feeder with
  | waiting | left => simp [hphase, FeederPhase.batches] at hbatches
  | announcing place bs =>
    cases bs with
    | nil => simp [hphase, FeederPhase.batches] at hbatches
    | cons b bs =>
      rcases Nat.eq_zero_or_pos place with rfl | hplace
      · -- Nobody was told of the run.
        refine Progress.candidate_le fun sh hs => ?_
        obtain ⟨j, hj⟩ := List.mem_iff_getElem?.mp hs
        exact h.untold j sh hj (hphase ▸ Nat.not_lt_zero j)
      · obtain ⟨j, -, hj⟩ := hstep.busy (hphase ▸ hplace)
        exact hbusy ⟨j, hj⟩
  | handing place bs =>
    cases bs with
    | nil => simp [hphase, FeederPhase.batches] at hbatches
    | cons b bs =>
      refine hbusy ⟨place, ?_⟩
      simp [outstanding, hphase, FeederPhase.announced]

/-- What the shares tell is over. -/
theorem Guarded.over (h : s.Guarded base) (hstep : s.InStep)
    (hnum : Frame.Numbered store.frames.toList) : s.Over s.progress.candidate store where
  outstanding j b hb segment hs := by
    have hj := List.ne_nil_of_mem hb
    obtain ⟨sh, hsh⟩ := h.exists_share hj
    exact (h.candidate_le_done hsh hj).trans_lt ((h.held j sh hsh b hb).2.2 segment hs)
  batches b hb segment hs :=
    (h.candidate_le_base hstep (List.ne_nil_of_mem hb)).trans_lt ((h.batches b hb).2.2 segment hs)
  le := Progress.candidate_le h.given
  numbered := hnum

/-! ### Turns keep the shares right -/

theorem guarded_create (ds : List (StreamDissector τ))
    (contexts batchSize capacity sweepInterval : ℕ) :
    (create ds contexts batchSize capacity sweepInterval).Guarded 0 where
  ready := trivial
  batches := nofun
  shares := by simp [create, Progress.ofWorkers]
  fair := Progress.fair_ofWorkers _
  given sh hs := (congrArg Share.given (List.eq_of_mem_replicate hs)).le
  untold j sh _ htold := absurd trivial htold
  held j sh _ b hb := by
    rw [outstanding] at hb
    cases hc : (create ds contexts batchSize capacity sweepInterval).contexts[j]? with
    | none =>
      rw [hc] at hb
      cases hb
    | some c =>
      rw [hc, List.eq_of_mem_replicate (List.mem_of_getElem? hc)] at hb
      cases hb
  early h := absurd rfl h

/-- A quiet turn may change the shares of contexts that have nothing before them then. -/
theorem Guarded.of_quiet (h : s.Guarded base) (hq : s.Quiet s')
    (hlength : s'.progress.shares.length = s.progress.shares.length) (hfair : s'.progress.Fair)
    (hshare : ∀ (j : ℕ) (sh : Share), s'.progress.shares[j]? = some sh →
      ∃ t, s.progress.shares[j]? = some t ∧ sh.given = t.given ∧
        (s'.outstanding j ≠ [] → sh = t)) :
    s'.Guarded base where
  ready := hq.ready h.ready
  batches b hb := h.batches b (hq.batches hb)
  shares := by rw [hlength, h.shares, hq.contexts]
  fair := hfair
  given sh hs := by
    obtain ⟨j, hj⟩ := List.mem_iff_getElem?.mp hs
    obtain ⟨t, ht, hgiven, -⟩ := hshare j sh hj
    rw [hgiven, hq.offset]
    exact h.given t (List.mem_of_getElem? ht)
  untold j sh hs htold := by
    obtain ⟨t, ht, hgiven, -⟩ := hshare j sh hs
    exact hgiven ▸ h.untold j t ht (mt (hq.told j) htold)
  held j sh hs b' hb' := by
    obtain ⟨t, ht, -, hsame⟩ := hshare j sh hs
    obtain rfl := hsame (List.ne_nil_of_mem hb')
    obtain ⟨b, hb, hlast, hsub⟩ := hq.left j b' hb'
    obtain ⟨hbusy, hgiven, hdone⟩ := h.held j sh ht b hb
    exact ⟨hbusy, hlast ▸ hgiven, fun segment hs => hdone segment (hsub hs)⟩
  early hbatches j sh hs hj := by
    obtain ⟨t, ht, -, hsame⟩ := hshare j sh hs
    obtain rfl := hsame hj
    obtain ⟨b', hb'⟩ := List.exists_mem_of_ne_nil _ hj
    obtain ⟨b, hb, -⟩ := hq.left j b' hb'
    obtain ⟨k, hk⟩ := List.exists_mem_of_ne_nil _ hbatches
    exact h.early (List.ne_nil_of_mem (hq.batches hk)) j sh ht (List.ne_nil_of_mem hb)

theorem Guarded.quiet (h : s.Guarded base) (hq : s.Quiet s') (hprogress : s'.progress = s.progress) :
    s'.Guarded base :=
  h.of_quiet hq (by rw [hprogress]) (hprogress ▸ h.fair) fun _ sh hs =>
    ⟨sh, hprogress ▸ hs, rfl, fun _ => rfl⟩

/-- The feeder takes the next frames. -/
theorem Guarded.take {frames : List Frame} (h : s.Guarded base)
    (hnum : Frame.Numbered store.frames.toList) (waiting : s.feeder = .waiting)
    (ready : store.wait s.offset s.batchSize = .done frames) :
    { s with
      offset := s.offset + frames.length
      feeder := .announcing 0
        (StreamStage.batches s.dissectors s.contexts.length frames
          ((frames.head?.map Frame.index).getD 0)
          ((frames.getLast?.map Frame.index).getD 0)) }.Guarded s.offset := by
  obtain ⟨hne, rest, hdrop⟩ := drop_of_wait ready
  have hpos := List.length_pos_iff.mpr hne
  have hlast := hnum.index_getLast? hdrop hne
  have hfirst : (frames.head?.map Frame.index).getD 0 = s.offset + 1 := by
    have hhead := List.getElem?_eq_getElem hpos
    rw [List.head?_eq_getElem?, hhead]
    exact hnum.index_of_drop hdrop hhead
  rw [hfirst, hlast]
  refine
    { h with
      ready := ⟨by simp [StreamStage.batches], fun b hb => (of_mem_batches hb).2.1⟩
      batches := fun b hb => ?_
      given := fun sh hs => (h.given sh hs).trans (Nat.le_add_right _ _)
      untold := fun j sh hs _ => h.given sh (List.mem_of_getElem? hs)
      held := fun j sh hs b hb => ?_
      early := fun _ j sh hs _ =>
        (h.fair sh (List.mem_of_getElem? hs)).trans (h.given sh (List.mem_of_getElem? hs)) }
  · obtain ⟨hfirst, hlast, hsegments⟩ := of_mem_batches hb
    refine ⟨hfirst, by omega, fun segment hs => ?_⟩
    obtain ⟨f, hf, hframe⟩ := hsegments segment hs
    exact hframe ▸ offset_lt_index hnum ready hf
  · refine h.held j sh hs b ?_
    rwa [outstanding, waiting]

/-- A context that is told of the run is done with the first frames, as all that were not told. -/
theorem Guarded.begin_share {place : ℕ} {b : StreamBatch} {bs : List StreamBatch} {t : Share}
    (h : s.Guarded base) (announcing : s.feeder = .announcing place (b :: bs))
    (ht : s.progress.shares[place]? = some t) : t.begin b.first b.last = ⟨b.last, base⟩ := by
  obtain ⟨hfirst, hpos, -⟩ := h.batches b (by simp [announcing, FeederPhase.batches])
  have hgiven : t.given ≤ base := h.untold place t ht (announcing ▸ lt_irrefl place)
  have hdone : t.done ≤ base := (h.fair t (List.mem_of_getElem? ht)).trans hgiven
  rw [Share.begin, hfirst, Nat.add_sub_cancel, max_eq_right hdone, max_eq_right (by omega)]

/-- The feeder tells a context of the run. -/
theorem Guarded.announce {place : ℕ} {b : StreamBatch} {bs : List StreamBatch} (h : s.Guarded base)
    (announcing : s.feeder = .announcing place (b :: bs))
    (hone : (s.outstanding place ++ [b]).length ≤ 1) :
    { s with
      feeder := .handing place (b :: bs)
      progress := s.progress.begin place b.first b.last }.Guarded base := by
  have hready := h.ready
  have hbatches := h.batches
  rw [announcing] at hready hbatches
  obtain ⟨hplace, hlast⟩ := hready
  obtain ⟨hfirst, hpos, hsegments⟩ := hbatches b List.mem_cons_self
  have hnone : s.outstanding place = [] := by
    rw [List.length_append, List.length_singleton] at hone
    exact List.length_eq_zero_iff.mp (by omega)
  refine
    { ready := ⟨List.cons_ne_nil b bs, hplace, hlast⟩
      batches := hbatches
      shares := by simp [Progress.begin, h.shares]
      fair := h.fair.begin (by omega)
      given := Progress.forall_mem_shares_begin h.given fun sh hs =>
        max_le (h.given sh hs) (hlast b List.mem_cons_self).le
      untold := fun j sh hs htold => ?_
      held := fun j sh hs b' hb' => ?_
      early := fun _ j sh hs hj => ?_ }
  all_goals rcases Progress.of_getElem?_shares_begin hs with ⟨rfl, t, ht, rfl⟩ | ⟨hne, hs⟩
  · exact absurd le_rfl htold
  · exact h.untold j sh hs (announcing ▸ fun hlt => htold hlt.le)
  · rw [outstanding_announce announcing, if_pos rfl, hnone, List.nil_append,
      List.mem_singleton] at hb'
    rw [h.begin_share announcing ht, hb']
    exact ⟨hpos, le_rfl, hsegments⟩
  · rw [outstanding_announce announcing, if_neg hne, List.append_nil] at hb'
    exact h.held j sh hs b' hb'
  · rw [h.begin_share announcing ht]
  · rw [outstanding_announce announcing, if_neg hne, List.append_nil] at hj
    exact h.early (by simp [announcing, FeederPhase.batches]) j sh hs hj

theorem Guarded.feed (h : s.Guarded base) (hnum : Frame.Numbered store.frames.toList)
    (ht : s.Feed store s') (hstep : s'.InStep) : ∃ base, s'.Guarded base := by
  cases ht with
  | take waiting ready => exact ⟨s.offset, h.take hnum waiting ready⟩
  | @announce place b bs announcing =>
    refine ⟨base, h.announce announcing ?_⟩
    have hplace : place < s.contexts.length := by
      have hready := h.ready
      rw [announcing] at hready
      have := hready.1
      rw [List.length_cons] at this
      omega
    have hone := hstep.one place hplace
    rwa [outstanding_announce announcing, if_pos rfl] at hone
  | leave waiting ended => exact ⟨base, h.quiet (quiet_leave waiting) rfl⟩
  | turn hdone => exact ⟨base, h.quiet (quiet_feeder (.inl rfl)) rfl⟩
  | hand handing here push => exact ⟨base, h.quiet (quiet_hand handing here push) rfl⟩
  | quit handing here closed => exact ⟨base, h.quiet (quiet_feeder (.inr rfl)) rfl⟩

/-- A context that has only one run before it reports it. -/
theorem Guarded.report {c e : StreamContext τ} {last : ℕ} (h : s.Guarded base)
    (here : s.contexts[i]? = some c) (working : c.phase = .working [] last)
    (hgiven : e.given = c.queue.items) (hone : (s.outstanding i).length ≤ 1) :
    { s with
      progress := s.progress.finish i last
      contexts := s.contexts.set i e }.Guarded base := by
  have hout : s.outstanding i = ⟨[], 0, last⟩ :: (c.queue.items ++ s.feeder.announced i) := by
    rw [outstanding_of_some here]
    simp [StreamContext.given, StreamContext.inHand, working]
  have hnone : { s with
      progress := s.progress.finish i last
      contexts := s.contexts.set i e }.outstanding i = [] := by
    rw [hout, List.length_cons] at hone
    have hlt := (List.getElem?_eq_some_iff.mp here).1
    have hnow : (s.contexts.set i e)[i]? = some e := by rw [List.getElem?_set_self hlt]
    rw [outstanding_of_some hnow, hgiven]
    exact List.length_eq_zero_iff.mp (by simpa using hone)
  refine h.of_quiet (quiet_set _ here (.of_subset (hgiven ▸ List.subset_append_right _ _))) ?_
    h.fair.finish fun j sh hs => ?_
  · simp [Progress.finish, Progress.refresh]
  · rcases Progress.of_getElem?_shares_finish hs with ⟨rfl, t, ht, rfl⟩ | ⟨-, hs⟩
    · -- The context was given the run before, so its share is given no more by the report.
      obtain ⟨-, hlast, -⟩ := h.held j t ht _ (hout ▸ List.mem_cons_self)
      exact ⟨t, ht, max_eq_left hlast, absurd hnone⟩
    · exact ⟨sh, hs, rfl, fun _ => rfl⟩

theorem Guarded.work (h : s.Guarded base) (ht : s.Work store i now s' store') (hstep : s.InStep) :
    s'.Guarded base := by
  have hq := ht.quiet
  cases ht with
  | pull | leave | look => exact h.quiet hq rfl
  | report here working =>
    refine h.report here working (by simp [StreamContext.given, StreamContext.inHand]) ?_
    exact hstep.one i (List.getElem?_eq_some_iff.mp here).1

/-- No turn but a report changes the mark. -/
theorem Feed.mark (ht : s.Feed store s') : s'.progress.mark = s.progress.mark := by
  cases ht <;> rfl

theorem Work.mark (ht : s.Work store i now s' store') :
    s'.progress.mark = s.progress.mark ∨
      s'.progress.mark = max s.progress.mark s'.progress.candidate := by
  cases ht with
  | pull | leave | look => exact .inl rfl
  | report => exact .inr (Progress.mark_finish ..)

/-! ### Events -/

/-- A stage and what happened to it. -/
structure Watch (τ : Type) where
  /-- The stage. -/
  stage : StreamStage τ
  /-- The store with its frames. -/
  store : Store := .empty
  /-- The segments that contexts have looked at. -/
  looked : List Segment := []

namespace Watch

/-- What can happen. -/
inductive Event where
  /-- Frames come into the store. -/
  | arrive (frames : List Frame)
  /-- No more frames will come. -/
  | close
  /-- The feeder takes a turn. -/
  | feed
  /-- A context takes a turn, at some time. -/
  | work (i now : ℕ)
  /-- The safe index is asked for. -/
  | ask

/-- What comes of an event; a turn that has to wait changes nothing. -/
def step (w : Watch τ) : Event → Watch τ
  | .arrive frames => { w with store := w.store.insert frames }
  | .close => { w with store := w.store.close }
  | .feed => { w with stage := (w.stage.feed? w.store).getD w.stage }
  | .work i now =>
    match w.stage.work? w.store i now with
    | some (stage, store) => ⟨stage, store, w.looked ++ (w.stage.next? i).toList⟩
    | none => w
  | .ask => { w with stage := { w.stage with progress := w.stage.progress.safe.2 } }

/-- What comes of some events. -/
def run (w : Watch τ) (events : List Event) : Watch τ := events.foldl step w

/-- What comes of some events from a new stage on. -/
def after (ds : List (StreamDissector τ)) (contexts batchSize capacity sweepInterval : ℕ)
    (events : List Event) : Watch τ :=
  run { stage := .create ds contexts batchSize capacity sweepInterval } events

/-- The safe index is right: whatever comes, no context looks at a segment of a frame up to it. -/
def Settled (w : Watch τ) : Prop :=
  ∀ later : List Event, ∀ segment ∈ (w.run later).looked.drop w.looked.length,
    w.stage.progress.safe.1 < segment.frame

variable {w : Watch τ}

theorem over_step (h : w.stage.Over n w.store) (event : Event) :
    (w.step event).stage.Over n (w.step event).store ∧
      ∃ more, (w.step event).looked = w.looked ++ more ∧ ∀ segment ∈ more, n < segment.frame := by
  have hnone : ∃ more, w.looked = w.looked ++ more ∧ ∀ segment ∈ more, n < segment.frame :=
    ⟨[], (List.append_nil _).symm, nofun⟩
  cases event with
  | arrive frames => exact ⟨{ h with numbered := Store.numbered_insert h.numbered frames }, hnone⟩
  | close => exact ⟨{ h with }, hnone⟩
  | feed =>
    refine ⟨?_, hnone⟩
    rw [step]
    cases hfeed : w.stage.feed? w.store with
    | none => exact h
    | some s' => exact h.feed (feed_of_feed? hfeed)
  | work i now =>
    rw [step]
    split
    · next hwork =>
      refine ⟨h.work (work_of_work? hwork), _, rfl, fun segment hs => ?_⟩
      exact h.next (Option.mem_toList.mp hs)
    · exact ⟨h, hnone⟩
  | ask => exact ⟨{ h with }, hnone⟩

theorem over_run (h : w.stage.Over n w.store) (events : List Event) :
    ∃ more, (w.run events).looked = w.looked ++ more ∧ ∀ segment ∈ more, n < segment.frame := by
  induction events generalizing w with
  | nil => exact ⟨[], (List.append_nil _).symm, nofun⟩
  | cons event events ih =>
    obtain ⟨hstep, more, hlooked, hmore⟩ := over_step h event
    obtain ⟨later, hlater, hlater'⟩ := ih hstep
    refine ⟨more ++ later, ?_, List.forall_mem_append.mpr ⟨hmore, hlater'⟩⟩
    rw [run, List.foldl_cons]
    exact hlater.trans (by rw [hlooked, List.append_assoc])

/-- The safe index is right if all frames up to it are over. -/
theorem settled_of_over (h : w.stage.Over w.stage.progress.safe.1 w.store) : w.Settled := by
  intro later segment hs
  obtain ⟨more, hlooked, hmore⟩ := over_run h later
  rw [hlooked, List.drop_left] at hs
  exact hmore segment hs

/-- The stage is on guard, and what was said to be safe is over. -/
def Sure (w : Watch τ) : Prop :=
  (∃ base, w.stage.Guarded base) ∧ w.stage.Over w.stage.progress.mark w.store

theorem sure_create (ds : List (StreamDissector τ))
    (contexts batchSize capacity sweepInterval : ℕ) :
    Sure { stage := .create ds contexts batchSize capacity sweepInterval } := by
  have h := guarded_create ds contexts batchSize capacity sweepInterval
  refine ⟨⟨0, h⟩, fun j b hb => ?_, nofun, le_rfl, nofun⟩
  obtain ⟨sh, hs⟩ := h.exists_share (List.ne_nil_of_mem hb)
  obtain ⟨hbusy, -⟩ := h.held j sh hs b hb
  have hfresh : sh = {} := List.eq_of_mem_replicate (List.mem_of_getElem? hs)
  rw [hfresh] at hbusy
  exact absurd hbusy (lt_irrefl 0)

theorem Sure.step (h : w.Sure) (event : Event) (hbefore : w.stage.InStep)
    (hafter : (w.step event).stage.InStep) : (w.step event).Sure := by
  obtain ⟨⟨base, hguarded⟩, hover⟩ := h
  have hnext := (over_step hover event).1
  cases event with
  | arrive | close => exact ⟨⟨base, hguarded⟩, hnext⟩
  | feed =>
    rw [Watch.step] at hafter hnext ⊢
    cases hfeed : w.stage.feed? w.store with
    | none => exact ⟨⟨base, hguarded⟩, hover⟩
    | some s' =>
      have ht := feed_of_feed? hfeed
      simp only [hfeed, Option.getD_some] at hafter hnext ⊢
      exact ⟨hguarded.feed hover.numbered ht hafter, ht.mark.symm ▸ hnext⟩
  | work i now =>
    rw [Watch.step] at hafter hnext ⊢
    cases hwork : w.stage.work? w.store i now with
    | none => exact ⟨⟨base, hguarded⟩, hover⟩
    | some r =>
      have ht := work_of_work? hwork
      have hg := hguarded.work ht hbefore
      simp only [hwork] at hafter hnext ⊢
      refine ⟨⟨base, hg⟩, ?_⟩
      rcases ht.mark with hmark | hmark
      · exact hmark.symm ▸ hnext
      · exact hmark.symm ▸ hnext.max (hg.over hafter hnext.numbered)
  | ask =>
    have hmax := hover.max (hguarded.over hbefore hover.numbered)
    exact ⟨⟨base, { hguarded with }⟩, { hmax with }⟩

theorem Sure.settled (h : w.Sure) (hstep : w.stage.InStep) : w.Settled := by
  obtain ⟨⟨base, hguarded⟩, hover⟩ := h
  exact settled_of_over (hover.max (hguarded.over hstep hover.numbered))

/-- **As long as the stage is in step, the safe index is right**, whatever the dissectors are, however
many contexts there are and whatever happens in whatever order; and it stays right also when the stage
falls out of step later. -/
theorem settled_of_inStep (ds : List (StreamDissector τ))
    (contexts batchSize capacity sweepInterval : ℕ) (events : List Event)
    (h : ∀ before, before <+: events →
      (after ds contexts batchSize capacity sweepInterval before).stage.InStep) :
    (after ds contexts batchSize capacity sweepInterval events).Settled := by
  have hsure : (after ds contexts batchSize capacity sweepInterval events).Sure := by
    induction events using List.reverseRecOn with
    | nil => exact sure_create ds contexts batchSize capacity sweepInterval
    | append_singleton events event ih =>
      have hafter := h _ (List.prefix_refl _)
      rw [after, run, List.foldl_append] at hafter ⊢
      refine (ih fun before hp => h before (hp.trans (List.prefix_append _ _))).step event ?_ hafter
      exact h events (List.prefix_append _ _)
  exact hsure.settled (h events (List.prefix_refl _))

/-- A dissector that takes all segments and finds nothing. -/
def listening : StreamDissector Unit where
  name := "listening"
  patterns := [.suffix ⟨[]⟩]
  fresh := ()
  analyze _ _ := ((), none)
  expired _ _ := false

/-- A frame with one segment. -/
def carrier (index : ℕ) : Frame :=
  .ofRoot index .epoch 0 0
    { ns := ⟨[.confirmed "tcp"]⟩
      properties := [{ id := "seq", value := .ofNat 0 }]
      streamId := some "a" }

/-- Two contexts are told of the first frame, given their batches and report them, and then one of
them is told of the second frame. -/
def alternating : List Event :=
  [.arrive [carrier 1, carrier 2], .feed, .feed, .feed, .feed, .feed, .feed, .work 0 0, .work 1 0,
    .work 0 0, .work 1 0, .work 0 0, .work 1 0, .ask, .feed, .feed]

/-- The first frame is safe and the second is not. -/
theorem settled_alternating :
    (∀ before, before <+: alternating → (after [listening] 2 1 1 1 before).stage.InStep) ∧
      (after [listening] 2 1 1 1 alternating).stage.progress.safe.1 = 1 ∧
      (after [listening] 2 1 1 1 alternating).Settled := by
  have hstep : ∀ before ∈ alternating.inits, (after [listening] 2 1 1 1 before).stage.InStep := by
    decide +kernel
  have hbefore := fun before hp => hstep before ((List.mem_inits _ _).mpr hp)
  exact ⟨hbefore, by decide +kernel, settled_of_inStep [listening] 2 1 1 1 alternating hbefore⟩

/-- **A feeder that is two runs ahead is enough to make the safe index wrong**: when the only context
is told of the second frame, the first counts as done, though it still waits in the queue. -/
theorem not_settled : ¬∀ (ds : List (StreamDissector Unit))
    (contexts batchSize capacity sweepInterval : ℕ) (events : List Event),
    (after ds contexts batchSize capacity sweepInterval events).Settled := by
  intro h
  have hsettled := h [listening] 1 1 2 1
    [.arrive [carrier 1, carrier 2], .feed, .feed, .feed, .feed, .feed, .feed]
    [.work 0 0, .work 0 0]
  revert hsettled
  decide +kernel

/-- The same comes of a context that reports a run while another was not yet told of it. -/
example : ¬∀ segment ∈ ((after [listening] 2 1 1 1
      [.arrive [carrier 1], .feed, .feed, .feed, .work 0 0, .work 0 0]).run
        [.feed, .feed, .work 1 0, .work 1 0]).looked,
    (after [listening] 2 1 1 1
      [.arrive [carrier 1], .feed, .feed, .feed, .work 0 0, .work 0 0]).stage.progress.safe.1 <
        segment.frame := by
  decide +kernel

end Watch

end StreamStage

end PacketTree
