import PacketTree.Proofs.Reassembly.Stage

/-!
# Contexts work on streams without disturbing each other

Each context adds what it finds to the stored frames at any time. Since all segments of a frame are
of one stream, one context alone changes a frame, and it does so in the order of the segments.

## What is proved

* `Sound.work`: every turn of a context in which no stream is given up keeps `Sound`.
* `Sound.finished`: once all have left, every frame has the answers to all its segments and all
  frames are safe.
* `left_of_stuck`: some turn can be taken unless all have left or the feeder waits for frames.
-/

namespace PacketTree

variable {τ : Type}

/-! ### The home of a frame -/

/-- The context of a frame has all answers to the segments of the frame. -/
theorem StreamDissector.filter_answersFrom_routed {d : StreamDissector τ} {frames : List Frame}
    {f : Frame} {contexts : ℕ} (hnum : Frame.Numbered frames)
    (hone : ∀ f ∈ frames, ∀ t ∈ Segment.ofFrame [d] f, ∀ u ∈ Segment.ofFrame [d] f,
      t.stream = u.stream) (hf : f ∈ frames) :
    (d.answersFrom [] (d.routed contexts frames (d.home contexts f))).filter
        (·.1.frame = f.index) =
      (d.answersFrom [] (frames.flatMap (Segment.ofFrame [d]))).filter (·.1.frame = f.index) := by
  have hkeep : ∀ t u : Segment, t.stream = u.stream →
      decide (route t.stream contexts = d.home contexts f) =
        decide (route u.stream contexts = d.home contexts f) := fun t u htu => by rw [htu]
  have hrouted := d.filter_answersFrom hkeep [] (frames.flatMap (Segment.ofFrame [d]))
  rw [routed, ← List.filter_nil, ← hrouted, List.filter_filter]
  refine List.filter_congr fun a ha => ?_
  by_cases hframe : a.1.frame = f.index
  · -- The segment is one of this frame, so its stream goes to the home of the frame.
    obtain ⟨g, hg, hsegment⟩ := List.mem_flatMap.mp (d.fst_mem_of_mem_answersFrom ha)
    obtain rfl : g = f := List.inj_on_of_nodup_map hnum.nodup hg hf
      ((Segment.frame_of_mem_ofFrame hsegment).symm.trans hframe)
    have hhome : route a.1.stream contexts = d.home contexts g :=
      (home_eq (hone g hg a.1 hsegment) hsegment).symm
    simp [hframe, hhome]
  · simp [hframe]

/-! ### Adding to a stored frame -/

namespace StreamStage

/-- Adding layers moves no frame. -/
theorem attachAll_kept (store : Store) (frame parent : ℕ) (layers : List Layer) :
    (attachAll store frame parent layers).parked = store.parked ∧
      (attachAll store frame parent layers).closed = store.closed ∧
      (attachAll store frame parent layers).size = store.size := by
  induction layers generalizing store with
  | nil => exact ⟨rfl, rfl, rfl⟩
  | cons l layers ih =>
    rw [attachAll, List.foldl_cons]
    cases hl : store.attach? frame parent l with
    | none => exact ih store
    | some r =>
      obtain ⟨hparked, hclosed, hsize⟩ := Store.of_attach?_eq_some hl
      obtain ⟨ihparked, ihclosed, ihsize⟩ := ih r.1
      exact ⟨ihparked.trans hparked, ihclosed.trans hclosed, ihsize.trans hsize⟩

/-- What is found in a segment is added to one frame; the others stay. -/
theorem getElem?_attachAll (store : Store) (place parent : ℕ) (found : Option Layer) (k : ℕ) :
    (attachAll store (place + 1) parent found.toList).frames[k]? =
      if place = k then store.frames[k]?.map fun f => (found.bind (f.attach? parent)).getD f
      else store.frames[k]? := by
  have hsame : ∀ {change : Frame → Frame}, (∀ f, store.frames[place]? = some f → change f = f) →
      store.frames[k]? = if place = k then store.frames[k]?.map change else store.frames[k]? := by
    intro change h
    split
    · next hk =>
      subst hk
      cases hf : store.frames[place]? with
      | none => rfl
      | some f => exact congrArg some (h f hf).symm
    · rfl
  cases found with
  | none => exact hsame fun _ _ => rfl
  | some l =>
    have hattach : attachAll store (place + 1) parent [l] =
        ((store.frames[place]?.bind fun f => (f.attach? parent l).bind fun g =>
          some ({ store with frames := store.frames.setIfInBounds place g }, f.size)).elim store
            Prod.fst) := rfl
    rw [Option.toList_some, hattach]
    cases hf : store.frames[place]? with
    | none => exact hsame fun f h => by rw [hf] at h; cases h
    | some f =>
      cases hg : f.attach? parent l with
      | none =>
        simpa [hg] using hsame fun e h => by
          rw [hf, Option.some.injEq] at h
          rw [← h, hg, Option.getD_none]
      | some g =>
        have hlt := (Array.getElem?_eq_some_iff.mp hf).1
        simp only [Option.bind_some, hg, Option.elim_some, Array.getElem?_setIfInBounds, hlt, if_true]
        split
        · next hk =>
          subst hk
          rw [hf, Option.map_some, hg, Option.getD_some]
        · rfl

variable {s s' : StreamStage τ} {store store' : Store} {i now : ℕ}

/-! ### Turns of a context -/

/-- What a turn of a context can be. -/
inductive Work (s : StreamStage τ) (store : Store) (i now : ℕ) : StreamStage τ → Store → Prop where
  /-- It takes a batch from its queue. -/
  | pull {c : StreamContext τ} {b : StreamBatch} {rest : List StreamBatch}
      (here : s.contexts[i]? = some c) (idle : c.phase = .idle) (items : c.queue.items = b :: rest) :
      Work s store i now
        { s with
          contexts := s.contexts.set i
            { c with
              queue := { c.queue with items := rest }
              phase := .working b.segments b.last } } store
  /-- It leaves. -/
  | leave {c : StreamContext τ} (here : s.contexts[i]? = some c) (idle : c.phase = .idle)
      (empty : c.queue.items = []) (closed : c.queue.closed = true) :
      Work s store i now { s with contexts := s.contexts.set i { c with phase := .left } } store
  /-- It looks at a segment. -/
  | look {c : StreamContext τ} {segment : Segment} {rest : List Segment} {last : ℕ}
      (here : s.contexts[i]? = some c) (working : c.phase = .working (segment :: rest) last) :
      Work s store i now
        { s with
          contexts := s.contexts.set i
            { c with
              table := (c.table.process s.dissectors segment now).1
              phase := .working rest last } }
        (attachAll store segment.frame segment.layer (c.table.process s.dissectors segment now).2)
  /-- It reports, and sweeps if it is time to. -/
  | report {c : StreamContext τ} {last : ℕ} (here : s.contexts[i]? = some c)
      (working : c.phase = .working [] last) :
      Work s store i now
        { s with
          progress := s.progress.finish i last
          contexts := s.contexts.set i
            { c with
              table := if (c.batches + 1) % s.sweepInterval = 0 then c.table.sweep now else c.table
              batches := c.batches + 1
              phase := .idle } } store

theorem work_of_work? (h : s.work? store i now = some (s', store')) :
    s.Work store i now s' store' := by
  rw [work?, Option.bind_eq_bind, Option.bind_eq_some_iff] at h
  obtain ⟨c, here, h⟩ := h
  split at h
  · next idle =>
    split at h
    · next pop =>
      obtain ⟨b, rfl, hitems, hqueue⟩ := Queue.popBatch_one pop
      rw [hqueue] at h
      cases h
      exact .pull here idle hitems
    · next ended =>
      obtain ⟨hempty, hclosed⟩ := Queue.popBatch_eq_closed_iff.mp ended
      cases h
      exact .leave here idle hempty hclosed
    · cases h
  · next working =>
    cases h
    exact .look here working
  · next working =>
    cases h
    exact .report here working
  · cases h

/-- A context that cannot take a turn has left or waits for a batch. -/
theorem work?_eq_none_iff {c : StreamContext τ} (here : s.contexts[i]? = some c) :
    s.work? store i now = none ↔
      c.phase = .left ∨ (c.phase = .idle ∧ c.queue.items = [] ∧ c.queue.closed = false) := by
  rw [work?, here, Option.bind_eq_bind, Option.bind_some]
  cases hphase : c.phase with
  | idle =>
    dsimp only
    cases hpop : c.queue.popBatch 1 [] with
    | done r =>
      have hblocked : ¬(c.queue.items = [] ∧ c.queue.closed = false) := fun h => by
        rw [Queue.popBatch_eq_blocked_iff.mpr h] at hpop
        cases hpop
      simpa using hblocked
    | closed =>
      obtain ⟨-, hclosed⟩ := Queue.popBatch_eq_closed_iff.mp hpop
      simp [hclosed]
    | blocked => simp [Queue.popBatch_eq_blocked_iff.mp hpop]
  | working segments last => cases segments <;> simp
  | left => simp

variable {d : StreamDissector τ} {frames : List Frame} {done : ℕ → List Segment}

/-! ### The contexts keep everything -/

/-- A context goes on: what it has worked on and what is ahead of it stay the same together, and it may
report the end of a run. -/
theorem Sound.set {c e : StreamContext τ} {done' : ℕ → List Segment} (reported : Option ℕ)
    (h : s.Sound d frames done store) (here : s.contexts[i]? = some c)
    (hdone : ∀ j, j ≠ i → done' j = done j)
    (hstored : store'.frames.toList =
      (frames.take store.size).map (d.grown s.contexts.length done'))
    (hkept : done' i ++ e.ahead = done i ++ c.ahead) (hholds : e.table.Holds d (done' i))
    (howed : c.owed = reported.toList ++ e.owed) (hclosed : e.queue.closed = c.queue.closed)
    (hleft : e.phase = .left → e.queue.items = [] ∧ e.queue.closed = true) :
    { s with
      progress := reported.elim s.progress (s.progress.finish i)
      contexts := s.contexts.set i e }.Sound d frames done' store' := by
  have hc := List.mem_of_getElem? here
  have howed_le : ∀ last ∈ reported.toList ++ e.owed, last ≤ s.offset := howed ▸ h.owed_le c hc
  have hsize : store'.size = store.size := by
    have hlength : store'.size = _ := congrArg List.length hstored
    rw [List.length_map, List.length_take] at hlength
    exact hlength.trans (min_eq_left h.size_le)
  refine
    { h with
      contexts_pos := by simpa using h.contexts_pos
      offset_le := hsize ▸ h.offset_le
      stored := by simpa only [List.length_set, hsize] using hstored
      kept := fun j k hk => ?_
      holds := fun j k hk => ?_
      shares := ?_
      owes := fun j k sh hk hs => ?_
      told := fun j sh hs htold => ?_
      owed_le := List.forall_mem_set h.owed_le fun last hl =>
        howed_le last (List.mem_append_right _ hl)
      within := ?_
      ready := by simpa using h.ready
      isOpen := fun hne => List.forall_mem_set (h.isOpen hne) (hclosed ▸ h.isOpen hne c hc)
      ended := fun hl =>
        ⟨(h.ended hl).1, List.forall_mem_set (h.ended hl).2 (hclosed ▸ (h.ended hl).2 c hc)⟩
      left := List.forall_mem_set h.left hleft }
  · simp only [List.length_set]
    rcases List.of_getElem?_set_eq_some hk with ⟨rfl, rfl⟩ | ⟨hj, hk⟩
    · rw [← List.append_assoc, hkept, List.append_assoc]
      exact h.kept j c here
    · rw [hdone j hj]
      exact h.kept j k hk
  · rcases List.of_getElem?_set_eq_some hk with ⟨rfl, rfl⟩ | ⟨hj, hk⟩
    · exact hholds
    · rw [hdone j hj]
      exact h.holds j k hk
  · cases reported with
    | none => simpa using h.shares
    | some last => simpa [Progress.finish, Progress.refresh] using h.shares
  · cases reported with
    | none =>
      rcases List.of_getElem?_set_eq_some hk with ⟨rfl, rfl⟩ | ⟨-, hk⟩
      · have howes := h.owes j c sh here hs
        rwa [howed] at howes
      · exact h.owes j k sh hk hs
    | some last =>
      rw [Option.elim_some, Progress.getElem?_shares_finish] at hs
      rcases List.of_getElem?_set_eq_some hk with ⟨rfl, rfl⟩ | ⟨hj, hk⟩
      · rw [if_pos rfl, Option.map_eq_some_iff] at hs
        obtain ⟨t, ht, rfl⟩ := hs
        have howes := h.owes j c t here ht
        rw [howed] at howes
        exact Share.Owes.finish howes
      · rw [if_neg (Ne.symm hj)] at hs
        exact h.owes j k sh hk hs
  · cases reported with
    | none => exact h.told j sh hs htold
    | some last =>
      have hlast : last ≤ s.offset := howed_le last List.mem_cons_self
      rw [Option.elim_some, Progress.getElem?_shares_finish] at hs
      split at hs
      · obtain ⟨t, ht, rfl⟩ := Option.map_eq_some_iff.mp hs
        exact (max_eq_left ((h.told j t ht htold).symm ▸ hlast)).trans (h.told j t ht htold)
      · exact h.told j sh hs htold
  · cases reported with
    | none => exact h.within
    | some last => exact h.within.finish (howed_le last List.mem_cons_self)

/-- The frame of the segment gets the answer, and it alone. -/
theorem Sound.stored_look {segment : Segment} {f : Frame} {k : ℕ}
    (h : s.Sound d frames done store) (hnum : Frame.Numbered frames) (hf : frames[k]? = some f)
    (hframe : segment.frame = k + 1) (hhome : d.home s.contexts.length f = i) :
    (attachAll store (k + 1) segment.layer (d.answer (done i) segment).toList).frames.toList =
      (frames.take store.size).map
        (d.grown s.contexts.length (Function.update done i (done i ++ [segment]))) := by
  refine List.ext_getElem? fun m => ?_
  have hold := congrArg (·[m]?) h.stored
  simp only [Array.getElem?_toList, List.getElem?_map] at hold
  rw [Array.getElem?_toList, getElem?_attachAll, hold, List.getElem?_map]
  cases hg : (frames.take store.size)[m]? with
  | none => simp
  | some g =>
    rw [List.getElem?_take] at hg
    split at hg
    · by_cases hkm : k = m
      · subst hkm
        obtain rfl : f = g := Option.some.inj (hf.symm.trans hg)
        rw [if_pos rfl, Option.map_some, Option.map_some, Option.map_some,
          StreamDissector.grown_update_self hhome (hframe.trans (hnum k f hf).symm)]
        rfl
      · have hother : segment.frame ≠ g.index := by
          rw [hframe, hnum m g hg]
          omega
        rw [if_neg hkm, Option.map_some, Option.map_some,
          StreamDissector.grown_update_other hother]
    · cases hg

/-- A context looks at a segment and adds what it finds to the frame. -/
theorem Sound.look {c : StreamContext τ} {segment : Segment} {rest : List Segment} {last : ℕ}
    (h : s.Sound d frames done store) (hnum : Frame.Numbered frames)
    (hone : ∀ f ∈ frames, ∀ t ∈ Segment.ofFrame [d] f, ∀ u ∈ Segment.ofFrame [d] f,
      t.stream = u.stream) (here : s.contexts[i]? = some c)
    (working : c.phase = .working (segment :: rest) last) (now : ℕ) :
    { s with
      contexts := s.contexts.set i
        { c with
          table := (c.table.process s.dissectors segment now).1
          phase := .working rest last } }.Sound d frames
        (Function.update done i (done i ++ [segment]))
        (attachAll store segment.frame segment.layer
          (c.table.process s.dissectors segment now).2) := by
  have hahead : c.ahead = segment :: StreamContext.ahead
      { c with
        table := (c.table.process s.dissectors segment now).1
        phase := .working rest last } := by
    simp [StreamContext.ahead, StreamContext.inHand, working]
  have howed : c.owed = StreamContext.owed
      { c with
        table := (c.table.process s.dissectors segment now).1
        phase := .working rest last } := by
    simp [StreamContext.owed, StreamContext.inHand, working]
  obtain ⟨hi, rfl⟩ := List.getElem?_eq_some_iff.mp here
  obtain ⟨k, f, -, hf, hsegment, hframe, hroute⟩ :=
    h.exists_frame hnum hi (.inr (hahead ▸ List.mem_cons_self))
  have hhome : d.home s.contexts.length f = i :=
    (StreamDissector.home_eq (hone f (List.mem_of_getElem? hf) segment hsegment)
      hsegment).trans hroute
  obtain ⟨hfound, htable⟩ :=
    (h.holds i _ here).process (Segment.selects_of_mem_ofFrame hsegment) now
  rw [← h.dissectors] at hfound htable
  refine h.set none here (fun j hj => Function.update_of_ne hj _ _) ?_ ?_ ?_ howed rfl
    fun hleft => by cases hleft
  · rw [hfound, hframe]
    exact h.stored_look hnum hf hframe hhome
  · rw [hahead, Function.update_self, List.append_assoc]
    rfl
  · rw [Function.update_self]
    exact htable

/-- No context gives up a stream from one state to another. -/
def Keeps (s s' : StreamStage τ) : Prop :=
  ∀ (i : ℕ) (c c' : StreamContext τ), s.contexts[i]? = some c → s'.contexts[i]? = some c' →
    ∀ e ∈ c.table.entries, ∃ k ∈ c'.table.entries, k.stream = e.stream

theorem Keeps.of_contexts_eq (h : s'.contexts = s.contexts) : s.Keeps s' := by
  intro i c c' hc hc' e he
  rw [h, hc, Option.some.injEq] at hc'
  exact ⟨e, hc' ▸ he, rfl⟩

/-- One context keeps its streams, and the others are as before. -/
theorem Keeps.of_contexts_set {c k : StreamContext τ} (here : s.contexts[i]? = some c)
    (h : s'.contexts = s.contexts.set i k)
    (hkept : ∀ e ∈ c.table.entries, ∃ e' ∈ k.table.entries, e'.stream = e.stream) : s.Keeps s' := by
  intro j a b ha hb e he
  rw [h] at hb
  rcases List.of_getElem?_set_eq_some hb with ⟨rfl, rfl⟩ | ⟨-, hb⟩
  · rw [here, Option.some.injEq] at ha
    exact hkept e (ha ▸ he)
  · rw [ha, Option.some.injEq] at hb
    exact ⟨e, hb ▸ he, rfl⟩

/-- The feeder gives up no stream. -/
theorem Feed.keeps (ht : s.Feed store s') : s.Keeps s' := by
  cases ht with
  | take | turn | announce | quit => exact .of_contexts_eq rfl
  | leave =>
    intro j a b ha hb e he
    rw [List.getElem?_map, ha, Option.map_some, Option.some.injEq] at hb
    exact ⟨e, hb ▸ he, rfl⟩
  | hand _ here _ => exact .of_contexts_set here rfl fun e he => ⟨e, he, rfl⟩

/-- A context gives up no stream as long as no worker can have been idle for too long. -/
theorem Work.keeps (h : s.Sound d frames done store) (ht : s.Work store i now s' store')
    (halive : ∀ m, ∀ idle ≤ now, d.expired m idle = false) : s.Keeps s' := by
  cases ht with
  | pull here | leave here => exact .of_contexts_set here rfl fun e he => ⟨e, he, rfl⟩
  | @look c segment rest last here working =>
    refine .of_contexts_set here rfl fun e he => ?_
    by_cases heq : e.stream = segment.stream
    · exact ⟨_, List.mem_cons_self, heq.symm⟩
    · exact ⟨e, List.mem_cons_of_mem _ (List.mem_filter.mpr ⟨he, decide_eq_true heq⟩), rfl⟩
  | @report c last here working =>
    refine .of_contexts_set here rfl fun e he => ⟨e, ?_, rfl⟩
    split
    · refine List.mem_filter.mpr ⟨he, ?_⟩
      rw [StreamTable.expired, (h.holds i c here).workers e he]
      simp [StreamWorker.expired, halive _ _ (Nat.sub_le now e.touched)]
    · exact he

/-- No turn of a context moves a frame. -/
theorem Work.kept (ht : s.Work store i now s' store') :
    store'.parked = store.parked ∧ store'.closed = store.closed ∧ store'.size = store.size := by
  cases ht with
  | pull | leave | report => exact ⟨rfl, rfl, rfl⟩
  | look => exact attachAll_kept ..

/-- **Every turn of a context keeps the segments together**, unless a stream is given up. -/
theorem Sound.work (h : s.Sound d frames done store) (hnum : Frame.Numbered frames)
    (hone : ∀ f ∈ frames, ∀ t ∈ Segment.ofFrame [d] f, ∀ u ∈ Segment.ofFrame [d] f,
      t.stream = u.stream) (hkeeps : s.Keeps s') (ht : s.Work store i now s' store') :
    ∃ done', s'.Sound d frames done' store' := by
  cases ht with
  | @pull c b rest here idle items =>
    refine ⟨done, h.set none here (fun _ _ => rfl) h.stored ?_ (h.holds i c here) ?_ rfl
      fun hleft => by cases hleft⟩
    · simp [StreamContext.ahead, StreamContext.inHand, idle, items]
    · simp [StreamContext.owed, StreamContext.inHand, idle, items]
  | @leave c here idle empty closed =>
    refine ⟨done, h.set none here (fun _ _ => rfl) h.stored ?_ (h.holds i c here) ?_ rfl
      fun _ => ⟨empty, closed⟩⟩
    · simp [StreamContext.ahead, StreamContext.inHand, idle]
    · simp [StreamContext.owed, StreamContext.inHand, idle]
  | @look c segment rest last here working =>
    exact ⟨_, h.look hnum hone here working now⟩
  | @report c last here working =>
    refine ⟨done, h.set (some last) here (fun _ _ => rfl) h.stored ?_ ?_ ?_ rfl
      fun hleft => by cases hleft⟩
    · simp [StreamContext.ahead, StreamContext.inHand, working]
    · -- A sweep that gives up no stream leaves the memories as they are.
      dsimp only
      split
      · next hsweep =>
        refine (h.holds i c here).sweep fun e he => ?_
        have hi := (List.getElem?_eq_some_iff.mp here).1
        have hkept := hkeeps i c _ here (List.getElem?_set_self hi) e he
        rwa [if_pos hsweep] at hkept
      · exact h.holds i c here
    · simp [StreamContext.owed, StreamContext.inHand, working]

/-! ### The store -/

/-- The stage does not mind frames that come into line. -/
theorem Sound.insert {taken rest : List Frame} (h : s.Sound d frames done store)
    (hnum : Frame.Numbered frames)
    (htaken : store'.frames.toList = store.frames.toList ++ taken)
    (hnext : frames.drop store.size = taken ++ rest) : s.Sound d frames done store' := by
  have hsize : store'.size = store.size + taken.length := by
    have hlen := congrArg List.length htaken
    rwa [List.length_append, Array.length_toList, Array.length_toList] at hlen
  have hsame : taken.map (d.grown s.contexts.length done) = taken := by
    refine (List.map_congr_left fun f hf => ?_).trans (List.map_id _)
    obtain ⟨k, hk⟩ := List.mem_iff_getElem?.mp hf
    have hget : frames[store.size + k]? = some f := by
      rw [← List.getElem?_drop, hnext, List.getElem?_append_left (List.getElem?_eq_some_iff.mp hk).1,
        hk]
    exact h.grown_of_offset_le hnum (h.offset_le.trans (Nat.le_add_right _ _)) hget
  refine { h with offset_le := ?_, stored := ?_ }
  · have := h.offset_le
    omega
  · rw [htaken, h.stored, hsize, List.take_add, hnext, List.take_left, List.map_append, hsame]

theorem Sound.of_frames (h : s.Sound d frames done store) (hframes : store'.frames = store.frames) :
    s.Sound d frames done store' :=
  have hsize : store'.size = store.size := congrArg Array.size hframes
  { h with
    offset_le := hsize ▸ h.offset_le
    stored := by rw [hframes, hsize, h.stored] }

/-! ### The end -/

/-- **Once all have left, the store holds what working on one segment after the other gives.** -/
theorem Sound.finished (h : s.Sound d frames done store) (hnum : Frame.Numbered frames)
    (hone : ∀ f ∈ frames, ∀ t ∈ Segment.ofFrame [d] f, ∀ u ∈ Segment.ofFrame [d] f,
      t.stream = u.stream) (hfeeder : s.feeder = .left) (hleft : ∀ c ∈ s.contexts, c.phase = .left) :
    store.frames.toList = d.sequential (fun _ => d.fresh) frames ∧
      s.progress.safe.1 = frames.length := by
  have hoffset := (h.ended hfeeder).1
  have hsize : store.size = frames.length := by
    have := h.size_le
    have := h.offset_le
    omega
  have hdone : ∀ j < s.contexts.length, done j = d.routed s.contexts.length frames j := by
    intro j hj
    have hkept := h.kept j _ (List.getElem?_eq_getElem hj)
    have hphase := hleft _ (List.getElem_mem hj)
    have hempty := (h.left _ (List.getElem_mem hj) hphase).1
    rw [hfeeder, hoffset, List.take_length] at hkept
    simpa [StreamContext.ahead, StreamContext.inHand, hphase, hempty] using hkept
  constructor
  · rw [h.stored, hsize, List.take_length, d.sequential_eq hnum.nodup]
    refine List.map_congr_left fun f hf => ?_
    rw [StreamDissector.grown, hdone _ (StreamDissector.home_lt h.contexts_pos),
      StreamDissector.filter_answersFrom_routed hnum hone hf]
  · obtain ⟨sh, hsh⟩ : ∃ sh, s.progress.shares[0]? = some sh :=
      ⟨_, List.getElem?_eq_getElem (h.shares ▸ h.contexts_pos)⟩
    refine hoffset ▸ Progress.safe_eq h.within (fun t ht => ?_)
      (.inr ⟨sh, List.mem_of_getElem? hsh, h.told 0 sh hsh (by rw [hfeeder]; trivial)⟩)
    obtain ⟨j, hj⟩ := List.mem_iff_getElem?.mp ht
    have hlt : j < s.contexts.length := h.shares ▸ (List.getElem?_eq_some_iff.mp hj).1
    have howes := h.owes j _ t (List.getElem?_eq_getElem hlt) hj
    have hphase := hleft _ (List.getElem_mem hlt)
    have hempty := (h.left _ (List.getElem_mem hlt) hphase).1
    rw [hfeeder] at howes
    simpa [StreamContext.owed, StreamContext.inHand, FeederPhase.owed, hphase, hempty] using howes

/-- Unless all have left, someone can take a turn or the feeder waits for frames. -/
theorem Sound.left_of_stuck (h : s.Sound d frames done store) (hfeed : s.feed? store = none)
    (hwork : ∀ i, s.work? store i now = none) :
    (s.feeder = .left ∧ ∀ c ∈ s.contexts, c.phase = .left) ∨
      (store.size ≤ s.offset ∧ store.closed = false) := by
  cases hfeeder : s.feeder with
  | waiting =>
    rw [feed?, hfeeder] at hfeed
    cases hwait : store.wait s.offset s.batchSize with
    | done out => simp [hwait] at hfeed
    | closed => simp [hwait] at hfeed
    | blocked => exact .inr (Store.wait_eq_blocked_iff.mp hwait)
  | announcing place batches =>
    rw [feed?.eq_def, hfeeder] at hfeed
    cases batches <;> cases hfeed
  | handing place batches =>
    have hready := h.ready
    rw [hfeeder] at hready
    obtain ⟨hne, hplace, -⟩ := hready
    cases batches with
    | nil => exact absurd rfl hne
    | cons b bs =>
      -- The context whose queue is full has something to take out of it.
      exfalso
      rw [List.length_cons] at hplace
      have hlt : place < s.contexts.length := by omega
      have here := List.getElem?_eq_getElem hlt
      rw [feed?.eq_def, hfeeder] at hfeed
      simp only [here, Option.bind_eq_bind, Option.bind_some] at hfeed
      cases hpush : s.contexts[place].queue.push b with
      | done queue => simp [hpush] at hfeed
      | closed => simp [hpush] at hfeed
      | blocked =>
        have hfull := (Queue.push_eq_blocked_iff.mp hpush).2
        have hpos := s.contexts[place].queue.limit_pos
        have hitems : s.contexts[place].queue.items = [] := by
          rcases (work?_eq_none_iff here).mp (hwork place) with hleft | ⟨-, hempty, -⟩
          · exact (h.left _ (List.getElem_mem hlt) hleft).1
          · exact hempty
        rw [Queue.size, hitems, List.length_nil] at hfull
        omega
  | left =>
    refine .inl ⟨rfl, fun c hc => ?_⟩
    obtain ⟨j, here⟩ := List.mem_iff_getElem?.mp hc
    rcases (work?_eq_none_iff here).mp (hwork j) with hleft | ⟨-, -, hopen⟩
    · exact hleft
    · rw [(h.ended hfeeder).2 c hc] at hopen
      cases hopen

end StreamStage

end PacketTree
