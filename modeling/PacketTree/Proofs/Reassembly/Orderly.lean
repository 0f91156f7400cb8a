import Mathlib.Logic.Function.Iterate
import PacketTree.Proofs.Reassembly.Work
import PacketTree.Session.Pipeline

/-!
# Streams in rounds

When the feeder spreads one run of frames and then all contexts finish their work, one round brings at
least one frame through the streams. What is in the frames plays no part.

## What is proved

* `fed_spread`: the feeder gives every context its batch without having to wait.
* `after_backlog`: a context works on all that is in its queue.
* `Calm.round`: a round takes some frames through the streams, or there are none and all leave.
-/

namespace PacketTree

variable {τ : Type}

/-! ### The feeder -/

namespace StreamContext

/-- The context is not at work, and can be given more. -/
def Idle (c : StreamContext τ) : Prop := c.phase = .idle ∧ c.queue.closed = false

/-- The context has nothing to do, and has left if its queue is closed. -/
structure Resting (c : StreamContext τ) : Prop where
  /-- Its queue is empty. -/
  empty : c.queue.items = []
  /-- It waits for batches as long as some may come. -/
  phase : c.phase = if c.queue.closed = true then .left else .idle

end StreamContext

namespace StreamStage

/-- A turn of the feeder, or nothing if it has to wait. -/
def fed (store : Store) (s : StreamStage τ) : StreamStage τ := (s.feed? store).getD s

/-- The feeder waits for frames, and the contexts for segments. -/
structure Calm (s : StreamStage τ) (store : Store) : Prop where
  /-- The feeder waits for frames. -/
  waiting : s.feeder = .waiting
  /-- It has taken only what is there. -/
  offset_le : s.offset ≤ store.size
  /-- All contexts are idle, -/
  idle : ∀ c ∈ s.contexts, c.Idle
  /-- with nothing to do. -/
  empty : ∀ c ∈ s.contexts, c.queue.items = []

/-- What the feeder leaves behind when it has spread a run of frames. -/
structure Spread (s s' : StreamStage τ) : Prop where
  /-- It waits for more. -/
  waiting : s'.feeder = .waiting
  /-- It has taken as many frames. -/
  offset : s'.offset = s.offset
  /-- There are as many contexts, -/
  length : s'.contexts.length = s.contexts.length
  /-- and all are idle. -/
  idle : ∀ c ∈ s'.contexts, c.Idle

variable {s s' : StreamStage τ} {store : Store} {c : StreamContext τ} {place : ℕ} {b : StreamBatch}
  {bs : List StreamBatch}

/-- In two turns the feeder gives a context its batch. -/
theorem fed_give (store : Store) (announcing : s.feeder = .announcing place (b :: bs))
    (here : s.contexts[place]? = some c) (empty : c.queue.items = [])
    (isOpen : c.queue.closed = false) :
    (s.fed store).fed store =
      { s with
        feeder := .announcing (place + 1) bs
        progress := s.progress.begin place b.first b.last
        contexts := s.contexts.set place { c with queue := { c.queue with items := [b] } } } := by
  have hpush : c.queue.push b = .done { c.queue with items := [b] } := by
    refine Queue.push_eq_done_iff.mpr ⟨isOpen, ?_, by rw [empty, List.nil_append]⟩
    rw [Queue.size, empty]
    exact c.queue.limit_pos
  have hannounce : s.fed store =
      { s with
        feeder := .handing place (b :: bs)
        progress := s.progress.begin place b.first b.last } := by
    simp [fed, feed?, announcing]
  rw [hannounce]
  simp [fed, feed?, here, hpush]

/-- The feeder gives every context its batch. -/
theorem fed_spread (store : Store) (announcing : s.feeder = .announcing place bs)
    (hplace : place + bs.length = s.contexts.length) (hidle : ∀ c ∈ s.contexts, c.Idle)
    (hempty : ∀ j c, place ≤ j → s.contexts[j]? = some c → c.queue.items = []) :
    s.Spread ((fed store)^[2 * bs.length + 1] s) := by
  induction bs generalizing s place with
  | nil =>
    have hturn : s.fed store = { s with feeder := .waiting } := by simp [fed, feed?, announcing]
    rw [List.length_nil, Function.iterate_one, hturn]
    exact ⟨rfl, rfl, rfl, hidle⟩
  | cons b bs ih =>
    rw [List.length_cons] at hplace
    have hlt : place < s.contexts.length := by omega
    have here := List.getElem?_eq_getElem hlt
    have hopen := hidle _ (List.getElem_mem hlt)
    have hgive := fed_give store announcing here (hempty place _ le_rfl here) hopen.2
    rw [List.length_cons, show 2 * (bs.length + 1) + 1 = (2 * bs.length + 1) + 1 + 1 by omega,
      Function.iterate_succ_apply, Function.iterate_succ_apply, hgive]
    obtain ⟨hwaiting, hoffset, hlength, hidle'⟩ := @ih
      { s with
        feeder := .announcing (place + 1) bs
        progress := s.progress.begin place b.first b.last
        contexts := s.contexts.set place
          { s.contexts[place] with queue := { s.contexts[place].queue with items := [b] } } }
      (place + 1) rfl (by rw [List.length_set]; omega) (List.forall_mem_set hidle hopen)
      fun j c hj hc => by
        rcases List.of_getElem?_set_eq_some hc with ⟨rfl, -⟩ | ⟨-, hc⟩
        · omega
        · exact hempty j c (by omega) hc
    exact ⟨hwaiting, hoffset, hlength.trans List.length_set, hidle'⟩

/-- As long as there are frames, the feeder takes some and spreads them. -/
theorem Calm.iterate_fed (h : s.Calm store) (hlt : s.offset < store.size) :
    ((fed store)^[2 * s.contexts.length + 2] s).feeder = .waiting ∧
      s.offset < ((fed store)^[2 * s.contexts.length + 2] s).offset ∧
      ((fed store)^[2 * s.contexts.length + 2] s).offset ≤ store.size ∧
      ∀ c ∈ ((fed store)^[2 * s.contexts.length + 2] s).contexts, c.Idle := by
  obtain ⟨out, hwait, hne, hle⟩ : ∃ out, store.wait s.offset s.batchSize = .done out ∧ out ≠ [] ∧
      s.offset + out.length ≤ store.size := by
    refine ⟨_, Store.wait_eq_done_iff.mpr ⟨hlt, rfl⟩, ?_⟩
    have hsize : store.frames.toList.length = store.size := Array.length_toList
    have hmost := Nat.le_max_right s.batchSize 1
    rw [← List.length_pos_iff, List.length_take, List.length_drop]
    omega
  have hbatches : ∀ first last,
      (batches s.dissectors s.contexts.length out first last).length = s.contexts.length := by
    intro first last
    rw [batches, List.length_map, List.length_range]
  obtain ⟨first, last, htake⟩ : ∃ first last, s.fed store =
      { s with
        offset := s.offset + out.length
        feeder := .announcing 0 (batches s.dissectors s.contexts.length out first last) } := by
    refine ⟨(out.head?.map Frame.index).getD 0, (out.getLast?.map Frame.index).getD 0, ?_⟩
    simp [fed, feed?, h.waiting, hwait]
  have hspread := fed_spread (s := s.fed store) store (by rw [htake])
    (by rw [htake, hbatches, Nat.zero_add]) (htake ▸ h.idle)
    fun j c _ hc => h.empty c (by rw [htake] at hc; exact List.mem_of_getElem? hc)
  rw [hbatches, ← Function.iterate_succ_apply] at hspread
  have := List.length_pos_iff.mpr hne
  have hoffset : ((fed store)^[2 * s.contexts.length + 2] s).offset = s.offset + out.length :=
    hspread.offset.trans (congrArg StreamStage.offset htake)
  exact ⟨hspread.waiting, by omega, by omega, hspread.idle⟩

theorem fed_of_left (left : s.feeder = .left) : s.fed store = s := by
  simp [fed, feed?, left]

/-- Once all frames were taken, the feeder leaves. -/
theorem Calm.iterate_fed_last (h : s.Calm store) (hle : store.size ≤ s.offset)
    (closed : store.closed = true) (n : ℕ) :
    (fed store)^[n + 1] s =
      { s with
        feeder := .left
        contexts := s.contexts.map fun c => { c with queue := c.queue.close } } := by
  have hleave : s.fed store =
      { s with
        feeder := .left
        contexts := s.contexts.map fun c => { c with queue := c.queue.close } } := by
    simp [fed, feed?, h.waiting, Store.wait_eq_closed_iff.mpr ⟨hle, closed⟩]
  rw [Function.iterate_succ_apply, hleave]
  exact Function.iterate_fixed (fed_of_left rfl) n

/-! ### The contexts -/

/-- A turn of a context, or nothing if it has to wait. The clock stands still. -/
def worked (r : StreamStage τ × Store) (i : ℕ) : StreamStage τ × Store :=
  (r.1.work? r.2 i 0).getD r

/-- The turns of some contexts, one after the other. -/
def after (r : StreamStage τ × Store) (turns : List ℕ) : StreamStage τ × Store :=
  turns.foldl worked r

/-- What the turns of contexts keep. -/
structure Kept (r r' : StreamStage τ × Store) : Prop where
  /-- The feeder is where it was, -/
  feeder : r'.1.feeder = r.1.feeder
  /-- and has taken as many frames. -/
  offset : r'.1.offset = r.1.offset
  /-- No frame has come or gone. -/
  size : r'.2.size = r.2.size
  /-- The store is as open as before. -/
  closed : r'.2.closed = r.2.closed

/-- What the turns of one context leave behind. -/
structure Turned (r : StreamStage τ × Store) (i : ℕ) (c : StreamContext τ)
    (r' : StreamStage τ × Store) : Prop extends Kept r r' where
  /-- All other contexts are as before. -/
  contexts : r'.1.contexts = r.1.contexts.set i c

variable {r r' r'' : StreamStage τ × Store} {c' : StreamContext τ} {i last : ℕ}
  {segment : Segment} {rest : List Segment}

theorem Kept.refl (r : StreamStage τ × Store) : Kept r r := ⟨rfl, rfl, rfl, rfl⟩

theorem Kept.trans (h : Kept r r') (h' : Kept r' r'') : Kept r r'' where
  feeder := h'.feeder.trans h.feeder
  offset := h'.offset.trans h.offset
  size := h'.size.trans h.size
  closed := h'.closed.trans h.closed

theorem Turned.trans (h : Turned r i c r') (h' : Turned r' i c' r'') : Turned r i c' r'' :=
  ⟨h.toKept.trans h'.toKept, by rw [h'.contexts, h.contexts, List.set_set]⟩

theorem Turned.here (h : Turned r i c' r') (here : r.1.contexts[i]? = some c) :
    r'.1.contexts[i]? = some c' := by
  rw [h.contexts, List.getElem?_set_self (List.getElem?_eq_some_iff.mp here).1]

/-- A context looks at one segment. -/
theorem worked_look (here : r.1.contexts[i]? = some c)
    (working : c.phase = .working (segment :: rest) last) :
    ∃ c', Turned r i c' (worked r i) ∧ c'.phase = .working rest last ∧ c'.queue = c.queue := by
  obtain ⟨table, layers, hwork⟩ : ∃ table layers, worked r i =
      ({ r.1 with
        contexts := r.1.contexts.set i { c with table := table, phase := .working rest last } },
        attachAll r.2 segment.frame segment.layer layers) :=
    ⟨(c.table.process r.1.dissectors segment 0).1, (c.table.process r.1.dissectors segment 0).2,
      by simp [worked, work?, here, working]⟩
  obtain ⟨-, hclosed, hsize⟩ := attachAll_kept r.2 segment.frame segment.layer layers
  rw [hwork]
  exact ⟨_, ⟨⟨rfl, rfl, hsize, hclosed⟩, rfl⟩, rfl, rfl⟩

/-- A context reports that it is done with a batch. -/
theorem worked_report (here : r.1.contexts[i]? = some c) (working : c.phase = .working [] last) :
    ∃ c', Turned r i c' (worked r i) ∧ c'.phase = .idle ∧ c'.queue = c.queue := by
  obtain ⟨table, hwork⟩ : ∃ table, worked r i =
      ({ r.1 with
        progress := r.1.progress.finish i last
        contexts := r.1.contexts.set i
          { c with table := table, batches := c.batches + 1, phase := .idle } }, r.2) :=
    ⟨if (c.batches + 1) % r.1.sweepInterval = 0 then c.table.sweep 0 else c.table,
      by simp [worked, work?, here, working]⟩
  rw [hwork]
  exact ⟨_, ⟨⟨rfl, rfl, rfl, rfl⟩, rfl⟩, rfl, rfl⟩

/-- A context takes a batch from its queue. -/
theorem worked_pull (here : r.1.contexts[i]? = some c) (idle : c.phase = .idle)
    (items : c.queue.items = b :: bs) :
    ∃ c', Turned r i c' (worked r i) ∧ c'.phase = .working b.segments b.last ∧
      c'.queue = { c.queue with items := bs } := by
  have hpop : c.queue.popBatch 1 [] = .done ({ c.queue with items := bs }, [b]) := by
    simp [Queue.popBatch, Queue.share, items]
  have hwork : worked r i =
      ({ r.1 with
        contexts := r.1.contexts.set i
          { c with
            queue := { c.queue with items := bs }
            phase := .working b.segments b.last } }, r.2) := by
    simp [worked, work?, here, idle, hpop]
  rw [hwork]
  exact ⟨_, ⟨⟨rfl, rfl, rfl, rfl⟩, rfl⟩, rfl, rfl⟩

theorem after_append (r : StreamStage τ × Store) (turns more : List ℕ) :
    after r (turns ++ more) = after (after r turns) more := List.foldl_append

theorem after_succ (r : StreamStage τ × Store) (n i : ℕ) :
    after r (List.replicate (n + 1) i) = after (worked r i) (List.replicate n i) := by
  rw [List.replicate_succ, after, List.foldl_cons, after]

/-- A context finishes its batch. -/
theorem after_working {segments : List Segment} (here : r.1.contexts[i]? = some c)
    (working : c.phase = .working segments last) :
    ∃ c', Turned r i c' (after r (List.replicate (segments.length + 1) i)) ∧ c'.phase = .idle ∧
      c'.queue = c.queue := by
  induction segments generalizing r c with
  | nil => exact worked_report here working
  | cons segment segments ih =>
    obtain ⟨d, hlook, hworking, hqueue⟩ := worked_look here working
    obtain ⟨c', hrest, hidle, hqueue'⟩ := ih (hlook.here here) hworking
    rw [List.length_cons, after_succ]
    exact ⟨c', hlook.trans hrest, hidle, hqueue'.trans hqueue⟩

/-- A context with an empty queue leaves if the queue is closed. -/
theorem worked_rest (here : r.1.contexts[i]? = some c) (idle : c.phase = .idle)
    (empty : c.queue.items = []) :
    ∃ c', Turned r i c' (worked r i) ∧ c'.Resting ∧ c'.queue.closed = c.queue.closed := by
  cases hclosed : c.queue.closed with
  | false =>
    have hwork : worked r i = r := by
      simp [worked, work?, here, idle, Queue.popBatch_eq_blocked_iff.mpr ⟨empty, hclosed⟩]
    obtain ⟨xs, ys, hcontexts, hset⟩ := List.exists_around here
    rw [hwork]
    exact ⟨c, ⟨.refl r, hcontexts.trans (hset c).symm⟩, ⟨empty, by rw [idle, hclosed]; rfl⟩, hclosed⟩
  | true =>
    have hwork : worked r i =
        ({ r.1 with contexts := r.1.contexts.set i { c with phase := .left } }, r.2) := by
      simp [worked, work?, here, idle, Queue.popBatch_eq_closed_iff.mpr ⟨empty, hclosed⟩]
    rw [hwork]
    exact ⟨_, ⟨⟨rfl, rfl, rfl, rfl⟩, rfl⟩, ⟨empty, by rw [hclosed]; rfl⟩, hclosed⟩

/-- A context works on all that is in its queue. -/
theorem after_backlog (here : r.1.contexts[i]? = some c) (idle : c.phase = .idle) :
    ∃ c', Turned r i c' (after r (List.replicate (Pipeline.backlog c) i)) ∧ c'.Resting ∧
      c'.queue.closed = c.queue.closed := by
  induction hitems : c.queue.items generalizing r c with
  | nil =>
    rw [Pipeline.backlog, hitems]
    exact worked_rest here idle hitems
  | cons b bs ih =>
    obtain ⟨d, hpull, hworking, hqueue⟩ := worked_pull here idle hitems
    obtain ⟨e, hwork, hidle, hqueue'⟩ := after_working (hpull.here here) hworking
    have htail := hpull.trans hwork
    obtain ⟨c', hrest, hresting, hclosed⟩ := ih (htail.here here) hidle (by rw [hqueue', hqueue])
    have hbacklog : Pipeline.backlog c = b.segments.length + 1 + 1 + Pipeline.backlog e := by
      rw [Pipeline.backlog, Pipeline.backlog, hitems, hqueue', hqueue]
      rfl
    refine ⟨c', ?_, hresting, hclosed.trans (by rw [hqueue', hqueue])⟩
    rw [hbacklog, ← List.replicate_append_replicate, after_append, after_succ]
    exact htail.trans hrest

/-- All contexts from a place on finish their work, one after the other. -/
theorem after_backlogs {cs : List (StreamContext τ)} (r : StreamStage τ × Store) (place : ℕ)
    (hidle : ∀ c ∈ cs, c.phase = .idle)
    (hhere : ∀ j, r.1.contexts[place + j]? = cs[j]?) :
    let r' := after r ((cs.zipIdx place).flatMap fun (c, i) => List.replicate (Pipeline.backlog c) i)
    Kept r r' ∧ ∀ (j : ℕ) (c' : StreamContext τ), r'.1.contexts[j]? = some c' →
      (j < place ∧ r.1.contexts[j]? = some c') ∨
        (c'.Resting ∧ ∃ c ∈ cs, c'.queue.closed = c.queue.closed) := by
  induction cs generalizing r place with
  | nil =>
    refine ⟨.refl r, fun j c' hc => .inl ⟨Nat.lt_of_not_le fun hle => ?_, hc⟩⟩
    have hnone := hhere (j - place)
    rw [Nat.add_sub_cancel' hle, List.getElem?_nil] at hnone
    rw [List.zipIdx_nil, List.flatMap_nil] at hc
    cases hnone.symm.trans hc
  | cons c cs ih =>
    obtain ⟨hc, hcs⟩ := List.forall_mem_cons.mp hidle
    have here : r.1.contexts[place]? = some c := hhere 0
    obtain ⟨c', hturned, hresting, hclosed⟩ := after_backlog here hc
    obtain ⟨hkept, hcontexts⟩ := ih (after r (List.replicate (Pipeline.backlog c) place))
      (place + 1) hcs fun j => by
        rw [hturned.contexts, List.getElem?_set_ne (by omega), Nat.add_right_comm]
        exact hhere (j + 1)
    intro r'
    have hr' : r' = after (after r (List.replicate (Pipeline.backlog c) place))
        ((cs.zipIdx (place + 1)).flatMap fun (c, i) => List.replicate (Pipeline.backlog c) i) := by
      rw [← after_append]
      rfl
    rw [hr']
    refine ⟨hturned.toKept.trans hkept, fun j d hd => ?_⟩
    rcases hcontexts j d hd with ⟨hj, hd⟩ | ⟨hd, e, he, heq⟩
    · rw [hturned.contexts] at hd
      rcases List.of_getElem?_set_eq_some hd with ⟨rfl, rfl⟩ | ⟨hne, hd⟩
      · exact .inr ⟨hresting, c, List.mem_cons_self, hclosed⟩
      · exact .inl ⟨by omega, hd⟩
    · exact .inr ⟨hd, e, List.mem_cons_of_mem c he, heq⟩

/-- Those who have left take no turn. -/
theorem worked_of_left (left : ∀ c ∈ r.1.contexts, c.phase = .left) (i : ℕ) : worked r i = r := by
  cases here : r.1.contexts[i]? with
  | none => simp [worked, work?, here]
  | some c => simp [worked, work?, here, left c (List.mem_of_getElem? here)]

/-- The turns of the contexts in which they finish their work. -/
def clearing (s : StreamStage τ) : List ℕ :=
  s.contexts.zipIdx.flatMap fun (c, i) => List.replicate (Pipeline.backlog c) i

/-- A round: the feeder hands on one run of frames, and the contexts work on it. -/
def round (s : StreamStage τ) (store : Store) : StreamStage τ × Store :=
  let s := (fed store)^[2 * s.contexts.length + 2] s
  after (s, store) s.clearing

theorem round_of_left (left : s.feeder = .left) (hleft : ∀ c ∈ s.contexts, c.phase = .left) :
    s.round store = (s, store) := by
  rw [round, Function.iterate_fixed (fed_of_left left)]
  exact List.foldl_fixed' (worked_of_left (r := (s, store)) hleft) _

/-- All contexts finish their work. -/
theorem after_clearing (s : StreamStage τ) (store : Store)
    (hidle : ∀ c ∈ s.contexts, c.phase = .idle) :
    Kept (s, store) (after (s, store) s.clearing) ∧
      ∀ c' ∈ (after (s, store) s.clearing).1.contexts, c'.Resting ∧
        ∃ c ∈ s.contexts, c'.queue.closed = c.queue.closed := by
  obtain ⟨hkept, hcontexts⟩ := after_backlogs (s, store) 0 hidle fun j => by
    rw [Nat.zero_add]
  refine ⟨hkept, fun c' hc' => ?_⟩
  obtain ⟨j, hj⟩ := List.mem_iff_getElem?.mp hc'
  exact (hcontexts j c' hj).resolve_left fun h => absurd h.1 (Nat.not_lt_zero j)

/-- **A round takes some frames through the streams, or there are none and all leave.** -/
theorem Calm.round (h : s.Calm store) (closed : store.closed = true) :
    (s.round store).2.size = store.size ∧ (s.round store).2.closed = true ∧
      (((s.round store).1.Calm (s.round store).2 ∧ s.offset < (s.round store).1.offset) ∨
        ((s.round store).1.feeder = .left ∧ ∀ c ∈ (s.round store).1.contexts, c.phase = .left)) := by
  rw [StreamStage.round]
  by_cases hlt : s.offset < store.size
  · obtain ⟨hwaiting, hoffset, hle, hidle⟩ := h.iterate_fed hlt
    obtain ⟨hkept, hcontexts⟩ := after_clearing _ store fun c hc => (hidle c hc).1
    refine ⟨hkept.size, hkept.closed.trans closed,
      .inl ⟨⟨hkept.feeder.trans hwaiting, ?_, ?_, ?_⟩, ?_⟩⟩
    · rw [hkept.offset, hkept.size]
      exact hle
    · intro c' hc'
      obtain ⟨hresting, c, hc, heq⟩ := hcontexts c' hc'
      have hopen := heq.trans (hidle c hc).2
      refine ⟨?_, hopen⟩
      rw [hresting.phase, hopen]
      rfl
    · exact fun c' hc' => (hcontexts c' hc').1.empty
    · rw [hkept.offset]
      exact hoffset
  · rw [h.iterate_fed_last (Nat.le_of_not_lt hlt) closed]
    obtain ⟨hkept, hcontexts⟩ := after_clearing
      { s with
        feeder := .left
        contexts := s.contexts.map fun c => { c with queue := c.queue.close } } store fun c hc => by
      obtain ⟨d, hd, rfl⟩ := List.mem_map.mp hc
      exact (h.idle d hd).1
    refine ⟨hkept.size, hkept.closed.trans closed, .inr ⟨hkept.feeder, fun c' hc' => ?_⟩⟩
    obtain ⟨hresting, c, hc, heq⟩ := hcontexts c' hc'
    obtain ⟨d, -, rfl⟩ := List.mem_map.mp hc
    rw [hresting.phase, heq]
    rfl

end StreamStage

end PacketTree
