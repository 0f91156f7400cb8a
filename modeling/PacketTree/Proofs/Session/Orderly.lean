import PacketTree.Proofs.Dissection.Orderly
import PacketTree.Proofs.Reassembly.Orderly
import PacketTree.Proofs.Session.Determinism
import PacketTree.Analysis

/-!
# The orderly schedule

A session that is driven by one caller lets everyone take turns in a fixed order: contexts take frames
apart when the queue is full, and all work is done when the session is joined.

## What is proved

* `Pipeline.finished_drain`: after the orderly schedule all work is done, whatever the dissectors.
* `Session.exists_schedule`: a session that is driven by one caller takes all packets, and ends as it
  would after some schedule.
* `Analysis.session_agrees`: the analysis of packets ends with what the sequential reference gives.
-/

namespace PacketTree

variable {σ τ : Type}

/-! ### The whole pipeline -/

namespace Pipeline

variable {p : Pipeline σ τ} {s : StreamStage τ}

/-- Turns of the contexts that take frames apart change the pool and fill the store. -/
theorem run_dissectors (p : Pipeline σ τ) (turns : List ℕ) :
    (p.run (turns.map .dissector)).pool = p.pool.after turns ∧
      (p.run (turns.map .dissector)).streams = p.streams ∧
      (p.run (turns.map .dissector)).joining = p.joining ∧
      (p.run (turns.map .dissector)).store.closed = p.store.closed := by
  induction turns generalizing p with
  | nil => exact ⟨rfl, rfl, rfl, rfl⟩
  | cons i turns ih =>
    obtain ⟨hpool, hstreams, hjoining, hclosed⟩ := ih (p.step (.dissector i))
    have hstep : (p.step (.dissector i)).pool = p.pool.turn i ∧
        (p.step (.dissector i)).streams = p.streams ∧ (p.step (.dissector i)).joining = p.joining ∧
        (p.step (.dissector i)).store.closed = p.store.closed := by
      rw [step, Pool.turn]
      cases h : p.pool.step? i with
      | none => simp [step?, h]
      | some r =>
        obtain ⟨pool, batch⟩ := r
        cases batch <;> simp [step?, h, Store.insert]
    exact ⟨hpool.trans (by rw [hstep.1]; rfl), hstreams.trans hstep.2.1, hjoining.trans hstep.2.2.1,
      hclosed.trans hstep.2.2.2⟩

theorem run_feeder (here : p.streams = some s) (n : ℕ) :
    p.run (List.replicate n .feeder) =
      { p with streams := some ((StreamStage.fed p.store)^[n] s) } := by
  induction n generalizing p s with
  | zero =>
    rw [Function.iterate_zero_apply, ← here]
    rfl
  | succ n ih =>
    have hstep : p.step .feeder = { p with streams := some (s.fed p.store) } := by
      rw [step, StreamStage.fed]
      cases h : s.feed? p.store with
      | none =>
        have hstuck : p.step? .feeder = none := by simp [step?, here, h]
        rw [hstuck, Option.getD_none, Option.getD_none, ← here]
      | some s' => simp [step?, here, h]
    rw [List.replicate_succ, run, List.foldl_cons, hstep, Function.iterate_succ_apply]
    exact ih rfl

theorem run_streams (here : p.streams = some s) (turns : List ℕ) :
    p.run (turns.map fun i => .stream i 0) =
      { p with
        streams := some (StreamStage.after (s, p.store) turns).1
        store := (StreamStage.after (s, p.store) turns).2 } := by
  induction turns generalizing p s with
  | nil =>
    rw [StreamStage.after, List.foldl_nil, ← here]
    rfl
  | cons i turns ih =>
    have hstep : p.step (.stream i 0) =
        { p with
          streams := some (StreamStage.worked (s, p.store) i).1
          store := (StreamStage.worked (s, p.store) i).2 } := by
      rw [step, StreamStage.worked]
      cases h : s.work? p.store i 0 with
      | none =>
        have hstuck : p.step? (.stream i 0) = none := by simp [step?, here, h]
        rw [hstuck, Option.getD_none, Option.getD_none, ← here]
      | some r => simp [step?, here, h]
    rw [List.map_cons, run, List.foldl_cons, hstep]
    exact ih rfl

/-- The stage after a round. -/
theorem streamRound_eq (here : p.streams = some s) :
    p.streamRound =
      { p with streams := some (s.round p.store).1, store := (s.round p.store).2 } := by
  have hfeeder : ((p.streams.map feederTurns).getD []) =
      List.replicate (2 * s.contexts.length + 2) .feeder := by rw [here]; rfl
  have hturns : ∀ s : StreamStage τ, streamTurns s = s.clearing.map fun i => .stream i 0 := by
    intro s
    simp only [streamTurns, StreamStage.clearing, List.map_flatMap, List.map_replicate]
  rw [streamRound, hfeeder, run_feeder here]
  dsimp only
  rw [Option.map_some, Option.getD_some, hturns, run_streams rfl]
  rfl

/-- When all work is done, the streams stay as they are. -/
theorem streamRound_of_finished (h : p.Finished) : p.streamRound = p := by
  cases here : p.streams with
  | none =>
    rw [streamRound, here]
    exact congrArg (fun streams => run p ((streams.map streamTurns).getD [])) here
  | some s =>
    rw [streamRound_eq here, StreamStage.round_of_left (h.feeder s here) (h.streams s here), ← here]

theorem streamRounds_of_finished (h : p.Finished) (n : ℕ) : streamRounds n p = p := by
  induction n with
  | zero => rfl
  | succ n ih => rw [streamRounds, streamRound_of_finished h, ih]

/-- **After enough rounds all work is done.** -/
theorem finished_streamRounds {n : ℕ} (here : p.streams = some s) (h : s.Calm p.store)
    (closed : p.store.closed = true) (drained : p.pool.isDrained = true)
    (hn : p.store.size < s.offset + n) : (streamRounds n p).Finished := by
  induction n generalizing p s with
  | zero => exact absurd h.offset_le (Nat.not_le_of_lt hn)
  | succ n ih =>
    obtain ⟨hsize, hclosed, ⟨hcalm, hoffset⟩ | ⟨hfeeder, hleft⟩⟩ := h.round closed
    · rw [streamRounds, streamRound_eq here]
      refine ih rfl hcalm hclosed drained ?_
      change (s.round p.store).2.size < _
      omega
    · have hfinished : ({ p with
          streams := some (s.round p.store).1
          store := (s.round p.store).2 } : Pipeline σ τ).Finished := by
        refine ⟨drained, hclosed, fun stage hstage => ?_, fun stage hstage => ?_⟩
        · rw [← Option.some.inj hstage]
          exact hfeeder
        · rw [← Option.some.inj hstage]
          exact hleft
      rw [streamRounds, streamRound_eq here, streamRounds_of_finished hfinished]
      exact hfinished

theorem poolTurns_eq (p : Pipeline σ τ) : p.poolTurns = p.pool.clearing.map .dissector := by
  rw [Pool.clearing, List.map_append, List.map_flatMap, List.flatMap_map]
  rfl

/-- **After the orderly schedule all work is done.** -/
theorem finished_drain (h : p.pool.Resting) (hpos : 0 < p.pool.contexts.length)
    (hclosed : p.pool.queue.closed = true) (hjoining : p.joining = true)
    (hopen : p.store.closed = false) (hcalm : ∀ s ∈ p.streams, s.offset = 0 ∧ s.Calm p.store) :
    p.drain.Finished := by
  obtain ⟨hpool, hstreams, hjoining', hopen'⟩ := p.run_dissectors p.pool.clearing
  rw [← poolTurns_eq] at hpool hstreams hjoining' hopen'
  have hdrained : (p.run p.poolTurns).pool.isDrained = true := hpool ▸ h.drained hpos hclosed
  have hjoin : p.run (p.poolTurns ++ [.joiner]) =
      { p.run p.poolTurns with store := (p.run p.poolTurns).store.close } := by
    have hlast : p.run (p.poolTurns ++ [.joiner]) = (p.run p.poolTurns).step .joiner :=
      List.foldl_append
    have hready : ((p.run p.poolTurns).joining && (p.run p.poolTurns).pool.isDrained &&
        !(p.run p.poolTurns).store.closed) = true := by
      rw [hjoining', hjoining, hdrained, hopen', hopen]
      rfl
    rw [hlast, step, step?, if_pos hready]
    rfl
  rw [drain, hjoin]
  cases here : p.streams with
  | none =>
    have hnone := hstreams.trans here
    have hfinished : ({ p.run p.poolTurns with
        store := (p.run p.poolTurns).store.close } : Pipeline σ τ).Finished := by
      refine ⟨hdrained, rfl, fun stage hstage => ?_, fun stage hstage => ?_⟩
      · cases hnone.symm.trans hstage
      · cases hnone.symm.trans hstage
    dsimp only
    rw [streamRounds_of_finished hfinished]
    exact hfinished
  | some s =>
    obtain ⟨hoffset, hs⟩ := hcalm s here
    refine finished_streamRounds (hstreams.trans here) ⟨hs.waiting, ?_, hs.idle, hs.empty⟩ rfl
      hdrained ?_
    · rw [hoffset]
      exact Nat.zero_le _
    · rw [hoffset, Nat.zero_add]
      exact Nat.lt_succ_self _

/-! ### Making room -/

theorem foldl_of_hasSpace (h : p.hasSpace = true) (round : ℕ) (places : List ℕ) :
    places.foldl (fun p k => if p.hasSpace then p else p.run (p.batchTurns (round + k))) p = p := by
  induction places with
  | nil => rfl
  | cons k places ih => rw [List.foldl_cons, if_pos h, ih]

/-- With room in the queue nothing is done, -/
theorem makeRoom_of_hasSpace (h : p.hasSpace = true) (round : ℕ) : p.makeRoom round = p :=
  foldl_of_hasSpace h round _

/-- and one batch is taken apart if that is enough. -/
theorem makeRoom_eq_run {round : ℕ} (hpos : 0 < p.pool.contexts.length)
    (hfull : ¬p.hasSpace = true) (h : (p.run (p.batchTurns round)).hasSpace = true) :
    p.makeRoom round = p.run (p.batchTurns round) := by
  obtain ⟨n, hn⟩ := Nat.exists_eq_succ_of_ne_zero hpos.ne'
  rw [makeRoom, hn, List.range_succ_eq_map, List.foldl_cons, if_neg hfull, Nat.add_zero,
    foldl_of_hasSpace h]

/-- To make room is to let contexts take turns. -/
theorem exists_run_makeRoom (p : Pipeline σ τ) (round : ℕ) :
    ∃ turns : List ℕ, p.run (turns.map .dissector) = p.makeRoom round := by
  rw [makeRoom]
  generalize List.range p.pool.contexts.length = places
  induction places generalizing p with
  | nil => exact ⟨[], rfl⟩
  | cons k places ih =>
    rw [List.foldl_cons]
    split
    · exact ih p
    · obtain ⟨turns, hturns⟩ := ih (p.run (p.batchTurns (round + k)))
      let i := (round + k) % p.pool.contexts.length
      refine ⟨[i, i, i] ++ turns, ?_⟩
      rw [List.map_append, ← hturns]
      exact List.foldl_append

/-- A round is made of turns in which the clock stands still, -/
theorem exists_run_streamRound (p : Pipeline σ τ) :
    ∃ turns, (∀ i now, .stream i now ∈ turns → now = 0) ∧ p.run turns = p.streamRound := by
  refine ⟨(p.streams.map feederTurns).getD [] ++
    ((p.run ((p.streams.map feederTurns).getD [])).streams.map streamTurns).getD [],
    fun i now hmem => ?_, List.foldl_append⟩
  rcases List.mem_append.mp hmem with hmem | hmem
  · generalize p.streams = streams at hmem
    cases streams with
    | none => cases hmem
    | some s => cases List.eq_of_mem_replicate hmem
  · generalize (p.run ((p.streams.map feederTurns).getD [])).streams = streams at hmem
    cases streams with
    | none => cases hmem
    | some s =>
      obtain ⟨⟨c, j⟩, -, hmem⟩ := List.mem_flatMap.mp hmem
      cases List.eq_of_mem_replicate hmem
      rfl

/-- and so are some rounds, -/
theorem exists_run_streamRounds (n : ℕ) (p : Pipeline σ τ) :
    ∃ turns, (∀ i now, .stream i now ∈ turns → now = 0) ∧ p.run turns = p.streamRounds n := by
  induction n generalizing p with
  | zero => exact ⟨[], fun i now hmem => absurd hmem List.not_mem_nil, rfl⟩
  | succ n ih =>
    obtain ⟨turns, hstill, hrun⟩ := p.exists_run_streamRound
    obtain ⟨more, hstill', hrun'⟩ := ih p.streamRound
    refine ⟨turns ++ more, fun i now hmem => ?_, ?_⟩
    · rcases List.mem_append.mp hmem with hmem | hmem
      · exact hstill i now hmem
      · exact hstill' i now hmem
    · rw [streamRounds, ← hrun', ← hrun]
      exact List.foldl_append

/-- and the orderly schedule. -/
theorem exists_run_drain (p : Pipeline σ τ) :
    ∃ turns, (∀ i now, .stream i now ∈ turns → now = 0) ∧ p.run turns = p.drain := by
  obtain ⟨more, hstill, hrun⟩ := (p.run (p.poolTurns ++ [.joiner])).exists_run_streamRounds
    ((p.run (p.poolTurns ++ [.joiner])).store.size + 1)
  refine ⟨p.poolTurns ++ [.joiner] ++ more, fun i now hmem => ?_, ?_⟩
  · rcases List.mem_append.mp hmem with hmem | hmem
    · rw [poolTurns_eq, List.mem_append, List.mem_map, List.mem_singleton] at hmem
      obtain ⟨j, -, heq⟩ | heq := hmem
      · cases heq
      · cases heq
    · exact hstill i now hmem
  · rw [drain, ← hrun]
    exact List.foldl_append

end Pipeline

/-! ### The schedule of a session -/

namespace Traffic

/-- Some turns, in which the clock stands still, lead from one state to another. -/
def Leads (t t' : Traffic σ τ) : Prop :=
  ∃ schedule : List Party, (∀ i now, .actor (.stream i now) ∈ schedule → now = 0) ∧
    t.run schedule = t'

variable {t t' t'' : Traffic σ τ}

theorem Leads.refl (t : Traffic σ τ) : t.Leads t := ⟨[], fun _ _ h => absurd h List.not_mem_nil, rfl⟩

theorem Leads.trans (h : t.Leads t') (h' : t'.Leads t'') : t.Leads t'' := by
  obtain ⟨schedule, hstill, rfl⟩ := h
  obtain ⟨schedule', hstill', rfl⟩ := h'
  refine ⟨schedule ++ schedule', fun i now hmem => ?_, List.foldl_append⟩
  rcases List.mem_append.mp hmem with hmem | hmem
  · exact hstill i now hmem
  · exact hstill' i now hmem

/-- The producer takes a turn. -/
theorem Leads.produce (h : t.produce? = some t') : t.Leads t' := by
  refine ⟨[.producer], fun i now hmem => ?_, ?_⟩
  · cases List.mem_singleton.mp hmem
  · rw [run, List.foldl_cons, List.foldl_nil, step, step?, h, Option.getD_some]

/-- Those who work in the pipeline take turns. -/
theorem Leads.actors {schedule : List Actor} (hstill : ∀ i now, .stream i now ∈ schedule → now = 0)
    (upcoming : List Frame) (p : Pipeline σ τ) : Leads ⟨upcoming, p⟩ ⟨upcoming, p.run schedule⟩ := by
  refine ⟨schedule.map .actor, fun i now hmem => ?_, ?_⟩
  · obtain ⟨a, ha, heq⟩ := List.mem_map.mp hmem
    cases heq
    exact hstill i now ha
  · clear hstill
    induction schedule generalizing p with
    | nil => rfl
    | cons a schedule ih =>
      have hstep : step ⟨upcoming, p⟩ (.actor a) = ⟨upcoming, p.step a⟩ := by
        rw [step, Pipeline.step, step?]
        cases p.step? a <;> rfl
      rw [List.map_cons, run, List.foldl_cons, hstep]
      exact ih (p.step a)

/-- Turns of the contexts that take frames apart. -/
theorem Leads.dissectors (turns : List ℕ) (upcoming : List Frame) (p : Pipeline σ τ) :
    Leads ⟨upcoming, p⟩ ⟨upcoming, p.run (turns.map .dissector)⟩ :=
  .actors (fun i now hmem => by
    obtain ⟨j, -, heq⟩ := List.mem_map.mp hmem
    cases heq) upcoming p

/-- The orderly schedule lets everyone finish. -/
theorem Leads.drain (upcoming : List Frame) (p : Pipeline σ τ) :
    Leads ⟨upcoming, p⟩ ⟨upcoming, p.drain⟩ := by
  obtain ⟨turns, hstill, hrun⟩ := p.exists_run_drain
  exact hrun ▸ .actors hstill upcoming p

end Traffic

namespace Session

/-- The dissectors of the session come to an end with every frame. -/
def AlwaysEnds (s : Session σ τ) : Prop :=
  Dissection.AlwaysEnds s.settings.threshold.clampUnit s.dissectors

/-- A pipeline that took packets and did nothing else than to make room for them. -/
structure Filling (s : Session σ τ) (p : Pipeline σ τ) : Prop where
  /-- The contexts that take frames apart rest. -/
  resting : p.pool.Resting
  /-- There are some. -/
  contexts_pos : 0 < p.pool.contexts.length
  /-- Packets are taken. -/
  isOpen : p.pool.queue.closed = false
  /-- Nobody waits for the pipeline to finish. -/
  joining : p.joining = false
  /-- Frames are stored. -/
  stored : p.store.closed = false
  /-- No stream was looked at. -/
  streams : p.streams = s.pipeline.streams

variable {s : Session σ τ} {p : Pipeline σ τ} {packet : Packet} {upcoming : List Frame}

theorem filling_pipeline (hfits : Memory.Fits s.settings.batchSize.toNat Pool.frameBytes)
    (hends : s.AlwaysEnds) : s.Filling s.pipeline where
  resting :=
    { room := hfits
      ends := fun c hc => by
        rw [List.eq_of_mem_replicate hc, Dissection.map_dissector_worker]
        exact hends
      size_le := Nat.zero_le _
      phase := fun c hc => .inl (by rw [List.eq_of_mem_replicate hc]) }
  contexts_pos := by simp [pipeline, Pool.create]
  isOpen := rfl
  joining := rfl
  stored := rfl
  streams := rfl

/-- Making room leaves room. -/
theorem Filling.makeRoom (h : s.Filling p) (round : ℕ) (upcoming : List Frame) :
    s.Filling (p.makeRoom round) ∧
      (p.makeRoom round).pool.queue.size < (p.makeRoom round).pool.queue.limit ∧
      Traffic.Leads ⟨upcoming, p⟩ ⟨upcoming, p.makeRoom round⟩ := by
  by_cases hspace : p.hasSpace = true
  · rw [Pipeline.makeRoom_of_hasSpace hspace]
    exact ⟨h, of_decide_eq_true hspace, .refl _⟩
  · let i := round % p.pool.contexts.length
    obtain ⟨hpool, hstreams, hjoining, hstored⟩ := p.run_dissectors [i, i, i]
    obtain ⟨hrested, hsize⟩ := h.resting.after_batch (Nat.mod_lt round h.contexts_pos)
    rw [← hpool] at hrested hsize
    have hroom : (p.run (p.batchTurns round)).pool.queue.size <
        (p.run (p.batchTurns round)).pool.queue.limit := by
      have hlimit := p.pool.queue.limit_pos
      have hle := h.resting.size_le
      exact (Nat.lt_of_le_of_lt hsize (by omega)).trans_le hrested.limit.ge
    rw [Pipeline.makeRoom_eq_run h.contexts_pos hspace (decide_eq_true hroom)]
    refine ⟨⟨hrested.resting, ?_, ?_, ?_, ?_, ?_⟩, hroom, .dissectors [i, i, i] upcoming p⟩
    · exact hrested.length.ge.trans_lt' h.contexts_pos
    · exact hrested.closed.trans h.isOpen
    · exact hjoining.trans h.joining
    · exact hstored.trans h.stored
    · exact hstreams.trans h.streams

/-- A packet is taken, and its frame is the next one in the queue. -/
theorem Filling.push (h : s.Filling p) {k : ℕ} (hk : k + 1 + 1 < UInt32.size) (packet : Packet)
    (upcoming : List Frame) :
    ∃ p', push { s with pushed := k, stage := .running p } packet =
        some (.ok (k + 1, { s with pushed := k + 1, stage := .running p' })) ∧ s.Filling p' ∧
      Traffic.Leads ⟨s.frameOf (k + 1) packet :: upcoming, p⟩ ⟨upcoming, p'⟩ := by
  obtain ⟨hfilling, hroom, hleads⟩ := h.makeRoom k (s.frameOf (k + 1) packet :: upcoming)
  let queue : Queue Frame := { (p.makeRoom k).pool.queue with
    items := (p.makeRoom k).pool.queue.items ++ [s.frameOf (k + 1) packet] }
  have hqueue : (p.makeRoom k).pool.queue.push (s.frameOf (k + 1) packet) = .done queue :=
    Queue.push_eq_done_iff.mpr ⟨hfilling.isOpen, hroom, rfl⟩
  have hpush : (p.makeRoom k).pool.push (s.frameOf (k + 1) packet) =
      .done { (p.makeRoom k).pool with queue := queue } := by
    rw [Pool.push, hqueue]
  have hproduce : Traffic.produce? ⟨s.frameOf (k + 1) packet :: upcoming, p.makeRoom k⟩ =
      some ⟨upcoming, { p.makeRoom k with pool := { (p.makeRoom k).pool with queue := queue } }⟩ := by
    simp only [Traffic.produce?, hpush]
    exact if_pos hk
  refine ⟨{ p.makeRoom k with pool := { (p.makeRoom k).pool with queue := queue } }, ?_, ?_,
    hleads.trans (.produce hproduce)⟩
  · rw [Session.push]
    dsimp only
    rw [if_pos hk, show (p.makeRoom k).pool.push
      (frameOf { s with pushed := k, stage := .running p } (k + 1) packet) = _ from hpush]
  · refine
      ⟨{ hfilling.resting with
          size_le := Queue.size_le_limit_of_push_eq_done hqueue
          phase := fun c hc => ?_ },
        hfilling.contexts_pos, hfilling.isOpen, hfilling.joining, hfilling.stored, hfilling.streams⟩
    refine .inl ((hfilling.resting.phase c hc).resolve_right fun hleft => ?_)
    rw [hfilling.isOpen] at hleft
    cases hleft.2.2

/-- All packets are taken, as long as there are numbers for them. -/
theorem Filling.pushAll (h : s.Filling p) {k : ℕ} {packets : List Packet}
    (hk : k + packets.length + 1 < UInt32.size) :
    ∃ p', Analysis.pushAll { s with pushed := k, stage := .running p } packets =
        some (.ok { s with pushed := k + packets.length, stage := .running p' }) ∧ s.Filling p' ∧
      Traffic.Leads ⟨packets.mapIdx fun i packet => s.frameOf (k + i + 1) packet, p⟩ ⟨[], p'⟩ := by
  induction packets generalizing k p with
  | nil => exact ⟨p, rfl, h, .refl _⟩
  | cons packet packets ih =>
    rw [List.length_cons, Nat.add_comm packets.length, ← Nat.add_assoc] at hk
    have hnext : k + 1 + 1 < UInt32.size := (Nat.succ_le_succ (Nat.le_add_right _ _)).trans_lt hk
    obtain ⟨q, hpush, hfilling, hleads⟩ := h.push hnext packet
      (packets.mapIdx fun i packet => s.frameOf (k + 1 + i + 1) packet)
    obtain ⟨p', hpushAll, hfilling', hleads'⟩ := ih hfilling hk
    refine ⟨p', ?_, hfilling', ?_⟩
    · rw [Analysis.pushAll, hpush, List.length_cons, Nat.add_comm packets.length, ← Nat.add_assoc]
      exact hpushAll
    · rw [List.mapIdx_cons]
      simp only [Nat.add_right_comm k 1] at hleads hleads'
      exact hleads.trans hleads'

/-- The streams of a session at its start are calm. -/
theorem calm_pipeline {stage : StreamStage τ} (here : s.pipeline.streams = some stage)
    (store : Store) :
    stage.offset = 0 ∧ stage.Calm store := by
  rw [pipeline] at here
  split at here
  · cases here
  · cases here
    have hcontext : ∀ c ∈ (StreamStage.create s.streamDissectors
        (Settings.contexts s.settings.streamConcurrency s.machine) s.settings.batchSize.toNat
        s.settings.queueCapacity.toNat s.settings.sweepInterval.toNat).contexts,
        c = { queue := .ofCapacity s.settings.queueCapacity.toNat } :=
      fun c hc => List.eq_of_mem_replicate hc
    refine ⟨rfl, rfl, Nat.zero_le _, fun c hc => ?_, fun c hc => ?_⟩
    · rw [hcontext c hc]
      exact ⟨rfl, rfl⟩
    · rw [hcontext c hc]
      rfl

/-- When the session is joined, all work is done. -/
theorem Filling.join (h : s.Filling p) :
    Traffic.Leads ⟨[], p⟩
        ⟨[], ({ p with pool := p.pool.close, joining := true } : Pipeline σ τ).drain⟩ ∧
      ({ p with pool := p.pool.close, joining := true } : Pipeline σ τ).drain.Finished := by
  have hclose : Traffic.produce? ⟨[], p⟩ = some ⟨[], { p with pool := p.pool.close }⟩ := by
    simp only [Traffic.produce?, h.isOpen, if_true]
  have hjoin : Traffic.produce? (⟨[], { p with pool := p.pool.close }⟩ : Traffic σ τ) =
      some ⟨[], { p with pool := p.pool.close, joining := true }⟩ := by
    simp [Traffic.produce?, Pool.close, Queue.close, h.joining]
  refine ⟨((Traffic.Leads.produce hclose).trans (.produce hjoin)).trans (.drain _ _),
    Pipeline.finished_drain { h.resting with phase := fun c hc => ?_ } h.contexts_pos rfl rfl h.stored
      fun stage hstage => calm_pipeline (h.streams ▸ hstage) p.store⟩
  refine .inl ((h.resting.phase c hc).resolve_right fun hleft => ?_)
  rw [h.isOpen] at hleft
  cases hleft.2.2

/-- **A session that is driven by one caller takes all packets and ends**, as it would after some
schedule, if there is room for a batch, if there are numbers for the packets and if the dissectors come
to an end with them. -/
theorem exists_schedule (hfits : Memory.Fits s.settings.batchSize.toNat Pool.frameBytes)
    (hends : s.AlwaysEnds) (hnew : s.pushed = 0) {packets : List Packet}
    (hcount : packets.length + 1 < UInt32.size) :
    ∃ s' schedule,
      Analysis.pushAll { s with stage := .running s.pipeline } packets = some (.ok s') ∧
      s'.join = some (s.joinedAfter packets schedule) ∧
      ((s.traffic packets).run schedule).pipeline.Finished ∧
      ∀ i now, .actor (.stream i now) ∈ schedule → now = 0 := by
  obtain ⟨p, hpushAll, hfilling, hpush⟩ :=
    (filling_pipeline hfits hends).pushAll (k := 0) (by rwa [Nat.zero_add])
  obtain ⟨hjoin, hfinished⟩ := hfilling.join
  obtain ⟨schedule, hstill, hrun⟩ := hpush.trans hjoin
  have htraffic : (s.traffic packets).run schedule =
      ⟨[], ({ p with pool := p.pool.close, joining := true } : Pipeline σ τ).drain⟩ := by
    rw [← hrun, traffic, framesOf]
    simp only [Nat.zero_add]
  refine ⟨{ s with pushed := packets.length, stage := .running p }, schedule, ?_, ?_, ?_, hstill⟩
  · rw [Nat.zero_add] at hpushAll
    rw [hnew]
    exact hpushAll
  · rw [joinedAfter, htraffic]
    exact if_pos (Pipeline.isFinished_iff.mpr hfinished)
  · rw [htraffic]
    exact hfinished

end Session

/-- **The analysis of packets ends with what taking apart one packet after the other gives**, unless
streams are given up at once, if there is room for the queues and for a batch and if there are numbers
for the packets. -/
theorem Analysis.session_agrees (a : Analysis) {packets : List Packet}
    (hstart : (Session.standard a.settings a.machine).CanStart)
    (hfits : Memory.Fits a.settings.batchSize.toNat Pool.frameBytes)
    (hcount : packets.length + 1 < UInt32.size) (htimeout : 0 < a.settings.idleTimeout) :
    ∃ s, a.session packets = some (.ok s) ∧
      s.Agrees (TcpStream.dissector a.settings.idleTimeout a.settings.midstream)
        (((Session.standard a.settings a.machine).framesOf packets).map
          (alone a.settings.threshold.clampUnit (Protocol.builtin ()))) := by
  have hends : (Session.standard a.settings a.machine).AlwaysEnds :=
    Protocol.alwaysEnds_builtin _ ()
  obtain ⟨s, schedule, hpush, hjoin, hfinished, hstill⟩ :=
    Session.exists_schedule (s := Session.standard a.settings a.machine) hfits hends rfl hcount
  refine ⟨_, ?_, Session.agrees_joinedAfter hfits (Session.keepsAll_of_lt hfits fun i now hmem => ?_)
    hfinished⟩
  · have hrun : (Session.standard a.settings a.machine).start =
        some (.ok { Session.standard a.settings a.machine with
          stage := .running (Session.standard a.settings a.machine).pipeline }) := if_pos hstart
    simp [Analysis.session, hrun, hpush, hjoin]
  · rw [hstill i now hmem]
    exact htimeout

end PacketTree
