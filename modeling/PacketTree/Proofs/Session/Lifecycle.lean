import PacketTree.Proofs.Session.Counting

/-!
# The life of a session

A session is set up, started, given packets, closed and joined, and may be asked for any of this at any
time, by a caller who does not know how far it is. Those who work for it take turns meanwhile, in any
order.

## What is proved

* `Stands.does`: what can come of a call, by the calls before it.
* `Run.replay`: what one caller makes of a session, with the orderly schedule, is one of its runs.
* `lifecycle`: what every call of every run is answered, that a call that is refused leaves no trace,
  and that all packets are counted in the end.
* `not_lifecycle`: to close a session that was not started yet does not close it, and without room,
  numbers and dissectors that come to an end not every call is answered and not every packet counted.

## The model

`ask` makes a call with the session's own operations. A `Run` is a log of calls and answers with any
turns between the calls. To join a session is to let everyone take turns, in any order, until all work
is done. A call can have no answer: there is no room, no number is left, or the caller waits for a
dissection that never ends.
-/

namespace PacketTree

open scoped List

variable {σ τ : Type}

namespace Session

/-! ### Calls -/

/-- What a session can be asked for. -/
inductive Call (σ τ : Type) where
  /-- To register a packet dissector. -/
  | register (d : Dissector σ)
  /-- To register a stream dissector. -/
  | registerStream (d : StreamDissector τ)
  /-- To register a listener. -/
  | listen
  /-- To start. -/
  | start
  /-- To take a packet. -/
  | push (packet : Packet)
  /-- To take no more packets. -/
  | close
  /-- To take no more packets, and to wait until all work is done. -/
  | join

/-- The call sets up or starts a session. -/
def Call.IsSetUp : Call σ τ → Prop
  | .register _ | .registerStream _ | .listen | .start => True
  | _ => False

/-- What the caller is told: nothing, the number of the packet, or why the call is refused. -/
abbrev Answer := Except SessionError (Option ℕ)

/-- The answer, and the session that comes of a call; one that refuses a call stays as it was. -/
def settle (s : Session σ τ) : Except SessionError (Option ℕ × Session σ τ) → Answer × Session σ τ
  | .ok (n, s') => (.ok n, s')
  | .error e => (.error e, s)

/-- Makes a call; `none` if it has no answer. -/
def ask (s : Session σ τ) : Call σ τ → Option (Answer × Session σ τ)
  | .register d => some (s.settle ((s.register d).map (none, ·)))
  | .registerStream d => some (s.settle ((s.registerStream d).map (none, ·)))
  | .listen => some (s.settle (s.listen.map (none, ·)))
  | .start => s.start.map fun r => s.settle (r.map (none, ·))
  | .push packet => (s.push packet).map fun r => s.settle (r.map fun r => (some r.1, r.2))
  | .close => some (.ok none, s.close)
  | .join => s.join.map fun s => (.ok none, s)

/-- Some calls of one caller with their answers, and the session after them; `none` if one of them has
no answer. -/
def replay (s : Session σ τ) : List (Call σ τ) → Option (List (Call σ τ × Answer) × Session σ τ)
  | [] => some ([], s)
  | c :: calls => do
    let (answer, s) ← s.ask c
    let (log, s) ← s.replay calls
    return ((c, answer) :: log, s)

/-! ### Runs -/

/-- A turn of someone who works for the session. -/
def turn (s : Session σ τ) (a : Actor) : Session σ τ :=
  match s.stage with
  | .running p => { s with stage := .running (p.step a) }
  | _ => s

/-- What can come of joining a session: everyone takes turns, in any order, until all work is done. -/
def Joins (s s' : Session σ τ) : Prop :=
  match s.stage with
  | .running p => ∃ turns, (p.shut.run turns).Finished ∧
      s' = { s with stage := .finished (p.shut.run turns) }
  | _ => s' = s

/-- What can come of a call. -/
inductive Does (s : Session σ τ) : Call σ τ → Answer → Session σ τ → Prop where
  /-- The session does what it is asked for. -/
  | ask {c : Call σ τ} {answer : Answer} {s' : Session σ τ} (hc : c ≠ .join)
      (asked : s.ask c = some (answer, s')) : Does s c answer s'
  /-- The caller waits. -/
  | join {s' : Session σ τ} (waits : s.Joins s') : Does s .join (.ok none) s'

/-- What can come of a session: calls with their answers, and turns between them. -/
inductive Run (s₀ : Session σ τ) : List (Call σ τ × Answer) → Session σ τ → Prop where
  /-- Nothing has happened. -/
  | new : Run s₀ [] s₀
  /-- Someone takes a turn. -/
  | turn {log : List (Call σ τ × Answer)} {s : Session σ τ} (before : Run s₀ log s) (a : Actor) :
      Run s₀ log (s.turn a)
  /-- A call is made. -/
  | call {log : List (Call σ τ × Answer)} {s s' : Session σ τ} {c : Call σ τ} {answer : Answer}
      (before : Run s₀ log s) (does : s.Does c answer s') : Run s₀ (log ++ [(c, answer)]) s'

/-! ### What is to be shown -/

/-- A session that was not used. Anything may be registered. -/
structure IsNew (s : Session σ τ) : Prop where
  /-- It was not started, -/
  created : s.stage = .created
  /-- and took no packet. -/
  pushed : s.pushed = 0

/-- The session was closed or joined after it was started. -/
def Ended (calls : List (Call σ τ)) : Prop := [.start, .close] <+ calls ∨ [.start, .join] <+ calls

/-- There is room for a batch of frames. -/
def FitsBatch (s : Session σ τ) : Prop := Memory.Fits s.settings.batchSize.toNat Pool.frameBytes

/-- There is room for all queues and contexts of the session, and for its batches. -/
structure HasRoom (s : Session σ τ) : Prop where
  /-- There is room where frames are taken apart, -/
  pool : Memory.FitsStage Pool.slotBytes (Settings.contexts s.settings.concurrency s.machine)
    s.settings.queueCapacity.toNat
  /-- where streams are worked on, -/
  streams : Memory.FitsStage StreamStage.slotBytes
    (Settings.contexts s.settings.streamConcurrency s.machine) s.settings.queueCapacity.toNat
  /-- and for a batch. -/
  batch : s.FitsBatch

/-- The numbers of the packets that were taken. -/
def taken (log : List (Call σ τ × Answer)) : List ℕ := log.filterMap fun e => e.2.toOption.join

/-- What has to hold of a session after the calls and answers of a log. -/
structure Lawful (s₀ : Session σ τ) (log : List (Call σ τ × Answer)) (s : Session σ τ) : Prop where
  /-- A session is set up and started if it was never started, -/
  setUp : ∀ c answer s', c.IsSetUp → s.Does c answer s' → .start ∉ log.map Prod.fst →
    answer = .ok none
  /-- and not afterwards. -/
  setUp_started : ∀ c answer s', c.IsSetUp → s.Does c answer s' → .start ∈ log.map Prod.fst →
    answer = .error .alreadyStarted
  /-- It takes no packets before it is started, -/
  push_new : ∀ packet answer s', s.Does (.push packet) answer s' → .start ∉ log.map Prod.fst →
    answer = .error .notStarted
  /-- nor after it was closed or joined, -/
  push_ended : ∀ packet answer s', s.Does (.push packet) answer s' → Ended (log.map Prod.fst) →
    answer = .error .closed
  /-- and gives the next number to each packet otherwise. -/
  push : ∀ packet answer s', s.Does (.push packet) answer s' → .start ∈ log.map Prod.fst →
    ¬Ended (log.map Prod.fst) → answer = .ok (some ((taken log).length + 1))
  /-- The numbers are one, two, three and so on. -/
  numbers : taken log = List.range' 1 s.pushed
  /-- A call that is refused changes nothing, -/
  refused : ∀ c e s', s.Does c (.error e) s' → s' = s
  /-- and all is as if such calls had not been made. -/
  forgotten : Run s₀ (log.filter fun e => e.2.isOk) s
  /-- To close or join a session before it is started changes nothing, -/
  idle_new : ∀ c answer s', c = .close ∨ c = .join → s.Does c answer s' →
    .start ∉ log.map Prod.fst → s' = s
  /-- nor does anything after it was joined. -/
  idle_joined : ∀ c answer s', s.Does c answer s' → [.start, .join] <+ log.map Prod.fst → s' = s
  /-- Then every packet was counted, if there was room for batches. -/
  counts : s.FitsBatch → [.start, .join] <+ log.map Prod.fst →
    s.store.size = (taken log).length ∧ s.pushed = (taken log).length ∧
      s.safeIndex = (taken log).length ∧ s.streamSafeIndex = (taken log).length
  /-- With enough room, a number for one packet more, and dissectors that come to an end, every call comes
  to its end, -/
  answered : s.HasRoom → s.AlwaysEnds → (taken log).length + 2 < UInt32.size →
    ∀ c, ∃ answer s', s.Does c answer s'
  /-- and so does waiting, whatever turns were taken. -/
  waits : s.FitsBatch → s.AlwaysEnds → ∀ p, s.stage = .running p →
    ∀ turns, ∃ more, (p.shut.run (turns ++ more)).Finished

variable {s₀ s s' : Session σ τ} {log : List (Call σ τ × Answer)} {calls : List (Call σ τ)}
  {c : Call σ τ} {answer : Answer} {p : Pipeline σ τ} {packet : Packet} {n : ℕ}

/-! ### The log -/

theorem taken_concat (log : List (Call σ τ × Answer)) (e : Call σ τ × Answer) :
    taken (log ++ [e]) = taken log ++ e.2.toOption.join.toList := by
  rw [taken, List.filterMap_append, taken, List.filterMap_cons]
  cases e.2.toOption.join <;> rfl

/-- One call comes after another in a log that goes on with a call. -/
theorem pair_sublist_concat {a b : Call σ τ} :
    [a, b] <+ calls ++ [c] ↔ [a, b] <+ calls ∨ (a ∈ calls ∧ b = c) := by
  have hreverse : [b, a] <+ calls.reverse ↔ [a, b] <+ calls :=
    @List.reverse_sublist _ [a, b] calls
  rw [← List.reverse_sublist]
  simp [List.sublist_cons_iff, hreverse, and_comm]

/-! ### What is refused -/

/-- A session that was not started can be set up or started. -/
theorem ask_setUp_of_created (hc : c.IsSetUp) (here : s.stage = .created)
    (asked : s.ask c = some (answer, s')) :
    answer = .ok none ∧ s'.pushed = s.pushed ∧
      ((c ≠ .start ∧ s'.stage = .created) ∨
        (c = .start ∧ s' = { s with stage := .running s.pipeline })) := by
  have hsetUp : ∀ change : Session σ τ → Session σ τ,
      s.settle ((s.setUp change).map (none, ·)) = (.ok none, change s) := fun change => by
    rw [setUp, isFresh, here]
    rfl
  cases c with
  | register | registerStream | listen =>
    obtain ⟨rfl, rfl⟩ := Prod.mk.inj ((hsetUp _).symm.trans (Option.some.inj asked))
    exact ⟨rfl, rfl, .inl ⟨by simp, here⟩⟩
  | start =>
    obtain ⟨r, hr, hsettle⟩ := Option.map_eq_some_iff.mp asked
    simp only [start, isFresh, here, if_true] at hr
    split at hr <;> cases hr
    cases hsettle
    exact ⟨rfl, rfl, .inr ⟨rfl, rfl⟩⟩
  | push | close | join => exact hc.elim

/-- A session that was started is not set up or started again. -/
theorem ask_setUp_of_ne_created (hc : c.IsSetUp) (hne : s.stage ≠ .created) :
    s.ask c = some (.error .alreadyStarted, s) := by
  have hfresh : s.isFresh = false := by
    rw [isFresh]
    cases here : s.stage with
    | created => exact absurd here hne
    | running p | finished p => rfl
  have hsetUp : ∀ change : Session σ τ → Session σ τ,
      s.settle ((s.setUp change).map (none, ·)) = (.error .alreadyStarted, s) := fun change => by
    rw [setUp, hfresh]
    rfl
  cases c with
  | register | registerStream | listen => exact congrArg some (hsetUp _)
  | start =>
    rw [ask, start, hfresh]
    rfl
  | push | close | join => exact hc.elim

theorem settle_of_error {r : Except SessionError (Option ℕ × Session σ τ)} {e : SessionError}
    (h : (s.settle r).1 = .error e) : (s.settle r).2 = s := by
  cases r with
  | ok => cases h
  | error => rfl

/-- A call that is refused changes nothing. -/
theorem eq_of_ask_error {e : SessionError} (h : s.ask c = some (.error e, s')) : s' = s := by
  cases c with
  | register | registerStream | listen =>
    have hr := Option.some.inj h
    have hsame := settle_of_error (congrArg Prod.fst hr)
    rwa [hr] at hsame
  | start | push =>
    obtain ⟨r, -, hr⟩ := Option.map_eq_some_iff.mp h
    have hsame := settle_of_error (congrArg Prod.fst hr)
    rwa [hr] at hsame
  | close | join => simp [ask] at h

/-! ### Packets -/

/-- What a session at work answers to a packet: it is closed, or takes the packet as the next one. -/
theorem push_cases (here : s.stage = .running p) {r : Except SessionError (ℕ × Session σ τ)}
    (h : s.push packet = some r) :
    (p.pool.queue.closed = true ∧ r = .error .closed) ∨
      p.pool.queue.closed = false ∧ s.pushed + 2 < UInt32.size ∧ ∃ pool : Pool σ,
        (p.makeRoom s.pushed).pool.push (s.frameOf (s.pushed + 1) packet) = .done pool ∧
        r = .ok (s.pushed + 1,
          { s with
            pushed := s.pushed + 1
            stage := .running { p.makeRoom s.pushed with pool := pool } }) := by
  obtain ⟨hclosed, -⟩ := p.makeRoom_same s.pushed
  rw [push, here] at h
  dsimp only at h
  split at h
  · next hnumber =>
    cases hpush : (p.makeRoom s.pushed).pool.push (s.frameOf (s.pushed + 1) packet) with
    | done pool =>
      rw [hpush] at h
      obtain ⟨queue, hqueue, -⟩ := Pool.exists_of_push hpush
      refine .inr ⟨hclosed ▸ (Queue.push_eq_done_iff.mp hqueue).1, hnumber, pool, rfl, ?_⟩
      exact (Option.some.inj h).symm
    | closed =>
      rw [hpush] at h
      refine .inl ⟨?_, (Option.some.inj h).symm⟩
      rw [Pool.push] at hpush
      split at hpush
      · cases hpush
      · next hqueue => exact hclosed ▸ Queue.push_eq_closed_iff.mp hqueue
      · cases hpush
    | blocked =>
      rw [hpush] at h
      cases h
  · cases h

/-- It does answer, if it can make room and has a number for the packet. -/
theorem exists_push (here : s.stage = .running p) (h : p.Intact s.pushed)
    (hends : p.pool.AlwaysEnds) (hnumber : s.pushed + 2 < UInt32.size) (packet : Packet) :
    ∃ r, s.push packet = some r := by
  obtain ⟨hclosed, -⟩ := p.makeRoom_same s.pushed
  rw [push, here]
  dsimp only
  rw [if_pos hnumber, Pool.push]
  cases hqueue : (p.makeRoom s.pushed).pool.queue.push (s.frameOf (s.pushed + 1) packet) with
  | done | closed => exact ⟨_, rfl⟩
  | blocked =>
    obtain ⟨hopen, hfull⟩ := Queue.push_eq_blocked_iff.mp hqueue
    have hroom := h.size_makeRoom_lt hends (hclosed ▸ hopen) s.pushed
    omega

/-! ### Dissectors at work -/

/-- A pool works with the settings and the dissectors of a session. -/
structure Serves (s : Session σ τ) (pool : Pool σ) : Prop where
  /-- It keeps layers that are as sure as the session demands, -/
  threshold : pool.threshold = s.settings.threshold.clampUnit
  /-- and every context has workers of the session's dissectors. -/
  dissectors : ∀ c ∈ pool.contexts, c.workers.map Worker.dissector = s.dissectors

theorem serves_pipeline (s : Session σ τ) : s.Serves s.pipeline.pool where
  threshold := rfl
  dissectors c hc := by rw [List.eq_of_mem_replicate hc, Dissection.map_dissector_worker]

theorem Serves.turn {pool pool' : Pool σ} {i : ℕ} {handed : List Frame} (h : s.Serves pool)
    (turn : pool.Turn i pool' handed) : s.Serves pool' where
  threshold := turn.same.1.trans h.threshold
  dissectors := turn.forall_dissectors (motive := fun ds => ds = s.dissectors) h.dissectors

theorem Serves.run (h : s.Serves p.pool) (turns : List Actor) : s.Serves (p.run turns).pool :=
  Pipeline.keeps_pool_run (fun _ _ _ _ turn h => h.turn turn) h turns

theorem Serves.makeRoom (h : s.Serves p.pool) (round : ℕ) : s.Serves (p.makeRoom round).pool := by
  obtain ⟨turns, hturns⟩ := p.exists_run_makeRoom round
  exact hturns ▸ h.run _

theorem Serves.alwaysEnds {pool : Pool σ} (h : s.Serves pool) (hends : s.AlwaysEnds) :
    pool.AlwaysEnds := by
  intro c hc
  rw [h.threshold, h.dissectors c hc]
  exact hends

/-- Nothing is lost at the start, if there is room for batches. -/
theorem intact_pipeline (hfits : s.FitsBatch) :
    s.pipeline.Intact 0 := by
  let batchSize := s.settings.batchSize.toNat
  let capacity := s.settings.queueCapacity.toNat
  let stage := StreamStage.create [.deaf] (Settings.contexts s.settings.streamConcurrency s.machine)
    batchSize capacity s.settings.sweepInterval.toNat
  let shadow : Pipeline σ Unit :=
    { pool := .create [] s.settings.threshold.clampUnit
        (Settings.contexts s.settings.concurrency s.machine) batchSize capacity
      streams := some stage }
  refine ⟨⟨s.settings.threshold.clampUnit, [], shadow, rfl, ?_⟩, Nat.zero_le _⟩
  constructor
  · rw [pipeline, Pool.bare_create]
  · exact Store.alike_empty
  · intro found hfound
    rw [pipeline] at hfound
    split at hfound
    · cases hfound
    · cases hfound
      rw [StreamStage.bare_create]
  · rfl
  · exact
      { room := hfits
        steady := List.forall_mem_nil _
        numbered := by simp [Frame.Numbered]
        oneStream := List.forall_mem_nil _
        threshold_eq := rfl
        contexts_pos := by simp [shadow, Pool.create]
        pool := ⟨0, Pool.sound_create ..⟩
        line := Store.inLine_empty
        streams := ⟨_, _, rfl, StreamStage.sound_create ..⟩
        joining := fun h => absurd h Bool.false_ne_true
        closed := fun h => absurd h Bool.false_ne_true }
  · intro found hfound hleft
    cases hfound
    cases hleft

/-! ### What all runs keep -/

/-- How far a session is after some calls. -/
inductive Stands (calls : List (Call σ τ)) (s : Session σ τ) : Prop where
  /-- It was not started. -/
  | created (here : s.stage = .created) (fresh : .start ∉ calls) (none : s.pushed = 0)
  /-- It is at work, and takes packets unless it was closed. -/
  | running {p : Pipeline σ τ} (here : s.stage = .running p) (started : .start ∈ calls)
      (unjoined : ¬[.start, .join] <+ calls)
      (closed : p.pool.queue.closed = true ↔ [.start, .close] <+ calls) (serves : s.Serves p.pool)
      (intact : s.FitsBatch → p.Intact s.pushed)
  /-- All its work is done. -/
  | finished {p : Pipeline σ τ} (here : s.stage = .finished p) (joined : [.start, .join] <+ calls)
      (finished : p.Finished) (serves : s.Serves p.pool) (intact : s.FitsBatch → p.Intact s.pushed)

theorem Stands.turn (h : Stands calls s) (a : Actor) : Stands calls (s.turn a) := by
  cases h with
  | created here fresh none =>
    have hsame : s.turn a = s := by rw [Session.turn, here]
    rw [hsame]
    exact .created here fresh none
  | @running p here started unjoined closed serves intact =>
    have hturn : s.turn a = { s with stage := .running (p.step a) } := by rw [Session.turn, here]
    rw [hturn]
    have hserves := serves.run [a]
    refine .running rfl started unjoined ?_ { hserves with } fun hfits => (intact hfits).step a
    rw [(p.step_same a).1]
    exact closed
  | finished here joined finished serves intact =>
    have hsame : s.turn a = s := by rw [Session.turn, here]
    rw [hsame]
    exact .finished here joined finished serves intact

/-- What can come of a call after some others. -/
inductive Outcome (calls : List (Call σ τ)) (s : Session σ τ) :
    Call σ τ → Answer → Session σ τ → Prop where
  /-- The session is set up or started. -/
  | setUp {c : Call σ τ} {s' : Session σ τ} (hc : c.IsSetUp) (fresh : .start ∉ calls)
      (same : s'.pushed = s.pushed) : Outcome calls s c (.ok none) s'
  /-- It was started before. -/
  | again {c : Call σ τ} (hc : c.IsSetUp) (started : .start ∈ calls) :
      Outcome calls s c (.error .alreadyStarted) s
  /-- It takes no packets yet. -/
  | early {packet : Packet} (fresh : .start ∉ calls) :
      Outcome calls s (.push packet) (.error .notStarted) s
  /-- It takes no more packets. -/
  | late {packet : Packet} (started : .start ∈ calls) (ended : Ended calls) :
      Outcome calls s (.push packet) (.error .closed) s
  /-- It takes a packet. -/
  | take {packet : Packet} {s' : Session σ τ} (started : .start ∈ calls) (isOpen : ¬Ended calls)
      (next : s'.pushed = s.pushed + 1) :
      Outcome calls s (.push packet) (.ok (some (s.pushed + 1))) s'
  /-- There is nothing to close or to wait for. -/
  | idle {c : Call σ τ} (hc : c = .close ∨ c = .join)
      (idle : .start ∉ calls ∨ [.start, .join] <+ calls) : Outcome calls s c (.ok none) s
  /-- It is closed or joined. -/
  | finish {c : Call σ τ} {s' : Session σ τ} (hc : c = .close ∨ c = .join) (started : .start ∈ calls)
      (unjoined : ¬[.start, .join] <+ calls) (same : s'.pushed = s.pushed) :
      Outcome calls s c (.ok none) s'

theorem not_pair_sublist {a b : Call σ τ} (h : a ∉ calls) : ¬[a, b] <+ calls :=
  fun hsub => h (hsub.subset List.mem_cons_self)

theorem not_ended (h : .start ∉ calls) : ¬Ended calls :=
  not_or_intro (not_pair_sublist h) (not_pair_sublist h)

/-- What can come of a call to a session that was not started. -/
theorem Does.of_created (hd : s.Does c answer s') (here : s.stage = .created)
    (fresh : .start ∉ calls) (none : s.pushed = 0) :
    Outcome calls s c answer s' ∧ Stands (calls ++ [c]) s' := by
  have hstands : c ≠ .start → Stands (calls ++ [c]) s := fun hc =>
    .created here (by simp [fresh, Ne.symm hc]) none
  cases hd with
  | ask hc asked =>
    by_cases hsetUp : c.IsSetUp
    · obtain ⟨rfl, hpushed, hstage⟩ := ask_setUp_of_created hsetUp here asked
      refine ⟨.setUp hsetUp fresh hpushed, ?_⟩
      rcases hstage with ⟨hne, hcreated⟩ | ⟨rfl, rfl⟩
      · exact .created hcreated (by simp [fresh, Ne.symm hne]) (hpushed.trans none)
      · have hserves := s.serves_pipeline
        refine .running rfl (by simp) ?_ ?_ { hserves with } fun hfits => ?_
        · simp [pair_sublist_concat, fresh, not_pair_sublist fresh]
        · simp [pair_sublist_concat, fresh, not_pair_sublist fresh, pipeline, Pool.create,
            Queue.ofCapacity]
        · rw [hpushed, none]
          exact intact_pipeline (s := s) hfits
    · cases c with
      | register | registerStream | listen | start => exact absurd trivial hsetUp
      | push packet =>
        have hask : s.ask (.push packet) = some (.error .notStarted, s) := by
          rw [Session.ask, push, here]
          rfl
        obtain ⟨rfl, rfl⟩ := Prod.mk.inj (Option.some.inj (hask.symm.trans asked))
        exact ⟨.early fresh, hstands (by simp)⟩
      | close =>
        have hask : s.ask .close = some (.ok Option.none, s) := by rw [Session.ask, close, here]
        obtain ⟨rfl, rfl⟩ := Prod.mk.inj (Option.some.inj (hask.symm.trans asked))
        exact ⟨.idle (.inl rfl) (.inl fresh), hstands (by simp)⟩
      | join => exact absurd rfl hc
  | join waits =>
    rw [Joins, here] at waits
    subst waits
    exact ⟨.idle (.inr rfl) (.inl fresh), hstands (by simp)⟩

/-- What can come of a call to a session at work. -/
theorem Does.of_running (hd : s.Does c answer s') (here : s.stage = .running p)
    (started : .start ∈ calls) (unjoined : ¬[.start, .join] <+ calls)
    (closed : p.pool.queue.closed = true ↔ [.start, .close] <+ calls) (serves : s.Serves p.pool)
    (intact : s.FitsBatch → p.Intact s.pushed) :
    Outcome calls s c answer s' ∧ Stands (calls ++ [c]) s' := by
  have hstands : c ≠ .close → c ≠ .join → Stands (calls ++ [c]) s := fun hc hc' =>
    .running here (List.mem_append_left _ started)
      (by simp [pair_sublist_concat, unjoined, Ne.symm hc'])
      (by simp [pair_sublist_concat, closed, Ne.symm hc]) serves intact
  cases hd with
  | ask hc asked =>
    by_cases hsetUp : c.IsSetUp
    · have hask := ask_setUp_of_ne_created hsetUp (by rw [here]; simp)
      obtain ⟨rfl, rfl⟩ := Prod.mk.inj (Option.some.inj (hask.symm.trans asked))
      exact ⟨.again hsetUp started, hstands (by rintro rfl; exact hsetUp) hc⟩
    · cases c with
      | register | registerStream | listen | start => exact absurd trivial hsetUp
      | push packet =>
        obtain ⟨r, hpush, hsettle⟩ := Option.map_eq_some_iff.mp asked
        rcases push_cases here hpush with ⟨hclosed, rfl⟩ | ⟨hopen, -, pool, hpool, rfl⟩
        · cases hsettle
          exact ⟨.late started (.inl (closed.mp hclosed)), hstands (by simp) hc⟩
        · cases hsettle
          obtain ⟨queue, hqueue, rfl⟩ := Pool.exists_of_push hpool
          have hunclosed : ¬[.start, .close] <+ calls := by rw [← closed, hopen]; simp
          have hserves := serves.makeRoom s.pushed
          refine ⟨.take started (not_or_intro hunclosed unjoined) rfl,
            .running rfl (List.mem_append_left _ started)
              (by simp [pair_sublist_concat, unjoined]) ?_ { hserves with }
              fun hfits => ((intact hfits).makeRoom _).push rfl hpool⟩
          have hstill : queue.closed = false := by
            obtain ⟨hroom, -, rfl⟩ := Queue.push_eq_done_iff.mp hqueue
            exact hroom
          simp [pair_sublist_concat, hunclosed, hstill]
      | close =>
        have hask : s.ask .close =
            some (.ok none, { s with stage := .running { p with pool := p.pool.close } }) := by
          rw [Session.ask, close, here]
        obtain ⟨rfl, rfl⟩ := Prod.mk.inj (Option.some.inj (hask.symm.trans asked))
        refine ⟨.finish (.inl rfl) started unjoined rfl, .running rfl (List.mem_append_left _ started)
          (by simp [pair_sublist_concat, unjoined]) ?_ { serves with }
          fun hfits => (intact hfits).close⟩
        simp [pair_sublist_concat, started, Pool.close, Queue.close]
      | join => exact absurd rfl hc
  | join waits =>
    rw [Joins, here] at waits
    obtain ⟨turns, hfinished, rfl⟩ := waits
    have hshut : s.Serves p.shut.pool := { serves with }
    have hserves := hshut.run turns
    exact ⟨.finish (.inr rfl) started unjoined rfl,
      .finished rfl (pair_sublist_concat.mpr (.inr ⟨started, rfl⟩)) hfinished { hserves with }
        fun hfits => (intact hfits).shut.run turns⟩

/-- What can come of a call to a session that was joined. -/
theorem Does.of_finished (hd : s.Does c answer s') (here : s.stage = .finished p)
    (joined : [.start, .join] <+ calls) (finished : p.Finished) (serves : s.Serves p.pool)
    (intact : s.FitsBatch → p.Intact s.pushed) :
    Outcome calls s c answer s' ∧ Stands (calls ++ [c]) s' := by
  have hstands : Stands (calls ++ [c]) s :=
    .finished here (joined.trans (List.sublist_append_left _ _)) finished serves intact
  have started : .start ∈ calls := joined.subset List.mem_cons_self
  cases hd with
  | ask hc asked =>
    by_cases hsetUp : c.IsSetUp
    · have hask := ask_setUp_of_ne_created hsetUp (by rw [here]; simp)
      obtain ⟨rfl, rfl⟩ := Prod.mk.inj (Option.some.inj (hask.symm.trans asked))
      exact ⟨.again hsetUp started, hstands⟩
    · cases c with
      | register | registerStream | listen | start => exact absurd trivial hsetUp
      | push packet =>
        have hask : s.ask (.push packet) = some (.error .closed, s) := by
          rw [Session.ask, push, here]
          rfl
        obtain ⟨rfl, rfl⟩ := Prod.mk.inj (Option.some.inj (hask.symm.trans asked))
        exact ⟨.late started (.inr joined), hstands⟩
      | close =>
        have hask : s.ask .close = some (.ok none, s) := by rw [Session.ask, close, here]
        obtain ⟨rfl, rfl⟩ := Prod.mk.inj (Option.some.inj (hask.symm.trans asked))
        exact ⟨.idle (.inl rfl) (.inr joined), hstands⟩
      | join => exact absurd rfl hc
  | join waits =>
    rw [Joins, here] at waits
    subst waits
    exact ⟨.idle (.inr rfl) (.inr joined), hstands⟩

/-- **What can come of a call**, by the calls before it. -/
theorem Stands.does (h : Stands calls s) (hd : s.Does c answer s') :
    Outcome calls s c answer s' ∧ Stands (calls ++ [c]) s' := by
  cases h with
  | created here fresh none => exact hd.of_created here fresh none
  | running here started unjoined closed serves intact =>
    exact hd.of_running here started unjoined closed serves intact
  | finished here joined finished serves intact =>
    exact hd.of_finished here joined finished serves intact

theorem pushed_turn (s : Session σ τ) (a : Actor) : (s.turn a).pushed = s.pushed := by
  rw [turn]
  split <;> rfl

/-- **What every run keeps.** -/
theorem Run.stands (h : Run s₀ log s) (hnew : s₀.IsNew) :
    Stands (log.map Prod.fst) s ∧ taken log = List.range' 1 s.pushed := by
  induction h with
  | new => exact ⟨.created hnew.created List.not_mem_nil hnew.pushed, by rw [hnew.pushed]; rfl⟩
  | @turn log s before a ih =>
    obtain ⟨hstands, htaken⟩ := ih
    exact ⟨hstands.turn a, by rw [pushed_turn, htaken]⟩
  | @call log s s' c answer before does ih =>
    obtain ⟨hstands, htaken⟩ := ih
    obtain ⟨houtcome, hstands'⟩ := hstands.does does
    refine ⟨by rw [List.map_append]; exact hstands', ?_⟩
    rw [taken_concat, htaken]
    cases houtcome with
    | setUp _ _ same | finish _ _ _ same => rw [same]; exact List.append_nil _
    | again | early | late | idle => exact List.append_nil _
    | take _ _ next =>
      rw [next, List.range'_concat, Nat.one_mul, Nat.add_comm 1]
      rfl

/-! ### Calls without effect -/

theorem Does.eq_of_error {e : SessionError} (hd : s.Does c answer s') (he : answer = .error e) :
    s' = s := by
  subst he
  cases hd with
  | ask _ asked => exact eq_of_ask_error asked

/-- Calls that were refused might as well not have been made. -/
theorem Run.forget (h : Run s₀ log s) : Run s₀ (log.filter fun e => e.2.isOk) s := by
  induction h with
  | new => exact .new
  | turn before a ih => exact ih.turn a
  | @call log s s' c answer before does ih =>
    rw [List.filter_append]
    cases answer with
    | error e =>
      rw [does.eq_of_error rfl]
      exact (List.append_nil _).symm ▸ ih
    | ok n => exact ih.call does

/-! ### The end -/

/-- All packets are counted once the session was joined. -/
theorem Stands.counts (h : Stands calls s) (hfits : s.FitsBatch) (joined : [.start, .join] <+ calls) :
    s.store.size = s.pushed ∧ s.safeIndex = s.pushed ∧ s.streamSafeIndex = s.pushed := by
  cases h with
  | created here fresh none => exact absurd joined (not_pair_sublist fresh)
  | running here started unjoined => exact absurd joined unjoined
  | @finished p here joined finished serves intact =>
    obtain ⟨hsize, hsafe, hstreams⟩ := (intact hfits).counts finished
    have hpipeline : s.pipeline? = some p := by rw [pipeline?, here]
    have hindex : s.safeIndex = s.pushed := by rw [safeIndex, hpipeline]; exact hsafe
    refine ⟨by rw [store, hpipeline]; exact hsize, hindex, ?_⟩
    rw [streamSafeIndex, hpipeline, Option.bind_some]
    cases hstage : p.streams with
    | none => exact hindex
    | some stage => exact hstreams stage hstage

/-- Waiting comes to an end, whatever turns are taken. -/
theorem Stands.exists_finished (h : Stands calls s) (hfits : s.FitsBatch) (hends : s.AlwaysEnds)
    (here : s.stage = .running p) (turns : List Actor) :
    ∃ more, (p.shut.run (turns ++ more)).Finished := by
  cases h with
  | created hcreated => cases hcreated.symm.trans here
  | running hrunning _ _ _ serves intact =>
    cases hrunning.symm.trans here
    exact (intact hfits).exists_finished (serves.alwaysEnds hends) turns
  | finished hfinished => cases hfinished.symm.trans here

theorem Stands.exists_joins (h : Stands calls s) (hfits : s.FitsBatch) (hends : s.AlwaysEnds) :
    ∃ s', s.Joins s' := by
  cases here : s.stage with
  | created | finished p => exact ⟨s, by rw [Joins, here]⟩
  | running p =>
    obtain ⟨turns, hfinished⟩ := h.exists_finished hfits hends here []
    refine ⟨{ s with stage := .finished (p.shut.run turns) }, ?_⟩
    rw [Joins, here]
    exact ⟨turns, hfinished, rfl⟩

/-- Every call but the last one has an answer at once. -/
theorem Stands.exists_ask (h : Stands calls s) (room : s.HasRoom) (hends : s.AlwaysEnds)
    (hnumber : s.pushed + 2 < UInt32.size) (hc : c ≠ .join) : ∃ r, s.ask c = some r := by
  cases c with
  | register | registerStream | listen | close => exact ⟨_, rfl⟩
  | join => exact absurd rfl hc
  | start =>
    cases hfresh : s.isFresh with
    | false => exact ⟨_, by rw [ask, start, hfresh]; rfl⟩
    | true =>
      have hstart : s.CanStart := ⟨room.pool, .inr room.streams⟩
      exact ⟨_, by rw [ask, start, if_pos hfresh, if_pos hstart]; rfl⟩
  | push packet =>
    cases h with
    | created here | finished here => exact ⟨_, by rw [ask, push, here]; rfl⟩
    | running here _ _ _ serves intact =>
      obtain ⟨r, hr⟩ :=
        exists_push here (intact room.batch) (serves.alwaysEnds hends) hnumber packet
      exact ⟨_, by rw [ask, hr]; rfl⟩

/-- **Every run of a new session is lawful.** -/
theorem Run.lawful (h : Run s₀ log s) (hnew : s₀.IsNew) : s₀.Lawful log s := by
  obtain ⟨hstands, htaken⟩ := h.stands hnew
  have hlength : (taken log).length = s.pushed := by rw [htaken, List.length_range']
  refine ⟨?_, ?_, ?_, ?_, ?_, htaken, fun c e s' hd => hd.eq_of_error rfl, h.forget, ?_, ?_, ?_, ?_,
    fun hfits hends p here turns => hstands.exists_finished hfits hends here turns⟩
  · intro c answer s' hc hd fresh
    cases (hstands.does hd).1 with
    | setUp | idle | finish => rfl
    | again _ started => exact absurd started fresh
    | early | late | take => exact hc.elim
  · intro c answer s' hc hd started
    cases (hstands.does hd).1 with
    | again => rfl
    | setUp _ fresh => exact absurd started fresh
    | early | late | take => exact hc.elim
    | idle heq | finish heq => rcases heq with rfl | rfl <;> exact hc.elim
  · intro packet answer s' hd fresh
    cases (hstands.does hd).1 with
    | early => rfl
    | late started | take started => exact absurd started fresh
    | setUp hc | again hc => exact hc.elim
    | idle heq | finish heq => simp at heq
  · intro packet answer s' hd ended
    cases (hstands.does hd).1 with
    | late => rfl
    | early fresh => exact absurd ended (not_ended fresh)
    | take _ isOpen => exact absurd ended isOpen
    | setUp hc | again hc => exact hc.elim
    | idle heq | finish heq => simp at heq
  · intro packet answer s' hd started isOpen
    cases (hstands.does hd).1 with
    | take => rw [hlength]
    | early fresh => exact absurd started fresh
    | late _ ended => exact absurd ended isOpen
    | setUp hc | again hc => exact hc.elim
    | idle heq | finish heq => simp at heq
  · intro c answer s' hc hd fresh
    cases (hstands.does hd).1 with
    | idle => rfl
    | finish _ started => exact absurd started fresh
    | setUp hsetUp => rcases hc with rfl | rfl <;> exact hsetUp.elim
    | again | early | late => rfl
    | take started => exact absurd started fresh
  · intro c answer s' hd joined
    have started : .start ∈ log.map Prod.fst := joined.subset List.mem_cons_self
    cases (hstands.does hd).1 with
    | again | early | late | idle => rfl
    | setUp _ fresh => exact absurd started fresh
    | take _ isOpen => exact absurd (.inr joined) isOpen
    | finish _ _ unjoined => exact absurd joined unjoined
  · intro hfits joined
    obtain ⟨hsize, hsafe, hstreamSafe⟩ := hstands.counts hfits joined
    exact ⟨hsize.trans hlength.symm, hlength.symm, hsafe.trans hlength.symm,
      hstreamSafe.trans hlength.symm⟩
  · intro room hends hnumber c
    by_cases hc : c = .join
    · obtain ⟨s', hjoins⟩ := hstands.exists_joins room.batch hends
      subst hc
      exact ⟨_, s', .join hjoins⟩
    · obtain ⟨r, hr⟩ := hstands.exists_ask room hends (hlength ▸ hnumber) hc
      exact ⟨_, _, .ask hc hr⟩

/-! ### One caller -/

/-- A session that one caller drives is filled with packets, and may be closed, as far as there is room
for batches and the dissectors come to an end. -/
def Driven (s : Session σ τ) : Prop :=
  s.FitsBatch → s.AlwaysEnds → ∀ p, s.stage = .running p →
    ∃ q, s.Filling q ∧ (p = q ∨ p = { q with pool := q.pool.close })

/-- To join a session with the orderly schedule is to join it. -/
theorem joins_of_join (h : s.join = some s') : s.Joins s' := by
  cases here : s.stage with
  | created | finished p =>
    rw [join, here] at h
    rw [Joins, here]
    exact (Option.some.inj h).symm
  | running p =>
    obtain ⟨turns, -, hrun⟩ := p.shut.exists_run_drain
    rw [join, here] at h
    dsimp only at h
    split at h
    · next hfinished =>
      have hdrain : p.shut.drain.Finished := Pipeline.isFinished_iff.mp hfinished
      rw [Joins, here]
      exact ⟨turns, hrun.symm ▸ hdrain, hrun.symm ▸ (Option.some.inj h).symm⟩
    · cases h

/-- A call with the orderly schedule is a call. -/
theorem does_of_ask (h : s.ask c = some (answer, s')) : s.Does c answer s' := by
  by_cases hc : c = .join
  · subst hc
    obtain ⟨t, ht, heq⟩ := Option.map_eq_some_iff.mp h
    cases heq
    exact .join (joins_of_join ht)
  · exact .ask hc h

/-- The orderly schedule is one in which all work is done. -/
theorem Driven.exists_join (h : s.Driven) (hfits : s.FitsBatch) (hends : s.AlwaysEnds) :
    ∃ s', s.join = some s' := by
  cases here : s.stage with
  | created | finished p => exact ⟨s, by rw [join, here]⟩
  | running p =>
    obtain ⟨q, hfilling, hp⟩ := h hfits hends p here
    have hshut : p.shut = q.shut := by rcases hp with rfl | rfl <;> rfl
    have hfinished : p.shut.drain.isFinished = true :=
      Pipeline.isFinished_iff.mpr (hshut ▸ hfilling.join.2)
    refine ⟨{ s with stage := .finished p.shut.drain }, ?_⟩
    rw [join, here]
    exact if_pos hfinished

theorem Driven.setUp (h : s.Driven) (hc : c.IsSetUp) (hask : s.ask c = some (answer, s')) :
    s'.Driven := by
  by_cases here : s.stage = .created
  · obtain ⟨-, -, ⟨-, hcreated⟩ | ⟨-, rfl⟩⟩ := ask_setUp_of_created hc here hask
    · intro _ _ p hp
      cases hcreated.symm.trans hp
    · intro hfits hends p hp
      cases hp
      have hfilling := filling_pipeline (s := s) hfits hends
      exact ⟨_, { hfilling with }, .inl rfl⟩
  · have hsame := ask_setUp_of_ne_created hc here
    obtain ⟨-, rfl⟩ := Prod.mk.inj (Option.some.inj (hsame.symm.trans hask))
    exact h

theorem Driven.push (h : s.Driven) (hask : s.ask (.push packet) = some (answer, s')) : s'.Driven := by
  obtain ⟨r, hpush, hsettle⟩ := Option.map_eq_some_iff.mp hask
  cases here : s.stage with
  | created | finished p =>
    rw [Session.push, here] at hpush
    cases hpush
    cases hsettle
    exact h
  | running p =>
    rcases push_cases here hpush with ⟨-, rfl⟩ | ⟨hopen, hnumber, pool, -, rfl⟩
    · cases hsettle
      exact h
    · cases hsettle
      intro hfits hends p' hp'
      obtain ⟨q, hfilling, rfl | rfl⟩ := h hfits hends p here
      · obtain ⟨q, hpush', hfilling', -⟩ := hfilling.push hnumber packet []
        have hsame : { s with pushed := s.pushed, stage := .running p } = s := by rw [← here]
        rw [hsame, hpush] at hpush'
        cases hp'
        cases hpush'
        exact ⟨_, { hfilling' with }, .inl rfl⟩
      · cases hopen

theorem Driven.close (h : s.Driven) : s.close.Driven := by
  cases here : s.stage with
  | created | finished p =>
    have hsame : s.close = s := by rw [Session.close, here]
    rwa [hsame]
  | running p =>
    have hclose : s.close = { s with stage := .running { p with pool := p.pool.close } } := by
      rw [Session.close, here]
    rw [hclose]
    intro hfits hends p' hp'
    cases hp'
    obtain ⟨q, hfilling, hp⟩ := h hfits hends p here
    refine ⟨q, { hfilling with }, .inr ?_⟩
    rcases hp with rfl | rfl <;> rfl

/-- A session that was joined is not at work. -/
theorem driven_of_join (hjoin : s.join = some s') : s'.Driven := by
  intro _ _ p hp
  cases here : s.stage with
  | created | finished p' =>
    rw [join, here] at hjoin
    cases hjoin
    cases here.symm.trans hp
  | running p' =>
    rw [join, here] at hjoin
    dsimp only at hjoin
    split at hjoin
    · cases hjoin
      cases hp
    · cases hjoin

/-- A session that is driven by one caller remains so. -/
theorem Driven.ask (h : s.Driven) (hask : s.ask c = some (answer, s')) : s'.Driven := by
  cases c with
  | register | registerStream | listen | start => exact h.setUp (by trivial) hask
  | push packet => exact h.push hask
  | close =>
    cases hask
    exact h.close
  | join =>
    obtain ⟨t, ht, heq⟩ := Option.map_eq_some_iff.mp hask
    cases heq
    exact driven_of_join ht

/-- **What one caller makes of a session with the orderly schedule is one of its runs.** -/
theorem Run.replay {more : List (Call σ τ × Answer)} (h : Run s₀ log s) (hdriven : s.Driven)
    (hreplay : s.replay calls = some (more, s')) : Run s₀ (log ++ more) s' ∧ s'.Driven := by
  induction calls generalizing s log more with
  | nil =>
    cases hreplay
    exact ⟨(List.append_nil log).symm ▸ h, hdriven⟩
  | cons c calls ih =>
    rw [Session.replay] at hreplay
    simp only [Option.bind_eq_bind, Option.bind_eq_some_iff, Option.pure_def, Option.some.injEq,
      Prod.mk.injEq, Prod.exists] at hreplay
    obtain ⟨answer, t, hask, rest, u, hrest, rfl, rfl⟩ := hreplay
    have hrun := ih (h.call (does_of_ask hask)) (hdriven.ask hask) hrest
    rwa [List.append_assoc] at hrun

/-- A caller who waits with the orderly schedule is answered, too. -/
theorem Driven.exists_ask (hdriven : s.Driven) (h : Stands calls s) (room : s.HasRoom)
    (hends : s.AlwaysEnds) (hnumber : s.pushed + 2 < UInt32.size) (c : Call σ τ) :
    (s.ask c).isSome := by
  rw [Option.isSome_iff_exists]
  by_cases hc : c = .join
  · obtain ⟨s', hjoin⟩ := hdriven.exists_join room.batch hends
    subst hc
    exact ⟨(.ok none, s'), by rw [Session.ask, hjoin]; rfl⟩
  · exact h.exists_ask room hends hnumber hc

/-! ### The main result -/

/-- **The life of a session.** Whatever the settings and the dissectors, whatever a session is asked for
and in whatever order those who work for it take their turns: it is set up and started exactly if it was
never started; it takes packets exactly if it was started and neither closed nor joined since, with the
numbers one, two, three and so on; what is refused or comes at the wrong time changes nothing; with
enough room, a number for every packet and dissectors that come to an end every call is answered; and
after waiting the store and both safe indices tell how many packets were taken. With one caller and the
orderly schedule it is so, too. -/
theorem lifecycle (s₀ : Session σ τ) (hnew : s₀.IsNew) :
    (∀ calls log s, s₀.replay calls = some (log, s) → Run s₀ log s ∧
      (s.HasRoom → s.AlwaysEnds → (taken log).length + 2 < UInt32.size →
        ∀ c, (s.ask c).isSome)) ∧
      ∀ log s, Run s₀ log s → s₀.Lawful log s := by
  refine ⟨fun calls log s hreplay => ?_, fun _ _ h => h.lawful hnew⟩
  have hdriven : s₀.Driven := fun _ _ p here => by cases hnew.created.symm.trans here
  obtain ⟨hrun, hdriven'⟩ := Run.new.replay hdriven hreplay
  obtain ⟨hstands, htaken⟩ := hrun.stands hnew
  have hlength : (taken log).length = s.pushed := by
    rw [List.nil_append] at htaken
    rw [htaken, List.length_range']
  exact ⟨hrun, fun room hends hnumber c =>
    hdriven'.exists_ask hstands room hends (hlength ▸ hnumber) c⟩

/-- A packet dissector that breaks down at every layer. -/
def breaking : Dissector Unit where
  name := "breaking"
  patterns := [.suffix ⟨[]⟩]
  fresh := ()
  analyze _ _ _ := ((), .fault)

/-- A session with two contexts and a queue for one frame. -/
def unused : Session Unit Unit where
  settings := { batchSize := 1, queueCapacity := 1 }
  machine := 2

/-- Calls at the right time and at the wrong one. -/
def usage : List (Call Unit Unit) :=
  [.push default, .close, .join, .register breaking, .registerStream StreamStage.Watch.listening,
    .start, .push default, .listen, .push default, .start, .push default, .close, .push default, .join,
    .push default, .join, .start]

/-- Three packets are taken, and what comes at the wrong time changes nothing. -/
theorem lifecycle_usage :
    unused.IsNew ∧ ∃ log s, unused.replay usage = some (log, s) ∧ Run unused log s ∧
      unused.Lawful log s ∧
      log.map Prod.snd =
        [.error .notStarted, .ok none, .ok none, .ok none, .ok none, .ok none, .ok (some 1),
          .error .alreadyStarted, .ok (some 2), .error .alreadyStarted, .ok (some 3), .ok none,
          .error .closed, .ok none, .error .closed, .ok none, .error .alreadyStarted] ∧
      s.store.size = 3 ∧ s.streamSafeIndex = 3 := by
  have hnew : unused.IsNew := ⟨rfl, rfl⟩
  have hall : (unused.replay usage).map (fun r =>
      (r.1.map Prod.snd, r.2.store.size, r.2.streamSafeIndex)) =
        some ([.error .notStarted, .ok none, .ok none, .ok none, .ok none, .ok none, .ok (some 1),
          .error .alreadyStarted, .ok (some 2), .error .alreadyStarted, .ok (some 3), .ok none,
          .error .closed, .ok none, .error .closed, .ok none, .error .alreadyStarted], 3, 3) := by
    decide +kernel
  obtain ⟨⟨log, s⟩, hreplay, hseen⟩ := Option.map_eq_some_iff.mp hall
  obtain ⟨hanswers, hsize, hsafe⟩ := by simpa only [Prod.mk.injEq] using hseen
  obtain ⟨hrun, -⟩ := (lifecycle unused hnew).1 usage log s hreplay
  exact ⟨hnew, log, s, hreplay, hrun, (lifecycle unused hnew).2 log s hrun, hanswers, hsize, hsafe⟩

/-! ### At the bounds -/

/-- **To close a session that was not started yet does not close it**: a packet that comes after that
and after the start is taken. -/
theorem not_refused_of_close_mem :
    ((unused.replay [.close, .start, .push default]).map fun r => r.1.map Prod.snd) =
      some [.ok none, .ok none, .ok (some 1)] := by decide +kernel

/-- A session for which there is no room for a batch. -/
def oversized : Session Unit Unit := { settings := { batchSize := 0xFFFFFFFFFFFFFFFF } }

/-- **Without room for a batch nothing is counted**, although every call is answered. -/
theorem not_counts_of_oversized :
    ((oversized.replay [.start, .push default, .join]).map fun r =>
        (r.1.map Prod.snd, r.2.pushed, r.2.store.size, r.2.safeIndex)) =
      some ([.ok none, .ok (some 1), .ok none], 1, 0, 0) := by decide +kernel

/-- A session for which there is no room for the queue. -/
def crowded : Session Unit Unit := { settings := { queueCapacity := 0xFFFFFFFFFFFFFFFF } }

/-- **Without room for the queue there is no answer to the start.** -/
theorem not_started_of_crowded : crowded.replay [.start] = none := by
  have hroom : ¬crowded.CanStart := by decide +kernel
  rw [replay, ask, start, if_pos (show crowded.isFresh = true from rfl), if_neg hroom]
  rfl

/-- **When the numbers are used up there is no answer to a packet.** -/
theorem ask_push_of_numbers_used (here : s.stage = .running p) (hused : UInt32.size ≤ s.pushed + 2) :
    s.ask (.push packet) = none := by
  rw [ask, push, here]
  dsimp only
  rw [if_neg (Nat.not_lt.mpr hused)]
  rfl

/-- A session in which every packet is found in itself again. -/
def endless : Session Unit Unit where
  settings :=
    { confidenceThreshold := Confidence.full.value
      batchSize := 1
      linkLayers := { entries := [(0, "x")] } }
  dissectors := [Dissection.nesting]

/-- It after its start and one packet. -/
def engaged : Session Unit Unit :=
  let pool := endless.pipeline.pool
  { endless with
    pushed := 1
    stage := .running { endless.pipeline with
      pool := { pool with queue := { pool.queue with items := [endless.frameOf 1 default] } } } }

/-- The only context claims the packet and never comes back. -/
theorem neverEnds_engaged : ∃ p, (engaged.turn (.dissector 0)).stage = .running p ∧
    p.pool.NeverEnds := by
  refine ⟨_, rfl, _, List.mem_singleton_self _, [endless.frameOf 1 default], rfl, ?_⟩
  have hthreshold : endless.pipeline.pool.threshold = Confidence.full.value := by decide +kernel
  have hroot : (endless.frameOf 1 default).root.ns.last? = some (.confirmed "x") := by decide +kernel
  have hnone := Dissection.complete_nesting hroot
  rw [← hthreshold] at hnone
  exact congrArg (Option.bind · _) hnone

/-- **A packet that never ends lets nobody wait to the end**: the context that claimed it does not come
back. -/
theorem not_joins_of_endless : ∃ log s, Run endless log s ∧
    log.map Prod.snd = [.ok none, .ok (some 1)] ∧ ∀ s', ¬s.Joins s' := by
  let started : Session Unit Unit := { endless with stage := .running endless.pipeline }
  have hstart : endless.ask .start = some (.ok none, started) := by
    rw [ask, start, if_pos (show endless.isFresh = true from rfl),
      if_pos (show endless.CanStart by decide +kernel)]
    rfl
  have hpush : started.ask (.push default) = some (.ok (some 1), engaged) := by
    have hspace : endless.pipeline.hasSpace = true := by decide +kernel
    have hroom := Pipeline.makeRoom_of_hasSpace hspace started.pushed
    rw [ask, push]
    dsimp only [started] at hroom ⊢
    rw [if_pos (by decide), hroom]
    rfl
  refine ⟨_, _,
    ((Run.new.call (.ask (by simp) hstart)).call (.ask (by simp) hpush)).turn (.dissector 0), rfl,
    fun s' hjoins => ?_⟩
  obtain ⟨p, here, hnever⟩ := neverEnds_engaged
  rw [Joins, here] at hjoins
  obtain ⟨turns, hfinished, -⟩ := hjoins
  have hnever' : p.shut.pool.NeverEnds := hnever
  have hstill := Pipeline.keeps_pool_run (fun _ _ _ _ turn => turn.neverEnds) hnever' turns
  exact hstill.not_isDrained hfinished.pool

/-- **None of this holds beyond its bounds**: a session that is closed before its start takes packets
afterwards; without room for a batch nothing is counted, and without room for the queue a session does
not start; there is no answer to a packet without a number; and a packet that never ends lets nobody
wait to the end. -/
theorem not_lifecycle :
    ((unused.replay [.close, .start, .push default]).map fun r => r.1.map Prod.snd) =
        some [.ok none, .ok none, .ok (some 1)] ∧
      ((oversized.replay [.start, .push default, .join]).map fun r =>
          (r.1.map Prod.snd, r.2.pushed, r.2.store.size, r.2.safeIndex)) =
        some ([.ok none, .ok (some 1), .ok none], 1, 0, 0) ∧
      crowded.replay [.start] = none ∧
      (∀ (s : Session Unit Unit) p packet, s.stage = .running p → UInt32.size ≤ s.pushed + 2 →
        s.ask (.push packet) = none) ∧
      ∃ log s, Run endless log s ∧ log.map Prod.snd = [.ok none, .ok (some 1)] ∧
        ∀ s', ¬s.Joins s' :=
  ⟨not_refused_of_close_mem, not_counts_of_oversized, not_started_of_crowded,
    fun _ _ _ => ask_push_of_numbers_used, not_joins_of_endless⟩

end Session

end PacketTree
