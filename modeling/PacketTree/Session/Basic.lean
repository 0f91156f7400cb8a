import PacketTree.Capture.Packet
import PacketTree.Protocol.Builtin
import PacketTree.Reassembly.TcpWorker
import PacketTree.Session.Pipeline
import PacketTree.Session.Settings

/-!
# Sessions

A session takes packets, numbers them from one on, and gives out the frames made of them in order.
Dissectors and listeners are registered before it starts. It is closed when no more packets come,
and joined to wait until all work is done.

## The model

A call that does not return is `none`: there is no room for what it asks for, there is no number left
for a packet, or it waits for what never comes, since a dissection never ends or the contexts broke
down.
-/

namespace PacketTree

/-- Why a session refuses an operation. -/
inductive SessionError where
  /-- No more packets are taken. -/
  | closed
  /-- The session was started before. -/
  | alreadyStarted
  /-- The session was never started. -/
  | notStarted
deriving DecidableEq, Repr

/-- The error in words. -/
def SessionError.message : SessionError → String
  | .closed => "frame queue is closed"
  | .alreadyStarted => "dissectors cannot be registered after the session started"
  | .notStarted => "session has not been started"

/-- How far a session is in its life. -/
inductive SessionStage (σ τ : Type) where
  /-- It was not started. -/
  | created
  /-- It takes packets, unless it is closed. -/
  | running (p : Pipeline σ τ)
  /-- All its work is done. -/
  | finished (p : Pipeline σ τ)

/-- A session. Packet dissectors remember values of the type `σ`, stream dissectors of `τ`. -/
structure Session (σ τ : Type) where
  /-- The settings. -/
  settings : Settings
  /-- The number of contexts for which the machine has room. -/
  machine : Nat := 1
  /-- The packet dissectors in the order in which they were registered. -/
  dissectors : List (Dissector σ) := []
  /-- The stream dissectors in the order in which they were registered. -/
  streamDissectors : List (StreamDissector τ) := []
  /-- The number of listeners to finished batches. -/
  listeners : Nat := 0
  /-- The number of packets taken. -/
  pushed : Nat := 0
  /-- How far it is. -/
  stage : SessionStage σ τ := .created

namespace Session

variable {σ τ : Type}

/-- The session was not started. -/
def isFresh (s : Session σ τ) : Bool := s.stage matches .created

/-- The session was started and not joined. -/
def isRunning (s : Session σ τ) : Bool := s.stage matches .running _

/-- Changes a session that was not started. -/
def setUp (s : Session σ τ) (change : Session σ τ → Session σ τ) :
    Except SessionError (Session σ τ) :=
  if s.isFresh then .ok (change s) else .error .alreadyStarted

/-- Registers a packet dissector behind the others. -/
def register (s : Session σ τ) (d : Dissector σ) : Except SessionError (Session σ τ) :=
  s.setUp fun s => { s with dissectors := s.dissectors ++ [d] }

/-- Registers a stream dissector behind the others. -/
def registerStream (s : Session σ τ) (d : StreamDissector τ) : Except SessionError (Session σ τ) :=
  s.setUp fun s => { s with streamDissectors := s.streamDissectors ++ [d] }

/-- Registers a listener to finished batches. -/
def listen (s : Session σ τ) : Except SessionError (Session σ τ) :=
  s.setUp fun s => { s with listeners := s.listeners + 1 }

/-- The pipeline of a session at its start. -/
def pipeline (s : Session σ τ) : Pipeline σ τ :=
  let batchSize := s.settings.batchSize.toNat
  let capacity := s.settings.queueCapacity.toNat
  { pool := .create s.dissectors s.settings.threshold.clampUnit
      (Settings.contexts s.settings.concurrency s.machine) batchSize capacity
    streams :=
      if s.streamDissectors.isEmpty then none
      else some (.create s.streamDissectors
        (Settings.contexts s.settings.streamConcurrency s.machine) batchSize capacity
        s.settings.sweepInterval.toNat) }

/-- There is room for the queues and the contexts of a session. -/
def CanStart (s : Session σ τ) : Prop :=
  let capacity := s.settings.queueCapacity.toNat
  Memory.FitsStage Pool.slotBytes (Settings.contexts s.settings.concurrency s.machine) capacity ∧
    (s.streamDissectors.isEmpty = true ∨ Memory.FitsStage StreamStage.slotBytes
      (Settings.contexts s.settings.streamConcurrency s.machine) capacity)

instance (s : Session σ τ) : Decidable s.CanStart := inferInstanceAs (Decidable (_ ∧ _))

/-- Starts a session. -/
def start (s : Session σ τ) : Option (Except SessionError (Session σ τ)) :=
  if s.isFresh then
    if s.CanStart then some (.ok { s with stage := .running s.pipeline }) else none
  else some (.error .alreadyStarted)

/-- The frame of a packet, of which only the root is known: the root carries all bytes. -/
def frameOf (s : Session σ τ) (index : Nat) (packet : Packet) : Frame :=
  .ofRoot index packet.timestamp packet.wireLength packet.link.toNat
    { ns := s.settings.linkNamespace packet.link
      payload := .ofBytes (.packet index) packet.data }

/-- Takes a packet, and gives it a number. Packets are counted with 32 bits, in the store up to the number
behind the last one; there is no answer for a packet that cannot be counted. Whenever the queue is full
a batch is taken apart first. -/
def push (s : Session σ τ) (packet : Packet) : Option (Except SessionError (Nat × Session σ τ)) :=
  match s.stage with
  | .created => some (.error .notStarted)
  | .finished _ => some (.error .closed)
  | .running p =>
    let index := s.pushed + 1
    if index + 1 < UInt32.size then
      let p := p.makeRoom s.pushed
      match p.pool.push (s.frameOf index packet) with
      | .done pool =>
        some (.ok (index, { s with pushed := index, stage := .running { p with pool := pool } }))
      | .closed => some (.error .closed)
      | .blocked => none
    else none

/-- Takes no more packets. -/
def close (s : Session σ τ) : Session σ τ :=
  match s.stage with
  | .running p => { s with stage := .running { p with pool := p.pool.close } }
  | _ => s

/-- Takes no more packets and waits until all work is done. -/
def join (s : Session σ τ) : Option (Session σ τ) :=
  match s.stage with
  | .running p =>
    let p := ({ p with pool := p.pool.close, joining := true } : Pipeline σ τ).drain
    if p.isFinished then some { s with stage := .finished p } else none
  | _ => some s

/-- The pipeline of a session that was started. -/
def pipeline? (s : Session σ τ) : Option (Pipeline σ τ) :=
  match s.stage with
  | .created => none
  | .running p => some p
  | .finished p => some p

/-- The frames in order. -/
def store (s : Session σ τ) : Store := (s.pipeline?.map Pipeline.store).getD .empty

/-- What the listeners were given: each batch once for each of them, the latest first. -/
def heard (s : Session σ τ) : List (List Frame) :=
  ((s.pipeline?.map Pipeline.handed).getD []).flatMap (List.replicate s.listeners)

/-- The number up to which all frames were taken apart. -/
def safeIndex (s : Session σ τ) : Nat :=
  (s.pipeline?.map fun p => p.pool.progress.safe.1).getD 0

/-- The number up to which all streams were worked on. -/
def streamSafeIndex (s : Session σ τ) : Nat :=
  ((s.pipeline?.bind Pipeline.streams).map fun stage => stage.progress.safe.1).getD s.safeIndex

end Session

/-- A session with the built-in dissectors. The packet dissectors remember nothing. -/
def Session.standard (settings : Settings) (machine : Nat) : Session Unit TcpStream where
  settings := settings
  machine := machine
  dissectors := Protocol.builtin ()
  streamDissectors := [TcpStream.dissector settings.idleTimeout settings.midstream]

end PacketTree
