import PacketTree.Files.Error
import PacketTree.Json.Quoted
import PacketTree.Numeric.Shortest
import PacketTree.Session.LinkTable

/-!
# Settings of a session

Every setting has a standard value. Settings are checked before a capture is taken apart: the
threshold has to lie between zero and one, and batches and queues must not be empty.
-/

namespace PacketTree

/-- The settings of a session. -/
structure Settings where
  /-- The number of contexts that take frames apart; zero for as many as the machine has. -/
  concurrency : UInt64 := 0
  /-- The number of contexts that work on streams; zero for as many as the machine has. -/
  streamConcurrency : UInt64 := 0
  /-- The confidence that a layer needs in order to be kept. -/
  confidenceThreshold : Double := Double.zero
  /-- The number of items a queue can hold. -/
  queueCapacity : UInt64 := 1024
  /-- The number of frames in a batch. -/
  batchSize : UInt64 := 128
  /-- The number of batches between two sweeps of the streams. -/
  sweepInterval : UInt64 := 1024
  /-- The number of milliseconds without segments after which a stream is given up. -/
  streamIdleTimeout : UInt64 := 30000
  /-- Streams may start in the middle of a connection. -/
  midstream : Bool := false
  /-- The namespaces that packets start with. -/
  linkLayers : LinkTable := .standard
deriving DecidableEq, Repr, Inhabited

/-- What is wrong with settings. -/
inductive SettingsError where
  /-- The file of the settings cannot be read. -/
  | file (e : FileError)
  /-- The text is not that of settings. -/
  | text (p : Json.Problem)
  /-- The threshold is no number from zero to one. -/
  | threshold (x : Double)
  /-- The size of batches is zero. -/
  | batchSize
  /-- The capacity of queues is zero. -/
  | queueCapacity
deriving DecidableEq, Repr

/-- The error in words. -/
def SettingsError.message : SettingsError → String
  | .file e => "I/O error: " ++ e.message
  | .text p => "invalid configuration: " ++ p.message
  | .threshold x => "invalid confidence_threshold: " ++ x.plainText ++ " is outside [0, 1]"
  | .batchSize => "invalid batch_size: must be at least 1"
  | .queueCapacity => "invalid queue_capacity: must be at least 1"

namespace Settings

/-- Finds the first setting that is out of range. -/
def validate (s : Settings) : Except SettingsError Unit :=
  if !(Double.zero.le s.confidenceThreshold && s.confidenceThreshold.le Double.one) then
    .error (.threshold s.confidenceThreshold)
  else if s.batchSize = 0 then .error .batchSize
  else if s.queueCapacity = 0 then .error .queueCapacity
  else .ok ()

/-- The threshold moved into its range; a NaN counts as zero. -/
def threshold (s : Settings) : Double :=
  if s.confidenceThreshold.isNaN then Double.zero else s.confidenceThreshold.clampUnit

/-- The number of contexts: the one asked for, or what the machine has, never none. -/
def contexts (asked : UInt64) (machine : Nat) : Nat :=
  if asked = 0 then max machine 1 else asked.toNat

/-- The time in nanoseconds after which an idle stream is given up. -/
def idleTimeout (s : Settings) : Nat := s.streamIdleTimeout.toNat * 1000000

/-- The namespace that packets of a link type start with. -/
def linkNamespace (s : Settings) (link : UInt32) : Namespace := s.linkLayers.namespaceOf link

end Settings

end PacketTree
