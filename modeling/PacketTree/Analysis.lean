import PacketTree.Capture.File
import PacketTree.Report.Basic
import PacketTree.Session.Basic

/-!
# Analysis of captures

A capture is sent through a session with the built-in dissectors, and a report is made of the
frames. The first problem of the capture ends the analysis: there are no reports of a part.
-/

namespace PacketTree

/-- Why there is no report. -/
inductive AnalysisError where
  /-- The capture cannot be read. -/
  | capture (e : CaptureError)
  /-- The session refuses an operation. -/
  | session (e : SessionError)
  /-- The settings are out of range. -/
  | settings (e : SettingsError)
deriving DecidableEq, Repr

namespace AnalysisError

/-- The error in words. -/
def message : AnalysisError → String
  | .capture e => "Source error: " ++ e.message
  | .session e => "Session error: " ++ e.message
  | .settings e => "Config error: " ++ e.message

/-- What lies behind the error, from the nearest cause to the first one. -/
def causes : AnalysisError → List String
  | .capture e => e.message :: match e with
    | .file e => [e.message]
    | _ => []
  | .session e => [e.message]
  | .settings e => e.message :: match e with
    | .file e => [e.message]
    | .text p => [p.message]
    | _ => []

end AnalysisError

/-- What an analysis needs to know beside the capture. -/
structure Analysis where
  /-- The settings of the session. -/
  settings : Settings
  /-- The number of contexts for which the machine has room. -/
  machine : Nat := 1
  /-- The path of the capture as the report names it. -/
  path : String
  /-- The size of the capture in bytes, zero if there is no file of that path. -/
  bytes : Nat

namespace Analysis

/-- Pushes packets one after the other. -/
def pushAll {σ τ : Type} (s : Session σ τ) :
    List Packet → Option (Except SessionError (Session σ τ))
  | [] => some (.ok s)
  | packet :: packets =>
    match s.push packet with
    | some (.ok (_, s)) => pushAll s packets
    | some (.error e) => some (.error e)
    | none => none

/-- The session behind some packets, with all its work done; `none` if it is never done. -/
def session (a : Analysis) (packets : List Packet) :
    Option (Except SessionError (Session Unit TcpStream)) := do
  match ← (Session.standard a.settings a.machine).start with
  | .error e => return .error e
  | .ok s =>
    match ← pushAll s packets with
    | .error e => return .error e
    | .ok s => return .ok (← s.join)

/-- The report of packets, unless a problem ends them; `none` if the session is never done. -/
def reportOf (a : Analysis) (packets : List Packet) (problem : Option CaptureError) :
    Option (Except AnalysisError Report) :=
  match a.settings.validate with
  | .error e => some (.error (.settings e))
  | .ok () => (a.session packets).map fun outcome => do
    let s ← outcome.mapError .session
    match problem with
    | some e => .error (.capture e)
    | none =>
      let frames := s.store.get 0 s.store.size
      return (Report.stub a.path a.bytes).fill frames

/-- The report of a capture file, or of a path without one. -/
def reportOfFile (settings : Settings) (machine : Nat) (path : String)
    (file : Except FileError ByteView) : Option (Except AnalysisError Report) :=
  match file with
  | .error e => some (.error (.capture (.file e)))
  | .ok view =>
    match CaptureReader.ofFile view with
    | .error e => some (.error (.capture e))
    | .ok reader =>
      let (packets, problem) := reader.read
      reportOf { settings := settings, machine := machine, path := path, bytes := view.size }
        packets problem

end Analysis

end PacketTree
