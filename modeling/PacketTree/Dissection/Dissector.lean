import PacketTree.Frame.Basic
import PacketTree.Namespace.Pattern

/-!
# Dissectors

A dissector looks at a layer and may find a layer in its payload. It names the namespaces it is
called for. Each place that runs dissectors has workers of its own for them, and what a worker
remembers from call to call is a value of the type `σ`.
-/

namespace PacketTree

/-- What a worker makes of a layer. -/
inductive Verdict where
  /-- It found this layer in the payload. -/
  | found (l : Layer)
  /-- It found nothing. -/
  | nothing
  /-- It broke down. -/
  | fault

/-- A way to find layers. -/
structure Dissector (σ : Type) where
  /-- The name. -/
  name : String
  /-- The namespaces it is called for. -/
  patterns : List Pattern
  /-- What a new worker remembers. -/
  fresh : σ
  /-- Looks at a layer of a frame. -/
  analyze : σ → Frame → Nat → σ × Verdict

/-- A dissector at work. -/
structure Worker (σ : Type) where
  /-- The dissector. -/
  dissector : Dissector σ
  /-- What it remembers. -/
  memory : σ

variable {σ : Type}

namespace Dissector

/-- A dissector that remembers nothing. -/
def stateless (name : String) (patterns : List Pattern) (memory : σ)
    (analyze : Frame → Nat → Option Layer) : Dissector σ where
  name := name
  patterns := patterns
  fresh := memory
  analyze := fun s f id =>
    (s, match analyze f id with
      | some l => .found l
      | none => .nothing)

/-- The dissector is called for a namespace. -/
def selects (d : Dissector σ) (ns : Namespace) : Bool := d.patterns.any (·.selects ns)

/-- A new worker. -/
def worker (d : Dissector σ) : Worker σ := ⟨d, d.fresh⟩

end Dissector

namespace Worker

/-- The worker looks at a layer. -/
def call (w : Worker σ) (f : Frame) (id : Nat) : Worker σ × Verdict :=
  let (memory, verdict) := w.dissector.analyze w.memory f id
  ({ w with memory := memory }, verdict)

/-- All workers that are called for a namespace look at a layer, one after the other: the layers
they found, in that order, or nothing if one breaks down. -/
def callAll (f : Frame) (id : Nat) (ns : Namespace) :
    List (Worker σ) → List (Worker σ) × Option (List Layer)
  | [] => ([], some [])
  | w :: ws =>
    if w.dissector.selects ns then
      match w.call f id with
      | (w, .fault) => (w :: ws, none)
      | (w, .nothing) =>
        let (ws, found) := callAll f id ns ws
        (w :: ws, found)
      | (w, .found l) =>
        let (ws, found) := callAll f id ns ws
        (w :: ws, found.map (l :: ·))
    else
      let (ws, found) := callAll f id ns ws
      (w :: ws, found)

end Worker

end PacketTree
