import PacketTree.Bytes.Order
import PacketTree.Layer.Basic

/-!
# Reading headers

Fields at fixed places of a payload, whole numbers big-endian. Places are counted from the start of
the payload, and so are the ranges of the properties made from them.

## The model

A header is read by a list of steps, each of which adds to the layer or fails. The first failure
ends the reading: its text becomes the error of the layer, which keeps all that was read before.
-/

namespace PacketTree

/-- Why a header cannot be read further. -/
inductive HeaderError where
  /-- A field ends beyond the payload. -/
  | tooShort (needed actual : Nat)
  /-- A field has a value that makes no sense. -/
  | invalid (field : String) (value : Nat)
deriving DecidableEq, Repr

/-- The error in words. -/
def HeaderError.message : HeaderError → String
  | .tooShort needed actual =>
    "payload too short: need " ++ toString needed ++ " bytes, got " ++ toString actual
  | .invalid field value => "invalid " ++ field ++ ": " ++ toString value

/-- What reading gives. -/
abbrev Header.Result (α : Type) := Except HeaderError α

namespace Header

/-! ### Fields -/

/-- Refuses a payload of fewer bytes. -/
def require (v : ByteView) (needed : Nat) : Result Unit :=
  if v.size < needed then .error (.tooShort needed v.size) else .ok ()

/-- The byte at a place. -/
def byte (v : ByteView) (i : Nat) : Result UInt8 :=
  match v.get? i with
  | some b => .ok b
  | none => .error (.tooShort (i + 1) v.size)

/-- The part of the payload from `a` to before `b`. -/
def view (v : ByteView) (a b : Nat) : Result ByteView :=
  match v.slice? a b with
  | some w => .ok w
  | none => .error (.tooShort b v.size)

/-- The bytes from `a` to before `b`. -/
def bytes (v : ByteView) (a b : Nat) : Result (List UInt8) := (view v a b).map ByteView.toList

/-- The number of `width` bytes from `a` to before `b`. -/
def word (width : Nat) (v : ByteView) (a b : Nat) : Result Nat :=
  match bytes v a b with
  | .error e => .error e
  | .ok bs => if bs.length = width then .ok (ByteOrder.big.number bs) else .error (.tooShort width bs.length)

/-! ### Properties -/

/-- The property of a byte, or of what is made from it. -/
def byteProperty (id : String) (v : ByteView) (i : Nat) (read : Nat → Nat) : Result Property :=
  (byte v i).map fun b => { id := id, value := .ofNat (read b.toNat), range := ⟨i, i + 1⟩ }

/-- The property of a number that fills the bytes from `a` to before `b`. -/
def wordProperty (id : String) (v : ByteView) (a b : Nat) : Result Property :=
  (word (b - a) v a b).map fun n => { id := id, value := .ofNat n, range := ⟨a, b⟩ }

/-- The property of an address, with its text. -/
def addressProperty (id : String) (text : List UInt8 → String) (v : ByteView) (a b : Nat) :
    Result Property :=
  (view v a b).map fun w =>
    { id := id, value := .bytes w, range := ⟨a, b⟩, summary := text w.toList }

/-- The named bits of a number that are set. -/
def setBits (n : Nat) (bits : List (Nat × String)) : List String :=
  (bits.filter fun b => n &&& b.1 ≠ 0).map Prod.snd

/-- The property of a number of single bits, with a truth value for each of them. -/
def flagProperty (id : String) (n : Nat) (range : Span) (bits : List (Nat × String)) : Property :=
  { id := id
    value := .ofNat n
    range := range
    summary := ", ".intercalate (setBits n bits)
    children := bits.map fun b => { id := b.2, value := .bool (n &&& b.1 ≠ 0), range := range } }

/-! ### Headers -/

/-- One step of reading a header. -/
abbrev Step := Layer → Result Layer

/-- Adds a property. -/
def field (p : Result Property) : Step := fun l => p.map l.push

/-- Goes on only if a condition of the header holds. -/
def check (r : Result Unit) : Step := fun l => r.map fun _ => l

/-- Takes the steps in order up to the first that fails. -/
def run : List Step → Layer → Layer
  | [], l => l
  | step :: steps, l =>
    match step l with
    | .ok l => run steps l
    | .error e => { l with error := e.message }

/-- Reads the header of a protocol from the payload of a layer. The new layer carries nothing until
a step says what it carries. -/
def read (name : String) (steps : List Step) (parent : Layer) : Layer :=
  run steps { ns := parent.ns.descend name, payload := parent.payload.tail }

end Header

end PacketTree
