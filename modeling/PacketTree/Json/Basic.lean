import PacketTree.Numeric.Double

/-!
# JSON documents

The tree that a JSON text stands for. Members of an object keep their order, and a number keeps
whether it was a whole number that fits 64 bits or a double.
-/

namespace PacketTree

/-- A JSON number. -/
inductive Json.Number where
  /-- A whole number, between `-2 ^ 63` and `2 ^ 64 - 1`. -/
  | int (i : Int)
  /-- Any other number. -/
  | double (x : Double)
deriving DecidableEq, Repr

/-- A JSON document. -/
inductive Json where
  /-- Nothing. -/
  | null
  /-- A truth value. -/
  | bool (b : Bool)
  /-- A number. -/
  | number (n : Json.Number)
  /-- A text. -/
  | string (s : String)
  /-- A list. -/
  | array (items : List Json)
  /-- Named members. -/
  | object (members : List (String × Json))
deriving Repr, Inhabited

namespace Json

/-- A whole number. -/
def nat (n : Nat) : Json := .number (.int n)

/-- A whole number. -/
def int (i : Int) : Json := .number (.int i)

/-- A double, or nothing where it is not finite. -/
def double (x : Double) : Json := if x.isFinite then .number (.double x) else .null

/-- The first member with a name. -/
def member? (name : String) : Json → Option Json
  | .object members => members.lookup name
  | _ => none

end Json

end PacketTree
