import PacketTree.Bytes.View
import PacketTree.Json.Basic
import PacketTree.Time

/-!
# Values

What a field of a packet can hold. Values of one type are compared as their type compares: instants
by the point in time whatever clock shows them, doubles numerically, views by their bytes and range.
-/

namespace PacketTree

/-- The value of a field. -/
inductive Value where
  /-- No value. -/
  | nil
  /-- A truth value. -/
  | bool (b : Bool)
  /-- A signed whole number. -/
  | int (i : Int64)
  /-- An unsigned whole number. -/
  | uint (n : UInt64)
  /-- A double. -/
  | double (x : Double)
  /-- A text. -/
  | string (s : String)
  /-- A range of captured bytes. -/
  | bytes (v : ByteView)
  /-- An instant, as shown by a clock some seconds ahead of UTC. -/
  | timestamp (t : Instant) (offset : Int)
  /-- A list of values. -/
  | array (items : List Value)
  /-- Values by name, the names in increasing order. -/
  | map (entries : List (String × Value))
deriving Inhabited

namespace Value

/-- An unsigned whole number from a natural number below `2 ^ 64`. -/
def ofNat (n : Nat) : Value := .uint (UInt64.ofNat n)

/-- Puts an entry into its place by name; an entry of the same name is replaced. -/
def insertEntry (name : String) (x : Value) : List (String × Value) → List (String × Value)
  | [] => [(name, x)]
  | (n, y) :: rest =>
    if name < n then (name, x) :: (n, y) :: rest
    else if name = n then (name, x) :: rest
    else (n, y) :: insertEntry name x rest

/-- The map of some entries, of which the last of each name counts. -/
def ofEntries (entries : List (String × Value)) : Value :=
  .map (entries.foldl (fun m e => insertEntry e.1 e.2 m) [])

/-! ### Access -/

/-- There is no value. -/
def isNil : Value → Bool
  | .nil => true
  | _ => false

/-- The truth value. -/
def bool? : Value → Option Bool
  | .bool b => some b
  | _ => none

/-- The value as a natural number: any whole number that is not negative, and a truth value as one
or zero. -/
def nat? : Value → Option Nat
  | .uint n => some n.toNat
  | .int i => if 0 ≤ i.toInt then some i.toInt.toNat else none
  | .bool b => some (if b then 1 else 0)
  | _ => none

/-- The value as a signed whole number of 64 bits. -/
def int? : Value → Option Int
  | .int i => some i.toInt
  | .uint n => if n.toNat < 0x8000000000000000 then some n.toNat else none
  | _ => none

/-- The value as a double: any number, rounded where it has to be. -/
def double? : Value → Option Double
  | .double x => some x
  | .int i => some (Double.ofInt i.toInt)
  | .uint n => some (Double.ofNat n.toNat)
  | _ => none

/-- The text. -/
def string? : Value → Option String
  | .string s => some s
  | _ => none

/-- The bytes. -/
def bytes? : Value → Option ByteView
  | .bytes v => some v
  | _ => none

/-- The items of a list. -/
def array? : Value → Option (List Value)
  | .array items => some items
  | _ => none

/-- The entries of a map. -/
def map? : Value → Option (List (String × Value))
  | .map entries => some entries
  | _ => none

/-- The number of items, entries or bytes; a text counts the bytes of its encoding. -/
def size : Value → Nat
  | .array items => items.length
  | .map entries => entries.length
  | .string s => s.utf8ByteSize
  | .bytes v => v.size
  | _ => 0

/-- Nothing is in it. -/
def isEmpty (x : Value) : Bool := x.size = 0

/-! ### Comparison -/

mutual

/-- Equality of values. -/
def eq : Value → Value → Bool
  | .nil, .nil => true
  | .bool a, .bool b => a = b
  | .int a, .int b => a = b
  | .uint a, .uint b => a = b
  | .double a, .double b => a.eq b
  | .string a, .string b => a = b
  | .bytes a, .bytes b => decide (a.Alike b)
  | .timestamp a _, .timestamp b _ => a = b
  | .array a, .array b => eqItems a b
  | .map a, .map b => eqEntries a b
  | _, _ => false

/-- Equality item by item. -/
def eqItems : List Value → List Value → Bool
  | [], [] => true
  | a :: as, b :: bs => eq a b && eqItems as bs
  | _, _ => false

/-- Equality entry by entry. -/
def eqEntries : List (String × Value) → List (String × Value) → Bool
  | [], [] => true
  | (m, a) :: as, (n, b) :: bs => m = n && eq a b && eqEntries as bs
  | _, _ => false

end

/-! ### The document of a value -/

mutual

/-- The JSON form: bytes in hexadecimal, an instant as its text or nothing where it has none. -/
def toJson : Value → Json
  | .nil => .null
  | .bool b => .bool b
  | .int i => .int i.toInt
  | .uint n => .nat n.toNat
  | .double x => .double x
  | .string s => .string s
  | .bytes v => .string v.hex
  | .timestamp t offset => match t.text? offset with
    | some text => .string text
    | none => .null
  | .array items => .array (itemsToJson items)
  | .map entries => .object (entriesToJson entries)

/-- The JSON forms of a list of values. -/
def itemsToJson : List Value → List Json
  | [] => []
  | x :: xs => x.toJson :: itemsToJson xs

/-- The JSON forms of named values. -/
def entriesToJson : List (String × Value) → List (String × Json)
  | [] => []
  | (name, x) :: rest => (name, x.toJson) :: entriesToJson rest

end

end Value

end PacketTree
