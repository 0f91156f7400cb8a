/-!
# Hexadecimal text

Bytes as pairs of lower-case hexadecimal digits, and four digits read as one number.
-/

namespace PacketTree.Text

/-- The lower-case digit of a number below sixteen. -/
def hexDigit (n : Nat) : Char :=
  if n < 10 then Char.ofNat (0x30 + n) else Char.ofNat (0x57 + n)

/-- The value of a hexadecimal digit of either case. -/
def hexDigit? (c : Char) : Option Nat :=
  let n := c.toNat
  if 0x30 ≤ n ∧ n ≤ 0x39 then some (n - 0x30)
  else if 0x61 ≤ n ∧ n ≤ 0x66 then some (n - 0x57)
  else if 0x41 ≤ n ∧ n ≤ 0x46 then some (n - 0x37)
  else none

theorem hexDigit?_hexDigit {n : Nat} (h : n < 16) : hexDigit? (hexDigit n) = some n := by
  have : ∀ m : Fin 16, hexDigit? (hexDigit m.val) = some m.val := by decide
  exact this ⟨n, h⟩

/-- The two digits of a byte. -/
def hexPair (b : UInt8) : List Char := [hexDigit (b.toNat / 16), hexDigit (b.toNat % 16)]

/-- The digits of a sequence of bytes. -/
def hexChars (bytes : List UInt8) : List Char := bytes.flatMap hexPair

/-- The digits of a sequence of bytes, as a text. -/
def hex (bytes : List UInt8) : String := String.ofList (hexChars bytes)

/-- The bytes that pairs of digits stand for; `none` for a stray character or an odd digit. -/
def unhex? : List Char → Option (List UInt8)
  | [] => some []
  | [_] => none
  | a :: b :: rest => do
    let high ← hexDigit? a
    let low ← hexDigit? b
    return UInt8.ofNat (high * 16 + low) :: (← unhex? rest)

theorem unhex?_hexChars (bytes : List UInt8) : unhex? (hexChars bytes) = some bytes := by
  induction bytes with
  | nil => rfl
  | cons b rest ih =>
    have hb : b.toNat < 256 := b.toNat_lt
    have ih' : unhex? (rest.flatMap hexPair) = some rest := ih
    simp only [hexChars, List.flatMap_cons, hexPair, List.cons_append, List.nil_append, unhex?,
      hexDigit?_hexDigit (show b.toNat / 16 < 16 by omega),
      hexDigit?_hexDigit (show b.toNat % 16 < 16 by omega)]
    simp only [bind, Option.bind, pure]
    rw [show b.toNat / 16 * 16 + b.toNat % 16 = b.toNat by omega]
    simp [ih']

end PacketTree.Text
