/-!
# Room in memory

The items of a list lie in one block of memory, and a block can have a certain size at most. Whoever
asks for more breaks down.

## The model

Only the size of a block is limited; there are as many blocks as are asked for.
-/

namespace PacketTree.Memory

/-- The number of bytes that a block may have. -/
def blockLimit : Nat := 0x7FFFFFFFFFFFFFFF

/-- A block can hold `count` items of `bytes` bytes each. -/
def Fits (count bytes : Nat) : Prop := count * bytes ≤ blockLimit

instance (count bytes : Nat) : Decidable (Fits count bytes) :=
  inferInstanceAs (Decidable (count * bytes ≤ blockLimit))

/-- The number of bytes that are kept of a context that was started. -/
def contextBytes : Nat := 24

/-- There is room for so many contexts, and for a queue with so many places of `bytes` bytes each. -/
def FitsStage (bytes contexts capacity : Nat) : Prop :=
  Fits (max capacity 1) bytes ∧ Fits (max contexts 1) contextBytes

instance (bytes contexts capacity : Nat) : Decidable (FitsStage bytes contexts capacity) :=
  inferInstanceAs (Decidable (_ ∧ _))

end PacketTree.Memory
