import PacketTree.Bytes.View

/-!
# Putting bytes in order

Ranges of a byte stream arrive in any order, may repeat and may overlap. They wait as pieces at
their offsets until everything before them has been delivered, and each byte is delivered once.

## The model

The cursor is the offset of the next byte to deliver. Pieces wait in the order of their offsets.
`put` adds a piece and cuts off what is already delivered or covered by an earlier piece, so that
waiting pieces never overlap and none lies before the cursor; `fetch` delivers the pieces that
follow the cursor without a gap. Where pieces differ, the one with the lower offset is kept, and at one
offset the longer.
-/

namespace PacketTree

/-- Bytes at their place in a stream. -/
structure Piece where
  /-- The offset of the first byte. -/
  offset : Nat
  /-- The bytes. -/
  data : ByteView
deriving DecidableEq, Repr

namespace Piece

/-- The offset just past the last byte. -/
def stop (p : Piece) : Nat := p.offset + p.data.size

/-- The part of a piece from an offset on. -/
def cut (p : Piece) (covered : Nat) : Piece :=
  if p.offset < covered then ⟨covered, p.data.drop (covered - p.offset)⟩ else p

/-- Puts a piece into its place among pieces in the order of their offsets. Of two pieces at one
offset the longer is kept, and of two equally long ones the earlier. -/
def insert (p : Piece) : List Piece → List Piece
  | [] => [p]
  | q :: qs =>
    if p.offset < q.offset then p :: q :: qs
    else if p.offset = q.offset then (if p.data.size ≤ q.data.size then q else p) :: qs
    else q :: insert p qs

/-- Cuts off, from pieces in the order of their offsets, what lies before an offset or is covered by
an earlier piece. -/
def trim (covered : Nat) : List Piece → List Piece
  | [] => []
  | p :: ps =>
    if p.stop ≤ covered then trim covered ps
    else p.cut covered :: trim (p.cut covered).stop ps

/-- The bytes of the pieces that follow an offset without a gap, the offset behind them, and the
pieces left. -/
def run (cursor : Nat) : List Piece → List ByteView × Nat × List Piece
  | [] => ([], cursor, [])
  | p :: ps =>
    if p.offset = cursor then
      let (views, stop, rest) := run p.stop ps
      (p.data :: views, stop, rest)
    else ([], cursor, p :: ps)

end Piece

/-- The pieces of a stream that wait for their turn. -/
structure Reorder where
  /-- The offset of the next byte to deliver. -/
  cursor : Nat := 0
  /-- The pieces in the order of their offsets. -/
  pending : List Piece := []
deriving DecidableEq, Repr, Inhabited

namespace Reorder

/-- Nothing arrived yet. -/
def empty : Reorder := {}

/-- The number of bytes that wait. -/
def pendingBytes (r : Reorder) : Nat := r.pending.foldr (fun p n => p.data.size + n) 0

/-- Takes in bytes at an offset. No bytes change nothing. -/
def put (r : Reorder) (offset : Nat) (data : ByteView) : Reorder :=
  if data.isEmpty then r
  else { r with pending := Piece.trim r.cursor (Piece.insert ⟨offset, data⟩ r.pending) }

/-- Delivers the bytes that follow the cursor without a gap. -/
def fetch (r : Reorder) : List ByteView × Reorder :=
  let (views, cursor, pending) := Piece.run r.cursor r.pending
  (views, { cursor := cursor, pending := pending })

end Reorder

end PacketTree
