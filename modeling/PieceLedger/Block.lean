import PieceLedger.Bytes

/-!
Blocks of a piece: what is asked for at a time, and what has arrived.
-/

namespace PieceLedger

/-- `length` bytes of a piece from `offset` on. -/
structure Block where
  offset : UInt32
  length : UInt32
  deriving DecidableEq, Repr

structure Received where
  block : Block
  payload : Bytes
  deriving DecidableEq, Repr

/-- The blocks of a piece whose digest was found right, by ascending offset. -/
structure ValidPiece where
  id : UInt32 := 0
  blocks : List Received := []
  deriving DecidableEq, Repr

namespace ValidPiece

def length (p : ValidPiece) : Nat :=
  p.blocks.foldl (fun total b => total + b.payload.length) 0

def content (p : ValidPiece) : Bytes := p.blocks.flatMap Received.payload

end ValidPiece

end PieceLedger
