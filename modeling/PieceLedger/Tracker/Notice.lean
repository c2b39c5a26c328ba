import PieceLedger.Block
import PieceLedger.Digest
import PieceLedger.Trace

/-!
What a tracker says about its piece.
-/

namespace PieceLedger.Tracker

open Trace

def defaultBlockSize : UInt32 := 16384

def defaultWindow : UInt32 := 5

inductive Operation where
  | request
  | complete
  | remove
  | add
  | validate
  deriving DecidableEq, Repr

def Operation.name : Operation → String
  | .request => "next_rqsts"
  | .complete => "complete"
  | .remove => "rm_pending"
  | .add => "add_pending"
  | .validate => "validate"

inductive Notice where
  | blockSizeDefaulted
  | windowDefaulted
  | consumed (operation : Operation)
  | requested (block : Block)
  | payloadLength (block : Block) (length : Nat)
  | notPending (block : Block)
  | received (block : Block) (remaining : UInt32)
  | removed (block : Block)
  | notScheduled (offset scheduled : UInt32)
  | unexpectedLength (block : Block) (expected : UInt32)
  | alreadyHeld (block : Block)
  | requestedAgain (block : Block)
  | incomplete (remaining : UInt32)
  | notHashed
  | foreignPiece (count : Nat)
  | digestMismatch (actual expected : Digest)
  | validated (blocks : Nat) (size : UInt32)
  deriving DecidableEq, Repr

def Notice.line (piece : UInt32) : Notice → Line
  | .blockSizeDefaulted =>
      .warn (.tracker "piece_tracker" 51)
        s!"[PIECE: {piece}] block size == 0 -using default: {defaultBlockSize}"
  | .windowDefaulted =>
      .warn (.tracker "piece_tracker" 56)
        s!"[PIECE: {piece}] max pending == 0 -using default: {defaultWindow}"
  | .consumed operation =>
      .error (.tracker "check_active" 79)
        s!"[PIECE: {piece}] {operation.name} called on consumed piece tracker"
  | .requested b =>
      .verbose (.tracker "next_rqsts" 138)
        s!"[PIECE: {piece}] REQUEST [OFF: {b.offset}] [LEN: {b.length}]"
  | .payloadLength b length =>
      .warn (.tracker "complete" 199)
        s!"[PIECE: {piece}] REJECT [OFF: {b.offset}] [LEN: {b.length}] payload length: {length}"
  | .notPending b =>
      .warn (.tracker "complete" 211)
        s!"[PIECE: {piece}] REJECT [OFF: {b.offset}] [LEN: {b.length}] unrecognized block"
  | .received b remaining =>
      .verbose (.tracker "complete" 223)
        s!"[PIECE: {piece}] RECV [OFF: {b.offset}] [LEN: {b.length}] [REMAINING: {remaining}]"
  | .removed b =>
      .debug (.tracker "rm_pending" 252)
        s!"[PIECE: {piece}] REMOVE [OFF: {b.offset}] [LEN: {b.length}]"
  | .notScheduled offset scheduled =>
      .error (.tracker "add_pending" 281)
        (s!"[PIECE: {piece}] add [OFF: {offset}] not a scheduled block boundary "
          ++ s!"[SCHEDULED: {scheduled}]")
  | .unexpectedLength b expected =>
      .error (.tracker "add_pending" 290)
        s!"[PIECE: {piece}] add [OFF: {b.offset}] [LEN: {b.length}] expected length: {expected}"
  | .alreadyHeld b =>
      .error (.tracker "add_pending" 300)
        s!"[PIECE: {piece}] add [OFF: {b.offset}] [LEN: {b.length}] already pending or completed"
  | .requestedAgain b =>
      .debug (.tracker "add_pending" 308)
        s!"[PIECE: {piece}] RE-REQUEST [OFF: {b.offset}] [LEN: {b.length}]"
  | .incomplete remaining =>
      .error (.tracker "validate" 330)
        s!"[PIECE: {piece}] validate with {remaining} bytes remaining"
  | .notHashed => .error (.tracker "validate" 347) s!"[PIECE: {piece}] performing sha1 update"
  | .foreignPiece count =>
      .error (.tracker "validate" 365)
        (s!"internal error: piece tracker has piece id[{piece}] not in metainfo"
          ++ s!"[{count} pieces]")
  | .digestMismatch actual expected =>
      { severity := .warn
        text := Bytes.ofString s!"invalid sha1[piece: {piece}] actual: " ++ actual.toHex
          ++ Bytes.ofString " != expected: " ++ expected.toHex
        mark := some (.tracker "validate" 375) }
  | .validated blocks size =>
      .debug (.tracker "validate" 387)
        s!"[PIECE: {piece}] VALIDATE [BLOCKS: {blocks}] [LEN: {size}]"

end PieceLedger.Tracker
