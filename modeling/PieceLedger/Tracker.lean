import PieceLedger.Torrent
import PieceLedger.Tracker.Notice
import PieceLedger.Sha1.Stream

/-!
The ledger of one piece while it is downloaded.

A tracker cuts its piece into blocks and schedules them in order.  Scheduled
blocks wait in `pending`, at most `window` of them, until they arrive or are
removed; removed blocks may be requested again.  When no byte remains, the
piece is checked against its digest, which consumes the tracker.

Every operation returns its status and the tracker after it, and traces what
happened on the way.  A refused operation changes nothing, except that a
refused arrival is counted.
-/

namespace PieceLedger

open Trace

inductive Status where
  | ok
  | error
  | again
  | unknownBlock
  | invalid
  deriving DecidableEq, Repr

structure Tally where
  requested : Nat := 0
  received : Nat := 0
  rejected : Nat := 0
  removed : Nat := 0
  deriving DecidableEq, Repr

structure Tracker where
  piece : UInt32
  size : UInt32
  blockSize : UInt32
  window : UInt32
  /-- Bytes scheduled so far. -/
  scheduled : UInt32
  /-- Bytes that have not arrived. -/
  remaining : UInt32
  consumed : Bool
  pending : List Block
  completed : List Received
  tally : Tally
  blockSize_pos : 0 < blockSize
  window_pos : 0 < window
  deriving DecidableEq, Repr

namespace Tracker

structure Step where
  status : Status
  tracker : Tracker
  deriving DecidableEq, Repr

/-- What an arrival comes to: whether all of the piece is there, and what is
left of the payload with the sender. -/
structure Receipt extends Step where
  done : Bool
  left : Bytes
  deriving DecidableEq, Repr

def note (t : Tracker) (notice : Notice) : Traced Unit := trace (notice.line t.piece)

def noteIf (t : Tracker) (c : Prop) [Decidable c] (notice : Notice) : Traced Unit :=
  if c then t.note notice else return

def noteAll (t : Tracker) (notices : List Notice) : Traced Unit :=
  traceAll (notices.map (·.line t.piece))

/-! ## Creation -/

/-- A new tracker; a block size or window of 0 stands for the default. -/
def new (piece size blockSize window : UInt32) : Tracker :=
  { piece, size
    blockSize := if blockSize = 0 then defaultBlockSize else blockSize
    window := if window = 0 then defaultWindow else window
    scheduled := 0
    remaining := size
    consumed := false
    pending := []
    completed := []
    tally := {}
    blockSize_pos := by split <;> simp_all [defaultBlockSize, UInt32.pos_iff_ne_zero]
    window_pos := by split <;> simp_all [defaultWindow, UInt32.pos_iff_ne_zero] }

def creating (piece size blockSize window : UInt32) : Traced Tracker := do
  let t := new piece size blockSize window
  t.noteIf (blockSize = 0) .blockSizeDefaulted
  t.noteIf (window = 0) .windowDefaulted
  return t

/-! ## Scheduling -/

def isDone (t : Tracker) : Bool := t.remaining = 0

def refuse (t : Tracker) (status : Status) : Step := ⟨status, t⟩

def blockAt (t : Tracker) (offset : UInt32) : Block :=
  ⟨offset, min t.blockSize (t.size - offset)⟩

/-- At most `room` blocks from `scheduled` on, behind those in `before`
(latest first), and the bytes scheduled after them. -/
def schedule (t : Tracker) : Nat → UInt32 → List Block → List Block × UInt32
  | 0, scheduled, before => (before.reverse, scheduled)
  | room + 1, scheduled, before =>
      if t.size - scheduled = 0 then (before.reverse, scheduled)
      else
        let block := t.blockAt scheduled
        t.schedule room (scheduled + block.length) (block :: before)

def requesting (t : Tracker) : Traced (Step × List Block) :=
  if t.consumed then do
    t.note (.consumed .request)
    return (t.refuse .error, [])
  else do
    let (fresh, scheduled) := t.schedule (t.window.toNat - t.pending.length) t.scheduled []
    t.noteAll (fresh.map .requested)
    return (⟨.ok,
      { t with
        scheduled
        pending := t.pending ++ fresh
        tally := { t.tally with requested := t.tally.requested + fresh.length } }⟩,
    fresh)

def request (t : Tracker) : Step × List Block := t.requesting.result

def requestingInto (t : Tracker) (batch : List Block) : Traced (Step × List Block) := do
  let (step, fresh) ← t.requesting
  return (step, batch ++ fresh)

def requestInto (t : Tracker) (batch : List Block) : Step × List Block :=
  (t.requestingInto batch).result

/-! ## Arrival -/

def reject (t : Tracker) : Step :=
  ⟨.unknownBlock, { t with tally := { t.tally with rejected := t.tally.rejected + 1 } }⟩

def completing (t : Tracker) (block : Block) (payload : Bytes) : Traced Receipt :=
  if t.consumed then do
    t.note (.consumed .complete)
    return { t.refuse .error with done := false, left := payload }
  else if payload.length ≠ block.length.toNat then do
    t.note (.payloadLength block payload.length)
    return { t.reject with done := t.isDone, left := payload }
  else if block ∉ t.pending then do
    t.note (.notPending block)
    return { t.reject with done := t.isDone, left := payload }
  else do
    let after : Tracker :=
      { t with
        remaining := t.remaining - block.length
        pending := t.pending.erase block
        completed := t.completed ++ [⟨block, payload⟩]
        tally := { t.tally with received := t.tally.received + 1 } }
    t.note (.received block after.remaining)
    return { status := .ok, tracker := after, done := after.isDone, left := [] }

def complete (t : Tracker) (block : Block) (payload : Bytes) : Receipt :=
  (t.completing block payload).result

/-! ## Stale requests -/

def removing (t : Tracker) (block : Block) : Traced Step :=
  if t.consumed then do
    t.note (.consumed .remove)
    return t.refuse .error
  else if block ∉ t.pending then return t.refuse .unknownBlock
  else do
    t.note (.removed block)
    return ⟨.ok,
      { t with
        pending := t.pending.erase block
        tally := { t.tally with removed := t.tally.removed + 1 } }⟩

def remove (t : Tracker) (block : Block) : Step := (t.removing block).result

def hasCompleted (t : Tracker) (block : Block) : Bool :=
  t.completed.any fun received => received.block = block

/-- Requests a block again that was scheduled before and is neither pending
nor completed. -/
def adding (t : Tracker) (block : Block) : Traced Step :=
  if t.consumed then do
    t.note (.consumed .add)
    return t.refuse .error
  else if t.window.toNat ≤ t.pending.length then return t.refuse .again
  else if block.offset % t.blockSize ≠ 0 || t.scheduled ≤ block.offset then do
    t.note (.notScheduled block.offset t.scheduled)
    return t.refuse .error
  else if block.length ≠ (t.blockAt block.offset).length then do
    t.note (.unexpectedLength block (t.blockAt block.offset).length)
    return t.refuse .error
  else if block ∈ t.pending || t.hasCompleted block then do
    t.note (.alreadyHeld block)
    return t.refuse .error
  else do
    t.note (.requestedAgain block)
    return ⟨.ok,
      { t with
        pending := t.pending ++ [block]
        tally := { t.tally with requested := t.tally.requested + 1 } }⟩

def add (t : Tracker) (block : Block) : Step := (t.adding block).result

/-! ## Validation -/

def assembled (t : Tracker) : List Received :=
  t.completed.mergeSort fun left right => decide (left.block.offset ≤ right.block.offset)

inductive Verdict where
  /-- The tracker was consumed, or bytes are missing. -/
  | refused
  /-- The torrent has no such piece; nothing can be done with the tracker. -/
  | foreign
  | invalid
  | valid (piece : ValidPiece)
  deriving DecidableEq, Repr

namespace Verdict

/-- The status of a verdict; there is none where nothing can be returned. -/
def status : Verdict → Option Status
  | .refused => some .error
  | .foreign => none
  | .invalid => some .invalid
  | .valid _ => some .ok

/-- The caller's piece after a verdict; only a valid piece takes its place. -/
def replace (held : ValidPiece) : Verdict → ValidPiece
  | .valid piece => piece
  | _ => held

end Verdict

def consume (t : Tracker) : Tracker :=
  { t with consumed := true, pending := [], completed := [] }

def judging (t : Tracker) (torrent : Torrent) (blocks : List Received) (actual : Digest) :
    Option Digest → Traced (Verdict × Tracker)
  | none => do
      t.note (.foreignPiece torrent.pieceCount)
      return (.foreign, t)
  | some expected =>
      if actual ≠ expected then do
        t.note (.digestMismatch actual expected)
        return (.invalid, t.consume)
      else do
        t.note (.validated blocks.length t.size)
        return (.valid ⟨t.piece, blocks⟩, t.consume)

def validating (t : Tracker) (torrent : Torrent) : Traced (Verdict × Tracker) :=
  if t.consumed then do
    t.note (.consumed .validate)
    return (.refused, t)
  else if t.remaining ≠ 0 then do
    t.note (.incomplete t.remaining)
    return (.refused, t)
  else
    let blocks := t.assembled
    match Sha1.Stream.updateAll {} (blocks.map Received.payload) with
    | none => do
        t.note .notHashed
        return (.refused, { t with completed := blocks })
    | some stream => do
        t.judging torrent blocks stream.finish.1 (← torrent.findingDigest t.piece)

def validate (t : Tracker) (torrent : Torrent) : Verdict × Tracker := (t.validating torrent).result

end Tracker

end PieceLedger
