import PieceLedger.Payload
import PieceLedger.Tracker

/-!
Verification of a torrent's pieces against files.

A piece is verified by downloading it from the files: a tracker schedules its
blocks, each batch is received in some arrangement, and the assembled bytes
are compared with the digest.

`Chance` stands for what the program leaves to its surroundings.  The loops
note their turns and arrivals beside what they come to.
-/

namespace PieceLedger.Verification

open Trace

structure Chance where
  /-- The order in which a shuffled batch of a piece arrives. -/
  shuffle : UInt32 → List Block → List Block
  shuffle_perm : ∀ piece batch, (shuffle piece batch).Perm batch
  /-- How much one read of a file hands over, see `Payload.gather`. -/
  portion : Payload.Part → Nat → Nat → Nat

def Chance.usual : Chance where
  shuffle _ batch := batch.reverse
  shuffle_perm _ batch := batch.reverse_perm
  portion _ _ wanted := wanted

structure Plan where
  torrent : Torrent
  files : List Payload.OpenPart
  blockSize : UInt32
  window : UInt32
  shuffled : Bool
  chance : Chance

def Plan.arrange (p : Plan) (piece : UInt32) (batch : List Block) : List Block :=
  if p.shuffled then p.chance.shuffle piece batch else batch

inductive Verdict where
  | valid
  | invalid
  | failed
  deriving DecidableEq, Repr

structure Arrival where
  block : Block
  status : Status
  done : Bool
  deriving DecidableEq, Repr

/-- A turn of the loop: the batch as it was requested, and the arrivals in order. -/
structure Turn where
  batch : List Block
  arrivals : List Arrival
  deriving DecidableEq, Repr

/-- Receives blocks one after the other, and tells whether the last one was
told that the piece is complete; `none` when one cannot be received. -/
def receive (p : Plan) (base : UInt64) :
    List Block → Bool → Tracker → Console →
      List Arrival × Console × Option (Bool × Tracker)
  | [], done, t, c => ([], c, some (done, t))
  | block :: rest, _, t, c =>
      match Payload.read c p.chance.portion p.files (base + block.offset.toUInt64) block.length with
      | (c, none) => ([], c, none)
      | (c, some payload) =>
          let (receipt, c) := c.logging (t.completing block payload)
          let arrival : Arrival := ⟨block, receipt.status, receipt.done⟩
          if receipt.status = .ok then
            let (arrivals, result) := receive p base rest receipt.done receipt.tracker c
            (arrival :: arrivals, result)
          else
            ([arrival],
              c.trace (.error (.program "_verify_piece" 260)
                (s!"performing complete [PIECE: {t.piece}] [OFF: {block.offset}] "
                  ++ s!"[LEN: {block.length}]")),
              none)

/-- Requests and receives batches until an arrival is told that the piece is
complete; `fuel` bounds the number of batches. -/
def drive (p : Plan) (base : UInt64) :
    Nat → Tracker → Console → List Turn × Console × Option Tracker
  | 0, _, c => ([], c, none)
  | fuel + 1, t, c =>
      let ((step, batch), c) := c.logging t.requesting
      if step.status ≠ .ok then
        ([⟨batch, []⟩],
          c.trace (.error (.program "_verify_piece" 230)
            s!"performing next_rqsts [PIECE: {t.piece}]"),
          none)
      else if batch = [] then
        ([⟨batch, []⟩],
          c.trace (.error (.program "_verify_piece" 235)
            s!"no requests for incomplete piece [PIECE: {t.piece}] [REMAINING: {t.remaining}]"),
          none)
      else
        match receive p base (p.arrange t.piece batch) false step.tracker c with
        | (arrivals, c, none) => ([⟨batch, arrivals⟩], c, none)
        | (arrivals, c, some (done, t)) =>
            if done then ([⟨batch, arrivals⟩], c, some t)
            else
              let (turns, result) := drive p base fuel t c
              (⟨batch, arrivals⟩ :: turns, result)

structure Examination where
  console : Console
  verdict : Verdict
  tally : Tally

/-- Verifies one piece.  Each batch holds at least one byte, so the size of
the piece bounds their number. -/
def verifyPiece (p : Plan) (id : UInt32) (c : Console) : Examination :=
  let size := p.torrent.pieceSize id
  let (t, c) := c.logging (Tracker.creating id size p.blockSize p.window)
  match drive p (p.torrent.pieceOffset id) (size.toNat + 1) t c with
  | (_, c, none) => ⟨c, .failed, {}⟩
  | (_, c, some t) =>
      let ((verdict, _), c) := c.logging (t.validating p.torrent)
      ⟨c,
        match verdict with
        | .valid _ => .valid
        | .invalid => .invalid
        | _ => .failed,
        t.tally⟩

end PieceLedger.Verification
