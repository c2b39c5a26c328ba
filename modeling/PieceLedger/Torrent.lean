import PieceLedger.Digest
import PieceLedger.Trace

/-!
Torrents: what is to be downloaded, cut into pieces with expected digests.

The content is one stream of `length` bytes.  Piece `i` is the part of the
stream that starts at `i * pieceLength`; the last piece may be shorter.  The
stream of a torrent with files is their contents one after the other.
-/

namespace PieceLedger

open Trace

structure FileSpan where
  path : List Bytes
  length : UInt64
  deriving DecidableEq, Repr

structure Torrent where
  name : Bytes
  length : UInt64
  pieceLength : UInt32
  digests : List Digest
  files : List FileSpan
  infoHash : Digest
  deriving DecidableEq, Repr

namespace Torrent

def blank : Torrent := ⟨[], 0, 0, [], [], .zero⟩

def pieceCount (t : Torrent) : Nat := t.digests.length

def digest? (t : Torrent) (id : UInt32) : Option Digest := t.digests[id.toNat]?

def findingDigest (t : Torrent) (id : UInt32) : Traced (Option Digest) :=
  match t.digest? id with
  | some digest => return some digest
  | none => do
      trace (.error (.metainfo "get_piece_hash" 344)
        s!"piece[{id}] >= number of pieces[{t.pieceCount}]")
      return none

/-- The size of a piece, 0 where there is no such piece. -/
def pieceSize (t : Torrent) (id : UInt32) : UInt32 :=
  let tail := t.length % t.pieceLength.toUInt64
  if t.pieceCount ≤ id.toNat then 0
  else if id.toNat + 1 = t.pieceCount && tail ≠ 0 then tail.toUInt32
  else t.pieceLength

def pieceOffset (t : Torrent) (id : UInt32) : UInt64 :=
  id.toUInt64 * t.pieceLength.toUInt64

/-! ## Agreement of sizes -/

def expectedCount (length : UInt64) (pieceLength : UInt32) : UInt64 :=
  length / pieceLength.toUInt64 + if length % pieceLength.toUInt64 = 0 then 0 else 1

inductive SizeFlaw where
  | pieceLengthZero
  | countMismatch (count : Nat) (expected length : UInt64) (pieceLength : UInt32)
  | tooManyPieces
  deriving DecidableEq, Repr

def checkSizes (t : Torrent) : Except SizeFlaw Torrent :=
  let expected := expectedCount t.length t.pieceLength
  if t.pieceLength = 0 then .error .pieceLengthZero
  else if expected.toNat ≠ t.pieceCount then
    .error (.countMismatch t.pieceCount expected t.length t.pieceLength)
  else if 0xFFFFFFFF < expected then .error .tooManyPieces
  else .ok t

def ofPieces (pieceLength : UInt32) (length : UInt64) (digests : List Digest) :
    Except SizeFlaw Torrent :=
  checkSizes { blank with pieceLength, length, digests }

end Torrent

end PieceLedger
