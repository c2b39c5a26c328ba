import PieceLedger.Torrent.Info
import PieceLedger.Bencode.Source

/-!
Loading a torrent in place of the one held so far.

A source that yields no dictionary leaves the torrent held so far in place.
Any later flaw leaves none.
-/

namespace PieceLedger.Torrent

open Trace

def InfoFlaw.line : InfoFlaw → Line
  | .pieceLengthMissing => .error (.metainfo "parse_info" 187) "missing or invalid 'piece length'"
  | .pieceLengthRange written =>
      .error (.metainfo "parse_info" 193) s!"'piece length' out of range: {written.toInt}"
  | .digestsMissing => .error (.metainfo "parse_info" 204) "missing or invalid 'pieces'"
  | .digestsRagged length =>
      .error (.metainfo "parse_info" 210) s!"'pieces' length[{length}] not a multiple of 20"
  | .lengthNegative => .error (.metainfo "parse_info" 231) "negative 'length'"
  | .contentMissing => .error (.metainfo "parse_info" 243) "missing 'length' and 'files'"
  | .fileNotDict => .error (.metainfo "parse_info" 251) "'files' entry is not a dict"
  | .fileLengthInvalid =>
      .error (.metainfo "parse_info" 260) "missing or invalid file 'length'"
  | .filePathMissing => .error (.metainfo "parse_info" 268) "missing or invalid file 'path'"
  | .nameNotText => .error (.metainfo "parse_info" 276) "file 'path' element is not a string"
  | .nameInvalid name =>
      .errorWith (.metainfo "parse_info" 290) "invalid file 'path' element: '" name "'"
  | .filePathEmpty => .error (.metainfo "parse_info" 297) "empty file 'path'"

def SizeFlaw.line : SizeFlaw → Line
  | .pieceLengthZero => .error (.metainfo "validate" 314) "piece length == 0"
  | .countMismatch count expected length pieceLength =>
      .error (.metainfo "validate" 321)
        (s!"number of pieces[{count}] != expected[{expected}] for "
          ++ s!"[LENGTH: {length}] [PIECE_LENGTH: {pieceLength}]")
  | .tooManyPieces => .error (.metainfo "validate" 330) "number of pieces exceeds piece id range"

def Flaw.lines : Flaw → List Line
  | .infoMissing => [.error (.metainfo "init" 124) "missing info section in torrent"]
  | .info flaw => [flaw.line, .error (.metainfo "init" 148) "performing parse_info"]
  | .sizes flaw => [flaw.line]

def loadedLine (t : Torrent) : Line :=
  { severity := .debug
    text := Bytes.ofString "[NAME: " ++ t.name.beforeNul
      ++ Bytes.ofString "] [INFO_HASH: " ++ t.infoHash.toHex
      ++ Bytes.ofString s!"] [LENGTH: {t.length}] [PIECE_LENGTH: {t.pieceLength}]"
      ++ Bytes.ofString s!" [PIECES: {t.pieceCount}]"
    mark := some (.metainfo "init" 159) }

def undecodedLine : Bencode.Source → Line
  | .buffer _ => .error (.metainfo "init" 81) "performing bdecode init"
  | .file path =>
      .errorWith (.metainfo "init" 64) "performing bdecode init [FILE: " (Bencode.pathName path) "]"

def holding (held : Option Torrent) (source : Bencode.Source) :
    Bencode.Outcome → Traced (Bool × Option Torrent)
  | .decoded entries =>
      match ofDict entries with
      | .ok torrent => do
          trace torrent.loadedLine
          return (true, some torrent)
      | .error flaw => do
          traceAll flaw.lines
          return (false, none)
  | _ => do
      trace (undecodedLine source)
      return (false, held)

def loading (tree : FileTree) (held : Option Torrent) (source : Bencode.Source) :
    Traced (Bool × Option Torrent) := do
  holding held source (← source.loading tree)

def loadingPieces (pieceLength : UInt32) (length : UInt64) (digests : List Digest) :
    Traced (Bool × Option Torrent) :=
  match ofPieces pieceLength length digests with
  | .ok torrent => return (true, some torrent)
  | .error flaw => do
      trace flaw.line
      return (false, none)

structure Loading where
  ok : Bool
  held : Option Torrent
  lines : List Line
  deriving DecidableEq, Repr

def Loading.ofTraced (action : Traced (Bool × Option Torrent)) : Loading :=
  ⟨action.result.1, action.result.2, action.lines⟩

def load (tree : FileTree) (held : Option Torrent) (source : Bencode.Source) : Loading :=
  .ofTraced (loading tree held source)

def loadPieces (pieceLength : UInt32) (length : UInt64) (digests : List Digest) : Loading :=
  .ofTraced (loadingPieces pieceLength length digests)

end PieceLedger.Torrent
