import PieceLedger.Torrent
import PieceLedger.Sha1
import PieceLedger.Bencode.Value

/-!
Torrents read from bencoded dictionaries.

Everything about a torrent comes from the dictionary under `info`; its digest,
taken over the bytes as written, is the info hash.  A single-file torrent has
an integer `length`; otherwise `files` lists lengths and paths, and the length
is their sum modulo 2^64.
-/

namespace PieceLedger.Torrent

open Bencode

inductive InfoFlaw where
  | pieceLengthMissing
  | pieceLengthRange (written : Int64)
  | digestsMissing
  | digestsRagged (length : Nat)
  | lengthNegative
  | contentMissing
  | fileNotDict
  | fileLengthInvalid
  | filePathMissing
  | nameNotText
  | nameInvalid (name : Bytes)
  | filePathEmpty
  deriving DecidableEq, Repr

def key (name : String) : Bytes := Bytes.ofString name

/-! ## Files -/

def isPlainName (name : Bytes) : Bool :=
  name ≠ [] && name ≠ [46] && name ≠ [46, 46] && !name.contains 47 && !name.contains 0

def readName : Value → Except InfoFlaw Bytes
  | .text t => if isPlainName t.bytes then .ok t.bytes else .error (.nameInvalid t.bytes)
  | _ => .error .nameNotText

def readPath (items : List Value) : Except InfoFlaw (List Bytes) :=
  match items.mapM readName with
  | .error flaw => .error flaw
  | .ok [] => .error .filePathEmpty
  | .ok path => .ok path

def readSize? (entries : Dict) : Option UInt64 :=
  match entries.integer? (key "length") with
  | some n => if n < 0 then none else some n.toUInt64
  | none => none

def readFile : Value → Except InfoFlaw FileSpan
  | .dict entries =>
      match readSize? entries with
      | none => .error .fileLengthInvalid
      | some length =>
          match Dict.list? entries (key "path") with
          | none => .error .filePathMissing
          | some items =>
              match readPath items with
              | .error flaw => .error flaw
              | .ok path => .ok ⟨path, length⟩
  | _ => .error .fileNotDict

def totalLength (files : List FileSpan) : UInt64 :=
  files.foldl (fun total file => total + file.length) 0

/-! ## The info dictionary -/

def readPieceLength (info : Dict) : Except InfoFlaw UInt32 :=
  match info.integer? (key "piece length") with
  | none => .error .pieceLengthMissing
  | some n =>
      if n ≤ 0 || 0xFFFFFFFF < n then .error (.pieceLengthRange n)
      else .ok n.toUInt64.toUInt32

def readDigests (info : Dict) : Except InfoFlaw (List Digest) :=
  match info.text? (key "pieces") with
  | none => .error .digestsMissing
  | some bytes =>
      if bytes.length % 20 ≠ 0 then .error (.digestsRagged bytes.length)
      else .ok (Digest.slices bytes)

def readContent (info : Dict) : Except InfoFlaw (UInt64 × List FileSpan) :=
  match info.integer? (key "length") with
  | some n => if n < 0 then .error .lengthNegative else .ok (n.toUInt64, [])
  | none =>
      match info.list? (key "files") with
      | none => .error .contentMissing
      | some items =>
          match items.mapM readFile with
          | .error flaw => .error flaw
          | .ok files => .ok (totalLength files, files)

def ofInfo (info : Dict) : Except InfoFlaw Torrent :=
  match readPieceLength info with
  | .error flaw => .error flaw
  | .ok pieceLength =>
      match readDigests info with
      | .error flaw => .error flaw
      | .ok digests =>
          match readContent info with
          | .error flaw => .error flaw
          | .ok (length, files) =>
              .ok {
                name := (info.text? (key "name")).getD []
                length, pieceLength, digests, files
                infoHash := Sha1.hash (Value.dict info).encode }

inductive Flaw where
  | infoMissing
  | info (flaw : InfoFlaw)
  | sizes (flaw : SizeFlaw)
  deriving DecidableEq, Repr

def ofDict (entries : Dict) : Except Flaw Torrent :=
  match entries.dict? (key "info") with
  | none => .error .infoMissing
  | some info =>
      match ofInfo info with
      | .error flaw => .error (.info flaw)
      | .ok unchecked =>
          match unchecked.checkSizes with
          | .error flaw => .error (.sizes flaw)
          | .ok torrent => .ok torrent

end PieceLedger.Torrent
