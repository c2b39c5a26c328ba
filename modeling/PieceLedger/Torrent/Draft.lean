import PieceLedger.Torrent.Load

/-!
Torrents that are filled in place.

`ofDict` makes a torrent at once.  A draft is one object for all torrents that are
loaded one after the other: its fields are blanked, then filled in the order in
which they are read, digests and files one by one.  Where a flaw is found, all that
was read in front of it has been filled in already and has to be wiped.
-/

namespace PieceLedger.Torrent

open Bencode

structure Draft where
  ready : Bool
  fields : Torrent
  deriving DecidableEq, Repr

namespace Draft

def empty : Draft := ⟨false, .blank⟩

def ofHeld : Option Torrent → Draft
  | none => empty
  | some t => ⟨true, t⟩

/-- Steps on a draft; where a flaw stops them, it stays as they have left it. -/
abbrev Filling := EStateM Flaw Draft

def wipe : Filling Unit := set empty

def write (change : Torrent → Torrent) : Filling Unit :=
  modify fun d => { d with fields := change d.fields }

def check {α : Type} : Except InfoFlaw α → Filling α
  | .ok a => pure a
  | .error flaw => throw (.info flaw)

/-! ## The info dictionary -/

def fillName (info : Dict) : Filling Unit :=
  match info.text? (key "name") with
  | some name => write fun t => { t with name }
  | none => pure ()

def fillPieceLength (info : Dict) : Filling Unit := do
  let pieceLength ← check (readPieceLength info)
  write fun t => { t with pieceLength }

def fillDigest (digest : Digest) : Filling Unit :=
  write fun t => { t with digests := t.digests ++ [digest] }

def fillDigests (info : Dict) : Filling Unit := do
  let digests ← check (readDigests info)
  forM digests fillDigest

def fillFile (v : Value) : Filling Unit := do
  let file ← check (readFile v)
  write fun t => { t with length := t.length + file.length, files := t.files ++ [file] }

def fillContent (info : Dict) : Filling Unit :=
  match info.integer? (key "length") with
  | some n =>
      if n < 0 then throw (.info .lengthNegative)
      else write fun t => { t with length := n.toUInt64 }
  | none =>
      match info.list? (key "files") with
      | none => throw (.info .contentMissing)
      | some items => forM items fillFile

def fillInfo (info : Dict) : Filling Unit := do
  fillName info
  fillPieceLength info
  fillDigests info
  fillContent info

/-! ## Whole torrents -/

def checkFields : Filling Unit := do
  match (← get).fields.checkSizes with
  | .ok _ => pure ()
  | .error flaw => throw (.sizes flaw)

def orWipe (step : Filling Unit) : Filling Unit :=
  tryCatch step fun flaw => do
    wipe
    throw flaw

def finish : Filling Unit := modify fun d => { d with ready := true }

def fill (entries : Dict) : Filling Unit := do
  wipe
  match entries.dict? (key "info") with
  | none => throw .infoMissing
  | some info => do
      write fun t => { t with infoHash := Sha1.hash (Value.dict info).encode }
      orWipe (fillInfo info)
      orWipe checkFields
      finish

def fillPieces (pieceLength : UInt32) (length : UInt64) (digests : List Digest) :
    Filling Unit := do
  wipe
  write fun t => { t with pieceLength, length, digests }
  orWipe checkFields
  finish

/-! ## Loading -/

open Trace

def holding (source : Source) (d : Draft) : Outcome → Traced (Bool × Draft)
  | .decoded entries =>
      match (fill entries).run d with
      | .ok _ d => do
          trace d.fields.loadedLine
          return (true, d)
      | .error flaw d => do
          traceAll flaw.lines
          return (false, d)
  | _ => do
      trace (undecodedLine source)
      return (false, d)

def loading (tree : FileTree) (source : Source) (d : Draft) : Traced (Bool × Draft) := do
  holding source d (← source.loading tree)

def loadingPieces (pieceLength : UInt32) (length : UInt64) (digests : List Digest) (d : Draft) :
    Traced (Bool × Draft) :=
  match (fillPieces pieceLength length digests).run d with
  | .ok _ d => return (true, d)
  | .error flaw d => do
      traceAll flaw.lines
      return (false, d)

structure Loading where
  ok : Bool
  draft : Draft
  lines : List Line
  deriving DecidableEq, Repr

def Loading.ofTraced (action : Traced (Bool × Draft)) : Loading :=
  ⟨action.result.1, action.result.2, action.lines⟩

def load (tree : FileTree) (source : Source) (d : Draft) : Loading :=
  .ofTraced (loading tree source d)

def loadPieces (pieceLength : UInt32) (length : UInt64) (digests : List Digest) (d : Draft) :
    Loading :=
  .ofTraced (loadingPieces pieceLength length digests d)

end Draft

end PieceLedger.Torrent
