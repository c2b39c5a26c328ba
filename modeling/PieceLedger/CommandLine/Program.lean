import PieceLedger.CommandLine.Usage
import PieceLedger.Torrent.Load
import PieceLedger.Verification

/-!
The program: it verifies the pieces of a torrent and prints a table of them.

`run` takes the words of the command line and the file tree, and gives the
console after the program has ended together with its exit status; `runNoted`
notes besides every file of the content that the program tries to open, and
every piece that it starts to verify.
-/

namespace PieceLedger.CommandLine

open Verification

/-! ## Printed text -/

def heading (s : Settings) (t : Torrent) : Bytes :=
  Bytes.ofString (cyan ++ "Verifying" ++ colourOff ++ ": " ++ white) ++ t.name.beforeNul
    ++ Bytes.ofString (colourOff ++ "\n")
    ++ Bytes.ofString "  info hash:    " ++ t.infoHash.toHex
    ++ Bytes.ofString s!"\n  length:       {t.length}\n"
    ++ Bytes.ofString s!"  piece length: {t.pieceLength}\n"
    ++ Bytes.ofString s!"  pieces:       {t.pieceCount}\n"
    ++ Bytes.ofString s!"  block size:   {s.blockSize}\n"
    ++ Bytes.ofString s!"  window:       {s.window}\n"

def tableRule : String := "+----------+------------+----------+\n"

def tableHead : String :=
  tableRule
    ++ "| " ++ yellow ++ "Piece" ++ colourOff
    ++ "    | " ++ blue ++ "Size" ++ colourOff
    ++ "       | " ++ magenta ++ "Status" ++ colourOff ++ "   |\n"
    ++ tableRule

def coloured (colour : String) (text : Bytes) : Bytes :=
  Bytes.ofString colour ++ text ++ Bytes.ofString colourOff

/-- The end of a row; the row of a valid piece is overprinted by the next. -/
def verdictCell (valid : Bool) : Bytes :=
  if valid then coloured green ((Bytes.ofString "VALID").padRight 8) ++ Bytes.ofString " |\r"
  else coloured red ((Bytes.ofString "INVALID").padRight 8) ++ Bytes.ofString " |\n"

def tableRow (id size : UInt32) (valid : Bool) : Bytes :=
  Bytes.ofString "| " ++ (Decimal.write id.toNat).padLeft 8
    ++ Bytes.ofString " | " ++ (Decimal.write size.toNat).padLeft 10
    ++ Bytes.ofString " | " ++ verdictCell valid

structure Totals where
  requested : Nat := 0
  received : Nat := 0
  valid : Nat := 0
  invalid : Nat := 0
  deriving DecidableEq, Repr

def summary (totals : Totals) (total : Nat) : Bytes :=
  Bytes.ofString ("\n" ++ tableRule)
    ++ Bytes.ofString "blocks requested: " ++ Decimal.write totals.requested
    ++ Bytes.ofString " received: " ++ Decimal.write totals.received
    ++ Bytes.ofString "\npieces valid: " ++ coloured green (Decimal.write totals.valid)
    ++ Bytes.ofString " invalid: "
    ++ coloured (if totals.invalid = 0 then colourOff else red) (Decimal.write totals.invalid)
    ++ Bytes.ofString " total: " ++ Decimal.write total ++ [10]

/-! ## The pieces -/

inductive Deed where
  | opens (part : Payload.Part)
  | verifies (piece : UInt32)
  deriving DecidableEq, Repr

/-- Verifies pieces in order, and notes those that it starts with; `none` when
a piece could not be verified. -/
def verifyPieces (p : Plan) :
    List UInt32 → Totals → Console → List UInt32 × Console × Option Totals
  | [], totals, c => ([], c, some totals)
  | id :: rest, totals, c =>
      let e := verifyPiece p id c
      if e.verdict = .failed then
        let c := e.console.print [10]
        let c := complain 648 c (Bytes.ofString s!"error verifying piece: {id}\n")
        ([id], if c.lastError = [] then c else complain 651 c (c.lastError ++ [10]), none)
      else
        let valid := e.verdict = .valid
        let (started, result) := verifyPieces p rest
          { requested := totals.requested + e.tally.requested
            received := totals.received + e.tally.received
            valid := totals.valid + if valid then 1 else 0
            invalid := totals.invalid + if valid then 0 else 1 }
          (e.console.print (tableRow id (p.torrent.pieceSize id) valid))
        (id :: started, result)

def selected (s : Settings) (t : Torrent) : List UInt32 :=
  match s.single with
  | some id => [id]
  | none => (List.range t.pieceCount).map UInt32.ofNat

def verify (s : Settings) (t : Torrent) (chance : Chance) (c : Console) :
    List Deed × Console × UInt8 :=
  match Payload.openParts c (Payload.parts t s.data) with
  | (tried, c, none) => (tried.map .opens, complain 609 c (c.lastError ++ [10]), failure)
  | (tried, c, some files) =>
      let plan : Plan :=
        { torrent := t, files
          blockSize := s.blockSize
          window := s.window
          shuffled := s.shuffle
          chance }
      match verifyPieces plan (selected s t) {} (c.print (Bytes.ofString tableHead)) with
      | (started, c, none) => (tried.map .opens ++ started.map .verifies, c, failure)
      | (started, c, some totals) =>
          let total := (selected s t).length
          (tried.map .opens ++ started.map .verifies, c.print (summary totals total),
            if totals.valid = total then success else failure)

/-! ## Before the pieces -/

inductive Mismatch where
  | badInfoHash (written : Bytes)
  | otherInfoHash (actual expected : Digest)
  | noSuchPiece (id : UInt32) (count : Nat)
  deriving DecidableEq, Repr

def Mismatch.number : Mismatch → Nat
  | .badInfoHash _ => 567
  | .otherInfoHash _ _ => 574
  | .noSuchPiece _ _ => 583

def Mismatch.message : Mismatch → Bytes
  | .badInfoHash written =>
      Bytes.ofString "bad info hash: " ++ written.beforeNul
        ++ Bytes.ofString " (expected 40 hex chars)\n"
  | .otherInfoHash actual expected =>
      Bytes.ofString "info hash mismatch: torrent: " ++ actual.toHex
        ++ Bytes.ofString " != expected: " ++ expected.toHex ++ [10]
  | .noSuchPiece id count =>
      Bytes.ofString s!"piece {id} out of range (number of pieces: {count})\n"

def checkInfoHash (s : Settings) (t : Torrent) : Except Mismatch Unit :=
  if s.infoHash = [] then .ok ()
  else
    match Digest.zero.readHex s.infoHash with
    | (false, _) => .error (.badInfoHash s.infoHash)
    | (true, expected) =>
        if expected = t.infoHash then .ok () else .error (.otherInfoHash t.infoHash expected)

def checkPiece (s : Settings) (t : Torrent) : Except Mismatch Unit :=
  match s.single with
  | some id => if t.pieceCount ≤ id.toNat then .error (.noSuchPiece id t.pieceCount) else .ok ()
  | none => .ok ()

def verifyTorrent (s : Settings) (chance : Chance) (c : Console) : List Deed × Console × UInt8 :=
  let ((_, held), c) := c.logging (Torrent.loading c.tree none (.file (some s.torrent)))
  match held with
  | none =>
      ([], complain 555 c
        (Bytes.ofString "error reading torrent file: " ++ s.torrent.beforeNul ++ [10]), failure)
  | some t =>
      match checkInfoHash s t, checkPiece s t with
      | .error mismatch, _ => ([], complain mismatch.number c mismatch.message, failure)
      | _, .error mismatch => ([], complain mismatch.number c mismatch.message, failure)
      | .ok (), .ok () =>
          let (deeds, c, status) := verify s t chance (c.print (heading s t))
          (deeds, c.closeLog, status)

def openLog (s : Settings) (c : Console) : Bool × Console :=
  if s.errorLog ≠ [] then c.openLog s.errorLog
  else if s.tracing then c.openLog (Bytes.ofString "/dev/stdout")
  else (true, c)

def execute (s : Settings) (chance : Chance) (c : Console) : List Deed × Console × UInt8 :=
  match openLog s { c with level := s.level } with
  | (false, c) =>
      ([], complain 531 c
        (Bytes.ofString "error opening log file: " ++ s.errorLog.beforeNul ++ [10]), failure)
  | (true, c) =>
      if s.torrent = [] || s.data = [] then
        let c := complain 545 c
          (Bytes.ofString "Error torrent file and data file must be specified.\n")
        ([], c.printError (Bytes.ofString usageText), failure)
      else verifyTorrent s chance c

def runNoted (tree : FileTree) (words : List Bytes) (chance : Chance := .usual) :
    List Deed × Console × UInt8 :=
  match Settings.ofWords (words.map Bytes.beforeNul) with
  | .error stop => ([], stop.conclude { tree })
  | .ok s => execute s chance { tree }

def run (tree : FileTree) (words : List Bytes) (chance : Chance := .usual) : Console × UInt8 :=
  (runNoted tree words chance).2

end PieceLedger.CommandLine
