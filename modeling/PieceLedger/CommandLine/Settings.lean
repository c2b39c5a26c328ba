import PieceLedger.CommandLine.Options
import PieceLedger.Decimal
import PieceLedger.Tracker
import PieceLedger.Trace

/-!
The settings that options make.

Options are taken one after the other, and a later one replaces an earlier
one.  Help, version and bad values end the program on the spot.
-/

namespace PieceLedger.CommandLine

structure Settings where
  torrent : Bytes := []
  data : Bytes := []
  infoHash : Bytes := []
  errorLog : Bytes := []
  blockSize : UInt32 := Tracker.defaultBlockSize
  window : UInt32 := Tracker.defaultWindow
  shuffle : Bool := false
  single : Option UInt32 := none
  level : Nat := 0
  /-- Whether a trace level was ever asked for. -/
  tracing : Bool := false
  deriving DecidableEq, Repr

inductive Stop where
  | help
  | version
  | badWindow (value : Int)
  | badBlockSize (value : Int)
  | badPiece (written : Bytes)
  | badOption (cause : Complaint)
  deriving DecidableEq, Repr

def spec (name : String) (letter : Char) (takesArgument : Bool) : OptionSpec :=
  ⟨Bytes.ofString name, letter.toUInt8, takesArgument⟩

def optionTable : OptionTable :=
  [ spec "help" 'h' false,
    spec "version" 'v' false,
    spec "torrent" 't' true,
    spec "file" 'f' true,
    spec "info-hash" 'i' true,
    spec "window" 'w' true,
    spec "block-size" 'b' true,
    spec "shuffle" 's' false,
    spec "piece" 'p' true,
    spec "trace" 'T' true,
    spec "error-log" 'E' true ]

namespace Settings

def maxWindow : Int := 1024

def maxBlockSize : Int := 16 * 1024 * 1024

/-- A number at the front of the argument, taken modulo 2^32 to a signed one. -/
def setWindow (s : Settings) (argument : Bytes) : Except Stop Settings :=
  let value := (Numeral.clamped argument).bmod UInt32.size
  if value < 1 || maxWindow < value then .error (.badWindow value)
  else .ok { s with window := UInt32.ofNat value.toNat }

def setBlockSize (s : Settings) (argument : Bytes) : Except Stop Settings :=
  let value := Numeral.clamped argument
  if value < 1 || maxBlockSize < value then .error (.badBlockSize value)
  else .ok { s with blockSize := UInt32.ofNat value.toNat }

def setPiece (s : Settings) (argument : Bytes) : Except Stop Settings :=
  match Numeral.whole? argument with
  | none => .error (.badPiece argument)
  | some value =>
      if 0xFFFFFFFF < value then .error (.badPiece argument)
      else .ok { s with single := some (UInt32.ofNat value) }

def lowerCase (b : Bytes) : Bytes := b.map fun c => if 65 ≤ c && c ≤ 90 then c + 32 else c

def severityNamed? (argument : Bytes) : Option Trace.Severity :=
  Trace.Severity.every.find? fun severity =>
    lowerCase (Bytes.ofString severity.name) = lowerCase argument

def setLevel (s : Settings) (argument : Bytes) : Settings :=
  match severityNamed? argument with
  | some severity => { s with level := severity.rank, tracing := true }
  | none => { s with level := 0 }

def apply (s : Settings) (letter : Char) (argument : Bytes) : Except Stop Settings :=
  match letter with
  | 'h' => .error .help
  | 'v' => .error .version
  | 't' => .ok { s with torrent := argument }
  | 'f' => .ok { s with data := argument }
  | 'i' => .ok { s with infoHash := argument }
  | 'w' => s.setWindow argument
  | 'b' => s.setBlockSize argument
  | 's' => .ok { s with shuffle := true }
  | 'p' => s.setPiece argument
  | 'T' => .ok (s.setLevel argument)
  | 'E' => .ok { s with errorLog := argument }
  | _ => .ok s

def applyItem (s : Settings) : Item → Except Stop Settings
  | .option letter argument => s.apply (Char.ofNat letter.toNat) (argument.getD [])
  | .complaint cause => .error (.badOption cause)

def ofWords (words : List Bytes) : Except Stop Settings :=
  (scan optionTable words).foldlM applyItem {}

end Settings

end PieceLedger.CommandLine
