import PieceLedger.Bytes

/-!
Trace lines, their levels, and actions that trace.

A line has a severity and the mark of the place that traces it.  A level is a
number: 0 is silence, and a line is written when the rank of its severity does
not exceed the level in force.  An action traces into a log, which knows its
level and puts every line to the test on its own; the action could look at the
level, and that it does not is a matter of proof.

Marks stand between the tag and the text, and they are part of the format: a
file that is both the log and the data to verify is read back with its marks.
-/

namespace PieceLedger.Trace

inductive Severity where
  | error
  | warn
  | debug
  | verbose
  | all
  deriving DecidableEq, Repr

def Severity.rank : Severity → Nat
  | .error => 1
  | .warn => 2
  | .debug => 3
  | .verbose => 4
  | .all => 5

def Severity.every : List Severity := [.error, .warn, .debug, .verbose, .all]

def Severity.name : Severity → String
  | .error => "ERROR"
  | .warn => "WARN"
  | .debug => "DEBUG"
  | .verbose => "VERBOSE"
  | .all => "ALL"

/-! ## Marks -/

structure Mark where
  file : String
  function : String
  number : Nat
  deriving DecidableEq, Repr

namespace Mark

def text (mark : Mark) : String := s!"{mark.file}:{mark.function}.{mark.number}: "

def bencode : String → Nat → Mark := .mk "src/bencode/bencode.cc"

def metainfo : String → Nat → Mark := .mk "src/core/metainfo.cc"

def tracker : String → Nat → Mark := .mk "src/core/piece_tracker.cc"

def util : String → Nat → Mark := .mk "src/support/util.cc"

def program : String → Nat → Mark := .mk "app/cli/cli.cc"

def table : List ((String → Nat → Mark) × List (String × List Nat)) :=
  [ (bencode,
      [ ("init", [156, 164, 207]), ("parse_len", [285, 293, 301, 307]), ("parse_obj", [321, 394]),
        ("parse_int", [417, 424, 438, 445]), ("parse_list", [481]), ("parse_dict", [511, 532]) ]),
    (metainfo,
      [ ("init", [64, 81, 124, 148, 159]),
        ("parse_info", [187, 193, 204, 210, 231, 243, 251, 260, 268, 276, 290, 297]),
        ("validate", [314, 321, 330]), ("get_piece_hash", [344]) ]),
    (tracker,
      [ ("piece_tracker", [51, 56]), ("check_active", [79]), ("next_rqsts", [138]),
        ("complete", [199, 211, 223]), ("rm_pending", [252]),
        ("add_pending", [281, 290, 300, 308]), ("validate", [330, 347, 365, 375, 387]) ]),
    (util, [("read_file", [48, 53])]),
    (program,
      [ ("_open_data", [123]), ("_read_data", [185, 195]), ("_verify_piece", [230, 235, 260]),
        ("main", [511, 531, 545, 555, 567, 574, 583, 609, 648, 651]) ]) ]

def every : List Mark :=
  table.flatMap fun (mark, functions) =>
    functions.flatMap fun (function, numbers) => numbers.map (mark function)

end Mark

/-! ## Lines -/

structure Line where
  severity : Severity
  text : Bytes
  /-- Lines that come from outside have none. -/
  mark : Option Mark := none
  deriving DecidableEq, Repr

def admits (level rank : Nat) : Bool := rank ≠ 0 && rank ≤ level

def admitted (level : Nat) (lines : List Line) : List Line :=
  lines.filter fun line => admits level line.severity.rank

/-- The name of a level, in brackets and nine characters wide. -/
def tag (rank : Nat) : Bytes :=
  let name :=
    match Severity.every.find? fun s => s.rank = rank with
    | some s => s.name
    | none => "NONE"
  (Bytes.ofString ("[" ++ name ++ "]")).padRight 9

def Line.render (line : Line) : Bytes :=
  let mark := (line.mark.map fun m => Bytes.ofString m.text).getD []
  tag line.severity.rank ++ (32 :: mark) ++ line.text ++ [10]

namespace Line

def ofText (severity : Severity) (mark : Mark) (text : String) : Line :=
  { severity, text := Bytes.ofString text, mark := some mark }

def error : Mark → String → Line := ofText .error

def warn : Mark → String → Line := ofText .warn

def debug : Mark → String → Line := ofText .debug

def verbose : Mark → String → Line := ofText .verbose

/-- A line that ends in text from outside, cut at its first zero byte. -/
def errorWith (mark : Mark) (text : String) (detail : Bytes) (ending : String) : Line :=
  { severity := .error
    text := Bytes.ofString text ++ detail.beforeNul ++ Bytes.ofString ending
    mark := some mark }

end Line

/-! ## Actions -/

structure Log where
  level : Nat
  /-- The lines that were written so far, latest first. -/
  lines : List Line := []
  deriving DecidableEq, Repr

namespace Log

def trace (log : Log) (line : Line) : Log :=
  if admits log.level line.severity.rank then { log with lines := line :: log.lines } else log

def traceAll (log : Log) (lines : List Line) : Log := lines.foldl trace log

end Log

abbrev Traced := StateM Log

def trace (line : Line) : Traced Unit := modify fun log => log.trace line

def traceAll (lines : List Line) : Traced Unit := modify fun log => log.traceAll lines

namespace Traced

variable {α : Type}

/-- What an action gives at a level, and the lines that it has written, in order. -/
def runAt (level : Nat) (action : Traced α) : α × List Line :=
  let (a, log) := action.run { level }
  (a, log.lines.reverse)

/-- What an action gives where every line is written. -/
def result (action : Traced α) : α := (action.runAt Severity.all.rank).1

def lines (action : Traced α) : List Line := (action.runAt Severity.all.rank).2

end Traced

end PieceLedger.Trace
