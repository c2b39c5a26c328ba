import PieceLedger.CommandLine.Settings
import PieceLedger.Console

/-!
What the program says about itself, its options and its colours.
-/

namespace PieceLedger.CommandLine

/-! ## Colours -/

def colourOff : String := "\x1b[0m"

def red : String := "\x1b[01;31m"

def green : String := "\x1b[01;32m"

def yellow : String := "\x1b[01;33m"

def blue : String := "\x1b[01;34m"

def magenta : String := "\x1b[01;35m"

def cyan : String := "\x1b[01;36m"

def white : String := "\x1b[01;37m"

def success : UInt8 := 0

def failure : UInt8 := 255

/-! ## Texts -/

def versionText : String :=
  "ptrk piece download tracker.\n    Version: 0.1.0\n"

def usageText : String :=
  "Usage: ptrk [options]\n"
    ++ "Options:\n"
    ++ "  -h, --help           display this help and exit.\n"
    ++ "  -v, --version        display the version number and exit.\n"
    ++ "  -t, --torrent        torrent file.\n"
    ++ "  -f, --file           data file (directory for multi-file torrents).\n"
    ++ "  -i, --info-hash      expected info hash (hex) of torrent.\n"
    ++ "  -w, --window         max pending block requests (default: 5)\n"
    ++ "  -b, --block-size     block request size (default: 16384)\n"
    ++ "  -s, --shuffle        complete blocks of each batch out of order\n"
    ++ "  -p, --piece          verify single piece <id>\n"
    ++ "  \n"
    ++ "Debug Options:\n"
    ++ "  -T, --trace          tracing (none/error/warn/debug/verbose/all) (default: none)\n"
    ++ "  -E, --error-log      log errors to file <file>\n"
    ++ "  \n"

/-- Prints an error behind the mark of its place, which is in line `number` of the program. -/
def complain (number : Nat) (c : Console) (message : Bytes) : Console :=
  c.printError (Bytes.ofString
    ((Trace.Mark.program "main" number).text ++ red ++ "ERROR" ++ colourOff ++ " ") ++ message)

def Stop.conclude (c : Console) : Stop → Console × UInt8
  | .help => (c.print (Bytes.ofString usageText), success)
  | .version => (c.print (Bytes.ofString versionText), success)
  | .badWindow value =>
      (refuse (Bytes.ofString "window value: " ++ Decimal.writeInt value), failure)
  | .badBlockSize value =>
      (refuse (Bytes.ofString "block size value: " ++ Decimal.writeInt value), failure)
  | .badPiece written => (refuse (Bytes.ofString "piece value: " ++ written.beforeNul), failure)
  | .badOption cause =>
      let c := c.printError (Bytes.ofString "ptrk: " ++ cause.text ++ [10])
      (complain 511 c (Bytes.ofString "unrecognized argument.  Exiting.\n"), failure)
where
  refuse (what : Bytes) : Console :=
    (c.print (Bytes.ofString "Error bad " ++ what ++ Bytes.ofString ".\n")).print
      (Bytes.ofString usageText)

end PieceLedger.CommandLine
