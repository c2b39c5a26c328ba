import PieceLedger.FileTree.Content

/-!
Where a program's output goes.

A console writes to standard output, to standard error, and to the log, which
is one of these two or a file that only grows.  The log is standard error
until a log is opened, after it is closed, and after a log could not be
opened.
-/

namespace PieceLedger

open Trace

inductive Outlet where
  | output
  | errors
  | file (location : Location)
  deriving DecidableEq, Repr

structure Console where
  tree : FileTree
  level : Nat := 0
  log : Outlet := .errors
  lastError : Bytes := []
  /-- Everything written so far, latest first. -/
  written : List (Outlet × Bytes) := []
  deriving DecidableEq, Repr

namespace Console

/-- The outlet that text comes out of: writing to a device that shows a
standard stream is writing to the stream. -/
def outletAt (tree : FileTree) : Outlet → Outlet
  | .file location =>
      match tree.entry? location with
      | some (.device .output) => .output
      | some (.device .errors) => .errors
      | _ => .file location
  | outlet => outlet

def write (c : Console) (outlet : Outlet) (text : Bytes) : Console :=
  let tree :=
    match outlet with
    | .file location => c.tree.append location text
    | _ => c.tree
  { c with tree, written := (outletAt c.tree outlet, text) :: c.written }

def print (c : Console) (text : Bytes) : Console := c.write .output text

def printError (c : Console) (text : Bytes) : Console := c.write .errors text

def textOf (c : Console) (outlet : Outlet) : Bytes :=
  c.written.reverse.flatMap fun (target, text) => if target = outlet then text else []

/-! ## The log -/

def trace (c : Console) (line : Line) : Console :=
  if admits c.level line.severity.rank then c.write c.log line.render else c

def traceAll (c : Console) (lines : List Line) : Console := lines.foldl trace c

def logging {α : Type} (c : Console) (action : Traced α) : α × Console :=
  let (a, lines) := action.runAt c.level
  (a, lines.foldl (fun c line => c.write c.log line.render) c)

def maxErrorLength : Nat := 4095

def fail (c : Console) (message : Bytes) (mark : Option Mark := none) : Console :=
  { c.trace { severity := .error, text := message, mark } with
    lastError := message.take maxErrorLength }

def closeLog (c : Console) : Console := { c with log := .errors }

def openFault (path : Bytes) (reason : PathFault) : Bytes :=
  Bytes.ofString "error opening trace log file: " ++ path.beforeNul
    ++ Bytes.ofString (".  Reason: " ++ reason.reason ++ "\n")

/-- Directs the log to a path, or to standard error if that fails. -/
def openLog (c : Console) (path : Bytes) : Bool × Console :=
  let c := c.closeLog
  if path = Bytes.ofString "/dev/stdout" then (true, { c with log := .output })
  else if path = Bytes.ofString "/dev/stderr" then (true, c)
  else
    match c.tree.openAppend path.beforeNul with
    | .error reason => (false, c.printError (openFault path reason))
    | .ok (location, tree) =>
        (true, { c with tree, log := .file location }.write (.file location) [])

/-! ## Commands -/

inductive Command where
  | setLevel (level : Nat)
  | openLog (path : Bytes)
  | closeLog
  | emit (severity : Severity) (message : Bytes)
  | fail (message : Bytes)
  deriving DecidableEq, Repr

def perform (c : Console) : Command → Bool × Console
  | .setLevel level => (true, { c with level })
  | .openLog path => c.openLog path
  | .closeLog => (true, c.closeLog)
  | .emit severity message => (true, c.trace { severity, text := message.beforeNul })
  | .fail message => (true, c.fail message.beforeNul)

end Console

end PieceLedger
