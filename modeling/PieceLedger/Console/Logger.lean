import PieceLedger.Console

/-!
The log as a stream that is held.

There is at most one stream for the log, and a flag that says whether it was
opened for the log alone.  Such a stream is closed before another is opened or
the log is closed; the standard streams never are.  Where no stream is held,
the log is written to standard error.
-/

namespace PieceLedger

open Trace

structure Logger where
  /-- Everything but the log. -/
  base : Console
  stream : Option Outlet := none
  owned : Bool := false
  /-- The streams that were opened and not closed since. -/
  live : List Outlet := []
  deriving DecidableEq, Repr

namespace Logger

def target (l : Logger) : Outlet := l.stream.getD .errors

def trace (l : Logger) (line : Line) : Logger :=
  if admits l.base.level line.severity.rank then
    { l with base := l.base.write l.target line.render }
  else l

def fail (l : Logger) (message : Bytes) : Logger :=
  let l := l.trace { severity := .error, text := message }
  { l with base := { l.base with lastError := message.take Console.maxErrorLength } }

def closeLog (l : Logger) : Logger :=
  match l.stream, l.owned with
  | some stream, true => { l with stream := none, owned := false, live := l.live.erase stream }
  | _, _ => { l with stream := none }

def openLog (l : Logger) (path : Bytes) : Bool × Logger :=
  let l := l.closeLog
  if path = Bytes.ofString "/dev/stdout" then (true, { l with stream := some .output })
  else if path = Bytes.ofString "/dev/stderr" then (true, { l with stream := some .errors })
  else
    match l.base.tree.openAppend path.beforeNul with
    | .error reason => (false, { l with base := l.base.printError (Console.openFault path reason) })
    | .ok (location, tree) =>
        (true,
          { base := { l.base with tree }.write (.file location) []
            stream := some (.file location)
            owned := true
            live := .file location :: l.live })

def perform (l : Logger) : Console.Command → Bool × Logger
  | .setLevel level => (true, { l with base := { l.base with level } })
  | .openLog path => l.openLog path
  | .closeLog => (true, l.closeLog)
  | .emit severity message => (true, l.trace { severity, text := message.beforeNul })
  | .fail message => (true, l.fail message.beforeNul)

def console (l : Logger) : Console := { l.base with log := l.target }

end Logger

end PieceLedger
