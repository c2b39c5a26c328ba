import PieceLedger.FileTree
import PieceLedger.Trace

/-!
The whole content of a regular file, and what is said when there is none.
-/

namespace PieceLedger

inductive ContentFault where
  | unreachable (reason : PathFault)
  | notRegular
  deriving DecidableEq, Repr

def ContentFault.message (path : Bytes) : ContentFault → Bytes
  | .unreachable reason =>
      Bytes.ofString "error performing stat on file: " ++ path.beforeNul
        ++ Bytes.ofString (".  Reason: " ++ reason.reason)
  | .notRegular =>
      Bytes.ofString "error opening file: " ++ path.beforeNul
        ++ Bytes.ofString ".  Reason: is NOT a regular file"

open Trace

def ContentFault.mark : ContentFault → Mark
  | .unreachable _ => .util "read_file" 48
  | .notRegular => .util "read_file" 53

def ContentFault.line (path : Bytes) (fault : ContentFault) : Line :=
  { severity := .error, text := fault.message path, mark := some fault.mark }

namespace FileTree

def content (tree : FileTree) (path : Bytes) : Except ContentFault Bytes :=
  match tree.resolve path.beforeNul with
  | .error reason => .error (.unreachable reason)
  | .ok location =>
      match tree.entry? location with
      | some (.file content) => .ok content
      | _ => .error .notRegular

def reading (tree : FileTree) (path : Bytes) : Traced (Except ContentFault Bytes) :=
  match tree.content path with
  | .ok bytes => return .ok bytes
  | .error fault => do
      trace (fault.line path)
      return .error fault

end FileTree

end PieceLedger
