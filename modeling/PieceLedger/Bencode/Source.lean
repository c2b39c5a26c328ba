import PieceLedger.Bencode.Report
import PieceLedger.FileTree.Content

/-!
Encoded dictionaries taken from memory or from a file.
-/

namespace PieceLedger.Bencode

open Trace

inductive Source where
  | buffer (bytes : Bytes)
  /-- A file; `none` where no path was given. -/
  | file (path : Option Bytes)
  deriving DecidableEq, Repr

def pathName (path : Option Bytes) : Bytes := path.getD (Bytes.ofString "__null__")

inductive Outcome where
  /-- There are no bytes to decode. -/
  | unavailable
  | refused (refusal : Refusal)
  | decoded (entries : Dict)
  deriving Repr

def decoding (buffer : Bytes) : Traced Outcome :=
  match decode buffer with
  | .ok entries => return .decoded entries
  | .error refusal => do
      traceAll refusal.lines
      return .refused refusal

def unreadLine (path : Option Bytes) : Line :=
  .errorWith (.bencode "init" 207) "performing read_file [FILE: " (pathName path) "]"

/--
Fetches and decodes a source.  An empty buffer in memory holds nothing to
decode; an empty file is decoded and refused.
-/
def Source.loading (tree : FileTree) : Source → Traced Outcome
  | .buffer [] => return .unavailable
  | .buffer bytes => decoding bytes
  | .file none => do
      trace (unreadLine none)
      return .unavailable
  | .file (some name) => do
      match ← tree.reading name with
      | .ok bytes => decoding bytes
      | .error _ => do
          trace (unreadLine (some name))
          return .unavailable

def Source.load (tree : FileTree) (source : Source) : Outcome × List Line :=
  ((source.loading tree).result, (source.loading tree).lines)

def Outcome.isDecoded : Outcome → Bool
  | .decoded _ => true
  | _ => false

def Outcome.replace (held : Dict) : Outcome → Dict
  | .unavailable => held
  | .refused _ => []
  | .decoded entries => entries

end PieceLedger.Bencode
