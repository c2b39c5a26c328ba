import PieceLedger.Bytes

/-!
What stands at a place in a file tree: a file, a directory or a device.

`Entry.read` gives the bytes from an offset on.  A device is read in the same
way as a file; it keeps nothing of what is written to it.
-/

namespace PieceLedger

inductive PathFault where
  | notFound
  | notDirectory
  | isDirectory
  | nameTooLong
  | notConnected
  | notSeekable
  deriving DecidableEq, Repr

def PathFault.reason : PathFault → String
  | .notFound => "No such file or directory"
  | .notDirectory => "Not a directory"
  | .isDirectory => "Is a directory"
  | .nameTooLong => "File name too long"
  | .notConnected => "No such device or address"
  | .notSeekable => "Illegal seek"

inductive Device where
  | null
  /-- Zeros without end. -/
  | zero
  /-- Noise without end. -/
  | noise
  /-- What is written here is shown on standard output. -/
  | output
  /-- What is written here is shown on standard error. -/
  | errors
  | terminal
  deriving DecidableEq, Repr

/-- The byte of the noise at a position; one fixed sequence stands for all. -/
def Device.noiseAt (position : Nat) : UInt8 :=
  UInt8.ofNat (position * position * 59 + position * 167 + position / 256 + 101)

def Device.read (offset wanted : Nat) : Device → Except PathFault Bytes
  | .null => .ok []
  | .zero => .ok (List.replicate wanted 0)
  | .noise => .ok ((List.range wanted).map fun k => noiseAt (offset + k))
  | .output | .errors => .error .notSeekable
  | .terminal => .error .notConnected

inductive Entry where
  | file (content : Bytes)
  | directory
  | device (kind : Device)
  deriving DecidableEq, Repr

namespace Entry

def check : Entry → Except PathFault Unit
  | .device .terminal => .error .notConnected
  | _ => .ok ()

def read (offset wanted : Nat) : Entry → Except PathFault Bytes
  | .file content => .ok ((content.drop offset).take wanted)
  | .directory => .error .isDirectory
  | .device kind => kind.read offset wanted

def bytes? : Entry → Option Bytes
  | .file content => some content
  | .device .null => some []
  | _ => none

end Entry

end PieceLedger
