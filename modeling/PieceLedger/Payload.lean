import PieceLedger.Console
import PieceLedger.Torrent

/-!
The files that hold a torrent's content, and the bytes of a span of it.

Each file stands for a part of the content.  Where a file is shorter than its
part, zeros take the place of the missing bytes.
-/

namespace PieceLedger.Payload

structure Part where
  path : Bytes
  offset : UInt64
  length : UInt64
  deriving DecidableEq, Repr

structure OpenPart where
  part : Part
  location : Location
  deriving DecidableEq, Repr

/-! ## Layout -/

def joinPath (directory : Bytes) (path : List Bytes) : Bytes :=
  directory ++ path.flatMap fun name => FileTree.slash :: name

def partsFrom (directory : Bytes) : UInt64 → List FileSpan → List Part
  | _, [] => []
  | offset, file :: rest =>
      ⟨joinPath directory file.path, offset, file.length⟩
        :: partsFrom directory (offset + file.length) rest

/-- The parts of a torrent whose content is at `path`: one file, or the
torrent's files in a directory. -/
def parts (t : Torrent) (path : Bytes) : List Part :=
  if t.files = [] then [⟨path, 0, t.length⟩] else partsFrom path 0 t.files

def openFault (path : Bytes) (reason : PathFault) : Bytes :=
  Bytes.ofString "error opening file: " ++ path.beforeNul
    ++ Bytes.ofString (".  Reason: " ++ reason.reason)

/-- Opens the parts in order, up to the first that cannot be opened; notes
those that it tries. -/
def openParts (c : Console) : List Part → List Part × Console × Option (List OpenPart)
  | [] => ([], c, some [])
  | part :: rest =>
      match c.tree.openRead part.path.beforeNul with
      | .error reason =>
          ([part], c.fail (openFault part.path reason) (some (.program "_open_data" 123)), none)
      | .ok location =>
          match openParts c rest with
          | (tried, c, none) => (part :: tried, c, none)
          | (tried, c, some others) => (part :: tried, c, some (⟨part, location⟩ :: others))

/-! ## Reading -/

/--
Collects `wanted` bytes of a file from `offset` on, fewer where the file ends.
One read hands over `portion offset wanted` bytes, but at least one and no
more than there are; `fuel` bounds the number of reads.
-/
def gather (tree : FileTree) (portion : Nat → Nat → Nat) (location : Location) :
    Nat → Nat → Nat → Except PathFault Bytes
  | 0, _, _ => .ok []
  | fuel + 1, offset, wanted =>
      if wanted = 0 then .ok []
      else
        match tree.read location offset wanted with
        | .error reason => .error reason
        | .ok [] => .ok []
        | .ok (first :: more) =>
            let chunk := (first :: more).take (max 1 (portion offset wanted))
            match gather tree portion location fuel
                (offset + chunk.length) (wanted - chunk.length) with
            | .error reason => .error reason
            | .ok others => .ok (chunk ++ others)

def readFault (path : Bytes) (reason : PathFault) : Bytes :=
  Bytes.ofString "error reading file: " ++ path.beforeNul
    ++ Bytes.ofString (".  Reason: " ++ reason.reason)

def shortLine (path : Bytes) (offset : Nat) : Trace.Line :=
  { severity := .debug
    text := Bytes.ofString "short file: " ++ path.beforeNul
      ++ Bytes.ofString s!" at offset: {offset}"
    mark := some (.program "_read_data" 195) }

def fill (portion : Part → Nat → Nat → Nat) (offset : UInt64) (length : UInt32) :
    List OpenPart → Bytes → Console → Console × Option Bytes
  | [], buffer, c => (c, some buffer)
  | ⟨part, location⟩ :: rest, buffer, c =>
      let partEnd := part.offset + part.length
      let spanEnd := offset + length.toUInt64
      if partEnd ≤ offset || spanEnd ≤ part.offset then
        fill portion offset length rest buffer c
      else
        let first := max offset part.offset
        let wanted := (min spanEnd partEnd - first).toNat
        let start := (first - part.offset).toNat
        match gather c.tree (portion part) location (wanted + 1) start wanted with
        | .error reason =>
            (c.fail (readFault part.path reason) (some (.program "_read_data" 185)), none)
        | .ok found =>
            let c :=
              if found.length < wanted then c.trace (shortLine part.path (start + found.length))
              else c
            fill portion offset length rest
              (buffer.overlay (first - offset).toNat found) c

def read (c : Console) (portion : Part → Nat → Nat → Nat) (files : List OpenPart)
    (offset : UInt64) (length : UInt32) : Console × Option Bytes :=
  fill portion offset length files (List.replicate length.toNat 0) c

end PieceLedger.Payload
