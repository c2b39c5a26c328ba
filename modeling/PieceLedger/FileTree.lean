import PieceLedger.FileTree.Entry

/-!
A tree of files and directories, and the paths that lead through it.

A location is the list of names from the root down.  `resolve` follows a path
from the current directory, or from the root when the path starts with a
slash: every name but the last must lead to a directory, `.` stays, `..` goes
up, and a path that ends in a slash must end at a directory.
-/

namespace PieceLedger

abbrev Location := List Bytes

structure FileTree where
  here : Location
  entries : List (Location × Entry)
  deriving DecidableEq, Repr

namespace FileTree

/-! ## Paths -/

def maxNameLength : Nat := 255

def maxPathLength : Nat := 4095

def slash : UInt8 := 47

def dot : Bytes := [46]

def dotDot : Bytes := [46, 46]

def splitPath : Bytes → List Bytes
  | [] => [[]]
  | c :: rest =>
      if c = slash then [] :: splitPath rest
      else
        match splitPath rest with
        | [] => [[c]]
        | first :: others => (c :: first) :: others

def endsInSlash (path : Bytes) : Bool := path.getLast? = some slash

def names (path : Bytes) : List Bytes := (splitPath path).filter (· ≠ [])

/-! ## Looking up -/

def entry? (tree : FileTree) (location : Location) : Option Entry :=
  match location with
  | [] => some .directory
  | _ => tree.entries.lookup location

def step (tree : FileTree) (location : Location) (name : Bytes) : Except PathFault Location :=
  if tree.entry? location ≠ some .directory then .error .notDirectory
  else if name = dot then .ok location
  else if name = dotDot then .ok location.dropLast
  else if maxNameLength < name.length then .error .nameTooLong
  else if tree.entry? (location ++ [name]) = none then .error .notFound
  else .ok (location ++ [name])

def walk (tree : FileTree) (start : Location) (steps : List Bytes) : Except PathFault Location :=
  steps.foldlM tree.step start

def origin (tree : FileTree) (path : Bytes) : Location :=
  if path.head? = some slash then [] else tree.here

def checkLength (path : Bytes) : Except PathFault Unit :=
  if path = [] then .error .notFound
  else if maxPathLength < path.length then .error .nameTooLong
  else .ok ()

/-- The location of the existing entry that `path` leads to; a slash at the
end counts as a last name `.`. -/
def resolve (tree : FileTree) (path : Bytes) : Except PathFault Location := do
  checkLength path
  tree.walk (tree.origin path) (names path ++ if endsInSlash path then [dot] else [])

/-! ## Writing -/

def put (tree : FileTree) (location : Location) (entry : Entry) : FileTree :=
  { tree with
    entries := (location, entry) :: tree.entries.filter fun known => known.1 ≠ location }

def append (tree : FileTree) (location : Location) (extra : Bytes) : FileTree :=
  match tree.entry? location with
  | some (.file content) => tree.put location (.file (content ++ extra))
  | _ => tree

/--
Opens a file for appending and creates it where it is missing.  Only a path
that ends in a proper name can lead to a file; the other paths below a
directory count as directories, whatever is there.
-/
def openAppend (tree : FileTree) (path : Bytes) : Except PathFault (Location × FileTree) := do
  checkLength path
  match (names path).getLast? with
  | none => .error .isDirectory
  | some name =>
      let parent ← tree.walk (tree.origin path) (names path).dropLast
      if tree.entry? parent ≠ some .directory then .error .notDirectory
      else if endsInSlash path || name = dot || name = dotDot then .error .isDirectory
      else if maxNameLength < name.length then .error .nameTooLong
      else
        match tree.entry? (parent ++ [name]) with
        | some .directory => .error .isDirectory
        | some entry => do
            entry.check
            return (parent ++ [name], tree)
        | none => .ok (parent ++ [name], tree.put (parent ++ [name]) (.file []))

def makeWay (tree : FileTree) (start : Location) (steps : List Bytes) : FileTree × Location :=
  steps.foldl
    (fun (grown, location) name =>
      if name = dot then (grown, location)
      else if name = dotDot then (grown, location.dropLast)
      else if grown.entry? (location ++ [name]) = none then
        (grown.put (location ++ [name]) .directory, location ++ [name])
      else (grown, location ++ [name]))
    (tree, start)

def plant (tree : FileTree) (path : Bytes) (entry : Entry) : FileTree :=
  let (grown, parent) := tree.makeWay (tree.origin path) (names path).dropLast
  match (names path).getLast? with
  | none => grown
  | some name => grown.put (parent ++ [name]) entry

/-- The devices of every tree: standard input is empty, and no terminal is
connected. -/
def devices : List (String × Device) :=
  [("null", .null), ("zero", .zero), ("full", .zero), ("random", .noise), ("urandom", .noise),
    ("stdin", .null), ("stdout", .output), ("stderr", .errors), ("tty", .terminal)]

def empty (here : Location) : FileTree :=
  let (tree, below) := makeWay ⟨here, []⟩ [] [Bytes.ofString "dev"]
  let tree := devices.foldl
    (fun grown (name, kind) => grown.put (below ++ [Bytes.ofString name]) (.device kind)) tree
  (tree.makeWay [] here).1

/-! ## Reading -/

def openRead (tree : FileTree) (path : Bytes) : Except PathFault Location := do
  let location ← tree.resolve path
  match tree.entry? location with
  | some entry => entry.check
  | none => .error .notFound
  return location

def read (tree : FileTree) (location : Location) (offset wanted : Nat) :
    Except PathFault Bytes :=
  match tree.entry? location with
  | some entry => entry.read offset wanted
  | none => .error .notFound

def bytesAt? (tree : FileTree) (path : Bytes) : Option Bytes :=
  match tree.resolve path with
  | .error _ => none
  | .ok location => (tree.entry? location).bind Entry.bytes?

end FileTree

end PieceLedger
