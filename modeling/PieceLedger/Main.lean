import PieceLedger.CommandLine.Program

/-!
The command line on a real disk.

The files that the run may touch are taken into a file tree, the run is
carried out on the tree, and what it wrote is written out again in the same
order.
-/

namespace PieceLedger.Disk

def textOf (b : Bytes) : String := (String.fromUTF8? ⟨b.toArray⟩).getD ""

def absolutePath (location : Location) : String :=
  textOf (Payload.joinPath [] location)

/-- The entry at a location whose parent is a directory.  Below `/dev` nothing
is read, since a device may never come to an end. -/
def fetch (location : Location) : IO (Option Entry) := do
  let path := absolutePath location
  try
    if location.head? = some (Bytes.ofString "dev") then
      IO.FS.withFile path .readWrite fun _ => return some (.device .null)
    else
      let content ← IO.FS.readBinFile path
      return some (.file content.data.toList)
  catch
    | .inappropriateType .. => return some .directory
    | _ => return none

def take (tree : FileTree) (path : Bytes) : IO FileTree := do
  let mut tree := tree
  let mut location := tree.origin path
  for name in FileTree.names path do
    if tree.entry? location ≠ some .directory then break
    if name = FileTree.dot then continue
    if name = FileTree.dotDot then
      location := location.dropLast
      continue
    location := location ++ [name]
    if tree.entry? location = none then
      if let some entry ← fetch location then
        tree := tree.put location entry
  return tree

def snapshot (words : List Bytes) : IO FileTree := do
  let here := FileTree.names (Bytes.ofString (← IO.currentDir).toString)
  let mut tree := FileTree.empty here
  if let .ok settings := CommandLine.Settings.ofWords words then
    tree ← take tree settings.errorLog
    tree ← take tree settings.torrent
    if let some torrent := (Torrent.load tree none (.file (some settings.torrent))).held then
      for part in Payload.parts torrent settings.data do
        tree ← take tree part.path
  return tree

def deliver (outlet : Outlet) (text : Bytes) : IO Unit := do
  let text : ByteArray := ⟨text.toArray⟩
  match outlet with
  | .output => do
      (← IO.getStdout).write text
      (← IO.getStdout).flush
  | .errors => do
      (← IO.getStderr).write text
      (← IO.getStderr).flush
  | .file location =>
      IO.FS.withFile (absolutePath location) .append fun handle => handle.write text

end PieceLedger.Disk

open PieceLedger in
def main (args : List String) : IO UInt32 := do
  let words := args.map Bytes.ofString
  let (console, status) := CommandLine.run (← Disk.snapshot words) words
  for (outlet, text) in console.written.reverse do
    Disk.deliver outlet text
  return status.toUInt32
