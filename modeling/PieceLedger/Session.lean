import PieceLedger.Torrent.Load
import PieceLedger.Tracker
import PieceLedger.Sha1.Stream

/-!
Sessions: the objects a client holds, and the commands on them.

A session has one decoded dictionary, one torrent, numbered trackers, the
batch that requests are put into, the last piece found valid, and one digest
stream.  `performing` carries out one command, which traces as it goes; `perform`
is what comes of it where every line is written.
-/

namespace PieceLedger

open Trace

structure Session where
  tree : FileTree
  dict : Bencode.Dict := []
  torrent : Option Torrent := none
  trackers : List (Nat × Tracker) := []
  batch : List Block := []
  piece : ValidPiece := {}
  stream : Sha1.Stream := {}
  lastError : Bytes := []

namespace Session

inductive Command where
  | place (path : Bytes) (entry : Entry)
  | fetch (path : Option Bytes)
  | loadDict (source : Bencode.Source)
  | find (inside : List Bytes) (key : Bytes) (kind : Option Bencode.Kind)
  | findInteger (inside : List Bytes) (key : Bytes)
  | findText (inside : List Bytes) (key : Bytes)
  | loadTorrent (source : Bencode.Source)
  | loadPieces (pieceLength : UInt32) (length : UInt64) (digests : List Digest)
  | pieceDigest (id : UInt32)
  | pieceSize (id : UInt32)
  | pieceOffset (id : UInt32)
  | newTracker (slot : Nat) (piece size blockSize window : UInt32)
  | look (slot : Nat)
  | request (slot : Nat) (keepBatch : Bool)
  | complete (slot : Nat) (block : Block) (payload : Bytes)
  | remove (slot : Nat) (block : Block)
  | add (slot : Nat) (block : Block)
  | validate (slot : Nat)
  | updateStream (part : Bytes)
  | finishStream

inductive Reply where
  | placed
  | content (bytes : Option Bytes) (lastError : Bytes)
  | dict (ok : Bool) (entries : Bencode.Dict)
  | noSuchDict
  | value (found : Option Bencode.Value)
  | integer (found : Option Int64)
  | text (found : Option Bytes)
  | torrent (ok : Bool) (held : Option Torrent)
  | digest (found : Option Digest)
  | size (bytes : UInt32)
  | offset (bytes : UInt64)
  | noSuchTracker
  | tracker (state : Tracker)
  | batch (status : Status) (blocks : List Block) (state : Tracker)
  | arrival (status : Status) (done : Bool) (left : Nat) (state : Tracker)
  | changed (status : Status) (state : Tracker)
  | verdict (status : Status) (piece : ValidPiece) (state : Tracker)
  | aborted
  | stream (taken : Bool) (length : Nat)
  | streamDigest (digest : Digest) (length : Nat)

/-! ## Files and dictionaries -/

def maxErrorLength : Nat := 4095

def remember (s : Session) (message : Bytes) : Session :=
  { s with lastError := message.take maxErrorLength }

def fetching (s : Session) (path : Option Bytes) : Traced (Reply × Session) :=
  match path with
  | none => return (.content none s.lastError, s)
  | some name => do
      return match ← s.tree.reading name with
        | .ok bytes => (.content (some bytes) s.lastError, s)
        | .error fault =>
            let next := s.remember (fault.message name)
            (.content none next.lastError, next)

def rememberSource (s : Session) : Bencode.Source → Session
  | .file (some path) =>
      match s.tree.content path with
      | .ok _ => s
      | .error fault => s.remember (fault.message path)
  | _ => s

def loadingDict (s : Session) (source : Bencode.Source) : Traced (Reply × Session) := do
  let outcome ← source.loading s.tree
  let dict := outcome.replace s.dict
  return (.dict outcome.isDecoded dict, { s.rememberSource source with dict })

def inside (s : Session) (keys : List Bytes) (reply : Bencode.Dict → Reply) : Reply :=
  match s.dict.descend? keys with
  | some entries => reply entries
  | none => .noSuchDict

/-! ## Torrents -/

def shownTorrent (s : Session) : Torrent := s.torrent.getD .blank

def loadingTorrent (s : Session) (source : Bencode.Source) : Traced (Reply × Session) := do
  let (ok, torrent) ← Torrent.loading s.tree s.torrent source
  return (.torrent ok torrent, { s.rememberSource source with torrent })

def loadingPieces (s : Session) (pieceLength : UInt32) (length : UInt64) (digests : List Digest) :
    Traced (Reply × Session) := do
  let (ok, torrent) ← Torrent.loadingPieces pieceLength length digests
  return (.torrent ok torrent, { s with torrent })

def findingDigest (s : Session) (id : UInt32) : Traced (Reply × Session) := do
  return (.digest (← s.shownTorrent.findingDigest id), s)

/-! ## Trackers -/

def tracker? (s : Session) (slot : Nat) : Option Tracker := s.trackers.lookup slot

def setTracker (s : Session) (slot : Nat) (t : Tracker) : Session :=
  { s with trackers := (slot, t) :: s.trackers.filter fun entry => entry.1 ≠ slot }

def withTracker (s : Session) (slot : Nat) (operate : Tracker → Traced (Reply × Session)) :
    Traced (Reply × Session) :=
  match s.tracker? slot with
  | some t => operate t
  | none => return (.noSuchTracker, s)

def creating (s : Session) (slot : Nat) (piece size blockSize window : UInt32) :
    Traced (Reply × Session) := do
  let t ← Tracker.creating piece size blockSize window
  return (.tracker t, s.setTracker slot t)

def requesting (s : Session) (slot : Nat) (keepBatch : Bool) (t : Tracker) :
    Traced (Reply × Session) := do
  let (step, batch) ← t.requestingInto (if keepBatch then s.batch else [])
  return (.batch step.status batch step.tracker, { s.setTracker slot step.tracker with batch })

def completing (s : Session) (slot : Nat) (block : Block) (payload : Bytes) (t : Tracker) :
    Traced (Reply × Session) := do
  let receipt ← t.completing block payload
  return (.arrival receipt.status receipt.done receipt.left.length receipt.tracker,
    s.setTracker slot receipt.tracker)

def changing (s : Session) (slot : Nat) (operation : Traced Tracker.Step) :
    Traced (Reply × Session) := do
  let step ← operation
  return (.changed step.status step.tracker, s.setTracker slot step.tracker)

def validating (s : Session) (slot : Nat) (t : Tracker) : Traced (Reply × Session) := do
  let (verdict, after) ← t.validating s.shownTorrent
  let next := { s.setTracker slot after with piece := verdict.replace s.piece }
  return match verdict.status with
    | some status => (.verdict status next.piece after, next)
    | none => (.aborted, next)

/-! ## Digest streams -/

def updateStream (s : Session) (part : Bytes) : Reply × Session :=
  match s.stream.update part with
  | some stream => (.stream true stream.length, { s with stream })
  | none => (.stream false s.stream.length, s)

def finishStream (s : Session) : Reply × Session :=
  let (digest, stream) := s.stream.finish
  (.streamDigest digest stream.length, { s with stream })

/-! ## Commands -/

def performing (s : Session) : Command → Traced (Reply × Session)
  | .place path entry => return (.placed, { s with tree := s.tree.plant path.beforeNul entry })
  | .fetch path => s.fetching path
  | .loadDict source => s.loadingDict source
  | .find keys key kind =>
      return (s.inside keys fun entries => .value (kind.bind (entries.findKind? key)), s)
  | .findInteger keys key =>
      return (s.inside keys fun entries => .integer (entries.integer? key), s)
  | .findText keys key => return (s.inside keys fun entries => .text (entries.text? key), s)
  | .loadTorrent source => s.loadingTorrent source
  | .loadPieces pieceLength length digests => s.loadingPieces pieceLength length digests
  | .pieceDigest id => s.findingDigest id
  | .pieceSize id => return (.size (s.shownTorrent.pieceSize id), s)
  | .pieceOffset id => return (.offset (s.shownTorrent.pieceOffset id), s)
  | .newTracker slot piece size blockSize window => s.creating slot piece size blockSize window
  | .look slot => s.withTracker slot fun t => return (.tracker t, s)
  | .request slot keepBatch => s.withTracker slot (s.requesting slot keepBatch)
  | .complete slot block payload => s.withTracker slot (s.completing slot block payload)
  | .remove slot block => s.withTracker slot fun t => s.changing slot (t.removing block)
  | .add slot block => s.withTracker slot fun t => s.changing slot (t.adding block)
  | .validate slot => s.withTracker slot (s.validating slot)
  | .updateStream part => return s.updateStream part
  | .finishStream => return s.finishStream

structure Outcome where
  reply : Reply
  session : Session
  lines : List Line

def perform (s : Session) (command : Command) : Outcome :=
  let action := s.performing command
  ⟨action.result.1, action.result.2, action.lines⟩

/-- The replies to a list of commands up to the first that ends the session,
each with the lines that were written at trace level `level`. -/
def run (level : Nat) (s : Session) : List Command → List (Reply × List Line) × Session
  | [] => ([], s)
  | command :: rest =>
      let ((reply, next), lines) := (s.performing command).runAt level
      match reply with
      | .aborted => ([(reply, lines)], next)
      | _ =>
          let (answers, last) := run level next rest
          ((reply, lines) :: answers, last)

end Session

end PieceLedger
