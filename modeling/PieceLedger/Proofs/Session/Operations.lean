import PieceLedger.Session
import PieceLedger.Proofs.Bencode.Sources
import PieceLedger.Proofs.Tracker.Operations

/-!
# What the commands of a session come to

A command hands its arguments to an operation, and makes its reply and the next
session of what the operation gives.  So commands are scripts as operations are.
-/

namespace PieceLedger.Session

open Trace

variable (s : Session)

section Trackers

variable {slot : Nat} {t : Tracker}

theorem scripted_withTracker {operate : Tracker → Traced (Reply × Session)}
    (h : ∀ t, Scripted (operate t)) (slot : Nat) : Scripted (s.withTracker slot operate) := by
  rw [withTracker]
  split
  case h_1 t _ => exact h t
  case h_2 => exact .pure _

theorem scripted_changing {operation : Traced Tracker.Step} (h : Scripted operation) (slot : Nat) :
    Scripted (s.changing slot operation) := h.bind fun _ => .pure _

theorem scripted_validating (slot : Nat) (t : Tracker) : Scripted (s.validating slot t) :=
  (t.scripted_validating s.shownTorrent).bind fun _ => .pure _

end Trackers

theorem scripted_fetching (path : Option Bytes) : Scripted (s.fetching path) := by
  cases path with
  | none => exact .pure _
  | some name => exact (s.tree.scripted_reading name).bind fun _ => .pure _

/-- No command looks at the level, in any of its branches. -/
theorem scripted_performing (command : Command) : Scripted (s.performing command) := by
  cases command with
  | fetch path => exact s.scripted_fetching path
  | loadDict source => exact (source.scripted_loading s.tree).bind fun _ => .pure _
  | loadTorrent source => exact (Torrent.scripted_loading _ _ source).bind fun _ => .pure _
  | loadPieces => exact (Torrent.scripted_loadingPieces _ _ _).bind fun _ => .pure _
  | pieceDigest id => exact (s.shownTorrent.scripted_findingDigest id).bind fun _ => .pure _
  | newTracker => exact (Tracker.scripted_creating _ _ _ _).bind fun _ => .pure _
  | look slot => exact s.scripted_withTracker (fun _ => .pure _) slot
  | request slot =>
      exact s.scripted_withTracker
        (fun t => (t.scripted_requestingInto _).bind fun _ => .pure _) slot
  | complete slot block payload =>
      exact s.scripted_withTracker
        (fun t => (t.scripted_completing block payload).bind fun _ => .pure _) slot
  | remove slot block =>
      exact s.scripted_withTracker
        (fun t => s.scripted_changing (t.scripted_removing block) slot) slot
  | add slot block =>
      exact s.scripted_withTracker
        (fun t => s.scripted_changing (t.scripted_adding block) slot) slot
  | validate slot => exact s.scripted_withTracker (s.scripted_validating slot) slot
  | place | find | findInteger | findText | pieceSize | pieceOffset | updateStream | finishStream =>
      exact .pure _

/-! ## Dictionaries -/

theorem reply_loadDict (source : Bencode.Source) :
    (s.perform (.loadDict source)).reply =
      .dict (source.load s.tree).1.isDecoded ((source.load s.tree).1.replace s.dict) := rfl

theorem dict_loadDict (source : Bencode.Source) :
    (s.perform (.loadDict source)).session.dict = (source.load s.tree).1.replace s.dict := rfl

/-! ## Trackers -/

theorem result_validating (slot : Nat) (t : Tracker) :
    (s.validating slot t).result =
      let (verdict, after) := t.validate s.shownTorrent
      let next := { s.setTracker slot after with piece := verdict.replace s.piece }
      match verdict.status with
      | some status => (.verdict status next.piece after, next)
      | none => (.aborted, next) := rfl

/-! ## Digest streams -/

theorem perform_updateStream (part : Bytes) :
    s.perform (.updateStream part) =
      ⟨(s.updateStream part).1, (s.updateStream part).2, []⟩ := rfl

theorem perform_finishStream :
    s.perform .finishStream = ⟨s.finishStream.1, s.finishStream.2, []⟩ := rfl

/-! ## Runs -/

theorem runAt_performing (command : Command) (level : Nat) :
    (s.performing command).runAt level =
      (((s.perform command).reply, (s.perform command).session),
        admitted level (s.perform command).lines) :=
  (s.scripted_performing command).blind.runAt_eq level

theorem run_cons (level : Nat) (command : Command) (rest : List Command) :
    s.run level (command :: rest) =
      let outcome := s.perform command
      let answer := (outcome.reply, admitted level outcome.lines)
      match outcome.reply with
      | .aborted => ([answer], outcome.session)
      | _ =>
          let (answers, last) := outcome.session.run level rest
          (answer :: answers, last) := by
  cases reply : (s.perform command).reply <;> simp only [run, runAt_performing, reply]

theorem perform_placed (command : Command) :
    ∀ line ∈ (s.perform command).lines, line.Placed :=
  (s.scripted_performing command).placed

/-- Every line that is written carries a mark of the table. -/
theorem run_placed (level : Nat) (commands : List Command) :
    ∀ answer ∈ (s.run level commands).1, ∀ line ∈ answer.2, line.Placed := by
  induction commands generalizing s with
  | nil => exact List.forall_mem_nil _
  | cons command rest ih =>
      have here : ∀ line ∈ admitted level (s.perform command).lines, line.Placed :=
        fun line written => s.perform_placed command line (List.mem_filter.mp written).1
      rw [run_cons]
      dsimp only
      split
      case h_1 => exact List.forall_mem_singleton.mpr here
      case h_2 => exact List.forall_mem_cons.mpr ⟨here, ih _⟩

end PieceLedger.Session
