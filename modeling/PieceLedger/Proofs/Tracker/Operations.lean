import PieceLedger.Tracker
import PieceLedger.Proofs.Trace.Blind
import Mathlib.Tactic.SplitIfs

/-!
# What the operations of a tracker come to

Every operation is a script: in each of its branches it traces what happened and
returns, and no branch is chosen by the level.  So what an operation answers can
be told without its lines.
-/

namespace PieceLedger

open Trace

theorem Torrent.scripted_findingDigest (t : Torrent) (id : UInt32) :
    Scripted (t.findingDigest id) := by
  rw [findingDigest]
  split
  case h_1 => exact .pure _
  case h_2 => exact .traced (by rfl) _

theorem Torrent.result_findingDigest (t : Torrent) (id : UInt32) :
    (t.findingDigest id).result = t.digest? id := by
  rw [findingDigest]
  cases t.digest? id <;> rfl

namespace Tracker

variable (t : Tracker) (block : Block) (payload : Bytes) (torrent : Torrent)

theorem Notice.placed (piece : UInt32) (notice : Notice) : (notice.line piece).Placed := by
  cases notice <;> rfl

theorem scripted_note {α : Type} (notice : Notice) (a : α) :
    Scripted (do t.note notice; return a) :=
  .traced (notice.placed t.piece) a

theorem scripted_noteIf (c : Prop) [Decidable c] (notice : Notice) :
    Scripted (t.noteIf c notice) :=
  .ite (.trace (notice.placed t.piece)) (.pure _)

/-! ## Creation -/

theorem scripted_creating (piece size blockSize window : UInt32) :
    Scripted (creating piece size blockSize window) :=
  (scripted_noteIf _ _ _).bind fun _ => (scripted_noteIf _ _ _).bind fun _ => .pure _

theorem result_creating (piece size blockSize window : UInt32) :
    (creating piece size blockSize window).result = new piece size blockSize window := by
  rw [creating, Scripted.result_bind (scripted_noteIf _ _ _) fun _ =>
    (scripted_noteIf _ _ _).bind fun _ => .pure _,
    Scripted.result_bind (scripted_noteIf _ _ _) fun _ => .pure _]
  rfl

theorem scripted_requesting : Scripted t.requesting := by
  refine .ite (t.scripted_note _ _) (.tracedAll (fun line traced => ?_) _)
  obtain ⟨notice, -, rfl⟩ := List.mem_map.mp traced
  exact notice.placed t.piece

theorem request_eq :
    t.request =
      if t.consumed then (t.refuse .error, [])
      else
        let (fresh, scheduled) := t.schedule (t.window.toNat - t.pending.length) t.scheduled []
        (⟨.ok,
          { t with
            scheduled
            pending := t.pending ++ fresh
            tally := { t.tally with requested := t.tally.requested + fresh.length } }⟩,
        fresh) := by
  simp only [request, requesting, apply_ite Traced.result]
  rfl

theorem scripted_requestingInto (batch : List Block) : Scripted (t.requestingInto batch) :=
  t.scripted_requesting.bind fun _ => .pure _

theorem requestInto_eq (batch : List Block) :
    t.requestInto batch = (t.request.1, batch ++ t.request.2) :=
  t.scripted_requesting.result_bind fun _ => .pure _

/-! ## Arrival -/

theorem scripted_completing : Scripted (t.completing block payload) :=
  .ite (t.scripted_note _ _)
    (.ite (t.scripted_note _ _) (.ite (t.scripted_note _ _) (t.scripted_note _ _)))

theorem complete_eq :
    t.complete block payload =
      if t.consumed then { t.refuse .error with done := false, left := payload }
      else if payload.length = block.length.toNat ∧ block ∈ t.pending then
        let after : Tracker :=
          { t with
            remaining := t.remaining - block.length
            pending := t.pending.erase block
            completed := t.completed ++ [⟨block, payload⟩]
            tally := { t.tally with received := t.tally.received + 1 } }
        { status := .ok, tracker := after, done := after.isDone, left := [] }
      else { t.reject with done := t.isDone, left := payload } := by
  simp only [complete, completing, apply_ite Traced.result]
  split
  case isTrue => rfl
  case isFalse =>
    by_cases whole : payload.length = block.length.toNat <;> by_cases waited : block ∈ t.pending
    all_goals
      simp only [whole, waited, ne_eq, not_true_eq_false, not_false_eq_true, if_true, if_false,
        and_self, and_true, and_false]
      rfl

theorem complete_of_refusal (refused : (t.complete block payload).status ≠ .ok) :
    (t.complete block payload).done = (!t.consumed && t.isDone) ∧
      (t.complete block payload).left = payload := by
  rw [complete_eq] at refused ⊢
  split_ifs at refused ⊢ with closed waited
  · exact ⟨by simp [closed], rfl⟩
  · exact absurd rfl refused
  · exact ⟨by simp [closed], rfl⟩

theorem complete_of_ok (taken : (t.complete block payload).status = .ok) :
    (t.complete block payload).done = (t.complete block payload).tracker.isDone ∧
      (t.complete block payload).left = [] := by
  rw [complete_eq] at taken ⊢
  split_ifs at taken ⊢
  · cases taken
  · exact ⟨rfl, rfl⟩
  · cases taken

/-! ## Stale requests -/

theorem scripted_removing : Scripted (t.removing block) :=
  .ite (t.scripted_note _ _) (.ite (.pure _) (t.scripted_note _ _))

theorem remove_eq :
    t.remove block =
      if t.consumed then t.refuse .error
      else if block ∉ t.pending then t.refuse .unknownBlock
      else
        ⟨.ok,
          { t with
            pending := t.pending.erase block
            tally := { t.tally with removed := t.tally.removed + 1 } }⟩ := by
  simp only [remove, removing, apply_ite Traced.result]
  rfl

theorem scripted_adding : Scripted (t.adding block) :=
  .ite (t.scripted_note _ _)
    (.ite (.pure _)
      (.ite (t.scripted_note _ _)
        (.ite (t.scripted_note _ _) (.ite (t.scripted_note _ _) (t.scripted_note _ _)))))

theorem add_eq :
    t.add block =
      if t.consumed then t.refuse .error
      else if t.window.toNat ≤ t.pending.length then t.refuse .again
      else if block.offset % t.blockSize ≠ 0 || t.scheduled ≤ block.offset then t.refuse .error
      else if block.length ≠ (t.blockAt block.offset).length then t.refuse .error
      else if block ∈ t.pending || t.hasCompleted block then t.refuse .error
      else
        ⟨.ok,
          { t with
            pending := t.pending ++ [block]
            tally := { t.tally with requested := t.tally.requested + 1 } }⟩ := by
  simp only [add, adding, apply_ite Traced.result]
  rfl

/-! ## Validation -/

theorem scripted_judging (blocks : List Received) (actual : Digest) (found : Option Digest) :
    Scripted (t.judging torrent blocks actual found) := by
  cases found with
  | none => exact t.scripted_note _ _
  | some expected => exact .ite (t.scripted_note _ _) (t.scripted_note _ _)

theorem scripted_validating : Scripted (t.validating torrent) := by
  refine .ite (t.scripted_note _ _) (.ite (t.scripted_note _ _) ?_)
  dsimp only
  split
  case h_1 => exact t.scripted_note _ _
  case h_2 => exact (torrent.scripted_findingDigest t.piece).bind (t.scripted_judging torrent _ _)

variable {t} {torrent}

theorem validate_of_consumed (closed : t.consumed = true) :
    t.validate torrent = (.refused, t) := by
  rw [validate, validating, if_pos closed]
  rfl

theorem validate_of_incomplete (active : t.consumed = false) (missing : t.remaining ≠ 0) :
    t.validate torrent = (.refused, t) := by
  rw [validate, validating, if_neg (by simp [active]), if_pos missing]
  rfl

end Tracker

end PieceLedger
