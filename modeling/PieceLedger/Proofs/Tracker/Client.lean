import PieceLedger.Proofs.Session.Operations
import PieceLedger.Proofs.Tracker.History

/-!
# What calls leave to a client

The client of a tracker lends it a batch for requests, the payload of an
arrival, a flag that says whether all of the piece is there, and a piece that
was found valid.  A refused call leaves these and the tracker as they were,
except that refused arrivals are counted and that every arrival sets the flag.
-/

namespace PieceLedger

def Status.IsRefusal (status : Status) : Prop := status ≠ .ok ∧ status ≠ .invalid

namespace Tracker

structure Client where
  batch : List Block
  payload : Bytes
  done : Bool
  piece : ValidPiece
  deriving DecidableEq, Repr

namespace Client

def calling (c : Client) : Call → Client
  | .complete _ payload => { c with payload }
  | _ => c

def after (c : Client) (t : Tracker) : Call → Client
  | .request => { c with batch := (t.requestInto c.batch).2 }
  | .complete block payload =>
      let receipt := t.complete block payload
      { c with payload := receipt.left, done := receipt.done }
  | .remove _ => c
  | .add _ => c
  | .validate torrent => { c with piece := (t.validate torrent).1.replace c.piece }

end Client

/-! ## Calls of a session -/

def Call.command (slot : Nat) : Call → Session.Command
  | .request => .request slot true
  | .complete block payload => .complete slot block payload
  | .remove block => .remove slot block
  | .add block => .add slot block
  | .validate _ => .validate slot

def Call.reply (call : Call) (effect : Effect) (c : Client) : Session.Reply :=
  match effect.status with
  | none => .aborted
  | some status =>
      match call with
      | .request => .batch status c.batch effect.tracker
      | .complete _ _ => .arrival status c.done c.payload.length effect.tracker
      | .remove _ => .changed status effect.tracker
      | .add _ => .changed status effect.tracker
      | .validate _ => .verdict status c.piece effect.tracker

theorem Call.perform_command {s : Session} {slot : Nat} {t : Tracker}
    (hslot : s.tracker? slot = some t) (payload : Bytes) (done : Bool) {call : Call}
    (htorrent : ∀ torrent, call = .validate torrent → torrent = s.shownTorrent) :
    let c := Client.after ⟨s.batch, payload, done, s.piece⟩ t call
    let outcome := s.perform (call.command slot)
    outcome.reply = call.reply (t.perform call) c ∧
      outcome.session =
        { s.setTracker slot (t.after call) with batch := c.batch, piece := c.piece } := by
  cases call with
  | validate torrent =>
      obtain rfl := htorrent torrent rfl
      simp only [command, Session.perform, Session.performing, Session.withTracker, hslot,
        Session.result_validating, reply, perform, Client.after]
      cases (t.validate s.shownTorrent).1.status <;> exact ⟨rfl, rfl⟩
  | _ =>
      simp only [command, Session.perform, Session.performing, Session.withTracker, hslot]
      exact ⟨rfl, rfl⟩

/-! ## Refusals -/

theorem status_of_consumed {t : Tracker} (hclosed : t.consumed = true) (call : Call) :
    (t.perform call).status = some .error := by
  have change := t.change_perform call
  generalize t.perform call = effect at change
  cases change with
  | closed => rfl
  | _ => simp_all

theorem complete_unknown_iff {t : Tracker} (hactive : t.consumed = false) (block : Block)
    (payload : Bytes) :
    (t.perform (.complete block payload)).status = some .unknownBlock ↔
      payload.length ≠ block.length.toNat ∨ block ∉ t.pending := by
  have change := t.change_perform (.complete block payload)
  generalize t.perform (.complete block payload) = effect at change
  cases change with
  | closed _ hclosed => simp_all
  | rejected _ _ _ refused =>
      rw [and_comm, not_and_or] at refused
      simpa using refused
  | received _ _ _ hpending hlength => simp [hpending, hlength]

theorem after_of_refusal {t : Tracker} {call : Call} {status : Status}
    (hstatus : (t.perform call).status = some status) (hrefusal : status.IsRefusal) :
    t.after call =
      if call.operation = .complete ∧ status = .unknownBlock then
        { t with tally := { t.tally with rejected := t.tally.rejected + 1 } }
      else t := by
  have change := t.change_perform call
  rw [Tracker.after]
  generalize t.perform call = effect at change hstatus ⊢
  cases change with
  | requested | received | removed | added =>
      exact absurd (Option.some.inj hstatus).symm hrefusal.1
  | judged torrent expected =>
      obtain rfl := Option.some.inj hstatus
      by_cases hmatch : t.digest = expected <;> simp [hmatch, Status.IsRefusal] at hrefusal
  | foreign => cases hstatus
  | rejected =>
      obtain rfl := Option.some.inj hstatus
      rw [if_pos ⟨rfl, rfl⟩]
  | _ =>
      obtain rfl := Option.some.inj hstatus
      rw [if_neg (by simp [Call.operation])]

theorem Verdict.replace_of_refusal {verdict : Verdict} {status : Status}
    (hstatus : verdict.status = some status) (hrefusal : status.IsRefusal) (held : ValidPiece) :
    verdict.replace held = held := by
  cases verdict with
  | valid piece => exact absurd (Option.some.inj hstatus).symm hrefusal.1
  | _ => rfl

theorem Client.after_of_refusal (c : Client) {t : Tracker} {call : Call} {status : Status}
    (hstatus : (t.perform call).status = some status) (hrefusal : status.IsRefusal) :
    c.after t call =
      if call.operation = .complete then
        { c.calling call with done := !t.consumed && t.isDone }
      else c.calling call := by
  cases call with
  | request =>
      cases hclosed : t.consumed with
      | true =>
          simp [Client.after, Client.calling, requestInto_eq, request_eq, hclosed,
            Call.operation]
      | false =>
          have accepted : (t.perform .request).status = some .ok := by
            simp [perform, request_eq, hclosed]
          rw [accepted] at hstatus
          exact absurd (Option.some.inj hstatus).symm hrefusal.1
  | complete block payload =>
      have refused : (t.complete block payload).status ≠ .ok := fun accepted =>
        hrefusal.1 (Option.some.inj (hstatus.symm.trans (congrArg some accepted)))
      obtain ⟨flag, left⟩ := t.complete_of_refusal block payload refused
      simp only [Client.after, Client.calling, flag, left]
      rfl
  | remove block => rfl
  | add block => rfl
  | validate torrent =>
      have held : (t.validate torrent).1.replace c.piece = c.piece :=
        Verdict.replace_of_refusal hstatus hrefusal c.piece
      rw [Client.after, held]
      rfl

/--
A refused arrival leaves its payload with the client, and of the tracker it
changes only the count of refusals.  Other refused calls, and all calls on a
consumed tracker, change nothing at all; but an arrival on a consumed tracker
clears the flag.
-/
theorem refusals_change_nothing (t : Tracker) (c : Client) :
    (t.consumed = false → ∀ block payload,
      (t.perform (.complete block payload)).status = some .unknownBlock ↔
        payload.length ≠ block.length.toNat ∨ block ∉ t.pending) ∧
      (∀ call, call.operation = .complete → (t.perform call).status = some .unknownBlock →
        t.after call = { t with tally := { t.tally with rejected := t.tally.rejected + 1 } } ∧
          c.after t call = { c.calling call with done := t.isDone }) ∧
      (∀ call, call.operation ∈ [.remove, .add, .validate] → ∀ status : Status,
        (t.perform call).status = some status → status.IsRefusal →
          t.after call = t ∧ c.after t call = c) ∧
      (t.consumed = true → ∀ call,
        (t.perform call).status = some .error ∧ t.after call = t ∧
          c.after t call =
            if call.operation = .complete then { c.calling call with done := false } else c) := by
  have error : Status.error.IsRefusal := ⟨nofun, nofun⟩
  have unknown : Status.unknownBlock.IsRefusal := ⟨nofun, nofun⟩
  refine ⟨fun hactive => complete_unknown_iff hactive, ?_, ?_, ?_⟩
  · intro call harrival hstatus
    have kept := Tracker.after_of_refusal hstatus unknown
    have left := c.after_of_refusal hstatus unknown
    have hactive : t.consumed = false := by
      rw [← Bool.not_eq_true]
      intro hclosed
      rw [status_of_consumed hclosed] at hstatus
      cases hstatus
    rw [if_pos ⟨harrival, rfl⟩] at kept
    rw [if_pos harrival, hactive] at left
    exact ⟨kept, left⟩
  · intro call hother status hstatus hrefusal
    have kept := Tracker.after_of_refusal hstatus hrefusal
    have left := c.after_of_refusal hstatus hrefusal
    cases call with
    | request => simp [Call.operation] at hother
    | complete => simp [Call.operation] at hother
    | _ => exact ⟨kept, left⟩
  · intro hclosed call
    have hstatus := status_of_consumed hclosed call
    have left := c.after_of_refusal hstatus error
    refine ⟨hstatus, after_of_consumed hclosed call, left.trans ?_⟩
    rw [hclosed]
    cases call <;> rfl

/-- A short payload, a block that was never requested, and an arrival that comes too late. -/
theorem refusals_change_nothing_mixed :
    let t := (new 0 3 2 2).run [.request]
    let c : Client := ⟨t.pending, [], true, {}⟩
    t.consumed = false ∧
      (t.perform (.complete ⟨0, 2⟩ [1])).status = some .unknownBlock ∧
      c.after t (.complete ⟨0, 2⟩ [1]) = ⟨t.pending, [1], false, {}⟩ ∧
      (t.perform (.remove ⟨1, 1⟩)).status = some .unknownBlock ∧
      t.after (.remove ⟨1, 1⟩) = t ∧
      t.consume.consumed = true ∧
      c.after t.consume (.complete ⟨0, 2⟩ [1, 2]) = ⟨t.pending, [1, 2], false, {}⟩ := by
  intro t c
  obtain ⟨unknown, arrival, other, -⟩ := refusals_change_nothing t c
  obtain ⟨-, -, -, late⟩ := refusals_change_nothing t.consume c
  have refused : (t.perform (.complete ⟨0, 2⟩ [1])).status = some .unknownBlock :=
    (unknown (by decide) _ _).mpr (.inl (by decide))
  have unrequested : (t.perform (.remove ⟨1, 1⟩)).status = some .unknownBlock := by decide
  exact ⟨by decide, refused, (arrival _ rfl refused).2, unrequested,
    (other _ (by decide) _ unrequested ⟨nofun, nofun⟩).1, rfl, (late rfl _).2.2⟩

end Tracker

end PieceLedger
