import PieceLedger.Proofs.Sha1.Streaming
import PieceLedger.Proofs.Tracker.Operations

/-!
# Runs of a tracker

A run is a list of calls with arbitrary arguments, carried out one after the
other.  `Change` lists everything that a single call can do to a tracker, each
case with its guard; invariants of runs are proved by cases on it.
-/

namespace PieceLedger.Tracker

inductive Call where
  | request
  | complete (block : Block) (payload : Bytes)
  | remove (block : Block)
  | add (block : Block)
  | validate (torrent : Torrent)

structure Effect where
  /-- The status returned, if the call returns. -/
  status : Option Status
  requested : List Block := []
  received : List Received := []
  tracker : Tracker

def perform (t : Tracker) : Call → Effect
  | .request =>
      let (step, fresh) := t.request
      { status := some step.status, requested := fresh, tracker := step.tracker }
  | .complete block payload =>
      let step := t.complete block payload
      { status := some step.status
        received := if step.status = .ok then [⟨block, payload⟩] else []
        tracker := step.tracker }
  | .remove block =>
      let step := t.remove block
      { status := some step.status, tracker := step.tracker }
  | .add block =>
      let step := t.add block
      { status := some step.status, tracker := step.tracker }
  | .validate torrent =>
      let (verdict, after) := t.validate torrent
      { status := verdict.status, tracker := after }

def after (t : Tracker) (call : Call) : Tracker := (t.perform call).tracker

def run (t : Tracker) (calls : List Call) : Tracker := calls.foldl after t

def gather {α : Type} (output : Effect → List α) (t : Tracker) : List Call → List α
  | [] => []
  | call :: rest => output (t.perform call) ++ gather output (t.after call) rest

def requests (t : Tracker) (calls : List Call) : List Block :=
  t.gather Effect.requested calls

def arrivals (t : Tracker) (calls : List Call) : List Received :=
  t.gather Effect.received calls

theorem run_append (t : Tracker) (calls more : List Call) :
    t.run (calls ++ more) = (t.run calls).run more := List.foldl_append

theorem run_append_singleton (t : Tracker) (calls : List Call) (call : Call) :
    t.run (calls ++ [call]) = (t.run calls).after call := t.run_append calls [call]

theorem gather_append {α : Type} (output : Effect → List α) (t : Tracker)
    (calls more : List Call) :
    t.gather output (calls ++ more) =
      t.gather output calls ++ (t.run calls).gather output more := by
  induction calls generalizing t with
  | nil => rfl
  | cons call rest ih =>
      rw [List.cons_append, gather, gather, ih, List.append_assoc]
      rfl

theorem gather_append_singleton {α : Type} (output : Effect → List α) (t : Tracker)
    (calls : List Call) (call : Call) :
    t.gather output (calls ++ [call]) =
      t.gather output calls ++ output ((t.run calls).perform call) := by
  rw [gather_append, gather, gather, List.append_nil]

/-! ## What is held -/

def held (t : Tracker) : List Block := t.pending ++ t.completed.map Received.block

theorem held_receive {t : Tracker} {block : Block} (hpending : block ∈ t.pending)
    (payload : Bytes) :
    (t.pending.erase block ++ List.map Received.block (t.completed ++ [⟨block, payload⟩])).Perm
      t.held := by
  rw [List.map_append, ← List.append_assoc]
  exact (List.perm_append_singleton block _).trans
    ((List.perm_cons_erase hpending).symm.append_right _)

/-- A scheduled block that the tracker neither waits for nor has. -/
def Lapsed (t : Tracker) (block : Block) : Prop :=
  block.offset % t.blockSize = 0 ∧ block.offset < t.scheduled ∧
    block.length = (t.blockAt block.offset).length ∧ block ∉ t.held

def digest (t : Tracker) : Digest := Sha1.hash (t.assembled.flatMap Received.payload)

theorem hasCompleted_iff (t : Tracker) (block : Block) :
    t.hasCompleted block = true ↔ block ∈ t.completed.map Received.block := by
  simp only [hasCompleted, List.any_eq_true, decide_eq_true_eq, List.mem_map]

theorem validate_eq (t : Tracker) (torrent : Torrent) (hactive : t.consumed = false)
    (hdone : t.remaining = 0) :
    t.validate torrent =
      match torrent.digest? t.piece with
      | none => (.foreign, t)
      | some expected =>
          if t.digest = expected then (.valid ⟨t.piece, t.assembled⟩, t.consume)
          else (.invalid, t.consume) := by
  obtain ⟨stream, htaken, hdigest⟩ :=
    Sha1.Stream.updateAll_new (t.assembled.map Received.payload)
  rw [← List.flatMap_def] at hdigest
  rw [validate, validating, if_neg (by simp [hactive]), if_neg (not_not_intro hdone)]
  simp only [htaken, hdigest]
  rw [(torrent.scripted_findingDigest t.piece).result_bind (t.scripted_judging torrent _ _),
    torrent.result_findingDigest]
  cases torrent.digest? t.piece with
  | none => rfl
  | some expected =>
      simp only [judging, apply_ite Trace.Traced.result, digest, ne_eq, ite_not]
      rfl

/-! ## Changes -/

inductive Change (t : Tracker) : Call → Effect → Prop where
  | closed (call : Call) :
      t.consumed = true →
      Change t call { status := some .error, tracker := t }
  | requested :
      t.consumed = false →
      Change t .request
        { status := some .ok
          requested := (t.schedule (t.window.toNat - t.pending.length) t.scheduled []).1
          tracker :=
            { t with
              scheduled := (t.schedule (t.window.toNat - t.pending.length) t.scheduled []).2
              pending :=
                t.pending ++ (t.schedule (t.window.toNat - t.pending.length) t.scheduled []).1
              tally :=
                { t.tally with
                  requested := t.tally.requested
                    + (t.schedule (t.window.toNat - t.pending.length) t.scheduled []).1.length } } }
  | rejected (block : Block) (payload : Bytes) :
      t.consumed = false → ¬(block ∈ t.pending ∧ payload.length = block.length.toNat) →
      Change t (.complete block payload)
        { status := some .unknownBlock
          tracker := { t with tally := { t.tally with rejected := t.tally.rejected + 1 } } }
  | received (block : Block) (payload : Bytes) :
      t.consumed = false → block ∈ t.pending → payload.length = block.length.toNat →
      Change t (.complete block payload)
        { status := some .ok
          received := [⟨block, payload⟩]
          tracker :=
            { t with
              remaining := t.remaining - block.length
              pending := t.pending.erase block
              completed := t.completed ++ [⟨block, payload⟩]
              tally := { t.tally with received := t.tally.received + 1 } } }
  | unknown (block : Block) :
      t.consumed = false → block ∉ t.pending →
      Change t (.remove block) { status := some .unknownBlock, tracker := t }
  | removed (block : Block) :
      t.consumed = false → block ∈ t.pending →
      Change t (.remove block)
        { status := some .ok
          tracker :=
            { t with
              pending := t.pending.erase block
              tally := { t.tally with removed := t.tally.removed + 1 } } }
  | full (block : Block) :
      t.consumed = false → t.window.toNat ≤ t.pending.length →
      Change t (.add block) { status := some .again, tracker := t }
  | unfit (block : Block) :
      t.consumed = false → t.pending.length < t.window.toNat → ¬t.Lapsed block →
      Change t (.add block) { status := some .error, tracker := t }
  | added (block : Block) :
      t.consumed = false → t.pending.length < t.window.toNat → t.Lapsed block →
      Change t (.add block)
        { status := some .ok
          tracker :=
            { t with
              pending := t.pending ++ [block]
              tally := { t.tally with requested := t.tally.requested + 1 } } }
  | incomplete (torrent : Torrent) :
      t.consumed = false → t.remaining ≠ 0 →
      Change t (.validate torrent) { status := some .error, tracker := t }
  | foreign (torrent : Torrent) :
      t.consumed = false → t.remaining = 0 → torrent.digest? t.piece = none →
      Change t (.validate torrent) { status := none, tracker := t }
  | judged (torrent : Torrent) (expected : Digest) :
      t.consumed = false → t.remaining = 0 → torrent.digest? t.piece = some expected →
      Change t (.validate torrent)
        { status := some (if t.digest = expected then .ok else .invalid)
          tracker := t.consume }

theorem change_complete (t : Tracker) (block : Block) (payload : Bytes)
    (hactive : t.consumed = false) :
    t.Change (.complete block payload) (t.perform (.complete block payload)) := by
  by_cases hlength : payload.length = block.length.toNat
  · by_cases hpending : block ∈ t.pending
    · simpa [perform, complete_eq, hactive, hlength, hpending] using
        Change.received block payload hactive hpending hlength
    · simpa [perform, complete_eq, reject, hactive, hlength, hpending] using
        Change.rejected block payload hactive (by simp [hpending])
  · simpa [perform, complete_eq, reject, hactive, hlength] using
      Change.rejected block payload hactive (by simp [hlength])

theorem change_remove (t : Tracker) (block : Block) (hactive : t.consumed = false) :
    t.Change (.remove block) (t.perform (.remove block)) := by
  by_cases hpending : block ∈ t.pending
  · simpa [perform, remove_eq, hactive, hpending] using Change.removed block hactive hpending
  · simpa [perform, remove_eq, refuse, hactive, hpending] using
      Change.unknown block hactive hpending

theorem change_add (t : Tracker) (block : Block) (hactive : t.consumed = false) :
    t.Change (.add block) (t.perform (.add block)) := by
  simp only [perform, add_eq]
  rw [if_neg (by simp [hactive])]
  split
  case isTrue hfull => exact .full block hactive hfull
  case isFalse hroom =>
    have room : t.pending.length < t.window.toNat := Nat.lt_of_not_le hroom
    split
    case isTrue hplace =>
      refine .unfit block hactive room ?_
      rintro ⟨aligned, scheduled, -, -⟩
      simp [aligned, UInt32.not_le.mpr scheduled] at hplace
    case isFalse hplace =>
      simp only [ne_eq, Bool.or_eq_true, decide_eq_true_eq, not_or, Decidable.not_not,
        UInt32.not_le] at hplace
      split
      case isTrue hlength =>
        exact .unfit block hactive room fun lapsed => hlength lapsed.2.2.1
      case isFalse hlength =>
        split
        case isTrue hheld =>
          refine .unfit block hactive room fun lapsed => lapsed.2.2.2 ?_
          simpa [held, hasCompleted_iff] using hheld
        case isFalse hheld =>
          refine .added block hactive room
            ⟨hplace.1, hplace.2, Decidable.not_not.mp hlength, ?_⟩
          simpa [held, hasCompleted_iff] using hheld

theorem change_validate (t : Tracker) (torrent : Torrent) (hactive : t.consumed = false) :
    t.Change (.validate torrent) (t.perform (.validate torrent)) := by
  by_cases hdone : t.remaining = 0
  · simp only [perform, validate_eq t torrent hactive hdone]
    cases htable : torrent.digest? t.piece with
    | none => exact .foreign torrent hactive hdone htable
    | some expected =>
        have judged := Change.judged torrent expected hactive hdone htable
        by_cases hmatch : t.digest = expected <;>
          simpa [hmatch, Verdict.status] using judged
  · simpa [perform, validate_of_incomplete hactive hdone, Verdict.status] using
      Change.incomplete torrent hactive hdone

theorem change_perform (t : Tracker) (call : Call) : t.Change call (t.perform call) := by
  cases hclosed : t.consumed with
  | true =>
      have closed := Change.closed call hclosed
      cases call <;>
        simpa [perform, request_eq, complete_eq, remove_eq, add_eq, validate_of_consumed hclosed,
          refuse, Verdict.status, hclosed] using closed
  | false =>
      cases call with
      | request => simpa [perform, request_eq, hclosed] using Change.requested hclosed
      | complete block payload => exact t.change_complete block payload hclosed
      | remove block => exact t.change_remove block hclosed
      | add block => exact t.change_add block hclosed
      | validate torrent => exact t.change_validate torrent hclosed

/-! ## Accepted calls -/

theorem complete_ok_iff (t : Tracker) (block : Block) (payload : Bytes) :
    (t.perform (.complete block payload)).status = some .ok ↔
      t.consumed = false ∧ block ∈ t.pending ∧ payload.length = block.length.toNat := by
  have change := t.change_perform (.complete block payload)
  generalize t.perform (.complete block payload) = effect at change
  cases change with
  | closed _ hclosed => simp [hclosed]
  | rejected _ _ hactive refused => simp [hactive, refused]
  | received _ _ hactive hpending hlength => simp [hactive, hpending, hlength]

theorem add_ok_iff (t : Tracker) (block : Block) :
    (t.perform (.add block)).status = some .ok ↔
      t.consumed = false ∧ t.pending.length < t.window.toNat ∧ t.Lapsed block := by
  have change := t.change_perform (.add block)
  generalize t.perform (.add block) = effect at change
  cases change with
  | closed _ hclosed => simp [hclosed]
  | full _ hactive hfull => simp [Nat.not_lt.mpr hfull]
  | unfit _ hactive hroom hlapsed => simp [hlapsed]
  | added _ hactive hroom hlapsed => simp [hactive, hroom, hlapsed]

theorem after_of_consumed {t : Tracker} (hclosed : t.consumed = true) (call : Call) :
    t.after call = t := by
  have change := t.change_perform call
  rw [after]
  generalize t.perform call = effect at change
  cases change with
  | closed => rfl
  | _ => simp_all

theorem active_of_after {t : Tracker} {call : Call}
    (hactive : (t.after call).consumed = false) : t.consumed = false := by
  cases hclosed : t.consumed with
  | false => rfl
  | true => rw [after_of_consumed hclosed, hclosed] at hactive; contradiction

end PieceLedger.Tracker
