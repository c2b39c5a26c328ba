import PieceLedger.Proofs.Tracker.Client
import PieceLedger.Proofs.Tracker.Validation

/-!
# The end of a piece

An arrival tells the client whether all of the piece is there.  The first that
says so is the arrival of the last block of the grid, and it is the only one
that is taken and says so: from then on a tracker has nothing to do, and it
answers every call without doing anything until its piece is validated.
-/

namespace PieceLedger.Tracker

/-- Whether a call is an arrival that is taken, and that completes the piece. -/
def signals (t : Tracker) : Call → Bool
  | .complete block payload =>
      let receipt := t.complete block payload
      receipt.status = .ok && receipt.done
  | _ => false

structure Settled (t : Tracker) : Prop where
  request : (t.perform .request).status = some .ok
  batch : ∀ batch, (t.requestInto batch).2 = batch
  complete : ∀ block payload,
    (t.perform (.complete block payload)).status = some .unknownBlock
  remove : ∀ block, (t.perform (.remove block)).status = some .unknownBlock
  add : ∀ block, (t.perform (.add block)).status = some .error

/-! ## Arrivals -/

theorem taken_of_signals {t : Tracker} {call : Call} (h : t.signals call = true) :
    (t.perform call).status = some .ok ∧ (t.after call).consumed = false := by
  cases call with
  | complete block payload =>
      simp only [signals, Bool.and_eq_true, decide_eq_true_eq] at h
      have taken : (t.perform (.complete block payload)).status = some .ok := congrArg some h.1
      have stays := t.consumed_after (.complete block payload) nofun
      exact ⟨taken, stays.trans ((t.complete_ok_iff block payload).mp taken).1⟩
  | _ => cases h

theorem done_eq {t : Tracker} (hactive : t.consumed = false) (block : Block)
    (payload : Bytes) :
    (t.complete block payload).done =
      decide ((t.after (.complete block payload)).remaining = 0) := by
  change _ = decide ((t.complete block payload).tracker.remaining = 0)
  rw [complete_eq, if_neg (by simp [hactive])]
  split <;> rfl

theorem Ledger.remaining_ne_zero {t : Tracker} (h : t.Ledger) {block : Block}
    (hpending : block ∈ t.pending) : t.remaining ≠ 0 := by
  intro hdone
  rw [h.pending_eq_nil hdone] at hpending
  cases hpending

theorem Kept.remaining_stays_zero {t : Tracker} (h : t.Kept) (call : Call)
    (hdone : t.remaining = 0) : (t.after call).remaining = 0 := by
  have remaining := h.remaining_received call
  rw [hdone, UInt32.toNat_zero] at remaining
  exact UInt32.toNat_inj.mp (Nat.eq_zero_of_add_eq_zero remaining).1

/-- The end of a piece is signalled by the call after which nothing remains any more. -/
theorem Kept.signals_iff {t : Tracker} (h : t.Kept) (call : Call) :
    t.signals call = true ↔ t.remaining ≠ 0 ∧ (t.after call).remaining = 0 := by
  have remaining := h.remaining_received call
  have unchanged (hnone : (t.perform call).received = []) :
      ¬(t.remaining ≠ 0 ∧ (t.after call).remaining = 0) := by
    rw [hnone] at remaining
    rintro ⟨before, hdone⟩
    exact before (UInt32.toNat_inj.mp remaining ▸ hdone)
  cases call with
  | complete block payload =>
      by_cases taken : (t.complete block payload).status = .ok
      · obtain ⟨hactive, hpending, -⟩ :=
          (t.complete_ok_iff block payload).mp (congrArg some taken)
        have before := (h.ledger hactive).remaining_ne_zero hpending
        simp [signals, taken, done_eq hactive, before]
      · simpa [signals, taken] using unchanged (if_neg taken)
  | _ => simpa [signals] using unchanged rfl

theorem remaining_run_le (piece size blockSize window : UInt32) (calls : List Call) :
    ((new piece size blockSize window).run calls).remaining.toNat ≤ size.toNat :=
  arrivals_run piece size blockSize window calls ▸ Nat.le_add_right _ _

theorem signals_run (piece size blockSize window : UInt32) (calls : List Call) :
    let first := new piece size blockSize window
    (first.history calls).countP (fun entry => entry.1.signals entry.2) =
      if size ≠ 0 ∧ (first.run calls).remaining = 0 then 1 else 0 := by
  intro first
  induction calls using List.reverseRecOn with
  | nil =>
      have unsaid : ¬(size ≠ 0 ∧ (first.run []).remaining = 0) := fun h => h.1 h.2
      rw [if_neg unsaid]
      rfl
  | append_singleton calls call ih =>
      have kept : (first.run calls).Kept := kept_run piece size blockSize window calls
      have step := kept.signals_iff call
      rw [history_append, List.countP_append, ih, run_append_singleton]
      -- What remains reaches zero once and stays there, and just that call is counted.
      cases signalled : (first.run calls).signals call with
      | true =>
          obtain ⟨before, hdone⟩ := step.mp signalled
          have nonempty : size ≠ 0 := by
            rintro rfl
            have le := remaining_run_le piece 0 blockSize window calls
            exact before (UInt32.toNat_inj.mp (Nat.le_zero.mp le))
          simp [history, signalled, before, hdone, nonempty]
      | false =>
          rw [signalled] at step
          have same : (first.run calls).remaining = 0 ↔
              ((first.run calls).after call).remaining = 0 :=
            ⟨kept.remaining_stays_zero call, fun hdone => by_contra fun before =>
              Bool.false_ne_true (step.mpr ⟨before, hdone⟩)⟩
          simp [history, signalled, same]

theorem arrivals_perm_iff (piece size blockSize window : UInt32) {calls : List Call}
    (hactive : ((new piece size blockSize window).run calls).consumed = false) :
    let first := new piece size blockSize window
    ((first.arrivals calls).map Received.block).Perm first.grid.blocks ↔
      (first.run calls).remaining = 0 := by
  intro first
  have books : (first.run calls).Ledger :=
    (kept_run piece size blockSize window calls).ledger hactive
  rw [← completed_run piece size blockSize window calls hactive, ← (first.frame_run calls).2.1]
  exact books.completed_perm_iff

/-! ## Nothing left to do -/

namespace Ledger

variable {t : Tracker}

theorem scheduledCount_of_done (h : t.Ledger) (hdone : t.remaining = 0) :
    t.scheduledCount = t.grid.count := by
  rw [scheduledCount, h.scheduled_eq_size hdone]
  rfl

theorem schedule_of_done (h : t.Ledger) (hdone : t.remaining = 0) :
    t.schedule (t.window.toNat - t.pending.length) t.scheduled [] = ([], t.scheduled) := by
  have nothing : freshCount t = 0 := by
    rw [freshCount, h.scheduledCount_of_done hdone, Nat.sub_self, Nat.min_zero]
  rw [h.schedule_eq, nothing, Nat.add_zero, h.reach_scheduledCount, UInt32.ofNat_toNat]
  rfl

theorem not_lapsed_of_done (h : t.Ledger) (hdone : t.remaining = 0) (block : Block) :
    ¬t.Lapsed block := by
  rw [h.lapsed_iff]
  rintro ⟨⟨k, hk, hblock⟩, free⟩
  apply free
  apply List.mem_append_right
  rw [(h.completed_perm hdone).mem_iff]
  exact t.grid.mem_blocks.mpr ⟨k, Nat.lt_of_lt_of_le hk h.scheduledCount_le, hblock⟩

theorem settled (h : t.Ledger) (hactive : t.consumed = false) (hdone : t.remaining = 0) :
    t.Settled where
  request := by simp [perform, Tracker.request_eq, hactive]
  batch := by simp [requestInto_eq, Tracker.request_eq, hactive, h.schedule_of_done hdone]
  complete := by
    intro block payload
    rw [complete_unknown_iff hactive, h.pending_eq_nil hdone]
    exact .inr List.not_mem_nil
  remove := by
    intro block
    simp [perform, remove_eq, refuse, hactive, h.pending_eq_nil hdone]
  add := by
    intro block
    have room := UInt32.lt_iff_toNat_lt.mp t.window_pos
    have change := t.change_add block hactive
    generalize t.perform (.add block) = effect at change ⊢
    cases change with
    | full _ _ hfull =>
        rw [h.pending_eq_nil hdone, List.length_nil] at hfull
        exact absurd hfull (Nat.not_le.mpr room)
    | added _ _ _ hlapsed => exact absurd hlapsed (h.not_lapsed_of_done hdone block)
    | _ => rfl

theorem after_of_done (h : t.Ledger) (hdone : t.remaining = 0) {call : Call}
    (hactive : (t.after call).consumed = false) :
    t.after call =
      { t with
        tally :=
          { t.tally with
            rejected := t.tally.rejected
              + (t.returning call .complete .unknownBlock).toNat } } := by
  have idle := h.pending_eq_nil hdone
  have change := t.change_perform call
  simp only [returning]
  rw [Tracker.after] at hactive ⊢
  generalize t.perform call = effect at change hactive ⊢
  cases change with
  | requested => simp [h.schedule_of_done hdone, Call.operation]
  | rejected => simp [Call.operation]
  | received _ _ _ hpending => simp [idle] at hpending
  | removed _ _ hpending => simp [idle] at hpending
  | added block _ _ hlapsed => exact absurd hlapsed (h.not_lapsed_of_done hdone block)
  | judged => exact absurd hactive (by simp [Tracker.consume])
  | _ => simp [Call.operation]

end Ledger

theorem run_of_done {t : Tracker} (h : t.Ledger) (hdone : t.remaining = 0) {more : List Call}
    (hactive : (t.run more).consumed = false) :
    (t.run more).Ledger ∧ (t.run more).remaining = 0 ∧
      t.run more =
        { t with
          tally :=
            { t.tally with
              rejected := t.tally.rejected + t.returns more .complete .unknownBlock } } := by
  induction more using List.reverseRecOn with
  | nil => exact ⟨h, hdone, rfl⟩
  | append_singleton more call ih =>
      rw [run_append_singleton] at hactive ⊢
      have before := active_of_after hactive
      obtain ⟨books, done, unchanged⟩ := ih before
      have step := books.after_of_done done hactive
      refine ⟨((books.kept before).after call).ledger hactive,
        (books.kept before).remaining_stays_zero call done, ?_⟩
      rw [step, returns_append_singleton, ← Nat.add_assoc]
      generalize ((t.run more).returning call .complete .unknownBlock).toNat = refused
      rw [unchanged]

/--
The flag of an arrival says whether anything remains.  In every run at most one
arrival is taken with a raised flag, and one is as soon as nothing remains of a
piece that is not empty: the arrival of the last block of the grid, when all is
scheduled and nothing pending.  From a moment when nothing remains until the
piece is validated, no call does anything, and only refused arrivals are counted.
-/
theorem last_arrival_signals (piece size blockSize window : UInt32) (calls : List Call) :
    let first := new piece size blockSize window
    let t := first.run calls
    (t.consumed = false → ∀ (c : Client) (block : Block) (payload : Bytes),
      (c.after t (.complete block payload)).done =
        decide ((t.after (.complete block payload)).remaining = 0)) ∧
      ((first.history calls).countP (fun entry => entry.1.signals entry.2) =
        if size ≠ 0 ∧ t.remaining = 0 then 1 else 0) ∧
      (∀ block payload,
        t.signals (.complete block payload) = true ↔
          (t.perform (.complete block payload)).status = some .ok ∧
            ((first.arrivals (calls ++ [.complete block payload])).map Received.block).Perm
              first.grid.blocks) ∧
      (∀ call, t.signals call = true →
        (t.after call).scheduled = size ∧ (t.after call).pending = []) ∧
      (t.consumed = false → t.remaining = 0 → ∀ more, (t.run more).consumed = false →
        (t.run more).Settled ∧
          t.run more =
            { t with
              tally :=
                { t.tally with
                  rejected := t.tally.rejected + t.returns more .complete .unknownBlock } }) := by
  intro first t
  have kept : t.Kept := kept_run piece size blockSize window calls
  refine ⟨fun hactive c => done_eq hactive, signals_run piece size blockSize window calls,
    ?_, ?_, ?_⟩
  · intro block payload
    have next := first.run_append_singleton calls (.complete block payload)
    have last := kept.signals_iff (.complete block payload)
    constructor
    · intro signalled
      obtain ⟨taken, hactive⟩ := taken_of_signals signalled
      refine ⟨taken, (arrivals_perm_iff piece size blockSize window (next ▸ hactive)).mpr ?_⟩
      exact next ▸ (last.mp signalled).2
    · rintro ⟨taken, all⟩
      obtain ⟨hactive, hpending, -⟩ := (t.complete_ok_iff block payload).mp taken
      have stays := (t.consumed_after (.complete block payload) nofun).trans hactive
      have hdone := (arrivals_perm_iff piece size blockSize window (next ▸ stays)).mp all
      exact last.mpr ⟨(kept.ledger hactive).remaining_ne_zero hpending, next ▸ hdone⟩
  · intro call signalled
    have books := (kept.after call).ledger (taken_of_signals signalled).2
    have hdone := ((kept.signals_iff call).mp signalled).2
    have frame : (t.after call).grid = first.grid :=
      (t.frame_after call).2.1.trans (first.frame_run calls).2.1
    exact ⟨(books.scheduled_eq_size hdone).trans (congrArg Grid.size frame),
      books.pending_eq_nil hdone⟩
  · intro hactive hdone more hstays
    obtain ⟨books, done, unchanged⟩ := run_of_done (kept.ledger hactive) hdone hstays
    exact ⟨books.settled hstays done, unchanged⟩

theorem last_arrival_signals_reordered :
    let t := (new 0 3 2 2).run [.request, .complete ⟨2, 1⟩ [3]]
    let last := t.after (.complete ⟨0, 2⟩ [1, 2])
    t.consumed = false ∧ t.signals (.complete ⟨0, 2⟩ [1, 2]) = true ∧ last.scheduled = 3 ∧
      last.consumed = false ∧ last.remaining = 0 ∧
      (last.run [.complete ⟨0, 2⟩ [1, 2], .request]).Settled := by
  intro t last
  have signalled : t.signals (.complete ⟨0, 2⟩ [1, 2]) = true := by decide
  obtain ⟨-, -, -, ends, -⟩ :=
    last_arrival_signals 0 3 2 2 [.request, .complete ⟨2, 1⟩ [3]]
  obtain ⟨-, -, -, -, rests⟩ :=
    last_arrival_signals 0 3 2 2 [.request, .complete ⟨2, 1⟩ [3], .complete ⟨0, 2⟩ [1, 2]]
  refine ⟨by decide, signalled, (ends _ signalled).1, by decide, by decide, ?_⟩
  exact (rests (by decide) (by decide) [.complete ⟨0, 2⟩ [1, 2], .request] (by decide)).1

end PieceLedger.Tracker
