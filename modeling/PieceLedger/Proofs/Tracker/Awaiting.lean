import PieceLedger.Proofs.Tracker.Batches

/-!
# Trackers that lose nothing

A tracker of which no request is ever removed waits for what it has requested
and has not got.  Its arrivals and what it waits for make up what is scheduled,
so that counting them tells how far the piece has come, and the arrival that
completes it is the one that makes their number that of the grid.
-/

namespace PieceLedger.Tracker

/-- All that `t` has scheduled has arrived, but for `waiting`. -/
structure Awaits (first t : Tracker) (waiting : List Block) : Prop where
  ledger : t.Ledger
  active : t.consumed = false
  piece : t.piece = first.piece
  grid : t.grid = first.grid
  window : t.window = first.window
  pending : t.pending.Perm waiting
  level : t.completed.length + waiting.length = t.scheduledCount
  tally : t.tally = { requested := t.scheduledCount, received := t.completed.length }

theorem Ledger.remaining_eq_zero_iff {t : Tracker} (h : t.Ledger) :
    t.remaining = 0 ↔ t.completed.length = t.grid.count := by
  refine ⟨h.length_completed, fun all => h.completed_perm_iff.mp ?_⟩
  have inside : (t.completed.map Received.block).Subperm t.grid.blocks :=
    List.subperm_of_subset h.completed_nodup fun b hb => h.mem_blocks (List.mem_append_right _ hb)
  apply inside.perm_of_length_le
  rw [Grid.blocks, Grid.length_span, List.length_map, all]

namespace Awaits

variable {first t : Tracker} {waiting : List Block}

theorem perm (h : Awaits first t waiting) {others : List Block} (hperm : waiting.Perm others) :
    Awaits first t others :=
  { h with
    pending := h.pending.trans hperm
    level := hperm.length_eq ▸ h.level }

theorem isDone_eq (h : Awaits first t waiting) :
    t.isDone = decide (t.completed.length = first.grid.count) := by
  rw [isDone, ← h.grid]
  exact decide_eq_decide.mpr h.ledger.remaining_eq_zero_iff

theorem length_completed (h : Awaits first t []) : t.completed.length = t.scheduledCount := h.level

theorem freshCount_eq (h : Awaits first t []) :
    Ledger.freshCount t = min first.window.toNat (first.grid.count - t.scheduledCount) := by
  rw [Ledger.freshCount, h.window, h.grid, List.perm_nil.mp h.pending, List.length_nil,
    Nat.sub_zero]

theorem request (h : Awaits first t []) :
    let batch := first.grid.span t.scheduledCount
      (min first.window.toNat (first.grid.count - t.scheduledCount))
    t.request.1.status = .ok ∧ t.request.2 = batch ∧
      t.request.1.tracker.completed = t.completed ∧
      Awaits first t.request.1.tracker batch := by
  intro batch
  have idle := List.perm_nil.mp h.pending
  obtain ⟨accepted, tracker, fresh, active, pending⟩ := h.ledger.request_eq h.active
  obtain ⟨piece, grid, window⟩ := t.frame_after .request
  have kept := h.ledger.kept h.active
  have scheduled := kept.scheduledCount_after .request
  rw [h.freshCount_eq, h.grid] at fresh
  rw [fresh, idle, List.nil_append] at pending
  change _ = t.scheduledCount + t.request.2.length at scheduled
  have completed : (t.after .request).completed = t.completed := by
    simp [after, perform, request_eq, h.active]
  have tally : (t.after .request).tally =
      { t.tally with requested := t.tally.requested + t.request.2.length } := by
    simp [after, perform, request_eq, h.active]
  refine ⟨accepted, fresh, tracker ▸ completed, tracker ▸ ?_⟩
  exact
    { ledger := (kept.after .request).ledger active
      active
      piece := piece.trans h.piece
      grid := grid.trans h.grid
      window := window.trans h.window
      pending := .of_eq pending
      level := by rw [completed, h.length_completed, scheduled, fresh]
      tally := by rw [tally, h.tally, scheduled, completed] }

theorem complete {b : Block} {payload : Bytes} (h : Awaits first t (b :: waiting))
    (hlength : payload.length = b.length.toNat) :
    (t.complete b payload).status = .ok ∧
      (t.complete b payload).done = decide (t.completed.length + 1 = first.grid.count) ∧
      (t.complete b payload).tracker.completed.length = t.completed.length + 1 ∧
      Awaits first (t.complete b payload).tracker waiting := by
  have waited : b ∈ t.pending := h.pending.symm.subset List.mem_cons_self
  obtain ⟨accepted, active, pending⟩ := complete_of_pending h.active waited hlength
  obtain ⟨piece, grid, window⟩ := t.frame_after (.complete b payload)
  have kept := h.ledger.kept h.active
  have scheduled := kept.scheduledCount_after (.complete b payload)
  have completed :
      (t.complete b payload).tracker.completed = t.completed ++ [⟨b, payload⟩] := by
    simp [complete_eq, h.active, waited, hlength]
  have tally : (t.complete b payload).tracker.tally =
      { t.tally with received := t.tally.received + 1 } := by
    simp [complete_eq, h.active, waited, hlength]
  have more : (t.complete b payload).tracker.completed.length = t.completed.length + 1 := by
    rw [completed, List.length_append, List.length_singleton]
  have awaits : Awaits first (t.complete b payload).tracker waiting :=
    { ledger := (kept.after (.complete b payload)).ledger active
      active
      piece := piece.trans h.piece
      grid := grid.trans h.grid
      window := window.trans h.window
      pending := by
        rw [pending]
        exact (List.cons_perm_iff_perm_erase.mp h.pending.symm).2.symm
      level := by
        have level := h.level
        rw [List.length_cons] at level
        rw [more]
        exact (Nat.add_right_comm _ 1 _).trans (level.trans scheduled.symm)
      tally := by
        rw [tally, h.tally, more]
        exact congrArg (Tally.mk · _ _ _) scheduled.symm }
  refine ⟨accepted, ?_, more, awaits⟩
  rw [(t.complete_of_ok b payload accepted).1, awaits.isDone_eq, more]

end Awaits

end PieceLedger.Tracker
