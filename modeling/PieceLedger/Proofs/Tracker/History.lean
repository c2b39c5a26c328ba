import PieceLedger.Proofs.Tracker.Ledger

/-!
# Histories and the tally

The history of a run pairs each call with the tracker that it is made on.  The
counters of a tracker say how often its calls returned what, and they balance:
a block that was requested has arrived, was removed or is waited for.
-/

namespace PieceLedger.Tracker

def Call.operation : Call → Operation
  | .request => .request
  | .complete _ _ => .complete
  | .remove _ => .remove
  | .add _ => .add
  | .validate _ => .validate

def history (t : Tracker) : List Call → List (Tracker × Call)
  | [] => []
  | call :: rest => (t, call) :: (t.after call).history rest

def returning (t : Tracker) (call : Call) (operation : Operation) (status : Status) : Bool :=
  call.operation = operation ∧ (t.perform call).status = some status

def returns (t : Tracker) (calls : List Call) (operation : Operation) (status : Status) : Nat :=
  (t.history calls).countP fun entry => entry.1.returning entry.2 operation status

theorem history_append (t : Tracker) (calls more : List Call) :
    t.history (calls ++ more) = t.history calls ++ (t.run calls).history more := by
  induction calls generalizing t with
  | nil => rfl
  | cons call rest ih =>
      rw [List.cons_append, history, history, ih, List.cons_append]
      rfl

theorem returns_append_singleton (t : Tracker) (calls : List Call) (call : Call)
    (operation : Operation) (status : Status) :
    t.returns (calls ++ [call]) operation status =
      t.returns calls operation status +
        ((t.run calls).returning call operation status).toNat := by
  rw [returns, history_append, List.countP_append, returns]
  cases h : (t.run calls).returning call operation status <;> simp [history, h]

theorem consumed_after (t : Tracker) (call : Call) (hcall : call.operation ≠ .validate) :
    (t.after call).consumed = t.consumed := by
  have change := t.change_perform call
  rw [after]
  generalize t.perform call = effect at change
  cases change with
  | judged => exact absurd rfl hcall
  | _ => rfl

/-! ## The tally -/

/-- The counters of a tracker, when its calls returned as often as `returned` says. -/
structure Tallied (t : Tracker) (returned : Operation → Status → Nat) : Prop where
  balance : t.tally.requested = t.tally.received + t.tally.removed + t.pending.length
  requested : t.tally.requested = t.scheduledCount + returned .add .ok
  received : t.tally.received = returned .complete .ok
  arrived : t.tally.received = if t.consumed then t.grid.count else t.completed.length
  removed : t.tally.removed = returned .remove .ok
  rejected : t.tally.rejected = returned .complete .unknownBlock

theorem tallied_new (piece size blockSize window : UInt32) :
    (new piece size blockSize window).Tallied fun _ _ => 0 where
  balance := rfl
  requested := ((new piece size blockSize window).grid.cover_eq (by simp [new])).symm
  received := rfl
  arrived := rfl
  removed := rfl
  rejected := rfl

theorem Kept.scheduledCount_after {t : Tracker} (h : t.Kept) (call : Call) :
    (t.after call).scheduledCount =
      t.scheduledCount + (t.perform call).requested.length := by
  have spans := congrArg List.length (h.span_requested call)
  rw [List.length_append, Grid.length_span, Grid.length_span] at spans
  exact spans.symm

theorem Ledger.length_completed {t : Tracker} (h : t.Ledger) (hdone : t.remaining = 0) :
    t.completed.length = t.grid.count := by
  have all := (h.completed_perm hdone).length_eq
  rwa [List.length_map, Grid.blocks, Grid.length_span] at all

theorem Tallied.after {t : Tracker} {returned : Operation → Status → Nat}
    (h : t.Tallied returned) (kept : t.Kept) (call : Call) :
    (t.after call).Tallied fun operation status =>
      returned operation status + (t.returning call operation status).toNat := by
  obtain ⟨balance, requested, received, arrived, removed, rejected⟩ := h
  have scheduled := kept.scheduledCount_after call
  have change := t.change_perform call
  simp only [returning]
  rw [Tracker.after] at scheduled ⊢
  generalize t.perform call = effect at change scheduled ⊢
  cases change with
  | requested hactive =>
      exact
        { balance := by simp only [List.length_append]; omega
          requested := by rw [scheduled]; simp [Call.operation]; omega
          received := by simpa [Call.operation]
          arrived := arrived
          removed := by simpa [Call.operation]
          rejected := by simpa [Call.operation] }
  | received block payload hactive hpending hlength =>
      have fewer := List.length_erase_add_one hpending
      rw [hactive] at arrived
      exact
        { balance := by simp only; omega
          requested := by simpa [Call.operation]
          received := by simpa [Call.operation]
          arrived := by simpa [hactive]
          removed := by simpa [Call.operation]
          rejected := by simpa [Call.operation] }
  | removed block hactive hpending =>
      have fewer := List.length_erase_add_one hpending
      exact
        { balance := by simp only; omega
          requested := by simpa [Call.operation]
          received := by simpa [Call.operation]
          arrived := arrived
          removed := by simpa [Call.operation]
          rejected := by simpa [Call.operation] }
  | added block hactive hroom hlapsed =>
      exact
        { balance := by simp only [List.length_append, List.length_singleton]; omega
          requested := by rw [scheduled]; simp [Call.operation]; omega
          received := by simpa [Call.operation]
          arrived := arrived
          removed := by simpa [Call.operation]
          rejected := by simpa [Call.operation] }
  | judged torrent expected hactive hdone =>
      -- Nothing is pending and all blocks are there, so that dropping both lists loses no count.
      have books := kept.ledger hactive
      rw [hactive] at arrived
      exact
        { balance := by simpa [consume, books.pending_eq_nil hdone] using balance
          requested := by simpa [Call.operation]
          received := by simpa [Call.operation]
          arrived := arrived.trans (books.length_completed hdone)
          removed := by simpa [Call.operation]
          rejected := by simpa [Call.operation] }
  | _ => constructor <;> simpa [Call.operation]

/--
The counters of a tracker balance at every moment of every run, and each says
how often its operation has succeeded or refused.  The requested blocks are the
scheduled ones and those requested again; the arrivals are the blocks that an
active tracker has, or all blocks of the piece once it is consumed.
-/
theorem run_tallies_calls (piece size blockSize window : UInt32) (calls : List Call) :
    let first := new piece size blockSize window
    (first.run calls).Tallied (first.returns calls) := by
  intro first
  induction calls using List.reverseRecOn with
  | nil => exact tallied_new piece size blockSize window
  | append_singleton calls call ih =>
      have returned : first.returns (calls ++ [call]) = fun operation status =>
          first.returns calls operation status +
            ((first.run calls).returning call operation status).toNat := by
        funext operation status
        exact first.returns_append_singleton calls call operation status
      rw [run_append_singleton, returned]
      exact ih.after (kept_run piece size blockSize window calls) call

end PieceLedger.Tracker
