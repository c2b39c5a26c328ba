import PieceLedger.Proofs.Tracker.History

/-!
# Trackers do not get stuck

While bytes remain, a tracker waits for a block, or it has blocks to schedule,
or a block was removed that it takes back.  Whatever has been called before,
its piece can therefore still be completed, one arrival after the other.
-/

namespace PieceLedger.Tracker

/-- The calls by which blocks are fetched; arrivals bring what `payload` has for their block. -/
inductive Fetching (payload : Block → Bytes) : Call → Prop where
  | request : Fetching payload .request
  | complete (block : Block) : Fetching payload (.complete block (payload block))
  | add (block : Block) : Fetching payload (.add block)

def Advances (t : Tracker) (payload : Block → Bytes) (calls : List Call) : Prop :=
  ∀ entry ∈ t.history calls,
    Fetching payload entry.2 ∧ (entry.1.perform entry.2).status = some .ok

/-- A block that was removed in a run, and not requested again since. -/
def Dropped (first : Tracker) (calls : List Call) (block : Block) : Prop :=
  ∃ earlier later, calls = earlier ++ .remove block :: later ∧
    ((first.run earlier).perform (.remove block)).status = some .ok ∧
      ∀ entry ∈ ((first.run earlier).after (.remove block)).history later,
        entry.2 = .add block → (entry.1.perform entry.2).status ≠ some .ok

namespace Advances

variable {t : Tracker} {payload : Block → Bytes} {calls more : List Call} {call : Call}

theorem single (hcall : Fetching payload call) (hstatus : (t.perform call).status = some .ok) :
    t.Advances payload [call] := by
  intro entry hentry
  obtain rfl := List.mem_singleton.mp hentry
  exact ⟨hcall, hstatus⟩

theorem append (h : t.Advances payload calls) (hmore : (t.run calls).Advances payload more) :
    t.Advances payload (calls ++ more) := by
  rw [Advances, history_append]
  intro entry hentry
  rcases List.mem_append.mp hentry with before | later
  · exact h entry before
  · exact hmore entry later

end Advances

/-! ## Lapsed blocks -/

theorem pending_of_add {t : Tracker} {block : Block}
    (hstatus : (t.perform (.add block)).status = some .ok) :
    block ∈ (t.after (.add block)).pending := by
  have change := t.change_perform (.add block)
  rw [after]
  generalize t.perform (.add block) = effect at change hstatus ⊢
  cases change with
  | added => exact List.mem_append_right _ List.mem_cons_self
  | _ => cases hstatus

theorem Kept.lapsed_before {t : Tracker} (h : t.Kept) {call : Call} {block : Block}
    (hactive : (t.after call).consumed = false) (hlapsed : (t.after call).Lapsed block) :
    t.Lapsed block ∨ (call = .remove block ∧ (t.perform call).status = some .ok) := by
  have scheduled := h.scheduledCount_after call
  have later := ((h.after call).ledger hactive).lapsed_iff.mp hlapsed
  have books := h.ledger (active_of_after hactive)
  have change := t.change_perform call
  rw [Tracker.after] at hactive hlapsed later scheduled
  generalize t.perform call = effect at change hactive hlapsed later scheduled ⊢
  cases change with
  | requested =>
      obtain ⟨⟨k, hk, hblock⟩, free⟩ := later
      rw [scheduled] at hk
      simp only [books.schedule_eq, Grid.length_span] at hk free
      refine .inl (books.lapsed_iff.mpr ⟨⟨k, ?_, hblock⟩, fun held => free ?_⟩)
      · -- Otherwise it would be one of the fresh blocks, which are pending.
        by_contra fresh
        apply free
        apply List.mem_append_left
        apply List.mem_append_right
        exact t.grid.mem_span.mpr ⟨k, by omega, hk, hblock.eq_block.symm⟩
      · exact ((List.sublist_append_left _ _).append (List.Sublist.refl _)).subset held
  | received other payload _ hpending =>
      obtain ⟨aligned, early, length, free⟩ := hlapsed
      refine .inl ⟨aligned, early, length, fun held => free ?_⟩
      exact (held_receive hpending payload).symm.subset held
  | removed other =>
      obtain ⟨aligned, early, length, free⟩ := hlapsed
      by_cases same : other = block
      · exact .inr ⟨by rw [same], rfl⟩
      · refine .inl ⟨aligned, early, length, fun held => free ?_⟩
        rcases List.mem_append.mp held with waiting | here
        · exact List.mem_append_left _ ((List.mem_erase_of_ne (Ne.symm same)).mpr waiting)
        · exact List.mem_append_right _ here
  | added other =>
      obtain ⟨aligned, early, length, free⟩ := hlapsed
      refine .inl ⟨aligned, early, length, fun held => free ?_⟩
      exact ((List.sublist_append_left _ _).append (List.Sublist.refl _)).subset held
  | judged => exact absurd hactive (by simp [Tracker.consume])
  | _ => exact .inl hlapsed

theorem dropped_of_lapsed (piece size blockSize window : UInt32) {calls : List Call} {block : Block}
    (hactive : ((new piece size blockSize window).run calls).consumed = false)
    (hlapsed : ((new piece size blockSize window).run calls).Lapsed block) :
    (new piece size blockSize window).Dropped calls block := by
  generalize hfirst : new piece size blockSize window = first at hactive hlapsed ⊢
  induction calls using List.reverseRecOn with
  | nil =>
      subst hfirst
      exact absurd (UInt32.lt_iff_toNat_lt.mp hlapsed.2.1) (Nat.not_lt_zero _)
  | append_singleton calls call ih =>
      rw [run_append_singleton] at hactive hlapsed
      have kept : (first.run calls).Kept := hfirst ▸ kept_run piece size blockSize window calls
      rcases kept.lapsed_before hactive hlapsed with before | ⟨rfl, removed⟩
      · obtain ⟨earlier, later, rfl, removed, since⟩ := ih (active_of_after hactive) before
        refine ⟨earlier, later ++ [call], by simp, removed, ?_⟩
        rw [history_append]
        intro entry hentry hadd hstatus
        rcases List.mem_append.mp hentry with old | last
        · exact since entry old hadd hstatus
        · rw [run_append] at hlapsed
          obtain rfl := List.mem_singleton.mp last
          subst hadd
          exact hlapsed.2.2.2 (List.mem_append_left _ (pending_of_add hstatus))
      · exact ⟨calls, [], rfl, removed, nofun⟩

/-! ## Steps towards the end -/

namespace Ledger

variable {t : Tracker} {payload : Block → Bytes}

theorem exists_lapsed (h : t.Ledger) (hidle : t.pending = [])
    (hremaining : t.remaining ≠ 0) (hall : t.scheduledCount = t.grid.count) :
    ∃ block, t.Lapsed block := by
  by_contra none
  have here : ∀ block ∈ t.grid.blocks, block ∈ t.completed.map Received.block := by
    intro block hblock
    by_contra missing
    refine none ⟨block, h.lapsed_iff.mpr ⟨?_, ?_⟩⟩
    · rw [hall]
      exact t.grid.mem_blocks.mp hblock
    · rwa [Tracker.held, hidle, List.nil_append]
  have all : (t.completed.map Received.block).Perm t.grid.blocks := by
    apply (List.perm_ext_iff_of_nodup h.completed_nodup t.grid.blocks_nodup).mpr
    exact fun block => ⟨fun hb => h.mem_blocks (List.mem_append_right _ hb), here block⟩
  exact hremaining (h.completed_perm_iff.mp all)

theorem request_eq (h : t.Ledger) (hactive : t.consumed = false) :
    t.request.1.status = .ok ∧ t.request.1.tracker = t.after .request ∧
      t.request.2 = t.grid.span t.scheduledCount (freshCount t) ∧
      (t.after .request).consumed = false ∧
      (t.after .request).pending = t.pending ++ t.request.2 := by
  simp [Tracker.request_eq, after, perform, hactive, h.schedule_eq]

theorem requested_ne_nil (h : t.Ledger) (hactive : t.consumed = false)
    (hidle : t.pending = []) (hleft : t.scheduledCount < t.grid.count) :
    t.request.2 ≠ [] := by
  have room := UInt32.lt_iff_toNat_lt.mp t.window_pos
  rw [UInt32.toNat_zero] at room
  rw [(h.request_eq hactive).2.2.1, ← List.length_pos_iff, t.grid.length_span, freshCount, hidle,
    List.length_nil]
  omega

theorem fresh_or_lapsed (h : t.Ledger) (hactive : t.consumed = false)
    (hidle : t.pending = []) (hremaining : t.remaining ≠ 0) :
    (t.scheduled < t.size ∧ t.request.2 ≠ []) ∨
      ∃ block, t.Lapsed block ∧ (t.perform (.add block)).status = some .ok := by
  rcases Nat.lt_or_eq_of_le h.scheduledCount_le with left | all
  · refine .inl ⟨?_, h.requested_ne_nil hactive hidle left⟩
    rw [UInt32.lt_iff_toNat_lt, ← h.reach_scheduledCount, t.grid.reach_of_lt left]
    exact t.grid.lt_count.mp left
  · obtain ⟨block, hlapsed⟩ := h.exists_lapsed hidle hremaining all
    have room : t.pending.length < t.window.toNat := by
      rw [hidle]
      exact t.window_pos
    exact .inr ⟨block, hlapsed, (t.add_ok_iff block).mpr ⟨hactive, room, hlapsed⟩⟩

theorem exists_awaited (h : t.Ledger) (hactive : t.consumed = false)
    (hremaining : t.remaining ≠ 0)
    (payload : Block → Bytes) :
    ∃ calls, t.Advances payload calls ∧ (t.run calls).consumed = false ∧
      (t.run calls).Ledger ∧
      (t.run calls).remaining = t.remaining ∧ (t.run calls).pending ≠ [] := by
  by_cases hidle : t.pending = []
  · have kept := h.kept hactive
    rcases h.fresh_or_lapsed hactive hidle hremaining with ⟨-, fresh⟩ | ⟨block, -, accepted⟩
    · obtain ⟨accepted, -, -, active, pending⟩ := h.request_eq hactive
      refine ⟨[.request], .single .request (congrArg some accepted), active,
        (kept.after .request).ledger active, ?_, ?_⟩
      · exact UInt32.toNat_inj.mp (kept.remaining_received .request)
      · change (t.after .request).pending ≠ []
        rw [pending, hidle]
        exact fresh
    · have active : (t.after (.add block)).consumed = false :=
        (t.consumed_after (.add block) nofun).trans hactive
      refine ⟨[.add block], .single (.add block) accepted, active,
        (kept.after (.add block)).ledger active, ?_, ?_⟩
      · exact UInt32.toNat_inj.mp (kept.remaining_received (.add block))
      · exact List.ne_nil_of_mem (pending_of_add accepted)
  · exact ⟨[], nofun, hactive, h, rfl, hidle⟩

theorem progress (h : t.Ledger) (hactive : t.consumed = false) (hremaining : t.remaining ≠ 0)
    (hpayload : ∀ b ∈ t.grid.blocks, (payload b).length = b.length.toNat) :
    ∃ calls, t.Advances payload calls ∧ (t.run calls).consumed = false ∧
      (t.run calls).Ledger ∧
      (t.run calls).remaining.toNat < t.remaining.toNat := by
  obtain ⟨calls, advances, active, books, same, waiting⟩ :=
    h.exists_awaited hactive hremaining payload
  obtain ⟨block, rest, hpending⟩ := List.exists_cons_of_ne_nil waiting
  have awaited : block ∈ (t.run calls).pending := hpending ▸ List.mem_cons_self
  have known := books.mem_blocks (List.mem_append_left _ awaited)
  rw [(t.frame_run calls).2.1] at known
  have kept := books.kept active
  have taken : ((t.run calls).perform (.complete block (payload block))).status = some .ok :=
    (complete_ok_iff _ _ _).mpr ⟨active, awaited, hpayload block known⟩
  have stays := ((t.run calls).consumed_after (.complete block (payload block)) nofun).trans active
  refine ⟨calls ++ [.complete block (payload block)],
    advances.append (.single (.complete block) taken), ?_⟩
  rw [run_append_singleton]
  refine ⟨stays, (kept.after _).ledger stays, ?_⟩
  have positive := t.grid.bytes_pos_of_mem known
  have arrived : ((t.run calls).perform (.complete block (payload block))).received =
      [⟨block, payload block⟩] := if_pos (Option.some.inj taken)
  have fewer := kept.remaining_received (.complete block (payload block))
  rw [arrived, same] at fewer
  simp only [List.map_cons, List.map_nil, Block.bytes_singleton] at fewer
  omega

/-- Whatever its state, an active tracker can still complete its piece. -/
theorem exists_completion (h : t.Ledger) (hactive : t.consumed = false)
    (hpayload : ∀ b ∈ t.grid.blocks, (payload b).length = b.length.toNat) :
    ∃ calls, t.Advances payload calls ∧ (t.run calls).consumed = false ∧
      (t.run calls).remaining = 0 := by
  -- The bytes that remain are the measure: repeated requests may compete with fresh ones for
  -- places in the window, but each round ends with an arrival.
  induction bytes : t.remaining.toNat using Nat.strongRecOn generalizing t with
  | ind bytes ih =>
      by_cases hdone : t.remaining = 0
      · exact ⟨[], nofun, hactive, hdone⟩
      · obtain ⟨calls, advances, active, books, fewer⟩ := h.progress hactive hdone hpayload
        have grid := (t.frame_run calls).2.1
        obtain ⟨more, rest, stays, done⟩ :=
          ih _ (bytes ▸ fewer) books active (grid ▸ hpayload) rfl
        rw [← run_append] at stays done
        exact ⟨calls ++ more, advances.append rest, stays, done⟩

end Ledger

/--
An active tracker can complete its piece by requests, repeated requests and
arrivals that all succeed, whatever bytes arrive.  If it waits for nothing while
bytes remain, it has fresh blocks to request, or it takes back a block that the
run has removed; in a run without removals it always has fresh blocks.
-/
theorem run_never_stuck (piece size blockSize window : UInt32) (calls : List Call)
    (hactive : ((new piece size blockSize window).run calls).consumed = false) :
    let first := new piece size blockSize window
    let t := first.run calls
    (∀ payload : Block → Bytes,
      (∀ b ∈ t.grid.blocks, (payload b).length = b.length.toNat) →
      ∃ more, t.Advances payload more ∧ (t.run more).consumed = false ∧
        (t.run more).remaining = 0) ∧
      (t.pending = [] → t.remaining ≠ 0 →
        ((t.scheduled < t.size ∧ (t.perform .request).status = some .ok ∧
            (t.perform .request).requested ≠ []) ∨
          ∃ block, first.Dropped calls block ∧ (t.perform (.add block)).status = some .ok) ∧
        ((∀ block, .remove block ∉ calls) →
          (t.perform .request).status = some .ok ∧ (t.perform .request).requested ≠ [])) := by
  intro first t
  have books : t.Ledger := (kept_run piece size blockSize window calls).ledger hactive
  have accepted : (t.perform .request).status = some .ok :=
    congrArg some (books.request_eq hactive).1
  refine ⟨fun payload => books.exists_completion hactive, fun hidle hremaining => ?_⟩
  rcases books.fresh_or_lapsed hactive hidle hremaining with
    ⟨unscheduled, fresh⟩ | ⟨block, hlapsed, taken⟩
  · exact ⟨.inl ⟨unscheduled, accepted, fresh⟩, fun _ => ⟨accepted, fresh⟩⟩
  · have dropped : first.Dropped calls block :=
      dropped_of_lapsed piece size blockSize window hactive hlapsed
    refine ⟨.inr ⟨block, dropped, taken⟩, fun unremoved => ?_⟩
    obtain ⟨earlier, later, rfl, -⟩ := dropped
    exact absurd (List.mem_append_right _ List.mem_cons_self) (unremoved block)

/-- All is scheduled and nothing pending, but a block was removed on the way. -/
theorem run_never_stuck_removed :
    let first := new 0 3 2 1
    let calls : List Call := [.request, .remove ⟨0, 2⟩, .request, .complete ⟨2, 1⟩ [3]]
    let t := first.run calls
    let payload : Block → Bytes := fun b => ([1, 2, 3].drop b.offset.toNat).take b.length.toNat
    t.consumed = false ∧ t.pending = [] ∧ t.remaining ≠ 0 ∧
      (∀ b ∈ t.grid.blocks, (payload b).length = b.length.toNat) ∧
      (∃ more, t.Advances payload more ∧ (t.run more).remaining = 0) ∧
      (∃ block, first.Dropped calls block ∧ (t.perform (.add block)).status = some .ok) ∧
      (first.perform .request).requested ≠ [] := by
  intro first calls t payload
  have whole : ∀ b ∈ t.grid.blocks, (payload b).length = b.length.toNat := by decide
  obtain ⟨completes, idle⟩ := run_never_stuck 0 3 2 1 calls (by decide)
  obtain ⟨-, start⟩ := run_never_stuck 0 3 2 1 [] (by decide)
  obtain ⟨more, advances, -, done⟩ := completes payload whole
  refine ⟨by decide, by decide, by decide, whole, ⟨more, advances, done⟩, ?_, ?_⟩
  · exact (idle (by decide) (by decide)).1.resolve_left fun unscheduled =>
      absurd unscheduled.1 (by decide)
  · exact ((start (by decide) (by decide)).2 nofun).2

end PieceLedger.Tracker
