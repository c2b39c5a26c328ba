import PieceLedger.Proofs.Tracker.Grid
import PieceLedger.Proofs.Tracker.Run
import Mathlib.Data.List.Induction
import Mathlib.Data.List.Nodup

/-!
# The ledger invariant

While a tracker is active its books agree with the block grid: what it holds
are distinct scheduled blocks, and the bytes that remain and those that have
arrived make up the piece.  At the moment when nothing remains, all blocks of
the grid have arrived, so that nothing is left to wait for.
-/

namespace PieceLedger.Tracker

def grid (t : Tracker) : Grid := ⟨t.size, t.blockSize, t.blockSize_pos⟩

def scheduledCount (t : Tracker) : Nat := t.grid.cover t.scheduled.toNat

structure Ledger (t : Tracker) : Prop where
  scheduled_le : t.scheduled.toNat ≤ t.size.toNat
  boundary : t.scheduled.toNat = t.size.toNat ∨ t.blockSize.toNat ∣ t.scheduled.toNat
  held : ∀ b ∈ t.held, ∃ k, t.grid.start k < t.scheduled.toNat ∧ t.grid.IsBlock k b
  distinct : (t.held.map Block.offset).Nodup
  payload_length : ∀ r ∈ t.completed, r.payload.length = r.block.length.toNat
  balance :
    t.remaining.toNat + Block.bytes (t.completed.map Received.block) = t.size.toNat
  pending_le : t.pending.length ≤ t.window.toNat

structure Closed (t : Tracker) : Prop where
  pending : t.pending = []
  completed : t.completed = []
  remaining : t.remaining = 0
  scheduled : t.scheduled = t.size

def Kept (t : Tracker) : Prop := if t.consumed then t.Closed else t.Ledger

/-! ## Scheduling -/

theorem blockAt_eq (t : Tracker) {k : Nat} {offset : UInt32} (hk : k < t.grid.count)
    (hoffset : offset.toNat = t.grid.start k) : t.blockAt offset = t.grid.block k := by
  have inside : t.grid.start k < t.size.toNat := t.grid.lt_count.mp hk
  apply Grid.IsBlock.eq_block
  refine ⟨hoffset, ?_⟩
  have left : (t.size - offset).toNat = t.size.toNat - t.grid.start k := by
    rw [UInt32.toNat_sub_of_le, hoffset]
    rw [UInt32.le_iff_toNat_le]
    omega
  change (if t.blockSize ≤ t.size - offset then t.blockSize else t.size - offset).toNat =
    min t.blockSize.toNat (t.size.toNat - t.grid.start k)
  rw [← left]
  split
  case isTrue whole => exact (Nat.min_eq_left (UInt32.le_iff_toNat_le.mp whole)).symm
  case isFalse short =>
    rw [UInt32.le_iff_toNat_le] at short
    exact (Nat.min_eq_right (by omega)).symm

theorem schedule_eq (t : Tracker) (room first : Nat) (offset : UInt32) (before : List Block)
    (hfirst : first ≤ t.grid.count) (hoffset : offset.toNat = t.grid.reach first) :
    t.schedule room offset before =
      (before.reverse ++ t.grid.span first (min room (t.grid.count - first)),
        .ofNat (t.grid.reach (first + min room (t.grid.count - first)))) := by
  induction room generalizing first offset before with
  | zero => simp [schedule, Grid.span, ← hoffset]
  | succ room ih =>
      have bound := t.size.toNat_lt
      have offset_le : offset.toNat ≤ t.size.toNat := hoffset ▸ t.grid.reach_le first
      have left : (t.size - offset).toNat = t.size.toNat - offset.toNat :=
        UInt32.toNat_sub_of_le _ _ (UInt32.le_iff_toNat_le.mpr offset_le)
      by_cases hlast : first = t.grid.count
      · have exhausted : t.size - offset = 0 := by
          rw [← UInt32.toNat_inj, left, hoffset, hlast, t.grid.reach_count]
          exact Nat.sub_self _
        simp [schedule, exhausted, ← hlast, Grid.span, ← hoffset]
      · have inside : first < t.grid.count := by omega
        have boundary : offset.toNat = t.grid.start first := by
          rw [hoffset, t.grid.reach_of_lt inside]
        have unscheduled : t.size - offset ≠ 0 := by
          rw [ne_eq, ← UInt32.toNat_inj, left]
          have begins : t.grid.start first < t.size.toNat := t.grid.lt_count.mp inside
          simp only [UInt32.toNat_zero]
          omega
        have next : (offset + (t.grid.block first).length).toNat =
            t.grid.reach (first + 1) := by
          have ends : t.grid.reach (first + 1) ≤ t.size.toNat := t.grid.reach_le _
          rw [UInt32.toNat_add, (t.grid.isBlock_block inside).2, hoffset,
            ← t.grid.reach_succ inside]
          omega
        rw [schedule, if_neg unscheduled]
        simp only [t.blockAt_eq inside boundary]
        rw [ih (first + 1) _ _ (by omega) next]
        have number : min (room + 1) (t.grid.count - first) =
            1 + min room (t.grid.count - (first + 1)) := by omega
        rw [number, ← t.grid.span_append, Nat.add_assoc]
        simp [Grid.span]

/-! ## Consequences of the books -/

namespace Ledger

variable {t : Tracker}

theorem scheduledCount_le (h : t.Ledger) : t.scheduledCount ≤ t.grid.count :=
  t.grid.cover_le_count h.scheduled_le

theorem reach_scheduledCount (h : t.Ledger) :
    t.grid.reach t.scheduledCount = t.scheduled.toNat :=
  t.grid.reach_cover h.boundary h.scheduled_le

theorem exists_index (h : t.Ledger) {b : Block} (hb : b ∈ t.held) :
    ∃ k < t.scheduledCount, t.grid.IsBlock k b := by
  obtain ⟨k, hk, hblock⟩ := h.held b hb
  exact ⟨k, t.grid.lt_cover.mpr hk, hblock⟩

theorem mem_blocks (h : t.Ledger) {b : Block} (hb : b ∈ t.held) : b ∈ t.grid.blocks := by
  obtain ⟨k, hk, hblock⟩ := h.exists_index hb
  exact t.grid.mem_blocks.mpr ⟨k, Nat.lt_of_lt_of_le hk h.scheduledCount_le, hblock⟩

theorem held_nodup (h : t.Ledger) : t.held.Nodup := List.Nodup.of_map _ h.distinct

theorem pending_nodup (h : t.Ledger) : t.pending.Nodup :=
  h.held_nodup.sublist (List.sublist_append_left _ _)

theorem completed_nodup (h : t.Ledger) : (t.completed.map Received.block).Nodup :=
  h.held_nodup.sublist (List.sublist_append_right _ _)

/-- The number of blocks that the next request schedules. -/
def freshCount (t : Tracker) : Nat :=
  min (t.window.toNat - t.pending.length) (t.grid.count - t.scheduledCount)

theorem freshCount_le (h : t.Ledger) : t.scheduledCount + freshCount t ≤ t.grid.count := by
  have count_le := h.scheduledCount_le
  rw [freshCount]
  omega

theorem schedule_eq (h : t.Ledger) :
    t.schedule (t.window.toNat - t.pending.length) t.scheduled [] =
      (t.grid.span t.scheduledCount (freshCount t),
        .ofNat (t.grid.reach (t.scheduledCount + freshCount t))) := by
  rw [Tracker.schedule_eq t _ t.scheduledCount _ _ h.scheduledCount_le
    h.reach_scheduledCount.symm]
  rfl

theorem length_le_remaining (h : t.Ledger) {b : Block} (hb : b ∈ t.pending) :
    b.length.toNat ≤ t.remaining.toNat := by
  have sublist : (b :: t.completed.map Received.block).Sublist t.held :=
    (List.singleton_sublist.mpr hb).append (List.Sublist.refl _)
  have total := t.grid.bytes_le (h.held_nodup.sublist sublist) fun c hc =>
    h.mem_blocks (sublist.subset hc)
  change _ ≤ t.size.toNat at total
  rw [Block.bytes_cons, ← h.balance] at total
  omega

theorem remaining_sub (h : t.Ledger) {b : Block} (hb : b ∈ t.pending) :
    (t.remaining - b.length).toNat + b.length.toNat = t.remaining.toNat := by
  have length_le := h.length_le_remaining hb
  rw [UInt32.toNat_sub_of_le _ _ (UInt32.le_iff_toNat_le.mpr length_le)]
  omega

theorem completed_perm (h : t.Ledger) (hdone : t.remaining = 0) :
    (t.completed.map Received.block).Perm t.grid.blocks := by
  apply t.grid.perm_blocks h.completed_nodup
  · intro b hb
    exact h.mem_blocks (List.mem_append_right _ hb)
  · have balance := h.balance
    rwa [hdone, UInt32.toNat_zero, Nat.zero_add] at balance

theorem completed_perm_iff (h : t.Ledger) :
    (t.completed.map Received.block).Perm t.grid.blocks ↔ t.remaining = 0 := by
  refine ⟨fun all => ?_, h.completed_perm⟩
  have balance := h.balance
  rw [Block.bytes_perm all, t.grid.bytes_blocks] at balance
  change t.remaining.toNat + t.size.toNat = t.size.toNat at balance
  rw [← UInt32.toNat_inj, UInt32.toNat_zero]
  omega

theorem pending_eq_nil (h : t.Ledger) (hdone : t.remaining = 0) : t.pending = [] := by
  have all : t.held.Subperm t.grid.blocks :=
    List.subperm_of_subset h.held_nodup fun b hb => h.mem_blocks hb
  have number := all.length_le
  rw [Tracker.held, List.length_append, (h.completed_perm hdone).length_eq] at number
  exact List.length_eq_zero_iff.mp (by omega)

theorem scheduled_eq_size (h : t.Ledger) (hdone : t.remaining = 0) :
    t.scheduled = t.size := by
  have all : t.grid.count ≤ t.scheduledCount := by
    apply Nat.le_of_not_lt
    intro hlt
    -- The first unscheduled block would have arrived.
    have begins : t.grid.block t.scheduledCount ∈ t.held := by
      apply List.mem_append_right
      rw [(h.completed_perm hdone).mem_iff]
      exact t.grid.mem_blocks.mpr ⟨_, hlt, t.grid.isBlock_block hlt⟩
    obtain ⟨k, hk, hblock⟩ := h.exists_index begins
    have same : t.scheduledCount = k := (t.grid.isBlock_block hlt).index_eq hblock rfl
    omega
  rw [← UInt32.toNat_inj, ← h.reach_scheduledCount, Nat.le_antisymm h.scheduledCount_le all]
  exact t.grid.reach_count

end Ledger

/-! ## What calls keep -/

theorem ledger_new (piece size blockSize window : UInt32) :
    (new piece size blockSize window).Ledger where
  scheduled_le := Nat.zero_le _
  boundary := .inr (Nat.dvd_zero _)
  held := by simp [new, held]
  distinct := by simp [new, held]
  payload_length := by simp [new]
  balance := by simp [new, Block.bytes]
  pending_le := Nat.zero_le _

theorem Ledger.extend {t : Tracker} (h : t.Ledger) (tally : Tally) {number : Nat}
    (hcount : t.scheduledCount + number ≤ t.grid.count)
    (hroom : t.pending.length + number ≤ t.window.toNat) :
    Ledger
      { t with
        scheduled := .ofNat (t.grid.reach (t.scheduledCount + number))
        pending := t.pending ++ t.grid.span t.scheduledCount number
        tally } := by
  have begins {k : Nat} (hk : k < t.scheduledCount + number) :
      t.grid.start k < t.grid.reach (t.scheduledCount + number) := by
    rwa [← t.grid.lt_cover, t.grid.cover_reach hcount]
  have books :
      ((t.pending ++ t.grid.span t.scheduledCount number)
        ++ t.completed.map Received.block).Perm
          (t.held ++ t.grid.span t.scheduledCount number) := by
    rw [Tracker.held, List.append_assoc, List.append_assoc]
    exact List.Perm.append_left _ List.perm_append_comm
  refine
    { scheduled_le := ?_
      boundary := ?_
      held := ?_
      distinct := ?_
      payload_length := h.payload_length
      balance := h.balance
      pending_le := by simpa [Grid.length_span] using hroom }
  · simp only [t.grid.toNat_reach]
    exact t.grid.reach_le _
  · simp only [t.grid.toNat_reach]
    exact t.grid.reach_boundary _
  · intro b hb
    simp only [t.grid.toNat_reach]
    rcases List.mem_append.mp (books.subset hb) with old | fresh
    · obtain ⟨k, hk, hblock⟩ := h.exists_index old
      exact ⟨k, begins (by omega), hblock⟩
    · obtain ⟨k, -, hk, rfl⟩ := t.grid.mem_span.mp fresh
      exact ⟨k, begins hk, t.grid.isBlock_block (by omega)⟩
  · apply ((books.map Block.offset).nodup_iff).mpr
    rw [List.map_append, List.nodup_append]
    refine ⟨h.distinct, ?_, ?_⟩
    · rw [List.Nodup, List.pairwise_map]
      exact (t.grid.span_pairwise hcount).imp fun hlt => UInt32.ne_of_lt hlt
    · intro offset old other fresh heq
      obtain ⟨b, hb, rfl⟩ := List.mem_map.mp old
      obtain ⟨c, hc, rfl⟩ := List.mem_map.mp fresh
      obtain ⟨j, hj, hblock⟩ := h.exists_index hb
      obtain ⟨k, hk, hlt, rfl⟩ := t.grid.mem_span.mp hc
      have same : j = k := hblock.index_eq (t.grid.isBlock_block (by omega)) heq
      omega

theorem Ledger.receive {t : Tracker} (h : t.Ledger) (tally : Tally) {block : Block}
    {payload : Bytes} (hpending : block ∈ t.pending)
    (hlength : payload.length = block.length.toNat) :
    Ledger
      { t with
        remaining := t.remaining - block.length
        pending := t.pending.erase block
        completed := t.completed ++ [⟨block, payload⟩]
        tally } := by
  have books := held_receive hpending payload
  have remaining := h.remaining_sub hpending
  refine
    { scheduled_le := h.scheduled_le
      boundary := h.boundary
      held := fun b hb => h.held b (books.subset hb)
      distinct := (books.map Block.offset).nodup_iff.mpr h.distinct
      payload_length := ?_
      balance := ?_
      pending_le := Nat.le_trans List.length_erase_le h.pending_le }
  · intro r hr
    rcases List.mem_append.mp hr with old | new
    · exact h.payload_length r old
    · obtain rfl := List.mem_singleton.mp new
      exact hlength
  · have balance := h.balance
    simp only [List.map_append, List.map_cons, List.map_nil, Block.bytes_append,
      Block.bytes_singleton]
    omega

theorem Ledger.drop {t : Tracker} (h : t.Ledger) (tally : Tally) (block : Block) :
    Ledger { t with pending := t.pending.erase block, tally } := by
  have books : (t.pending.erase block ++ t.completed.map Received.block).Sublist t.held :=
    List.erase_sublist.append (List.Sublist.refl _)
  exact
    { scheduled_le := h.scheduled_le
      boundary := h.boundary
      held := fun b hb => h.held b (books.subset hb)
      distinct := h.distinct.sublist (books.map Block.offset)
      payload_length := h.payload_length
      balance := h.balance
      pending_le := Nat.le_trans List.length_erase_le h.pending_le }

theorem Ledger.lapsed_iff {t : Tracker} (h : t.Ledger) {block : Block} :
    t.Lapsed block ↔
      (∃ k < t.scheduledCount, t.grid.IsBlock k block) ∧ block ∉ t.held := by
  have count_le := h.scheduledCount_le
  constructor
  · rintro ⟨aligned, scheduled, hlength, free⟩
    refine ⟨⟨block.offset.toNat / t.blockSize.toNat, ?_⟩, free⟩
    have begins : block.offset.toNat =
        t.grid.start (block.offset.toNat / t.blockSize.toNat) := by
      have rest := congrArg UInt32.toNat aligned
      rw [UInt32.toNat_mod] at rest
      exact (Nat.div_mul_cancel (Nat.dvd_of_mod_eq_zero rest)).symm
    have hk : block.offset.toNat / t.blockSize.toNat < t.scheduledCount := by
      rw [scheduledCount, Grid.lt_cover, ← begins]
      exact UInt32.lt_iff_toNat_lt.mp scheduled
    refine ⟨hk, begins, ?_⟩
    rw [hlength, t.blockAt_eq (Nat.lt_of_lt_of_le hk count_le) begins]
    exact (t.grid.isBlock_block (Nat.lt_of_lt_of_le hk count_le)).2
  · rintro ⟨⟨k, hk, hblock⟩, free⟩
    refine ⟨?_, ?_, ?_, free⟩
    · rw [← UInt32.toNat_inj, UInt32.toNat_mod, hblock.1]
      exact Nat.mul_mod_left _ _
    · rw [UInt32.lt_iff_toNat_lt, hblock.1]
      exact t.grid.lt_cover.mp hk
    · rw [t.blockAt_eq (Nat.lt_of_lt_of_le hk count_le) hblock.1, ← hblock.eq_block]

theorem Ledger.await {t : Tracker} (h : t.Ledger) (tally : Tally) {block : Block}
    (hroom : t.pending.length < t.window.toNat) (hlapsed : t.Lapsed block) :
    Ledger { t with pending := t.pending ++ [block], tally } := by
  obtain ⟨⟨k, hk, hblock⟩, free⟩ := h.lapsed_iff.mp hlapsed
  have books :
      ((t.pending ++ [block]) ++ t.completed.map Received.block).Perm (block :: t.held) := by
    rw [List.append_assoc]
    exact List.perm_middle
  refine
    { scheduled_le := h.scheduled_le
      boundary := h.boundary
      held := ?_
      distinct := ?_
      payload_length := h.payload_length
      balance := h.balance
      pending_le := by simpa using Nat.succ_le_of_lt hroom }
  · intro b hb
    rcases List.mem_cons.mp (books.subset hb) with rfl | old
    · exact ⟨k, t.grid.lt_cover.mp hk, hblock⟩
    · exact h.held b old
  · apply ((books.map Block.offset).nodup_iff).mpr
    rw [List.map_cons, List.nodup_cons]
    refine ⟨?_, h.distinct⟩
    intro hoffset
    obtain ⟨b, hb, heq⟩ := List.mem_map.mp hoffset
    obtain ⟨j, -, hother⟩ := h.exists_index hb
    obtain rfl := hother.index_eq hblock heq
    exact free (hblock.eq_block ▸ hother.eq_block ▸ hb)

theorem Ledger.consume {t : Tracker} (h : t.Ledger) (hdone : t.remaining = 0) :
    t.consume.Closed :=
  ⟨rfl, rfl, hdone, h.scheduled_eq_size hdone⟩

/-! ## Calls and runs -/

theorem Ledger.kept {t : Tracker} (h : t.Ledger) (hactive : t.consumed = false) : t.Kept := by
  rwa [Kept, hactive, if_neg Bool.false_ne_true]

theorem Kept.ledger {t : Tracker} (h : t.Kept) (hactive : t.consumed = false) :
    t.Ledger := by
  rwa [Kept, hactive, if_neg Bool.false_ne_true] at h

theorem Kept.after {t : Tracker} (h : t.Kept) (call : Call) : (t.after call).Kept := by
  have change := t.change_perform call
  rw [Tracker.after]
  generalize t.perform call = effect at change
  cases change with
  | closed => exact h
  | requested hactive =>
      have books := h.ledger hactive
      have room : t.pending.length + Ledger.freshCount t ≤ t.window.toNat := by
        have pending_le := books.pending_le
        rw [Ledger.freshCount]
        omega
      simp only [books.schedule_eq]
      exact (books.extend _ books.freshCount_le room).kept hactive
  | rejected block payload hactive =>
      have books := h.ledger hactive
      exact Ledger.kept { books with } hactive
  | received block payload hactive hpending hlength =>
      exact ((h.ledger hactive).receive _ hpending hlength).kept hactive
  | unknown => exact h
  | removed block hactive => exact ((h.ledger hactive).drop _ block).kept hactive
  | full => exact h
  | unfit => exact h
  | added block hactive hroom hlapsed =>
      exact ((h.ledger hactive).await _ hroom hlapsed).kept hactive
  | incomplete => exact h
  | foreign => exact h
  | judged torrent expected hactive hdone => exact (h.ledger hactive).consume hdone

theorem kept_run (piece size blockSize window : UInt32) (calls : List Call) :
    ((new piece size blockSize window).run calls).Kept := by
  induction calls using List.reverseRecOn with
  | nil => exact (ledger_new piece size blockSize window).kept rfl
  | append_singleton calls call ih =>
      rw [run_append_singleton]
      exact ih.after call

/-! ## Histories -/

theorem frame_after (t : Tracker) (call : Call) :
    (t.after call).piece = t.piece ∧ (t.after call).grid = t.grid ∧
      (t.after call).window = t.window := by
  have change := t.change_perform call
  rw [Tracker.after]
  generalize t.perform call = effect at change
  cases change <;> exact ⟨rfl, rfl, rfl⟩

theorem frame_run (t : Tracker) (calls : List Call) :
    (t.run calls).piece = t.piece ∧ (t.run calls).grid = t.grid ∧
      (t.run calls).window = t.window := by
  induction calls using List.reverseRecOn with
  | nil => exact ⟨rfl, rfl, rfl⟩
  | append_singleton calls call ih =>
      obtain ⟨piece, grid, window⟩ := (t.run calls).frame_after call
      rw [run_append_singleton, piece, grid, window]
      exact ih

theorem Kept.reach_scheduledCount {t : Tracker} (h : t.Kept) :
    t.grid.reach t.scheduledCount = t.scheduled.toNat := by
  cases hclosed : t.consumed with
  | false => exact (h.ledger hclosed).reach_scheduledCount
  | true =>
      rw [Kept, hclosed, if_pos rfl] at h
      rw [scheduledCount, h.scheduled]
      exact t.grid.reach_count

theorem Kept.span_requested {t : Tracker} (h : t.Kept) (call : Call) :
    t.grid.span 0 t.scheduledCount ++ (t.perform call).requested =
      t.grid.span 0 (t.after call).scheduledCount := by
  have change := t.change_perform call
  rw [Tracker.after]
  generalize t.perform call = effect at change
  cases change with
  | requested hactive =>
      have books := h.ledger hactive
      simp only [books.schedule_eq]
      change _ = t.grid.span 0 (t.grid.cover (UInt32.ofNat (t.grid.reach _)).toNat)
      rw [t.grid.toNat_reach, t.grid.cover_reach books.freshCount_le, ← t.grid.span_append,
        Nat.zero_add]
  | _ => exact List.append_nil _

theorem Kept.remaining_received {t : Tracker} (h : t.Kept) (call : Call) :
    (t.after call).remaining.toNat +
      Block.bytes ((t.perform call).received.map Received.block) = t.remaining.toNat := by
  have change := t.change_perform call
  rw [Tracker.after]
  generalize t.perform call = effect at change
  cases change with
  | received block payload hactive hpending =>
      simp only [List.map_cons, List.map_nil, Block.bytes_singleton]
      exact (h.ledger hactive).remaining_sub hpending
  | _ => rfl

theorem requests_run (piece size blockSize window : UInt32) (calls : List Call) :
    (new piece size blockSize window).requests calls =
      (new piece size blockSize window).grid.span 0
        ((new piece size blockSize window).run calls).scheduledCount := by
  induction calls using List.reverseRecOn with
  | nil =>
      have unscheduled : (new piece size blockSize window).scheduledCount = 0 :=
        (new piece size blockSize window).grid.cover_eq (by simp [new])
      rw [run, List.foldl_nil, unscheduled]
      rfl
  | append_singleton calls call ih =>
      have kept := kept_run piece size blockSize window calls
      have step := kept.span_requested call
      rw [(frame_run _ calls).2.1] at step
      rw [requests, gather_append_singleton, run_append_singleton, ← step, ← ih]
      rfl

theorem arrivals_run (piece size blockSize window : UInt32) (calls : List Call) :
    ((new piece size blockSize window).run calls).remaining.toNat +
        Block.bytes (((new piece size blockSize window).arrivals calls).map Received.block) =
      size.toNat := by
  induction calls using List.reverseRecOn with
  | nil => rfl
  | append_singleton calls call ih =>
      have step := (kept_run piece size blockSize window calls).remaining_received call
      rw [arrivals, gather_append_singleton, run_append_singleton, List.map_append,
        Block.bytes_append]
      rw [arrivals] at ih
      omega

/--
Whatever is called on a new tracker, its books are kept, and the counters of
scheduled and remaining bytes are the unbounded sums over the blocks that were
requested and that arrived, so that they never wrap.
-/
theorem run_keeps_books (piece size blockSize window : UInt32) (calls : List Call) :
    let first := new piece size blockSize window
    let t := first.run calls
    t.size = size ∧
      t.blockSize = (if blockSize = 0 then defaultBlockSize else blockSize) ∧
      t.window = (if window = 0 then defaultWindow else window) ∧
      t.Kept ∧
      t.scheduled.toNat = Block.bytes (first.requests calls) ∧
      t.remaining.toNat + Block.bytes ((first.arrivals calls).map Received.block) =
        size.toNat := by
  intro first t
  have kept : t.Kept := kept_run piece size blockSize window calls
  obtain ⟨-, grid, window_eq⟩ := first.frame_run calls
  refine ⟨congrArg Grid.size grid, congrArg Grid.blockSize grid, window_eq, kept, ?_, ?_⟩
  · have inside : 0 + t.scheduledCount ≤ t.grid.count := by
      rw [Nat.zero_add]
      exact t.grid.cover_le_count (kept.reach_scheduledCount ▸ t.grid.reach_le _)
    have total := t.grid.bytes_span inside
    rw [t.grid.reach_zero, Nat.zero_add, Nat.zero_add, kept.reach_scheduledCount] at total
    rw [requests_run, ← grid]
    exact total.symm
  · exact arrivals_run piece size blockSize window calls

end PieceLedger.Tracker
