import PieceLedger.Proofs.Tracker.Ledger

/-!
# Life cycles of blocks

A board keeps for every block of a grid the phase it has come to, and moves
blocks from phase to phase as the calls say.  It remembers which blocks were
removed; a tracker does not, and finds them again among the scheduled blocks
that it does not hold.  The main statement is that both agree at every moment
of every run, and that a tracker answers each call as its board says.
-/

namespace PieceLedger.Tracker

inductive Phase where
  | unscheduled
  | inFlight
  | received
  | removed
  deriving DecidableEq, Repr

structure Board where
  grid : Grid
  window : Nat
  phase : Block → Phase

namespace Board

def new (grid : Grid) (window : Nat) : Board := ⟨grid, window, fun _ => .unscheduled⟩

def having (b : Board) (p : Phase) : List Block :=
  b.grid.blocks.filter fun block => b.phase block = p

def move (b : Board) (moved : List Block) (p : Phase) : Board :=
  { b with phase := fun block => if block ∈ moved then p else b.phase block }

/-- The unscheduled blocks of lowest offset, as many as the window has room for. -/
def next (b : Board) : List Block :=
  (b.having .unscheduled).take (b.window - (b.having .inFlight).length)

def after (b : Board) : Call → Board
  | .request => b.move b.next .inFlight
  | .complete block payload =>
      if block ∈ b.having .inFlight ∧ payload.length = block.length.toNat then
        b.move [block] .received
      else b
  | .remove block =>
      if block ∈ b.having .inFlight then b.move [block] .removed else b
  | .add block =>
      if (b.having .inFlight).length < b.window ∧ block ∈ b.having .removed then
        b.move [block] .inFlight
      else b
  | .validate _ => b

def run (b : Board) (calls : List Call) : Board := calls.foldl after b

theorem mem_having {b : Board} {p : Phase} {block : Block} :
    block ∈ b.having p ↔ block ∈ b.grid.blocks ∧ b.phase block = p := by
  simp [having]

end Board

structure Agrees (t : Tracker) (b : Board) : Prop where
  grid : b.grid = t.grid
  window : b.window = t.window.toNat
  unscheduled : ∀ block ∈ t.grid.blocks,
    b.phase block = .unscheduled ↔ t.scheduled ≤ block.offset
  inFlight : ∀ block ∈ t.grid.blocks, b.phase block = .inFlight ↔ block ∈ t.pending
  received : ∀ block ∈ t.grid.blocks,
    b.phase block = .received ↔ block ∈ t.completed.map Received.block

structure Answers (t : Tracker) (b : Board) : Prop where
  request : (t.perform .request).status = some .ok
  requested :
    (t.perform .request).requested =
      (b.having .unscheduled).take (t.window.toNat - t.pending.length)
  pending : (t.after .request).pending = t.pending ++ (t.perform .request).requested
  batch : ∀ batch, (t.requestInto batch).2 = batch ++ (t.perform .request).requested
  complete : ∀ block payload,
    (t.perform (.complete block payload)).status =
      some (if block ∈ b.having .inFlight ∧ payload.length = block.length.toNat then .ok
        else .unknownBlock)
  remove : ∀ block,
    (t.perform (.remove block)).status =
      some (if block ∈ b.having .inFlight then .ok else .unknownBlock)
  add : ∀ block,
    (t.perform (.add block)).status =
      some (if t.pending.length = t.window.toNat then .again
        else if block ∈ b.having .removed then .ok
        else .error)

/-! ## What agreement gives -/

namespace Agrees

variable {t : Tracker} {b : Board}

theorem mem_inFlight (h : Agrees t b) (books : t.Ledger) {block : Block} :
    block ∈ b.having .inFlight ↔ block ∈ t.pending := by
  rw [Board.mem_having, h.grid]
  constructor
  · rintro ⟨hgrid, hphase⟩
    exact (h.inFlight block hgrid).mp hphase
  · intro hpending
    have hgrid := books.mem_blocks (List.mem_append_left _ hpending)
    exact ⟨hgrid, (h.inFlight block hgrid).mpr hpending⟩

theorem phase_of_pending (h : Agrees t b) (books : t.Ledger) {block : Block}
    (hpending : block ∈ t.pending) : block ∈ t.grid.blocks ∧ b.phase block = .inFlight := by
  have inFlight := Board.mem_having.mp ((h.mem_inFlight books).mpr hpending)
  rwa [h.grid] at inFlight

theorem having_nodup (h : Agrees t b) (p : Phase) : (b.having p).Nodup := by
  rw [Board.having, h.grid]
  exact t.grid.blocks_nodup.filter _

theorem inFlight_perm (h : Agrees t b) (books : t.Ledger) :
    (b.having .inFlight).Perm t.pending := by
  apply (List.perm_ext_iff_of_nodup (h.having_nodup _) books.pending_nodup).mpr
  exact fun _ => h.mem_inFlight books

theorem received_perm (h : Agrees t b) (books : t.Ledger) :
    (b.having .received).Perm (t.completed.map Received.block) := by
  apply (List.perm_ext_iff_of_nodup (h.having_nodup _) books.completed_nodup).mpr
  intro block
  rw [Board.mem_having, h.grid]
  constructor
  · rintro ⟨hgrid, hphase⟩
    exact (h.received block hgrid).mp hphase
  · intro hcompleted
    have hgrid := books.mem_blocks (List.mem_append_right _ hcompleted)
    exact ⟨hgrid, (h.received block hgrid).mpr hcompleted⟩

theorem mem_removed (h : Agrees t b) (books : t.Ledger) {block : Block} :
    block ∈ b.having .removed ↔ t.Lapsed block := by
  rw [Board.mem_having, h.grid, books.lapsed_iff]
  constructor
  · rintro ⟨hgrid, hphase⟩
    obtain ⟨k, hk, hblock⟩ := t.grid.mem_blocks.mp hgrid
    refine ⟨⟨k, ?_, hblock⟩, ?_⟩
    · rw [scheduledCount, Grid.lt_cover, ← hblock.1, ← UInt32.lt_iff_toNat_lt,
        ← UInt32.not_le, ← h.unscheduled block hgrid, hphase]
      decide
    · rw [Tracker.held, List.mem_append, ← h.inFlight block hgrid, ← h.received block hgrid,
        hphase]
      decide
  · rintro ⟨⟨k, hk, hblock⟩, free⟩
    have hgrid : block ∈ t.grid.blocks :=
      t.grid.mem_blocks.mpr ⟨k, Nat.lt_of_lt_of_le hk books.scheduledCount_le, hblock⟩
    refine ⟨hgrid, ?_⟩
    rw [Tracker.held, List.mem_append, ← h.inFlight block hgrid, ← h.received block hgrid,
      not_or] at free
    have scheduled : b.phase block ≠ .unscheduled := by
      rw [ne_eq, h.unscheduled block hgrid, UInt32.not_le, UInt32.lt_iff_toNat_lt, hblock.1]
      exact t.grid.lt_cover.mp hk
    cases hphase : b.phase block with
    | unscheduled => exact absurd hphase scheduled
    | inFlight => exact absurd hphase free.1
    | received => exact absurd hphase free.2
    | removed => rfl

theorem unscheduled_iff (h : Agrees t b) {k : Nat} (hk : k < t.grid.count) :
    b.phase (t.grid.block k) = .unscheduled ↔ t.scheduledCount ≤ k := by
  have hblock := t.grid.isBlock_block hk
  rw [h.unscheduled _ (t.grid.mem_blocks.mpr ⟨k, hk, hblock⟩), ← UInt32.not_lt,
    UInt32.lt_iff_toNat_lt, hblock.1, ← Grid.lt_cover, ← Nat.not_lt]
  rfl

theorem blocks_eq (books : t.Ledger) :
    t.grid.blocks =
      t.grid.span 0 t.scheduledCount ++
        t.grid.span t.scheduledCount (t.grid.count - t.scheduledCount) := by
  have split := t.grid.span_append 0 t.scheduledCount (t.grid.count - t.scheduledCount)
  rw [Nat.zero_add, Nat.add_sub_cancel' books.scheduledCount_le] at split
  exact split.symm

theorem phase_of_scheduled (h : Agrees t b) (books : t.Ledger) {block : Block}
    (hblock : block ∈ t.grid.span 0 t.scheduledCount) : b.phase block ≠ .unscheduled := by
  have count_le := books.scheduledCount_le
  obtain ⟨k, -, hk, rfl⟩ := t.grid.mem_span.mp hblock
  rw [ne_eq, h.unscheduled_iff (by omega)]
  omega

theorem phase_of_unscheduled (h : Agrees t b) {block : Block}
    (hblock : block ∈ t.grid.span t.scheduledCount (t.grid.count - t.scheduledCount)) :
    b.phase block = .unscheduled := by
  obtain ⟨k, hlow, hk, rfl⟩ := t.grid.mem_span.mp hblock
  rwa [h.unscheduled_iff (by omega)]

theorem having_unscheduled (h : Agrees t b) (books : t.Ledger) :
    b.having .unscheduled =
      t.grid.span t.scheduledCount (t.grid.count - t.scheduledCount) := by
  rw [Board.having, h.grid, blocks_eq books, List.filter_append]
  rw [List.filter_eq_nil_iff.mpr fun block hblock => by
    simpa using h.phase_of_scheduled books hblock]
  rw [List.filter_eq_self.mpr fun block hblock => by
    simpa using h.phase_of_unscheduled hblock]
  exact List.nil_append _

theorem scheduled_blocks (h : Agrees t b) (books : t.Ledger) :
    b.grid.blocks.filter (fun block => b.phase block ≠ .unscheduled) =
      t.grid.span 0 t.scheduledCount := by
  rw [h.grid, blocks_eq books, List.filter_append]
  rw [List.filter_eq_self.mpr fun block hblock => by
    simpa using h.phase_of_scheduled books hblock]
  rw [List.filter_eq_nil_iff.mpr fun block hblock => by
    simpa using h.phase_of_unscheduled hblock]
  exact List.append_nil _

theorem next_eq (h : Agrees t b) (books : t.Ledger) :
    b.next = t.grid.span t.scheduledCount (Ledger.freshCount t) := by
  rw [Board.next, h.having_unscheduled books, (h.inFlight_perm books).length_eq, h.window,
    t.grid.take_span]
  rfl

end Agrees

/-! ## Moves -/

theorem agrees_new (piece size blockSize window : UInt32) :
    let t := new piece size blockSize window
    Agrees t (.new t.grid t.window.toNat) where
  grid := rfl
  window := rfl
  unscheduled := by simp [new, Board.new]
  inFlight := by simp [new, Board.new]
  received := by simp [new, Board.new]

theorem Agrees.request {t : Tracker} {b : Board} (h : Agrees t b) (books : t.Ledger)
    (tally : Tally) :
    Agrees
      { t with
        scheduled := .ofNat (t.grid.reach (t.scheduledCount + Ledger.freshCount t))
        pending := t.pending ++ t.grid.span t.scheduledCount (Ledger.freshCount t)
        tally }
      (b.move b.next .inFlight) := by
  have inside := books.freshCount_le
  have fresh_phase {block : Block}
      (hfresh : block ∈ t.grid.span t.scheduledCount (Ledger.freshCount t)) :
      b.phase block = .unscheduled := by
    obtain ⟨k, hlow, hk, rfl⟩ := t.grid.mem_span.mp hfresh
    rwa [h.unscheduled_iff (by omega)]
  rw [h.next_eq books]
  refine ⟨h.grid, h.window, ?_, ?_, ?_⟩
  · intro block hgrid
    obtain ⟨k, hk, hblock⟩ := t.grid.mem_blocks.mp hgrid
    obtain rfl := hblock.eq_block
    have later : UInt32.ofNat (t.grid.reach (t.scheduledCount + Ledger.freshCount t)) ≤
        (t.grid.block k).offset ↔ t.scheduledCount + Ledger.freshCount t ≤ k := by
      rw [UInt32.le_iff_toNat_le, t.grid.toNat_reach, hblock.1, ← Nat.not_lt, ← Grid.lt_cover,
        t.grid.cover_reach inside, Nat.not_lt]
    simp only [Board.move, later, t.grid.block_mem_span inside hk]
    split
    case isTrue fresh => simp; omega
    case isFalse old =>
      rw [h.unscheduled_iff hk]
      omega
  · intro block hgrid
    simp only [Board.move, List.mem_append]
    split
    case isTrue fresh => simp [fresh]
    case isFalse old => simp [old, h.inFlight block hgrid]
  · intro block hgrid
    simp only [Board.move]
    split
    case isTrue fresh => simp [← h.received block hgrid, fresh_phase fresh]
    case isFalse old => exact h.received block hgrid

theorem Agrees.moveBlock {t t' : Tracker} {b : Board} (h : Agrees t b) {block : Block}
    {p : Phase} (hgrid : t'.grid = t.grid) (hwindow : t'.window = t.window)
    (hscheduled : t'.scheduled = t.scheduled)
    (hphase : b.phase block ≠ .unscheduled) (hp : p ≠ .unscheduled)
    (inFlight : p = .inFlight ↔ block ∈ t'.pending)
    (received : p = .received ↔ block ∈ t'.completed.map Received.block)
    (pending : ∀ other, other ≠ block → (other ∈ t'.pending ↔ other ∈ t.pending))
    (completed : ∀ other, other ≠ block →
      (other ∈ t'.completed.map Received.block ↔ other ∈ t.completed.map Received.block)) :
    Agrees t' (b.move [block] p) := by
  refine ⟨h.grid.trans hgrid.symm, hwindow ▸ h.window, ?_, ?_, ?_⟩
  all_goals
    intro other hother
    rw [hgrid] at hother
    simp only [Board.move, List.mem_singleton]
    by_cases same : other = block
  · subst same
    simp only [if_pos, hscheduled, ← h.unscheduled other hother, hp, hphase]
  · simp only [if_neg same, hscheduled, h.unscheduled other hother]
  · subst same
    simpa using inFlight
  · simp only [if_neg same, h.inFlight other hother, pending other same]
  · subst same
    simpa using received
  · simp only [if_neg same, h.received other hother, completed other same]

theorem Agrees.after {t : Tracker} {b : Board} (h : Agrees t b) (books : t.Ledger)
    (call : Call) (hactive : (t.after call).consumed = false) :
    Agrees (t.after call) (b.after call) := by
  have change := t.change_perform call
  rw [Tracker.after] at hactive ⊢
  generalize t.perform call = effect at change hactive ⊢
  cases change with
  | closed => exact absurd hactive (by simp_all)
  | requested =>
      simp only [books.schedule_eq]
      exact h.request books _
  | rejected block payload _ refused =>
      simp only [Board.after, h.mem_inFlight books, if_neg refused]
      exact ⟨h.grid, h.window, h.unscheduled, h.inFlight, h.received⟩
  | received block payload _ hpending hlength =>
      simp only [Board.after, h.mem_inFlight books]
      rw [if_pos ⟨hpending, hlength⟩]
      obtain ⟨hgrid, phase⟩ := h.phase_of_pending books hpending
      refine h.moveBlock rfl rfl rfl ?_ ?_ ?_ ?_ ?_ ?_
      · simp [phase]
      · decide
      · simp [books.pending_nodup.not_mem_erase]
      · simp
      · intro other hne
        exact List.mem_erase_of_ne hne
      · intro other hne
        simp [hne]
  | unknown block _ hpending =>
      simp only [Board.after, h.mem_inFlight books, if_neg hpending]
      exact h
  | removed block _ hpending =>
      simp only [Board.after, h.mem_inFlight books, if_pos hpending]
      obtain ⟨hgrid, phase⟩ := h.phase_of_pending books hpending
      refine h.moveBlock rfl rfl rfl ?_ ?_ ?_ ?_ ?_ ?_
      · simp [phase]
      · decide
      · simp [books.pending_nodup.not_mem_erase]
      · simp [← h.received block hgrid, phase]
      · intro other hne
        exact List.mem_erase_of_ne hne
      · exact fun _ _ => Iff.rfl
  | full block _ hfull =>
      rw [Board.after, (h.inFlight_perm books).length_eq, h.window, if_neg (by omega)]
      exact h
  | unfit block _ _ hlapsed =>
      simp only [Board.after, h.mem_removed books, hlapsed, and_false, if_false]
      exact h
  | added block _ hroom hlapsed =>
      have hremoved := (h.mem_removed books).mpr hlapsed
      have room : (b.having .inFlight).length < b.window := by
        rwa [(h.inFlight_perm books).length_eq, h.window]
      rw [Board.after, if_pos ⟨room, hremoved⟩]
      obtain ⟨hgrid, phase⟩ := Board.mem_having.mp hremoved
      rw [h.grid] at hgrid
      refine h.moveBlock rfl rfl rfl ?_ ?_ ?_ ?_ ?_ ?_
      · simp [phase]
      · decide
      · simp
      · simp [← h.received block hgrid, phase]
      · intro other hne
        simp [hne]
      · exact fun _ _ => Iff.rfl
  | incomplete => exact h
  | foreign => exact h
  | judged => exact absurd hactive (by simp [consume])

theorem Agrees.answers {t : Tracker} {b : Board} (h : Agrees t b) (books : t.Ledger)
    (hactive : t.consumed = false) : Answers t b where
  request := by simp [perform, request_eq, hactive]
  requested := by
    rw [h.having_unscheduled books, t.grid.take_span]
    simp [perform, request_eq, hactive, books.schedule_eq, Ledger.freshCount]
  pending := by simp [Tracker.after, perform, request_eq, hactive]
  batch := fun batch => by simp [requestInto_eq, perform]
  complete := by
    intro block payload
    simp only [h.mem_inFlight books]
    have change := t.change_perform (.complete block payload)
    generalize t.perform (.complete block payload) = effect at change
    cases change with
    | closed => simp_all
    | rejected _ _ _ refused => rw [if_neg refused]
    | received _ _ _ hpending hlength => rw [if_pos ⟨hpending, hlength⟩]
  remove := by
    intro block
    simp only [h.mem_inFlight books]
    have change := t.change_perform (.remove block)
    generalize t.perform (.remove block) = effect at change
    cases change with
    | closed => simp_all
    | unknown _ _ hpending => rw [if_neg hpending]
    | removed _ _ hpending => rw [if_pos hpending]
  add := by
    intro block
    have pending_le := books.pending_le
    have change := t.change_perform (.add block)
    generalize t.perform (.add block) = effect at change
    cases change with
    | closed => simp_all
    | full _ _ hfull => rw [if_pos (by omega)]
    | unfit _ _ hroom hlapsed =>
        rw [if_neg (by omega), if_neg (mt (h.mem_removed books).mp hlapsed)]
    | added _ _ hroom hlapsed =>
        rw [if_neg (by omega), if_pos ((h.mem_removed books).mpr hlapsed)]

theorem agrees_run (piece size blockSize window : UInt32) (calls : List Call)
    (hactive : ((new piece size blockSize window).run calls).consumed = false) :
    let first := new piece size blockSize window
    Agrees (first.run calls) ((Board.new first.grid first.window.toNat).run calls) := by
  induction calls using List.reverseRecOn with
  | nil => exact agrees_new piece size blockSize window
  | append_singleton calls call ih =>
      rw [run_append_singleton] at hactive
      have before := active_of_after hactive
      have books := (kept_run piece size blockSize window calls).ledger before
      simp only [run_append_singleton, Board.run, List.foldl_append, List.foldl_cons,
        List.foldl_nil]
      exact (ih before).after books call hactive

/--
At every moment of a run on an active tracker, the books agree with the board
that the calls lead to, and so do the answers to the next call and what it
changes.  The blocks that a tracker takes back are just the removed ones.  Over
a whole run the requested blocks are those that are no longer unscheduled, each
once and by ascending offset.
-/
theorem run_follows_board (piece size blockSize window : UInt32) (calls : List Call)
    (hactive : ((new piece size blockSize window).run calls).consumed = false) :
    let first := new piece size blockSize window
    let t := first.run calls
    let b := (Board.new first.grid first.window.toNat).run calls
    Agrees t b ∧
      (∀ block, block ∈ b.grid.blocks ↔ ∃ k < b.grid.count, b.grid.IsBlock k block) ∧
      (b.having .inFlight).Perm t.pending ∧
      (b.having .received).Perm (t.completed.map Received.block) ∧
      (∀ block, block ∈ b.having .removed ↔ t.Lapsed block) ∧
      Answers t b ∧
      (∀ call, (t.after call).consumed = false → Agrees (t.after call) (b.after call)) ∧
      first.requests calls =
        b.grid.blocks.filter (fun block => b.phase block ≠ .unscheduled) ∧
      first.requests calls <+: b.grid.blocks ∧
      (first.requests calls).Pairwise (fun block later => block.offset < later.offset) := by
  intro first t b
  have books : t.Ledger := (kept_run piece size blockSize window calls).ledger hactive
  have agrees : Agrees t b := agrees_run piece size blockSize window calls hactive
  have requested : first.requests calls = t.grid.span 0 t.scheduledCount := by
    rw [requests_run, (frame_run first calls).2.1]
  have foremost : first.requests calls <+: b.grid.blocks := by
    rw [requested, agrees.grid, Agrees.blocks_eq books]
    exact List.prefix_append _ _
  refine ⟨agrees, fun _ => b.grid.mem_blocks, agrees.inFlight_perm books,
    agrees.received_perm books, fun _ => agrees.mem_removed books,
    agrees.answers books hactive, agrees.after books, ?_, foremost, ?_⟩
  · rw [requested, agrees.scheduled_blocks books]
  · exact b.grid.blocks_pairwise.sublist foremost.sublist

theorem run_follows_board_lapsed :
    let first := new 0 10 4 2
    let calls : List Call := [.request, .remove ⟨0, 4⟩]
    let b := (Board.new first.grid first.window.toNat).run calls
    (first.run calls).consumed = false ∧ ⟨0, 4⟩ ∈ b.having .removed ∧
      ((first.run calls).perform (.add ⟨0, 4⟩)).status = some .ok := by
  obtain ⟨-, -, -, -, -, answers, -⟩ :=
    run_follows_board 0 10 4 2 [.request, .remove ⟨0, 4⟩] (by decide)
  refine ⟨by decide, by decide, ?_⟩
  rw [answers.add, if_neg (by decide), if_pos (by decide)]

end PieceLedger.Tracker
