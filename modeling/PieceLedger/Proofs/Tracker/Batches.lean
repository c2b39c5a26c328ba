import PieceLedger.Proofs.Torrent.Reassembly
import PieceLedger.Proofs.Tracker.Progress
import Mathlib.Data.List.Basic

/-!
# Batch after batch

A tracker that is caught up has got all that it requested.  It then requests a
fresh batch while bytes remain, and is caught up again once the blocks of the
batch have arrived, in whatever order.
-/

namespace PieceLedger.Tracker

/-! ## Arrivals of pending blocks -/

theorem complete_of_pending {t : Tracker} {block : Block} {payload : Bytes}
    (hactive : t.consumed = false) (hpending : block ∈ t.pending)
    (hlength : payload.length = block.length.toNat) :
    (t.complete block payload).status = .ok ∧
      (t.complete block payload).tracker.consumed = false ∧
      (t.complete block payload).tracker.pending = t.pending.erase block := by
  simp [complete_eq, hactive, hpending, hlength]

theorem mem_erase_of_nodup {b : Block} {rest pending : List Block} (hnodup : (b :: rest).Nodup)
    (h : ∀ other ∈ b :: rest, other ∈ pending) :
    ∀ other ∈ rest, other ∈ pending.erase b := by
  intro other hother
  refine (List.mem_erase_of_ne ?_).mpr (h other (List.mem_cons_of_mem b hother))
  rintro rfl
  exact (List.nodup_cons.mp hnodup).1 hother

theorem diff_self (blocks : List Block) : blocks.diff blocks = [] := by
  induction blocks with
  | nil => rfl
  | cons b rest ih => rw [List.diff_cons, List.erase_cons_head, ih]

section Arrivals

variable {blocks : List Block}

theorem run_arrivals {t : Tracker} (payload : Block → Bytes) (hactive : t.consumed = false)
    (hnodup : blocks.Nodup) (hpending : ∀ b ∈ blocks, b ∈ t.pending)
    (hlength : ∀ b ∈ blocks, (payload b).length = b.length.toNat) :
    let calls := blocks.map fun b => Call.complete b (payload b)
    (t.run calls).consumed = false ∧ (t.run calls).pending = t.pending.diff blocks ∧
      t.requests calls = [] ∧ t.arrivals calls = blocks.map fun b => ⟨b, payload b⟩ := by
  induction blocks generalizing t with
  | nil => exact ⟨hactive, rfl, rfl, rfl⟩
  | cons b rest ih =>
      obtain ⟨accepted, active, pending⟩ := complete_of_pending hactive
        (hpending b List.mem_cons_self) (hlength b List.mem_cons_self)
      have others := mem_erase_of_nodup hnodup hpending
      rw [← pending] at others
      obtain ⟨stays, left, requested, taken⟩ := ih active (List.nodup_cons.mp hnodup).2 others
        fun c hc => hlength c (List.mem_cons_of_mem b hc)
      refine ⟨stays, ?_, requested, ?_⟩
      · rw [List.diff_cons, ← pending]
        exact left
      · rw [arrivals, List.map_cons, gather, perform]
        simp only [accepted, if_pos]
        exact congrArg (⟨b, payload b⟩ :: ·) taken

end Arrivals

/-! ## Being caught up -/

theorem scheduled_run (piece size blockSize window : UInt32) (calls : List Call) :
    ((new piece size blockSize window).run calls).scheduled.toNat =
      Block.bytes ((new piece size blockSize window).requests calls) := by
  have kept := kept_run piece size blockSize window calls
  have grid := ((new piece size blockSize window).frame_run calls).2.1
  generalize ht : (new piece size blockSize window).run calls = t at kept grid ⊢
  have inside : 0 + t.scheduledCount ≤ t.grid.count := by
    rw [Nat.zero_add]
    exact t.grid.cover_le_count (kept.reach_scheduledCount ▸ t.grid.reach_le _)
  have total := t.grid.bytes_span inside
  rw [t.grid.reach_zero, Nat.zero_add, Nat.zero_add, kept.reach_scheduledCount] at total
  rw [requests_run, ht, ← grid]
  exact total.symm

def arrival (content : Bytes) (base : Nat) (b : Block) : Call :=
  .complete b (content.slice (base + b.offset.toNat) b.length.toNat)

/-- All that a run requested has arrived, with the bytes of `content`. -/
structure CaughtUp (content : Bytes) (base : Nat) (first : Tracker) (calls : List Call) : Prop where
  active : (first.run calls).consumed = false
  pending : (first.run calls).pending = []
  arrived : ((first.arrivals calls).map Received.block).Perm (first.requests calls)
  honest : ∀ r ∈ first.arrivals calls,
    r.payload = content.slice (base + r.block.offset.toNat) r.block.length.toNat

namespace CaughtUp

theorem start (content : Bytes) (base : Nat) (piece size blockSize window : UInt32) :
    CaughtUp content base (new piece size blockSize window) [] where
  active := rfl
  pending := rfl
  arrived := .nil
  honest := nofun

variable {content : Bytes} {base : Nat} {piece size blockSize window : UInt32} {calls : List Call}

theorem ledger (h : CaughtUp content base (new piece size blockSize window) calls) :
    ((new piece size blockSize window).run calls).Ledger :=
  (kept_run piece size blockSize window calls).ledger h.active

theorem balance (h : CaughtUp content base (new piece size blockSize window) calls) :
    ((new piece size blockSize window).run calls).remaining.toNat +
      ((new piece size blockSize window).run calls).scheduled.toNat = size.toNat := by
  rw [scheduled_run, ← Block.bytes_perm h.arrived]
  exact arrivals_run piece size blockSize window calls

theorem request_ne_nil (h : CaughtUp content base (new piece size blockSize window) calls)
    (hremaining : ((new piece size blockSize window).run calls).remaining ≠ 0) :
    ((new piece size blockSize window).run calls).request.2 ≠ [] := by
  have balance := h.balance
  have books := h.ledger
  have grid := ((new piece size blockSize window).frame_run calls).2.1
  have active := h.active
  have pending := h.pending
  generalize (new piece size blockSize window).run calls = t at *
  have left : 0 < t.remaining.toNat :=
    Nat.pos_of_ne_zero fun zero => hremaining (UInt32.toNat_inj.mp zero)
  have unscheduled : t.scheduledCount ≠ t.grid.count := by
    intro all
    have reached := books.reach_scheduledCount
    rw [all, t.grid.reach_count, grid] at reached
    change size.toNat = _ at reached
    omega
  exact books.requested_ne_nil active pending
    (Nat.lt_of_le_of_ne books.scheduledCount_le unscheduled)

theorem batch (h : CaughtUp content base (new piece size blockSize window) calls)
    {blocks : List Block}
    (hblocks : blocks.Perm ((new piece size blockSize window).run calls).request.2) :
    blocks.Nodup ∧ ∀ b ∈ blocks,
      b ∈ (((new piece size blockSize window).run calls).after .request).pending ∧
        b.offset.toNat + b.length.toNat ≤ size.toNat ∧ 0 < b.length.toNat := by
  obtain ⟨-, -, -, active, pending⟩ := h.ledger.request_eq h.active
  rw [h.pending, List.nil_append] at pending
  have books : ((new piece size blockSize window).run (calls ++ [.request])).Ledger :=
    (kept_run piece size blockSize window _).ledger (by rwa [run_append_singleton])
  have grid := ((new piece size blockSize window).frame_run (calls ++ [.request])).2.1
  rw [run_append_singleton] at books grid
  constructor
  · rw [hblocks.nodup_iff, ← pending]
    exact books.pending_nodup
  · intro b hb
    have waiting := hblocks.subset hb
    rw [← pending] at waiting
    have known := books.mem_blocks (List.mem_append_left _ waiting)
    rw [grid] at known
    exact ⟨waiting, Grid.mem_blocks_le _ known, Grid.bytes_pos_of_mem _ known⟩

section Next

variable {blocks : List Block} (hsize : base + size.toNat ≤ content.length)
  (hblocks : blocks.Perm ((new piece size blockSize window).run calls).request.2)

include hsize hblocks

theorem histories (h : CaughtUp content base (new piece size blockSize window) calls) :
    let first := new piece size blockSize window
    let more := calls ++ .request :: blocks.map (arrival content base)
    (first.run more).consumed = false ∧ (first.run more).pending = [] ∧
      first.requests more = first.requests calls ++ (first.run calls).request.2 ∧
      first.arrivals more = first.arrivals calls ++ blocks.map fun b =>
        ⟨b, content.slice (base + b.offset.toNat) b.length.toNat⟩ := by
  intro first more
  obtain ⟨-, -, -, active, pending⟩ := h.ledger.request_eq h.active
  obtain ⟨distinct, inside⟩ := h.batch hblocks
  have whole : ∀ b ∈ blocks,
      (content.slice (base + b.offset.toNat) b.length.toNat).length = b.length.toNat := by
    intro b hb
    have within := (inside b hb).2.1
    exact content.length_slice (by omega)
  obtain ⟨stays, left, requested, taken⟩ :=
    run_arrivals _ active distinct (fun b hb => (inside b hb).1) whole
  have run : first.run more =
      ((first.run calls).after .request).run (blocks.map (arrival content base)) :=
    run_append _ _ _
  refine ⟨run ▸ stays, ?_, ?_, ?_⟩
  · rw [run]
    refine left.trans ?_
    rw [pending, h.pending, List.nil_append, List.Perm.diff_left _ hblocks, diff_self]
  · rw [requests, gather_append, gather]
    change _ ++ (_ ++ requests _ (blocks.map fun b => Call.complete b _)) = _
    rw [requested, List.append_nil]
    rfl
  · rw [← taken, arrivals, gather_append]
    rfl

theorem next (h : CaughtUp content base (new piece size blockSize window) calls) :
    CaughtUp content base (new piece size blockSize window)
      (calls ++ .request :: blocks.map (arrival content base)) := by
  obtain ⟨active, pending, requested, taken⟩ := h.histories hsize hblocks
  refine ⟨active, pending, ?_, ?_⟩
  · rw [taken, requested, List.map_append, List.map_map]
    refine h.arrived.append ?_
    change (blocks.map id).Perm _
    rwa [List.map_id]
  · rw [taken]
    intro r hr
    rcases List.mem_append.mp hr with old | fresh
    · exact h.honest r old
    · obtain ⟨b, -, rfl⟩ := List.mem_map.mp fresh
      rfl

theorem remaining_lt (h : CaughtUp content base (new piece size blockSize window) calls)
    (hne : blocks ≠ []) :
    ((new piece size blockSize window).run
        (calls ++ .request :: blocks.map (arrival content base))).remaining.toNat <
      ((new piece size blockSize window).run calls).remaining.toNat := by
  have before := h.balance
  have after := (h.next hsize hblocks).balance
  rw [scheduled_run] at before after
  rw [(h.histories hsize hblocks).2.2.1, Block.bytes_append, ← Block.bytes_perm hblocks] at after
  obtain ⟨b, rest, rfl⟩ := List.exists_cons_of_ne_nil hne
  have positive := ((h.batch hblocks).2 b List.mem_cons_self).2.2
  rw [Block.bytes_cons] at after
  omega

end Next

theorem fetches (h : CaughtUp content base (new piece size blockSize window) calls)
    (hdone : ((new piece size blockSize window).run calls).remaining = 0) :
    Fetches content base (new piece size blockSize window) calls where
  honest := h.honest
  active := h.active
  complete := hdone

end CaughtUp

end PieceLedger.Tracker
