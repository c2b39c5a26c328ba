import PieceLedger.Proofs.Tracker.Awaiting
import PieceLedger.Proofs.Verification.Pieces

/-!
# Turns of the drive

Where all blocks of a piece can be read, the loop that drives its tracker ends.
It requests the blocks of the grid in order, a window at a time, and all that
it requested has arrived when a turn ends.  So the next turn has the whole
window, the number of turns is known from the start, and the last arrival is
the first to be told that the piece is complete.
-/

namespace PieceLedger.Verification

open Payload Tracker

/-! ## Reading blocks -/

/-- The blocks can be read at any time, whatever has been printed and traced by then. -/
def Plan.Supplies (p : Plan) (base : UInt64) (blocks : List Block) (c : Console) : Prop :=
  ∀ texts d, c.Prints texts d → ∀ b ∈ blocks, ∃ e payload,
    Payload.read d p.chance.portion p.files (base + b.offset.toUInt64) b.length =
      (e, some payload) ∧ payload.length = b.length.toNat

namespace Plan.Supplies

variable {p : Plan} {base : UInt64} {blocks : List Block} {c d : Console}

theorem of_prints {texts : List Bytes} (h : p.Supplies base blocks c) (course : c.Prints texts d) :
    p.Supplies base blocks d :=
  fun more e further => h (texts ++ more) e (course.trans further)

end Plan.Supplies

/-! ## The arrivals of a batch -/

variable {p : Plan} {base : UInt64} {first t : Tracker} {c : Console}

/-- Arrivals that are all taken, and that are told if they are the last one
when `before` blocks are there. -/
structure Taken (count before : Nat) (blocks : List Block) (arrivals : List Arrival) : Prop where
  blocks_eq : arrivals.map Arrival.block = blocks
  accepted : ∀ arrival ∈ arrivals, arrival.status = .ok
  done : arrivals.map Arrival.done =
    (List.range' (before + 1) blocks.length).map fun k => decide (k = count)

/-- The turns of a loop that has `left` blocks of a piece before it, from block `start` on. -/
structure Orderly (p : Plan) (first : Tracker) (start left : Nat) (turns : List Turn) : Prop where
  length_eq : turns.length = left ⌈/⌉ first.window.toNat
  nonempty : ∀ turn ∈ turns, turn.batch ≠ []
  arranged : ∀ turn ∈ turns, turn.arrivals.map Arrival.block = p.arrange first.piece turn.batch
  accepted : ∀ turn ∈ turns, ∀ arrival ∈ turn.arrivals, arrival.status = .ok
  requested : turns.flatMap Turn.batch = first.grid.span start left
  done : (turns.flatMap Turn.arrivals).map Arrival.done =
    (List.range' (start + 1) left).map fun k => decide (k = first.grid.count)

theorem ceilDiv_eq_succ {n w : Nat} (hw : 0 < w) (hn : 0 < n) :
    n ⌈/⌉ w = (n - min w n) ⌈/⌉ w + 1 := by
  rw [Nat.ceilDiv_eq_add_pred_div, Nat.ceilDiv_eq_add_pred_div, ← Nat.add_div_right _ hw]
  rcases Nat.le_total w n with whole | short
  · congr 1
    omega
  · rw [Nat.min_eq_right short, Nat.sub_self, Nat.zero_add, Nat.div_eq_of_lt_le (k := 1),
      Nat.div_eq_of_lt_le (k := 1)]
    all_goals omega

namespace Orderly

theorem nil (p : Plan) (first : Tracker) (start : Nat) : Orderly p first start 0 [] where
  length_eq := (zero_ceilDiv _).symm
  nonempty := nofun
  arranged := nofun
  accepted := nofun
  requested := rfl
  done := rfl

theorem cons {start left number : Nat} {turn : Turn} {turns : List Turn} (hleft : 0 < left)
    (hnumber : number = min first.window.toNat left)
    (hbatch : turn.batch = first.grid.span start number)
    (taken : Taken first.grid.count start (p.arrange first.piece turn.batch) turn.arrivals)
    (h : Orderly p first (start + number) (left - number) turns) :
    Orderly p first start left (turn :: turns) := by
  have room : 0 < first.window.toNat := first.window_pos
  have whole : number + (left - number) = left := by omega
  have length : (p.arrange first.piece turn.batch).length = number := by
    rw [(p.arrange_perm _ _).length_eq, hbatch, first.grid.length_span]
  exact
    { length_eq := by rw [List.length_cons, h.length_eq, ceilDiv_eq_succ room hleft, hnumber]
      nonempty := by
        refine List.forall_mem_cons.mpr ⟨?_, h.nonempty⟩
        rw [hbatch, ← List.length_pos_iff, first.grid.length_span]
        omega
      arranged := List.forall_mem_cons.mpr ⟨taken.blocks_eq, h.arranged⟩
      accepted := List.forall_mem_cons.mpr ⟨taken.accepted, h.accepted⟩
      requested := by
        rw [List.flatMap_cons, hbatch, h.requested, first.grid.span_append, whole]
      done := by
        rw [List.flatMap_cons, List.map_append, taken.done, h.done, length, Nat.add_right_comm,
          ← List.map_append, List.range'_append_1, whole] }

end Orderly

/-! ## The loop -/

def Plan.tracker (p : Plan) (id : UInt32) : Tracker :=
  Tracker.new id (p.torrent.pieceSize id) p.blockSize p.window

def Plan.blockCount (p : Plan) (id : UInt32) : Nat :=
  (p.torrent.pieceSize id).toNat ⌈/⌉ p.blockSize.toNat

def Plan.rounds (p : Plan) (id : UInt32) : Nat := p.blockCount id ⌈/⌉ p.window.toNat

section Pieces

variable {id : UInt32} (hblock : 0 < p.blockSize.toNat) (hwindow : 0 < p.window.toNat)

variable (agrees : p.torrent.Agrees) (hid : id.toNat < p.torrent.pieceCount)

end Pieces

end PieceLedger.Verification
