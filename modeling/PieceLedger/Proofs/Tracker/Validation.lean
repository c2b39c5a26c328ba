import PieceLedger.Proofs.Tracker.Ledger

/-!
# Validation of a complete piece

When no byte remains, the arrived blocks are those of the grid.  Their offsets
are distinct, so that only one ascending order of the arrivals exists: whatever
sorts them, the same bytes are digested.
-/

namespace PieceLedger

/-- Blocks that follow one another from `start` to `stop`, without gap or overlap. -/
inductive Block.Tiles : Nat → List Block → Nat → Prop
  | nil (start : Nat) : Tiles start [] start
  | cons {start stop : Nat} {b : Block} {rest : List Block} :
      b.offset.toNat = start →
      Tiles (start + b.length.toNat) rest stop →
      Tiles start (b :: rest) stop

theorem Block.Tiles.bytes_eq {start stop : Nat} {blocks : List Block}
    (h : Tiles start blocks stop) : start + Block.bytes blocks = stop := by
  induction h with
  | nil => rfl
  | cons _ _ ih =>
      rw [Block.bytes_cons]
      omega

theorem Grid.tiles_span (g : Grid) {first number : Nat} (hnumber : first + number ≤ g.count) :
    Block.Tiles (g.reach first) (g.span first number) (g.reach (first + number)) := by
  induction number generalizing first with
  | zero => exact .nil _
  | succ number ih =>
      have inside : first < g.count := by omega
      have hblock := g.isBlock_block inside
      have rest : Block.Tiles (g.reach (first + 1)) (g.span (first + 1) number)
          (g.reach (first + 1 + number)) := ih (by omega)
      rw [g.reach_succ inside, Nat.add_assoc, Nat.add_comm 1, ← hblock.2] at rest
      exact .cons (hblock.1.trans (g.reach_of_lt inside).symm) rest

theorem Grid.tiles_blocks (g : Grid) : Block.Tiles 0 g.blocks g.size.toNat := by
  have all : Block.Tiles (g.reach 0) (g.span 0 g.count) (g.reach (0 + g.count)) :=
    g.tiles_span (by omega)
  rwa [g.reach_zero, Nat.zero_add, g.reach_count] at all

theorem ValidPiece.length_eq (p : ValidPiece) : p.length = p.content.length := by
  have total (blocks : List Received) (start : Nat) :
      blocks.foldl (fun total b => total + b.payload.length) start =
        start + (blocks.flatMap Received.payload).length := by
    induction blocks generalizing start with
    | nil => rfl
    | cons b rest ih =>
        rw [List.foldl_cons, ih, List.flatMap_cons, List.length_append, Nat.add_assoc]
  rw [ValidPiece.length, total, Nat.zero_add]
  rfl

theorem Received.length_payloads {arrived : List Received}
    (h : ∀ r ∈ arrived, r.payload.length = r.block.length.toNat) :
    (arrived.flatMap Received.payload).length = Block.bytes (arrived.map Received.block) := by
  induction arrived with
  | nil => rfl
  | cons r rest ih =>
      have whole := ih fun s hs => h s (List.mem_cons_of_mem r hs)
      rw [List.flatMap_cons, List.length_append, whole, h r List.mem_cons_self]
      rfl

namespace Tracker

/-! ## The order of arrivals -/

theorem assembled_perm (t : Tracker) : t.assembled.Perm t.completed :=
  List.mergeSort_perm _ _

theorem assembled_pairwise (t : Tracker) :
    t.assembled.Pairwise fun r s => r.block.offset ≤ s.block.offset := by
  have sorted : t.assembled.Pairwise fun r s =>
      decide (r.block.offset ≤ s.block.offset) = true := by
    apply List.pairwise_mergeSort
    · intro r s u hrs hsu
      simp only [decide_eq_true_eq] at hrs hsu ⊢
      exact UInt32.le_trans hrs hsu
    · intro r s
      simpa using UInt32.le_total r.block.offset s.block.offset
  exact sorted.imp of_decide_eq_true

namespace Ledger

variable {t : Tracker}

theorem offsets_nodup (h : t.Ledger) :
    (t.completed.map fun r => r.block.offset).Nodup := by
  have all := h.distinct
  rw [Tracker.held, List.map_append, List.map_map] at all
  exact all.sublist (List.sublist_append_right _ _)

/-- Only one ascending order of the arrivals exists. -/
theorem eq_assembled (h : t.Ledger) {others : List Received} (hperm : others.Perm t.completed)
    (hascending : others.Pairwise fun r s => r.block.offset ≤ s.block.offset) :
    others = t.assembled := by
  apply List.Perm.eq_of_pairwise _ hascending t.assembled_pairwise
    (hperm.trans t.assembled_perm.symm)
  intro r s hr hs hle hge
  exact List.inj_on_of_nodup_map h.offsets_nodup (hperm.subset hr)
    (t.assembled_perm.subset hs) (UInt32.le_antisymm hle hge)

theorem assembled_blocks (h : t.Ledger) (hdone : t.remaining = 0) :
    t.assembled.map Received.block = t.grid.blocks := by
  have perm := (t.assembled_perm.map Received.block).trans (h.completed_perm hdone)
  have ascending : (t.assembled.map Received.block).Pairwise
      fun b c => b.offset ≤ c.offset := by
    rw [List.pairwise_map]
    exact t.assembled_pairwise
  apply List.Perm.eq_of_pairwise _ ascending
    (t.grid.blocks_pairwise.imp fun hlt => UInt32.le_of_lt hlt) perm
  intro b c hb hc hle hge
  obtain ⟨j, -, hj⟩ := t.grid.mem_blocks.mp (perm.subset hb)
  obtain ⟨k, -, hk⟩ := t.grid.mem_blocks.mp hc
  obtain rfl := hj.index_eq hk (UInt32.le_antisymm hle hge)
  rw [hj.eq_block, hk.eq_block]

theorem assembled_ascending (h : t.Ledger) (hdone : t.remaining = 0) :
    t.assembled.Pairwise fun r s => r.block.offset < s.block.offset := by
  have grid := t.grid.blocks_pairwise
  rwa [← h.assembled_blocks hdone, List.pairwise_map] at grid

theorem assembled_tiles (h : t.Ledger) (hdone : t.remaining = 0) :
    Block.Tiles 0 (t.assembled.map Received.block) t.size.toNat := by
  rw [h.assembled_blocks hdone]
  exact t.grid.tiles_blocks

theorem length_content (h : t.Ledger) (hdone : t.remaining = 0) :
    (t.assembled.flatMap Received.payload).length = t.size.toNat := by
  have total := (h.assembled_tiles hdone).bytes_eq
  rw [← total, Nat.zero_add]
  apply Received.length_payloads
  intro r hr
  exact h.payload_length r (t.assembled_perm.subset hr)

end Ledger

theorem completed_after (t : Tracker) (call : Call)
    (hactive : (t.after call).consumed = false) :
    (t.after call).completed = t.completed ++ (t.perform call).received := by
  have change := t.change_perform call
  rw [after] at hactive ⊢
  generalize t.perform call = effect at change hactive ⊢
  cases change with
  | received => rfl
  | judged => exact absurd hactive (by simp [consume])
  | _ => exact (List.append_nil _).symm

theorem completed_run (piece size blockSize window : UInt32) (calls : List Call)
    (hactive : ((new piece size blockSize window).run calls).consumed = false) :
    ((new piece size blockSize window).run calls).completed =
      (new piece size blockSize window).arrivals calls := by
  induction calls using List.reverseRecOn with
  | nil => rfl
  | append_singleton calls call ih =>
      rw [run_append_singleton] at hactive ⊢
      rw [completed_after _ _ hactive, ih (active_of_after hactive), arrivals, arrivals,
        gather_append_singleton]

/-! ## The verdict -/

section Verdict

variable (t : Tracker) (torrent : Torrent) {expected : Digest}

theorem validate_of_digest (hactive : t.consumed = false) (hdone : t.remaining = 0)
    (htable : torrent.digest? t.piece = some expected) :
    t.validate torrent =
      if t.digest = expected then (.valid ⟨t.piece, t.assembled⟩, t.consume)
      else (.invalid, t.consume) := by
  rw [t.validate_eq torrent hactive hdone, htable]

theorem verdict_eq (hactive : t.consumed = false) (hdone : t.remaining = 0)
    (htable : torrent.digest? t.piece = some expected) :
    (t.validate torrent).1 =
      if t.digest = expected then .valid ⟨t.piece, t.assembled⟩ else .invalid := by
  rw [t.validate_of_digest torrent hactive hdone htable]
  split <;> rfl

theorem after_validate (hactive : t.consumed = false) (hdone : t.remaining = 0)
    (htable : torrent.digest? t.piece = some expected) :
    t.after (.validate torrent) = t.consume := by
  simp only [after, perform, t.validate_of_digest torrent hactive hdone htable]
  split <;> rfl

end Verdict

/--
An active tracker with no byte remaining judges its arrivals, put in the only
ascending order they have: these are the piece it finds, or they are dropped
and the caller's piece stays.  Either way the tracker is consumed.
-/
theorem validate_judges_arrivals (piece size blockSize window : UInt32) (calls : List Call)
    (torrent : Torrent) (expected : Digest)
    (hactive : ((new piece size blockSize window).run calls).consumed = false)
    (hdone : ((new piece size blockSize window).run calls).remaining = 0)
    (htable : torrent.digest? piece = some expected) :
    let first := new piece size blockSize window
    let t := first.run calls
    let verdict := (t.validate torrent).1
    let after := t.after (.validate torrent)
    ∃ found : ValidPiece,
      found.id = piece ∧
      found.blocks.Perm (first.arrivals calls) ∧
      found.blocks.Pairwise (fun r s => r.block.offset < s.block.offset) ∧
      (∀ others : List Received, others.Perm (first.arrivals calls) →
        others.Pairwise (fun r s => r.block.offset ≤ s.block.offset) →
          others = found.blocks) ∧
      Block.Tiles 0 (found.blocks.map Received.block) size.toNat ∧
      found.content.length = found.length ∧ found.length = size.toNat ∧
      verdict.status =
        some (if Sha1.hash found.content = expected then .ok else .invalid) ∧
      (∀ held, verdict.replace held =
        if Sha1.hash found.content = expected then found else held) ∧
      after.consumed = true ∧ after.pending = [] ∧ after.completed = [] := by
  intro first t verdict after
  have books : t.Ledger := (kept_run piece size blockSize window calls).ledger hactive
  have arrived : t.completed = first.arrivals calls :=
    completed_run piece size blockSize window calls hactive
  obtain ⟨hpiece, hgrid, -⟩ := first.frame_run calls
  have hsize : t.size = size := congrArg Grid.size hgrid
  have hid : t.piece = piece := hpiece
  have table : torrent.digest? t.piece = some expected := by rw [hid, htable]
  have judged : verdict = if t.digest = expected then .valid ⟨t.piece, t.assembled⟩
      else .invalid := t.verdict_eq torrent hactive hdone table
  have consumed : after = t.consume := t.after_validate torrent hactive hdone table
  refine ⟨⟨piece, t.assembled⟩, rfl, arrived ▸ t.assembled_perm,
    books.assembled_ascending hdone, ?_, hsize ▸ books.assembled_tiles hdone,
    (ValidPiece.length_eq _).symm, ?_, ?_, ?_, ?_⟩
  · intro others hperm hascending
    exact books.eq_assembled (arrived ▸ hperm) hascending
  · rw [ValidPiece.length_eq, ← hsize]
    exact books.length_content hdone
  · change verdict.status = some (if t.digest = expected then .ok else .invalid)
    rw [judged]
    split <;> rfl
  · intro held
    change verdict.replace held = if t.digest = expected then _ else held
    rw [judged]
    split
    case isTrue => rw [← hid]; rfl
    case isFalse => rfl
  · rw [consumed]
    exact ⟨rfl, rfl, rfl⟩

theorem validate_judges_arrivals_reordered :
    let torrent : Torrent := { Torrent.blank with digests := [Sha1.hash [1, 2, 3]] }
    let calls : List Call := [.request, .complete ⟨2, 1⟩ [3], .complete ⟨0, 2⟩ [1, 2]]
    let t := (new 0 3 2 2).run calls
    t.consumed = false ∧ t.remaining = 0 ∧
      torrent.digest? 0 = some (Sha1.hash [1, 2, 3]) ∧
      (t.validate torrent).1.status = some .ok := by
  intro torrent calls t
  have hactive : t.consumed = false := by decide
  have hdone : t.remaining = 0 := by decide
  have htable : torrent.digest? 0 = some (Sha1.hash [1, 2, 3]) := rfl
  obtain ⟨found, -, -, -, unique, -, -, -, status, -⟩ :=
    validate_judges_arrivals 0 3 2 2 calls torrent _ hactive hdone htable
  have blocks := unique [⟨⟨0, 2⟩, [1, 2]⟩, ⟨⟨2, 1⟩, [3]⟩] (by decide) (by decide)
  have content : found.content = [1, 2, 3] := by rw [ValidPiece.content, ← blocks]; rfl
  refine ⟨hactive, hdone, htable, ?_⟩
  rw [status, content, if_pos rfl]

end Tracker

end PieceLedger
