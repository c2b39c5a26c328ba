import PieceLedger.Verification
import PieceLedger.Proofs.Payload.Stream
import PieceLedger.Proofs.Tracker.Batches

/-!
# Verification of one piece

Driving a tracker over files that can be read makes a run that fetches the
piece from their stream.  So the verdict is the comparison of two digests, and
neither the block size, nor the window, nor the order of the batches, nor the
portions in which files are read have a say in it.
-/

namespace PieceLedger

/-- The digest of a piece is that of its bytes in the content. -/
def Torrent.Genuine (t : Torrent) (content : Bytes) (id : UInt32) : Prop :=
  t.digest? id =
    some (Sha1.hash
      (content.slice (id.toNat * t.pieceLength.toNat) (t.pieceSize id).toNat))

instance (t : Torrent) (content : Bytes) (id : UInt32) : Decidable (t.Genuine content id) :=
  inferInstanceAs (Decidable (_ = _))

namespace Verification

open Payload

theorem Plan.arrange_perm (p : Plan) (piece : UInt32) (batch : List Block) :
    (p.arrange piece batch).Perm batch := by
  rw [arrange]
  split
  case isTrue => exact p.chance.shuffle_perm piece batch
  case isFalse => exact .refl _

structure Plan.Covered (p : Plan) : Prop where
  agrees : p.torrent.Agrees
  laid : Laid 0 (p.files.map OpenPart.part)
  extent_eq : extent (p.files.map OpenPart.part) = p.torrent.length.toNat

variable {p : Plan} {contents : OpenPart → Bytes} {c : Console}

theorem Plan.Covered.length_stream (covered : p.Covered) (serves : Serves c p.files contents) :
    (p.files.flatMap contents).length = p.torrent.length.toNat := by
  rw [serves.length_stream, covered.extent_eq]

/-! ## What a tracker traces into the log of a console -/

theorem logging_creating (c : Console) (piece size blockSize window : UInt32) :
    c.logging (Tracker.creating piece size blockSize window) =
      (Tracker.new piece size blockSize window,
        c.traceAll (Tracker.creating piece size blockSize window).lines) := by
  rw [Console.logging_of_blind (Tracker.scripted_creating _ _ _ _).blind, Tracker.result_creating]

theorem logging_requesting (c : Console) (t : Tracker) :
    c.logging t.requesting = (t.request, c.traceAll t.requesting.lines) :=
  Console.logging_of_blind t.scripted_requesting.blind c

theorem logging_completing (c : Console) (t : Tracker) (block : Block) (payload : Bytes) :
    c.logging (t.completing block payload) =
      (t.complete block payload, c.traceAll (t.completing block payload).lines) :=
  Console.logging_of_blind (t.scripted_completing block payload).blind c

theorem logging_validating (c : Console) (t : Tracker) (torrent : Torrent) :
    c.logging (t.validating torrent) =
      (t.validate torrent, c.traceAll (t.validating torrent).lines) :=
  Console.logging_of_blind (t.scripted_validating torrent).blind c

/-! ## The loops -/

/-- Receiving blocks that are pending makes them arrive; the flag tells how things stand
whenever it does so at the start. -/
theorem receive_eq (covered : p.Covered) (serves : Serves c p.files contents) {base : UInt64}
    {blocks : List Block} {t : Tracker} (active : t.consumed = false) (distinct : blocks.Nodup)
    (pending : ∀ b ∈ blocks, b ∈ t.pending)
    (inside : ∀ b ∈ blocks,
      base.toNat + (b.offset.toNat + b.length.toNat) ≤ p.torrent.length.toNat) :
    let after := t.run (blocks.map (Tracker.arrival (p.files.flatMap contents) base.toNat))
    ∃ arrivals d,
      receive p base blocks t.isDone t c = (arrivals, d, some (after.isDone, after)) ∧
      c.Prints [] d := by
  induction blocks generalizing t c with
  | nil => exact ⟨[], c, rfl, .nil⟩
  | cons b rest ih =>
      have within := inside b List.mem_cons_self
      have bound := p.torrent.length.toNat_lt
      have place : (base + b.offset.toUInt64).toNat = base.toNat + b.offset.toNat :=
        toNat_add_of_lt (by rw [UInt32.toNat_toUInt64]; omega)
      obtain ⟨d, hread, remarks⟩ := serves.yields.read_eq p.chance.portion covered.laid
        (by rw [covered.extent_eq]; omega) (base + b.offset.toUInt64) b.length
        (by rw [covered.extent_eq, place]; omega)
      rw [place] at hread
      have whole : (Bytes.slice (p.files.flatMap contents) (base.toNat + b.offset.toNat)
          b.length.toNat).length = b.length.toNat :=
        Bytes.length_slice _ (by rw [covered.length_stream serves]; omega)
      generalize hpayload : Bytes.slice _ _ _ = payload at hread whole
      obtain ⟨accepted, stays, left⟩ :=
        Tracker.complete_of_pending active (pending b List.mem_cons_self) whole
      have told := (t.complete_of_ok b payload accepted).1
      have others := Tracker.mem_erase_of_nodup distinct pending
      rw [← left] at others
      have traced := remarks.prints.traceAll (t.completing b payload).lines
      obtain ⟨arrivals, e, hreceive, further⟩ := ih (serves.of_prints traced) stays
        (List.nodup_cons.mp distinct).2 others
        fun other hother => inside other (List.mem_cons_of_mem b hother)
      refine ⟨⟨b, .ok, (t.complete b payload).tracker.isDone⟩ :: arrivals, e, ?_,
        traced.trans further⟩
      simp only [receive, hread, logging_completing, accepted, if_pos, told]
      rw [← hpayload] at hreceive ⊢
      rw [hreceive]
      rfl

section Drive

variable {base : UInt64} {piece size blockSize window : UInt32} {calls : List Tracker.Call}

theorem drive_succ (covered : p.Covered)
    (hsize : base.toNat + size.toNat ≤ p.torrent.length.toNat)
    (serves : Serves c p.files contents)
    (caughtUp : Tracker.CaughtUp (p.files.flatMap contents) base.toNat
      (Tracker.new piece size blockSize window) calls)
    (hremaining : ((Tracker.new piece size blockSize window).run calls).remaining ≠ 0) :
    ∃ turn d more,
      (∀ fuel, drive p base (fuel + 1) ((Tracker.new piece size blockSize window).run calls) c =
        if ((Tracker.new piece size blockSize window).run more).isDone then
          ([turn], d, some ((Tracker.new piece size blockSize window).run more))
        else
          let (turns, result) :=
            drive p base fuel ((Tracker.new piece size blockSize window).run more) d
          (turn :: turns, result)) ∧
      c.Prints [] d ∧
      Tracker.CaughtUp (p.files.flatMap contents) base.toNat
        (Tracker.new piece size blockSize window) more ∧
      ((Tracker.new piece size blockSize window).run more).remaining.toNat <
        ((Tracker.new piece size blockSize window).run calls).remaining.toNat := by
  have fits : base.toNat + size.toNat ≤ (p.files.flatMap contents).length := by
    rwa [covered.length_stream serves]
  have requested := caughtUp.request_ne_nil hremaining
  obtain ⟨accepted, tracker, -, active, -⟩ := caughtUp.ledger.request_eq caughtUp.active
  have arranged := p.arrange_perm ((Tracker.new piece size blockSize window).run calls).piece
    ((Tracker.new piece size blockSize window).run calls).request.2
  generalize hblocks : p.arrange _ _ = blocks at arranged
  obtain ⟨distinct, facts⟩ := caughtUp.batch arranged
  have inside : ∀ b ∈ blocks,
      base.toNat + (b.offset.toNat + b.length.toNat) ≤ p.torrent.length.toNat := by
    intro b hb
    have within := (facts b hb).2.1
    omega
  have traced := Console.Prints.nil.traceAll (c := c)
    ((Tracker.new piece size blockSize window).run calls).requesting.lines
  obtain ⟨arrivals, d, hreceive, course⟩ := receive_eq covered (serves.of_prints traced) active
    distinct (fun b hb => (facts b hb).1) inside
  -- A request leaves what remains as it is, so the flag is right when the batch is begun.
  have unfinished : (((Tracker.new piece size blockSize window).run calls).after .request).isDone =
      false := by
    simp [Tracker.after, Tracker.perform, Tracker.request_eq, caughtUp.active, Tracker.isDone,
      hremaining]
  rw [unfinished] at hreceive
  refine ⟨⟨((Tracker.new piece size blockSize window).run calls).request.2, arrivals⟩,
    d, _, ?_,
    traced.trans course, caughtUp.next fits arranged,
    caughtUp.remaining_lt fits arranged ?_⟩
  · intro fuel
    rw [drive, Tracker.run_append]
    simp only [logging_requesting, accepted, requested, hblocks, tracker, hreceive, ne_eq,
      not_true_eq_false, if_false]
    rfl
  · rintro rfl
    exact requested (List.nil_perm.mp arranged)

theorem drive_eq (covered : p.Covered)
    (hsize : base.toNat + size.toNat ≤ p.torrent.length.toNat) {fuel : Nat}
    (serves : Serves c p.files contents)
    (caughtUp : Tracker.CaughtUp (p.files.flatMap contents) base.toNat
      (Tracker.new piece size blockSize window) calls)
    (hremaining : ((Tracker.new piece size blockSize window).run calls).remaining ≠ 0)
    (hfuel : ((Tracker.new piece size blockSize window).run calls).remaining.toNat < fuel) :
    ∃ turns d more, drive p base fuel ((Tracker.new piece size blockSize window).run calls) c =
        (turns, d, some ((Tracker.new piece size blockSize window).run more)) ∧ c.Prints [] d ∧
      Tracker.Fetches (p.files.flatMap contents) base.toNat
        (Tracker.new piece size blockSize window) more := by
  induction fuel generalizing calls c with
  | zero => omega
  | succ fuel ih =>
      obtain ⟨turn, d, more, step, course, next, fewer⟩ :=
        drive_succ covered hsize serves caughtUp hremaining
      rw [step]
      by_cases done : ((Tracker.new piece size blockSize window).run more).remaining = 0
      · exact ⟨_, d, more, if_pos (decide_eq_true done), course, next.fetches done⟩
      · rw [if_neg (by simpa [Tracker.isDone] using done)]
        obtain ⟨turns, e, last, hdrive, further, fetched⟩ :=
          ih (serves.of_prints course) next done (by omega)
        exact ⟨turn :: turns, e, last, by rw [hdrive], course.trans further, fetched⟩

end Drive

theorem verifyPiece_eq (covered : p.Covered) (serves : Serves c p.files contents) {id : UInt32}
    (hid : id.toNat < p.torrent.pieceCount) :
    c.Prints [] (verifyPiece p id c).console ∧
      (verifyPiece p id c).verdict =
        if p.torrent.Genuine (p.files.flatMap contents) id then .valid else .invalid := by
  have positive := covered.agrees.pieceSize_pos hid
  have within : (p.torrent.pieceOffset id).toNat + (p.torrent.pieceSize id).toNat ≤
      p.torrent.length.toNat := by
    rw [covered.agrees.piece_within hid]
    exact Nat.min_le_right _ _
  have unfinished : p.torrent.pieceSize id ≠ 0 := by
    intro zero
    rw [zero] at positive
    exact Nat.lt_irrefl 0 positive
  obtain ⟨expected, table⟩ : ∃ expected, p.torrent.digest? id = some expected :=
    ⟨_, List.getElem?_eq_getElem hid⟩
  have traced := Console.Prints.nil.traceAll (c := c)
    (Tracker.creating id (p.torrent.pieceSize id) p.blockSize p.window).lines
  obtain ⟨turns, d, more, hdrive, course, fetched⟩ :=
    drive_eq covered within (serves.of_prints traced)
      (.start _ _ id (p.torrent.pieceSize id) p.blockSize p.window) unfinished (Nat.lt_succ_self _)
  have judged := fetched.delivers.verdict_eq
    (Bytes.length_slice _ (by rwa [covered.length_stream serves])) table
  have genuine : p.torrent.Genuine (p.files.flatMap contents) id ↔
      Sha1.hash (Bytes.slice (p.files.flatMap contents) (p.torrent.pieceOffset id).toNat
        (p.torrent.pieceSize id).toNat) = expected := by
    rw [Torrent.Genuine, table, ← p.torrent.pieceOffset_toNat, Option.some_inj, eq_comm]
  change drive p (p.torrent.pieceOffset id) ((p.torrent.pieceSize id).toNat + 1)
    (Tracker.new id (p.torrent.pieceSize id) p.blockSize p.window) _ = _ at hdrive
  simp only [verifyPiece, logging_creating, hdrive, logging_validating, judged, ← genuine]
  refine ⟨(traced.trans course).traceAll _, ?_⟩
  by_cases same : p.torrent.Genuine (p.files.flatMap contents) id
  · rw [if_pos same, if_pos same]
  · rw [if_neg same, if_neg same]

end Verification

end PieceLedger
