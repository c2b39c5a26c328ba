import PieceLedger.Proofs.CommandLine.Printed
import PieceLedger.Proofs.CommandLine.Underway

/-!
# The program's verdicts

A run that gets as far as the pieces of a torrent, over files that can be read,
writes a row for every selected piece to standard output.  The row says whether
the digest of the piece is that of its bytes in the stream of the files, and
nothing else about the run has a part in it.
-/

namespace PieceLedger.CommandLine

open Payload Verification

def verdictWords (t : Torrent) (content : Bytes) (id : UInt32) : List Bytes :=
  rowWords id.toNat (t.pieceSize id).toNat (t.Genuine content id)

theorem verdictWords_eq_valid_iff {t : Torrent} {content : Bytes} {id other : UInt32} :
    verdictWords t content other = rowWords id.toNat (t.pieceSize id).toNat true ↔
      other = id ∧ t.Genuine content id := by
  constructor
  · intro same
    obtain ⟨piece, -, valid⟩ := rowWords_inj same
    obtain rfl := UInt32.toNat_inj.mp piece
    exact ⟨rfl, of_decide_eq_true valid⟩
  · rintro ⟨rfl, genuine⟩
    rw [verdictWords, decide_eq_true genuine]

/-! ## Pieces in order -/

section Pieces

variable {p : Plan} {contents : OpenPart → Bytes} {c : Console}

theorem verifyPieces_eq (covered : p.Covered) (serves : Serves c p.files contents)
    {ids : List UInt32} (hids : ∀ id ∈ ids, id.toNat < p.torrent.pieceCount) (totals : Totals) :
    ∃ d rows after, verifyPieces p ids totals c = (ids, d, some after) ∧ c.Prints rows d ∧
      rows.map wordsOf = ids.map (verdictWords p.torrent (p.files.flatMap contents)) ∧
      after.valid =
        totals.valid + ids.countP (fun id => p.torrent.Genuine (p.files.flatMap contents) id) ∧
      after.valid + after.invalid = totals.valid + totals.invalid + ids.length := by
  induction ids generalizing c totals with
  | nil => exact ⟨c, [], totals, rfl, .nil, rfl, rfl, rfl⟩
  | cons id rest ih =>
      obtain ⟨course, verdict⟩ := verifyPiece_eq covered serves (hids id List.mem_cons_self)
      have accepted : (verifyPiece p id c).verdict ≠ .failed := by
        rw [verdict]
        split <;> decide
      have valid : (verifyPiece p id c).verdict = .valid ↔
          p.torrent.Genuine (p.files.flatMap contents) id := by
        rw [verdict]
        split
        case isTrue same => exact iff_of_true rfl same
        case isFalse differs => exact iff_of_false (by decide) differs
      have row := course.text (tableRow id (p.torrent.pieceSize id)
        (p.torrent.Genuine (p.files.flatMap contents) id))
      simp only [verifyPieces, if_neg accepted, valid]
      obtain ⟨d, rows, after, hverify, further, said, count, total⟩ := ih (serves.of_prints row)
        (fun other hother => hids other (List.mem_cons_of_mem id hother)) _
      refine ⟨d, _ :: rows, after, by rw [hverify], row.trans further, ?_, ?_, ?_⟩
      · rw [List.map_cons, List.map_cons, said, wordsOf_tableRow]
        rfl
      · rw [count, List.countP_cons]
        simp only [decide_eq_true_eq]
        omega
      · rw [total, List.length_cons]
        dsimp only
        split <;> omega

end Pieces

/-! ## Runs -/

/-- A run that gets as far as its pieces, of a torrent whose lengths add up to less than
`2 ^ 63`, and whose files can be read and keep their content whatever is logged. -/
structure Admitted (tree : FileTree) (words : List Bytes) (s : Settings) (start : Console)
    (t : Torrent) (files : List OpenPart) : Prop extends
    Underway tree words s start t files where
  declared : t.declared < 2 ^ 63
  serves : Serves start files (OpenPart.content start.tree)

variable {tree : FileTree} {words : List Bytes} {s : Settings} {start : Console} {t : Torrent}
  {files : List OpenPart}

theorem Admitted.covered (h : Admitted tree words s start t files) (chance : Chance) :
    (Plan.mk t files s.blockSize s.window s.shuffle chance).Covered :=
  h.toUnderway.covered (Nat.lt_trans h.declared (by decide)) chance

end PieceLedger.CommandLine
