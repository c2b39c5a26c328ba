import PieceLedger.Proofs.CommandLine.Verdicts

/-!
# Short files

Where a file is shorter than its part, the bytes it does not have count as
zeros, and the digest is all that tells them from bytes that were read.  So a
piece with missing bytes is valid exactly if zeros belong in their place, short
of a collision of the hash.
-/

namespace PieceLedger

structure Sha1.Collision (a b : Bytes) : Prop where
  differ : a ≠ b
  length_eq : a.length = b.length
  hash_eq : hash a = hash b

namespace Payload

/-! ## Bytes that files have -/

def Present (tree : FileTree) (files : List OpenPart) (position : Nat) (byte : UInt8) : Prop :=
  ∃ file ∈ files, ∃ i < file.part.length.toNat,
    position = file.part.offset.toNat + i ∧ (file.found tree)[i]? = some byte

def Missing (tree : FileTree) (files : List OpenPart) (position : Nat) : Prop :=
  ∃ file ∈ files, ∃ i < file.part.length.toNat,
    position = file.part.offset.toNat + i ∧ (file.found tree)[i]? = none

variable {tree : FileTree} {files : List OpenPart} {start position : Nat}

theorem byteAt_stream (laid : Laid start (files.map OpenPart.part)) {file : OpenPart}
    (hfile : file ∈ files) {i : Nat} (hi : i < file.part.length.toNat) :
    start ≤ file.part.offset.toNat ∧
      Bytes.byteAt (files.flatMap (OpenPart.content tree))
          (file.part.offset.toNat + i - start) =
        (file.found tree).byteAt i := by
  induction files generalizing start with
  | nil => nomatch hfile
  | cons first rest ih =>
      obtain ⟨begins, laid⟩ := laid
      rw [List.flatMap_cons, Bytes.byteAt_append, OpenPart.length_content]
      rcases List.mem_cons.mp hfile with rfl | behind
      · refine ⟨begins.ge, ?_⟩
        rw [begins, Nat.add_sub_cancel_left, if_pos hi, OpenPart.content, Bytes.byteAt_fit _ hi]
      · obtain ⟨after, byte⟩ := ih laid behind
        rw [if_neg (by omega), Nat.sub_sub]
        exact ⟨by omega, byte⟩

theorem exists_part (laid : Laid start (files.map OpenPart.part)) (behind : start ≤ position)
    (before : position < start + extent (files.map OpenPart.part)) :
    ∃ file ∈ files, ∃ i < file.part.length.toNat, position = file.part.offset.toNat + i := by
  induction files generalizing start with
  | nil => exact absurd before (Nat.not_lt.mpr behind)
  | cons first rest ih =>
      obtain ⟨begins, laid⟩ := laid
      rw [List.map_cons, extent_cons] at before
      by_cases inside : position < start + first.part.length.toNat
      · exact ⟨first, List.mem_cons_self, position - start, by omega, by omega⟩
      · obtain ⟨file, hfile, found⟩ := ih laid (by omega) (by omega)
        exact ⟨file, List.mem_cons_of_mem first hfile, found⟩

theorem byteAt_stream_eq_iff (laid : Laid 0 (files.map OpenPart.part))
    (inside : position < extent (files.map OpenPart.part)) (byte : UInt8) :
    Bytes.byteAt (files.flatMap (OpenPart.content tree)) position = byte ↔
      Present tree files position byte ∨ (Missing tree files position ∧ byte = 0) := by
  have shown {file : OpenPart} (hfile : file ∈ files) {i : Nat}
      (hi : i < file.part.length.toNat) :
      Bytes.byteAt (files.flatMap (OpenPart.content tree)) (file.part.offset.toNat + i) =
        (file.found tree).byteAt i :=
    (byteAt_stream laid hfile hi).2
  constructor
  · rintro rfl
    obtain ⟨file, hfile, i, hi, rfl⟩ := exists_part laid (Nat.zero_le _) (by rwa [Nat.zero_add])
    rw [shown hfile hi, Bytes.byteAt]
    cases hfound : (file.found tree)[i]? with
    | some byte => exact .inl ⟨file, hfile, i, hi, rfl, hfound⟩
    | none => exact .inr ⟨⟨file, hfile, i, hi, rfl, hfound⟩, rfl⟩
  · rintro
      (⟨file, hfile, i, hi, rfl, hfound⟩ | ⟨⟨file, hfile, i, hi, rfl, hfound⟩, rfl⟩)
    all_goals
      rw [shown hfile hi, Bytes.byteAt, hfound]
      rfl

end Payload

/-! ## Pieces over a content -/

namespace Torrent

open Payload

def pieceBytes (t : Torrent) (content : Bytes) (id : UInt32) : Bytes :=
  content.slice (id.toNat * t.pieceLength.toNat) (t.pieceSize id).toNat

variable {t : Torrent} {original content : Bytes} {id : UInt32}

theorem genuine_iff (h : t.Genuine original id)
    (length_eq : (t.pieceBytes original id).length = (t.pieceBytes content id).length) :
    t.Genuine content id ↔ t.pieceBytes original id = t.pieceBytes content id ∨
      Sha1.Collision (t.pieceBytes original id) (t.pieceBytes content id) := by
  have compared : t.Genuine content id ↔
      Sha1.hash (t.pieceBytes original id) = Sha1.hash (t.pieceBytes content id) := by
    rw [Genuine, h, Option.some_inj]
    rfl
  rw [compared]
  constructor
  · intro hash
    by_cases same : t.pieceBytes original id = t.pieceBytes content id
    · exact .inl same
    · exact .inr ⟨same, length_eq, hash⟩
  · rintro (same | collision)
    · rw [same]
    · exact collision.hash_eq

theorem genuine_stream_iff {tree : FileTree} {files : List OpenPart}
    (laid : Laid 0 (files.map OpenPart.part))
    (stream : (files.flatMap (OpenPart.content tree)).length = extent (files.map OpenPart.part))
    (whole : original.length = extent (files.map OpenPart.part))
    (within : id.toNat * t.pieceLength.toNat + (t.pieceSize id).toNat ≤ original.length)
    (h : t.Genuine original id) :
    t.Genuine (files.flatMap (OpenPart.content tree)) id ↔
      (∀ i < (t.pieceSize id).toNat,
        let position := id.toNat * t.pieceLength.toNat + i
        Present tree files position (original.byteAt position) ∨
          (Missing tree files position ∧ original.byteAt position = 0)) ∨
      Sha1.Collision (t.pieceBytes original id)
        (t.pieceBytes (files.flatMap (OpenPart.content tree)) id) := by
  have within' := within
  rw [whole, ← stream] at within'
  rw [genuine_iff h (by rw [pieceBytes, pieceBytes, Bytes.length_slice _ within,
    Bytes.length_slice _ within'])]
  refine or_congr_left ?_
  rw [pieceBytes, pieceBytes, Bytes.slice_eq_slice_iff within within']
  refine forall₂_congr fun i hi => ?_
  rw [eq_comm]
  exact byteAt_stream_eq_iff laid (by omega) _

end Torrent

namespace CommandLine

open Payload Verification

/-! ## Runs over short files -/

variable {tree : FileTree} {words : List Bytes} {s : Settings} {start : Console} {t : Torrent}
  {files : List OpenPart}

/--
The row that the program prints for a piece says VALID exactly if the digest of
the piece is that of its bytes with zeros in place of the missing ones, and it
exits with 0 exactly if all selected pieces are so.  Set against content that the piece's digest was
made from, this is so exactly if each byte of the piece is in its file or is a
zero that is missing there, or if the piece and what was read of it are a
collision of the hash.
-/
theorem missing_bytes_count_as_zeros (h : Underway tree words s start t files)
    (fits : t.declared < 2 ^ 64) (serves : Serves start files (OpenPart.content start.tree))
    (chance : Chance) :
    let content : Bytes := files.flatMap (OpenPart.content start.tree)
    let ids := selected s t
    let out := (run tree words chance).1.textOf .output
    (∃ rows last totals,
      let texts := [heading s t, Bytes.ofString tableHead] ++ rows ++ [last]
      Console.Interleaved texts out ∧ (start.Apart → out = texts.flatten) ∧
        rows.map wordsOf = ids.map (verdictWords t content) ∧
        wordsOf last = summaryWords totals ids.length) ∧
    ((run tree words chance).2 = 0 ↔ ∀ id ∈ ids, t.Genuine content id) ∧
    ∀ id ∈ ids, ∀ original : Bytes, original.length = t.declared → t.Genuine original id →
      (t.Genuine content id ↔
        (∀ i < (t.pieceSize id).toNat,
          let position := id.toNat * t.pieceLength.toNat + i
          Present start.tree files position (original.byteAt position) ∨
            (Missing start.tree files position ∧ original.byteAt position = 0)) ∨
        Sha1.Collision (t.pieceBytes original id) (t.pieceBytes content id)) := by
  intro content ids out
  have covered := h.covered fits chance
  have inside := selected_lt covered.agrees h.inRange
  have whole : content.length = t.declared := by
    rw [serves.length_stream, h.parts_eq, extent_parts]
  obtain ⟨c, headed, finish⟩ := h.run_of_verified chance
  obtain ⟨d, rows, totals, verified, course, said, valid, -⟩ :=
    verifyPieces_eq covered (serves.of_prints headed) inside {}
  obtain ⟨interleaved, apart, status⟩ := finish ids d totals rows verified course
  have count : totals.valid = ids.countP fun id => t.Genuine content id :=
    valid.trans (Nat.zero_add _)
  have all : totals.valid = ids.length ↔ ∀ id ∈ ids, t.Genuine content id := by
    rw [count, List.countP_eq_length]
    exact forall₂_congr fun _ _ => decide_eq_true_iff
  refine ⟨⟨rows, _, totals, interleaved, apart, said, wordsOf_summary _ _⟩, ?_, ?_⟩
  · rw [status, ← all]
    split
    case isTrue every => exact iff_of_true rfl every
    case isFalse others => exact iff_of_false (show failure ≠ 0 by decide) others
  · intro id hid original length genuine
    have within := covered.agrees.piece_within (inside id hid)
    rw [t.pieceOffset_toNat, Torrent.length_of_load h.loaded fits] at within
    refine Torrent.genuine_stream_iff covered.laid serves.length_stream ?_ ?_ genuine
    · rw [length, h.parts_eq, extent_parts]
    · rw [length, within]
      exact Nat.min_le_right _ _

def zerosTorrent : Torrent where
  name := []
  length := 3
  pieceLength := 3
  digests := [Sha1.hash [0, 0, 0]]
  files := []
  infoHash := .ofBytes
    [67, 39, 147, 66, 200, 38, 34, 83, 202, 20, 93, 163, 100, 97, 5, 11, 126, 197, 95, 59]

def zerosTree : FileTree where
  here := []
  entries :=
    [ ([Bytes.ofString "t"], .file
        (Bytes.ofString "d4:infod6:lengthi3e12:piece lengthi3e6:pieces20:"
          ++ (Sha1.hash [0, 0, 0]).bytes ++ Bytes.ofString "ee")),
      ([Bytes.ofString "d"], .file []) ]

def zerosWords : List Bytes := ["ptrk", "-t", "t", "-f", "d"].map Bytes.ofString

def zerosFiles : List OpenPart := [⟨⟨Bytes.ofString "d", 0, 3⟩, [Bytes.ofString "d"]⟩]

def zerosSettings : Settings where
  torrent := Bytes.ofString "t"
  data := Bytes.ofString "d"

theorem zeros_underway :
    Underway zerosTree zerosWords zerosSettings { tree := zerosTree } zerosTorrent zerosFiles where
  parsed := rfl
  logging := rfl
  named := by decide
  loaded := by decide +kernel
  expected := rfl
  inRange := rfl
  opened := by decide +kernel

theorem zeros_missing : ∀ i < 3, Missing zerosTree zerosFiles i := fun i hi =>
  ⟨_, List.mem_singleton_self _, i, hi, (Nat.zero_add i).symm, rfl⟩

theorem missing_bytes_count_as_zeros_empty_file :
    ∃ s start, Underway zerosTree zerosWords s start zerosTorrent zerosFiles ∧
      (run zerosTree zerosWords).2 = 0 := by
  have readable : ∀ file ∈ zerosFiles, file.Readable zerosTree :=
    List.forall_mem_singleton.mpr fun _ _ _ _ => rfl
  obtain ⟨-, status, judged⟩ := missing_bytes_count_as_zeros zeros_underway (by decide)
    (.of_silent rfl readable) .usual
  refine ⟨_, _, zeros_underway, status.mpr fun id hid => ?_⟩
  obtain rfl := List.mem_singleton.mp (show id ∈ [0] from hid)
  refine (judged 0 hid [0, 0, 0] rfl rfl).mpr (.inl fun i hi => .inr ⟨?_, ?_⟩)
  · change Missing zerosTree zerosFiles (0 * 3 + i)
    rw [Nat.zero_mul, Nat.zero_add]
    exact zeros_missing i hi
  · exact Bytes.byteAt_replicate 3 _

/-- All bytes of a piece are missing, its row says VALID, and the exit status is 0. -/
theorem missing_zeros_are_valid :
    ∃ s start, Underway zerosTree zerosWords s start zerosTorrent zerosFiles ∧
      (∀ i < 3, Missing start.tree zerosFiles i) ∧
      (∃ text, (.output, text) ∈ (run zerosTree zerosWords).1.written ∧
        wordsOf text = ["|", "0", "|", "3", "|", "VALID", "|"].map Bytes.ofString) ∧
      (run zerosTree zerosWords).2 = 0 := by
  have shown : (run zerosTree zerosWords).1.written.contains (.output, tableRow 0 3 true) = true ∧
      (run zerosTree zerosWords).2 = 0 := by
    decide +kernel
  have words : rowWords 0 3 true = ["|", "0", "|", "3", "|", "VALID", "|"].map Bytes.ofString := by
    decide +kernel
  exact ⟨_, _, zeros_underway, zeros_missing,
    ⟨_, List.contains_iff_mem.mp shown.1, (wordsOf_tableRow 0 3 true).trans words⟩, shown.2⟩

end CommandLine

end PieceLedger
