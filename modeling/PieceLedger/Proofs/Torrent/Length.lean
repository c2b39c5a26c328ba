import PieceLedger.Proofs.Payload.Layout
import PieceLedger.Proofs.Bencode.RoundTrip

/-!
# The length of several files

The length of a torrent that lists files is the sum of their lengths in 64 bits.
One file is shorter than 2^63 bytes, but the list has no bound, and no later
check notices that the sum has wrapped.  The pieces make up that length, so they
cover the files exactly if the declared lengths add up to less than 2^64.
-/

namespace PieceLedger

open Bencode

namespace Torrent

theorem Agrees.sum_pieceSize {t : Torrent} (h : t.Agrees) :
    ((List.range t.pieceCount).map fun i => (t.pieceSize (.ofNat i)).toNat).sum =
      t.length.toNat := by
  have few := h.pieceCount_lt
  have front (n : Nat) (hn : n ≤ t.pieceCount) :
      ((List.range n).map fun i => (t.pieceSize (.ofNat i)).toNat).sum =
        min (n * t.pieceLength.toNat) t.length.toNat := by
    induction n with
    | zero => simp
    | succ n ih =>
        have begins := h.lt_pieceCount.mp hn
        rw [List.range_succ, List.map_append, List.sum_append, ih (by omega), List.map_singleton,
          List.sum_singleton, h.pieceSize_toNat, UInt32.toNat_ofNat_of_lt' (by omega), Nat.succ_mul]
        omega
  rw [front _ (Nat.le_refl _)]
  exact Nat.min_eq_right (Nat.le_of_not_lt (mt h.lt_pieceCount.mpr (Nat.lt_irrefl _)))

end Torrent

namespace Session

open Torrent

/--
A torrent that lists files is as long as they say modulo 2^64.  It has their
exact length, and its pieces cover them, exactly if that is less than 2^64.
-/
theorem files_covered_iff_sum_fits (s : Session) {buffer : Bytes} {entries info : Dict}
    {t : Torrent}
    (decoded : decode buffer = .ok entries) (under : entries.dict? (key "info") = some info)
    (several : info.integer? (key "length") = none)
    (accepted : (s.perform (.loadTorrent (.buffer buffer))).reply = .torrent true (some t)) :
    t.length.toNat = FileSpan.bytes t.files % 2 ^ 64 ∧
      (t.length.toNat = FileSpan.bytes t.files ↔ FileSpan.bytes t.files < 2 ^ 64) ∧
      (((List.range t.pieceCount).map fun i => (t.pieceSize (.ofNat i)).toNat).sum =
        FileSpan.bytes t.files ↔ FileSpan.bytes t.files < 2 ^ 64) := by
  obtain ⟨_, same, read⟩ := accepts_buffer_iff.mp accepted
  cases decoded.symm.trans same
  obtain ⟨_, held, described, agrees⟩ := ofDict_eq_ok.mp read
  cases under.symm.trans held
  obtain ⟨-, -, content, -, -⟩ := ofInfo_eq_ok.mp described
  have sum : t.length.toNat = FileSpan.bytes t.files % 2 ^ 64 := by
    rcases readContent_cases content with ⟨single, -⟩ | ⟨-, total⟩
    · rw [several] at single
      cases single
    · rw [total, totalLength_toNat]
  have fits_iff : t.length.toNat = FileSpan.bytes t.files ↔ FileSpan.bytes t.files < 2 ^ 64 := by
    rw [sum]
    exact Nat.mod_eq_iff_lt (by decide)
  rw [agrees.sum_pieceSize]
  exact ⟨sum, fits_iff, fits_iff⟩

/-- Two files of one and two bytes, in two pieces. -/
theorem files_covered_pair :
    let info : Dict := [
      (⟨0, key "files"⟩, .list [
        .dict [(⟨0, key "length"⟩, .integer 1),
          (⟨0, key "path"⟩, .list [.text ⟨0, key "a"⟩])],
        .dict [(⟨0, key "length"⟩, .integer 2),
          (⟨0, key "path"⟩, .list [.text ⟨0, key "b"⟩])]]),
      (⟨0, key "piece length"⟩, .integer 2),
      (⟨0, key "pieces"⟩, .text ⟨0, List.replicate 40 120⟩)]
    let entries : Dict := [(⟨0, key "info"⟩, .dict info)]
    let buffer := (Value.dict entries).encode
    ∃ t, decode buffer = .ok entries ∧ entries.dict? (key "info") = some info ∧
      info.integer? (key "length") = none ∧
      (perform { tree := ⟨[], []⟩ } (.loadTorrent (.buffer buffer))).reply =
          .torrent true (some t) ∧
      t.length.toNat = FileSpan.bytes t.files ∧ FileSpan.bytes t.files = 3 := by
  intro info entries buffer
  have written : (Value.dict entries).distinct = true ∧ (Value.dict entries).nesting ≤ 64 :=
    ⟨by decide, by decide⟩
  have decoded : decode buffer = .ok entries := by
    rw [← List.append_nil buffer]
    exact decode_encode_iff.mpr written
  have under : entries.dict? (key "info") = some info := rfl
  have several : info.integer? (key "length") = none := rfl
  let t : Torrent :=
    { name := [], length := 3, pieceLength := 2
      digests := Digest.slices (List.replicate 40 120)
      files := [⟨[key "a"], 1⟩, ⟨[key "b"], 2⟩]
      infoHash := Sha1.hash (Value.dict info).encode }
  have read : ofDict entries = .ok t := by
    refine ofDict_eq_ok.mpr ⟨info, under, ofInfo_eq_ok.mpr ⟨rfl, rfl, rfl, rfl, rfl⟩, ?_⟩
    exact ⟨by decide, by decide, by decide⟩
  have accepted : (perform { tree := ⟨[], []⟩ } (.loadTorrent (.buffer buffer))).reply =
      .torrent true (some t) := accepts_buffer_iff.mpr ⟨_, decoded, read⟩
  have covered := files_covered_iff_sum_fits _ decoded under several accepted
  exact ⟨t, decoded, under, several, accepted, covered.2.1.mpr (by decide), rfl⟩

/-- Three files of 2^64 + 1 bytes together, taken for one byte in one piece. -/
theorem files_wrap_to_one_byte :
    let buffer := Bytes.ofString
      ("d4:infod5:filesld6:lengthi9223372036854775807e4:pathl1:aee"
        ++ "d6:lengthi9223372036854775807e4:pathl1:beed6:lengthi3e4:pathl1:ceee"
        ++ "4:name1:x12:piece lengthi16384e6:pieces20:xxxxxxxxxxxxxxxxxxxxee")
    ∃ t, (perform { tree := ⟨[], []⟩ } (.loadTorrent (.buffer buffer))).reply =
        .torrent true (some t) ∧
      t.length = 1 ∧ FileSpan.bytes t.files = 2 ^ 64 + 1 := by
  intro buffer
  let info : Dict := [
    (⟨0, key "files"⟩, .list [
      .dict [(⟨0, key "length"⟩, .integer 9223372036854775807),
        (⟨0, key "path"⟩, .list [.text ⟨0, key "a"⟩])],
      .dict [(⟨0, key "length"⟩, .integer 9223372036854775807),
        (⟨0, key "path"⟩, .list [.text ⟨0, key "b"⟩])],
      .dict [(⟨0, key "length"⟩, .integer 3),
        (⟨0, key "path"⟩, .list [.text ⟨0, key "c"⟩])]]),
    (⟨0, key "name"⟩, .text ⟨0, key "x"⟩),
    (⟨0, key "piece length"⟩, .integer 16384),
    (⟨0, key "pieces"⟩, .text ⟨0, List.replicate 20 120⟩)]
  let entries : Dict := [(⟨0, key "info"⟩, .dict info)]
  have text : buffer = (Value.dict entries).encode ++ [] := by decide +kernel
  have written : (Value.dict entries).distinct = true ∧ (Value.dict entries).nesting ≤ 64 :=
    ⟨by decide, by decide⟩
  let t : Torrent :=
    { name := key "x", length := 1, pieceLength := 16384
      digests := Digest.slices (List.replicate 20 120)
      files := [⟨[key "a"], 9223372036854775807⟩, ⟨[key "b"], 9223372036854775807⟩,
        ⟨[key "c"], 3⟩]
      infoHash := Sha1.hash (Value.dict info).encode }
  have read : ofDict entries = .ok t := by
    refine ofDict_eq_ok.mpr ⟨info, rfl, ofInfo_eq_ok.mpr ⟨rfl, rfl, rfl, rfl, rfl⟩, ?_⟩
    exact ⟨by decide, by decide, by decide⟩
  have decoded : decode buffer = .ok entries := text ▸ decode_encode_iff.mpr written
  exact ⟨t, accepts_buffer_iff.mpr ⟨entries, decoded, read⟩, rfl, by decide⟩

end Session

end PieceLedger
