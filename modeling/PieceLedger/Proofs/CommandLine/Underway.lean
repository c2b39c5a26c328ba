import PieceLedger.CommandLine.Program
import PieceLedger.Proofs.Verification.Pieces

/-!
# Runs that reach the pieces

Options, the log, the torrent and the files come before the pieces.  A run that
is cleared has all but the files behind it, and one that is underway the files
too.  It prints its heading and the head of the table; what it does then is
decided by the verification of the selected pieces.
-/

namespace PieceLedger.CommandLine

open Payload Verification

theorem selected_lt {s : Settings} {t : Torrent} (agrees : t.Agrees)
    (inRange : checkPiece s t = .ok ()) : ∀ id ∈ selected s t, id.toNat < t.pieceCount := by
  intro id hid
  rw [checkPiece] at inRange
  rw [selected] at hid
  split at hid
  case h_1 single hsingle =>
    simp only [hsingle] at inRange
    obtain rfl := List.mem_singleton.mp hid
    split at inRange
    case isTrue => cases inRange
    case isFalse inside => exact Nat.lt_of_not_le inside
  case h_2 =>
    obtain ⟨i, hi, rfl⟩ := List.mem_map.mp hid
    have inside := List.mem_range.mp hi
    rwa [UInt32.toNat_ofNat_of_lt' (Nat.lt_trans inside agrees.pieceCount_lt)]

theorem textOf_openLog {s : Settings} {tree : FileTree} {start : Console}
    (h : openLog s { tree, level := s.level } = (true, start)) : start.textOf .output = [] := by
  rw [openLog] at h
  split at h
  case isTrue => exact Console.textOf_openLog h
  case isFalse =>
    split at h
    case isTrue => exact Console.textOf_openLog h
    case isFalse =>
      cases h
      rfl

/-- A run whose options are in order and whose log is open, and which has loaded a torrent that
is the expected one. -/
structure Cleared (tree : FileTree) (words : List Bytes) (s : Settings) (start : Console)
    (t : Torrent) : Prop where
  parsed : Settings.ofWords (words.map Bytes.beforeNul) = .ok s
  logging : openLog s { tree, level := s.level } = (true, start)
  named : s.torrent ≠ [] ∧ s.data ≠ []
  loaded : (Torrent.load start.tree none (.file (some s.torrent))).held = some t
  expected : checkInfoHash s t = .ok ()
  inRange : checkPiece s t = .ok ()

/-- A run that gets as far as its pieces: all files of the torrent can be opened. -/
structure Underway (tree : FileTree) (words : List Bytes) (s : Settings) (start : Console)
    (t : Torrent) (files : List OpenPart) : Prop extends Cleared tree words s start t where
  opened : (openParts start (parts t s.data)).2.2 = some files

theorem logging_loading (c : Console) (tree : FileTree) (held : Option Torrent)
    (source : Bencode.Source) :
    c.logging (Torrent.loading tree held source) =
      (((Torrent.load tree held source).ok, (Torrent.load tree held source).held),
        c.traceAll (Torrent.load tree held source).lines) :=
  Console.logging_of_blind (Torrent.scripted_loading tree held source).blind c

namespace Cleared

variable {tree : FileTree} {words : List Bytes} {s : Settings} {start : Console} {t : Torrent}

theorem agrees (h : Cleared tree words s start t) : t.Agrees :=
  Torrent.agrees_of_load (by simp) h.loaded

theorem run_eq (h : Cleared tree words s start t) (chance : Chance) :
    ∃ c, start.Prints [heading s t] c ∧
      runNoted tree words chance =
        let (deeds, d, status) := verify s t chance c
        (deeds, d.closeLog, status) := by
  have traced := Console.Prints.nil.traceAll (c := start)
    (Torrent.load start.tree none (.file (some s.torrent))).lines
  refine ⟨_, traced.text (heading s t), ?_⟩
  have named : (s.torrent = [] || s.data = []) = false := by
    simpa using h.named
  simp only [runNoted, h.parsed, execute, h.logging, named, verifyTorrent, logging_loading,
    h.loaded, h.expected, h.inRange]
  rfl

end Cleared

namespace Underway

variable {tree : FileTree} {words : List Bytes} {s : Settings} {start : Console} {t : Torrent}
  {files : List OpenPart}

theorem parts_eq (h : Underway tree words s start t files) :
    files.map OpenPart.part = parts t s.data :=
  (openParts_of_prints Console.Prints.nil h.opened).2

theorem covered (h : Underway tree words s start t files) (fits : t.declared < 2 ^ 64)
    (chance : Chance) : (Plan.mk t files s.blockSize s.window s.shuffle chance).Covered where
  agrees := h.agrees
  laid := by
    rw [h.parts_eq]
    exact laid_parts s.data fits
  extent_eq := by
    rw [h.parts_eq, extent_parts]
    exact (Torrent.length_of_load h.loaded fits).symm

theorem textOf_start (h : Underway tree words s start t files) : start.textOf .output = [] :=
  textOf_openLog h.logging

theorem run_of_verified (h : Underway tree words s start t files) (chance : Chance) :
    ∃ c, start.Prints [heading s t, Bytes.ofString tableHead] c ∧
      ∀ ids d totals rows,
        verifyPieces ⟨t, files, s.blockSize, s.window, s.shuffle, chance⟩ (selected s t) {} c =
          (ids, d, some totals) →
        c.Prints rows d →
        let texts := [heading s t, Bytes.ofString tableHead] ++ rows ++
          [summary totals (selected s t).length]
        let out := (run tree words chance).1.textOf .output
        Console.Interleaved texts out ∧ (start.Apart → out = texts.flatten) ∧
          (run tree words chance).2 =
            if totals.valid = (selected s t).length then success else failure := by
  obtain ⟨c, begun, hrun⟩ := h.run_eq chance
  have opened := (openParts_of_prints begun h.opened).1
  have headed := begun.text (Bytes.ofString tableHead)
  refine ⟨_, headed, fun ids d totals rows verified course => ?_⟩
  rw [run, hrun]
  simp only [verify, opened, verified]
  have whole := (headed.trans course).text (summary totals (selected s t).length)
  obtain ⟨out, shown, interleaved⟩ := whole.textOf_output
  rw [h.textOf_start, List.nil_append] at shown
  refine ⟨shown ▸ interleaved, fun apart => ?_, trivial⟩
  have apartText := whole.textOf_output_of_apart apart
  rwa [h.textOf_start, List.nil_append] at apartText

end Underway

end PieceLedger.CommandLine
