import PieceLedger.CommandLine.Program
import PieceLedger.Proofs.CommandLine.Underway

/-!
# What a run does with the data

A run opens the files of the content and verifies pieces only behind all other
checks.  Where these are passed it does try to open a file; where one is not,
the run is refused, or it was asked for help or the version.
-/

namespace PieceLedger.CommandLine

open Payload Verification

/-! ## Files that are opened -/

theorem parts_ne_nil (t : Torrent) (path : Bytes) : parts t path ≠ [] := by
  rw [parts]
  split
  case isTrue => exact List.cons_ne_nil _ _
  case isFalse several =>
    cases files : t.files with
    | nil => exact absurd files several
    | cons file rest => exact List.cons_ne_nil _ _

theorem tried_ne_nil (c : Console) {parts : List Part} (nonempty : parts ≠ []) :
    (openParts c parts).1 ≠ [] := by
  cases parts with
  | nil => exact absurd rfl nonempty
  | cons part rest =>
      rw [openParts]
      split
      case h_1 => exact List.cons_ne_nil _ _
      case h_2 => split <;> exact List.cons_ne_nil _ _

variable (s : Settings) (t : Torrent) (chance : Chance) (c : Console)

theorem deeds_of_verify :
    ∃ ids : List UInt32, (verify s t chance c).1 =
      (openParts c (parts t s.data)).1.map .opens ++ ids.map .verifies := by
  rw [verify]
  split
  case h_1 tried d opened =>
    rw [opened]
    exact ⟨[], (List.append_nil _).symm⟩
  case h_2 tried d files opened =>
    rw [opened]
    simp only
    split <;> exact ⟨_, rfl⟩

theorem verify_ne_nil : (verify s t chance c).1 ≠ [] := by
  obtain ⟨ids, deeds⟩ := deeds_of_verify s t chance c
  rw [deeds]
  refine List.append_ne_nil_of_left_ne_nil ?_ _
  exact mt List.map_eq_nil_iff.mp (tried_ne_nil c (parts_ne_nil t s.data))

section Runs

variable {s} {t} {tree : FileTree} {words : List Bytes} {start : Console}

theorem Cleared.deeds_ne_nil (h : Cleared tree words s start t) :
    (runNoted tree words chance).1 ≠ [] := by
  obtain ⟨c, -, run⟩ := h.run_eq chance
  rw [run]
  exact verify_ne_nil s t chance c

end Runs

/-- What a run comes to: it is stopped by its options, or refused, or it turns to the data. -/
theorem runNoted_cases (tree : FileTree) (words : List Bytes) :
    (∃ stop, Settings.ofWords (words.map Bytes.beforeNul) = .error stop ∧
      runNoted tree words chance = ([], stop.conclude { tree })) ∨
    (∃ c, runNoted tree words chance = ([], c, failure)) ∨
    ∃ s start t, Cleared tree words s start t := by
  rw [runNoted]
  cases parsed : Settings.ofWords (words.map Bytes.beforeNul) with
  | error stop => exact .inl ⟨stop, rfl, rfl⟩
  | ok s =>
      refine .inr ?_
      simp only [execute]
      rcases logging : openLog s { tree, level := s.level } with ⟨opened, start⟩
      cases opened with
      | false => exact .inl ⟨_, rfl⟩
      | true =>
          simp only [verifyTorrent, logging_loading]
          split
          case isTrue => exact .inl ⟨_, rfl⟩
          case isFalse named =>
            cases loaded : (Torrent.load start.tree none (.file (some s.torrent))).held with
            | none => exact .inl ⟨_, rfl⟩
            | some t =>
                simp only
                cases expected : checkInfoHash s t with
                | error mismatch => exact .inl ⟨_, rfl⟩
                | ok =>
                    cases inRange : checkPiece s t with
                    | error mismatch => exact .inl ⟨_, rfl⟩
                    | ok =>
                        have cleared : Cleared tree words s start t :=
                          ⟨parsed, logging, by simpa using named, loaded, expected, inRange⟩
                        exact .inr ⟨s, start, t, cleared⟩

end PieceLedger.CommandLine
