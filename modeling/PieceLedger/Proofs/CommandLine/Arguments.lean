import PieceLedger.CommandLine.Settings

/-!
# Arguments and the settings they make

An argument is the end of a word.  Where no word has a zero byte, no text in the
settings has one, and the numbers in the settings are in the ranges that are
checked when they are set.
-/

namespace PieceLedger

namespace CommandLine

/-! ## Arguments -/

def Item.Ends (word : Bytes) : Item → Prop
  | .option _ (some argument) => argument <:+ word
  | _ => True

section Words

variable (table : OptionTable) {word text : Bytes}

end Words

/-! ## Settings -/

namespace Settings

/-- Settings that words without zero bytes can make. -/
structure Regular (s : Settings) : Prop where
  torrent : 0 ∉ s.torrent
  data : 0 ∉ s.data
  infoHash : 0 ∉ s.infoHash
  errorLog : 0 ∉ s.errorLog
  blockSize : 1 ≤ s.blockSize.toNat ∧ s.blockSize.toNat ≤ 16 * 1024 * 1024
  window : 1 ≤ s.window.toNat ∧ s.window.toNat ≤ 1024

theorem ofNat_range {value limit : Int} (h : ¬(value < 1 ∨ limit < value))
    (small : limit < UInt32.size) :
    1 ≤ (UInt32.ofNat value.toNat).toNat ∧
      (UInt32.ofNat value.toNat).toNat ≤ limit.toNat := by
  simp only [UInt32.size] at small
  rw [UInt32.toNat_ofNat_of_lt' (by simp only [UInt32.size]; omega)]
  omega

namespace Regular

variable {s s' : Settings} {argument : Bytes}

theorem setWindow (h : s.Regular) (set : s.setWindow argument = .ok s') : s'.Regular := by
  simp only [Settings.setWindow, Bool.or_eq_true, decide_eq_true_eq] at set
  split at set
  case isTrue => cases set
  case isFalse inside =>
    cases set
    exact { h with window := ofNat_range inside (by decide) }

theorem setBlockSize (h : s.Regular) (set : s.setBlockSize argument = .ok s') : s'.Regular := by
  simp only [Settings.setBlockSize, Bool.or_eq_true, decide_eq_true_eq] at set
  split at set
  case isTrue => cases set
  case isFalse inside =>
    cases set
    exact { h with blockSize := ofNat_range inside (by decide) }

theorem setPiece (h : s.Regular) (set : s.setPiece argument = .ok s') : s'.Regular := by
  simp only [Settings.setPiece] at set
  split at set
  case h_1 => cases set
  case h_2 =>
    split at set
    case isTrue => cases set
    case isFalse =>
      cases set
      exact { h with }

theorem setLevel (h : s.Regular) : (s.setLevel argument).Regular := by
  simp only [Settings.setLevel]
  split <;> exact { h with }

theorem apply (h : s.Regular) {letter : Char} (whole : 0 ∉ argument)
    (set : s.apply letter argument = .ok s') : s'.Regular := by
  unfold Settings.apply at set
  split at set
  case h_6 => exact h.setWindow set
  case h_7 => exact h.setBlockSize set
  case h_9 => exact h.setPiece set
  all_goals cases set
  case h_3 => exact { h with torrent := whole }
  case h_4 => exact { h with data := whole }
  case h_5 => exact { h with infoHash := whole }
  case h_8 => exact { h with }
  case h_10 => exact h.setLevel
  case h_11 => exact { h with errorLog := whole }
  case h_12 => exact h

theorem applyItem (h : s.Regular) {word : Bytes} {item : Item} (ends : item.Ends word)
    (whole : 0 ∉ word) (set : s.applyItem item = .ok s') : s'.Regular := by
  cases item with
  | option letter argument =>
      refine h.apply ?_ set
      cases argument with
      | none => exact List.not_mem_nil
      | some argument => exact fun inside => whole (ends.subset inside)
  | complaint => cases set

end Regular

end Settings

end CommandLine

end PieceLedger
