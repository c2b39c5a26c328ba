import PieceLedger.CommandLine.Settings
import Mathlib.Data.List.Basic

/-!
# Options that are given

The last argument of an option decides its setting.  Where help and version are
not asked for, only bad options and bad values stop the program, and the
options for the info hash have no part in that.
-/

namespace PieceLedger.CommandLine

/-- The argument of an option with this letter; an option without one counts as having an empty
one. -/
def Item.argument? (letter : Char) : Item → Option Bytes
  | .option written argument =>
      if Char.ofNat written.toNat = letter then some (argument.getD []) else none
  | .complaint _ => none

def items (words : List Bytes) : List Item := scan optionTable (words.map Bytes.beforeNul)

def given (letter : Char) (words : List Bytes) : List Bytes :=
  (items words).filterMap (Item.argument? letter)

namespace Settings

theorem exists_of_map_eq_ok {ε α β : Type} {result : Except ε α} {f : α → β} {b : β}
    (h : result.map f = .ok b) : ∃ a, f a = b := by
  cases result with
  | error => cases h
  | ok a => exact ⟨a, Except.ok.inj h⟩

def unnamed (s : Settings) : Settings := { s with infoHash := [] }

variable {s s' : Settings} {item : Item} {stop : Stop}

/-! ## One option -/

theorem setWindow_eq (s : Settings) (argument : Bytes) :
    s.setWindow argument =
      (setWindow {} argument).map fun set => { s with window := set.window } := by
  simp only [setWindow]
  split <;> rfl

theorem setBlockSize_eq (s : Settings) (argument : Bytes) :
    s.setBlockSize argument =
      (setBlockSize {} argument).map fun set => { s with blockSize := set.blockSize } := by
  simp only [setBlockSize]
  split <;> rfl

theorem setPiece_eq (s : Settings) (argument : Bytes) :
    s.setPiece argument =
      (setPiece {} argument).map fun set => { s with single := set.single } := by
  simp only [setPiece]
  split
  case h_1 => rfl
  case h_2 => split <;> rfl

theorem setLevel_eq (s : Settings) (argument : Bytes) :
    s.setLevel argument =
      { s with
        level := (setLevel {} argument).level
        tracing := s.tracing || (setLevel {} argument).tracing } := by
  simp only [setLevel]
  split <;> simp

theorem applyItem_texts (h : s.applyItem item = .ok s') :
    s'.infoHash = (item.argument? 'i').getD s.infoHash ∧
      s'.torrent = (item.argument? 't').getD s.torrent := by
  cases item with
  | complaint => cases h
  | option written argument =>
      simp only [applyItem, Item.argument?] at h ⊢
      generalize Char.ofNat written.toNat = letter at h ⊢
      unfold apply at h
      split at h
      case h_6 | h_7 | h_9 =>
        simp only [setWindow_eq s, setBlockSize_eq s, setPiece_eq s] at h
        obtain ⟨set, rfl⟩ := exists_of_map_eq_ok h
        exact ⟨rfl, rfl⟩
      case h_10 =>
        rw [setLevel_eq] at h
        cases h
        exact ⟨rfl, rfl⟩
      case h_12 =>
        cases h
        rw [if_neg ‹letter = 'i' → False›, if_neg ‹letter = 't' → False›]
        exact ⟨rfl, rfl⟩
      all_goals cases h
      all_goals exact ⟨rfl, rfl⟩

theorem applyItem_stops (h : s.applyItem item = .error stop) :
    (stop = .help → item.argument? 'h' ≠ none) ∧
      (stop = .version → item.argument? 'v' ≠ none) := by
  cases item with
  | complaint =>
      cases h
      simp
  | option written argument =>
      simp only [applyItem, Item.argument?] at h ⊢
      generalize Char.ofNat written.toNat = letter at h ⊢
      unfold apply at h
      split at h
      case h_1 | h_2 =>
        cases h
        simp
      case h_6 | h_7 =>
        simp only [setWindow, setBlockSize] at h
        split at h <;> cases h
        simp
      case h_9 =>
        simp only [setPiece] at h
        split at h
        case h_1 =>
          cases h
          simp
        case h_2 =>
          split at h <;> cases h
          simp
      all_goals cases h

theorem applyItem_unnamed (s : Settings) (item : Item) :
    (item.argument? 'i' = none → (s.applyItem item).map unnamed = s.unnamed.applyItem item) ∧
      (item.argument? 'i' ≠ none → (s.applyItem item).map unnamed = .ok s.unnamed) := by
  cases item with
  | complaint => exact ⟨fun _ => rfl, fun named => absurd rfl named⟩
  | option written argument =>
      simp only [applyItem, Item.argument?]
      generalize Char.ofNat written.toNat = letter
      by_cases named : letter = 'i'
      · subst named
        exact ⟨by simp, fun _ => rfl⟩
      · rw [if_neg named]
        refine ⟨fun _ => ?_, fun other => absurd rfl other⟩
        unfold apply
        split
        case h_5 => exact absurd rfl named
        case h_6 =>
          rw [setWindow_eq s, setWindow_eq s.unnamed]
          cases setWindow {} (argument.getD []) <;> rfl
        case h_7 =>
          rw [setBlockSize_eq s, setBlockSize_eq s.unnamed]
          cases setBlockSize {} (argument.getD []) <;> rfl
        case h_9 =>
          rw [setPiece_eq s, setPiece_eq s.unnamed]
          cases setPiece {} (argument.getD []) <;> rfl
        case h_10 =>
          rw [setLevel_eq s, setLevel_eq s.unnamed]
          rfl
        all_goals rfl

/-! ## A command line -/

theorem applyItems_text {setting : Settings → Bytes} {letter : Char}
    (one : ∀ {s s' : Settings} {item : Item}, s.applyItem item = .ok s' →
      setting s' = (item.argument? letter).getD (setting s)) {items : List Item}
    (h : items.foldlM applyItem s = .ok s') :
    setting s' = (items.filterMap (Item.argument? letter)).getLast?.getD (setting s) := by
  induction items generalizing s with
  | nil =>
      cases h
      rfl
  | cons item rest ih =>
      rw [List.foldlM_cons] at h
      cases first : s.applyItem item with
      | error stop => rw [first] at h; cases h
      | ok next =>
          rw [first] at h
          rw [ih h, one first, List.filterMap_cons]
          cases item.argument? letter with
          | none => rfl
          | some argument => simp [List.getLast?_cons]

theorem applyItems_options {items : List Item} (h : items.foldlM applyItem s = .ok s')
    (cause : Complaint) : .complaint cause ∉ items := by
  induction items generalizing s with
  | nil => exact List.not_mem_nil
  | cons item rest ih =>
      rw [List.foldlM_cons] at h
      intro inside
      cases first : s.applyItem item with
      | error stop => rw [first] at h; cases h
      | ok next =>
          rw [first] at h
          rcases List.mem_cons.mp inside with rfl | later
          · cases first
          · exact ih h later

theorem applyItems_stops {items : List Item} (h : items.foldlM applyItem s = .error stop) :
    ∃ item ∈ items, ∃ before : Settings, before.applyItem item = .error stop := by
  induction items generalizing s with
  | nil => cases h
  | cons item rest ih =>
      rw [List.foldlM_cons] at h
      cases first : s.applyItem item with
      | error other =>
          rw [first] at h
          cases h
          exact ⟨item, List.mem_cons_self, s, first⟩
      | ok next =>
          rw [first] at h
          obtain ⟨later, hlater, stopped⟩ := ih h
          exact ⟨later, List.mem_cons_of_mem item hlater, stopped⟩

theorem applyItems_unnamed (s : Settings) (items : List Item) :
    (items.foldlM applyItem s).map unnamed =
      (items.filter fun item => item.argument? 'i' = none).foldlM applyItem s.unnamed := by
  induction items generalizing s with
  | nil => rfl
  | cons item rest ih =>
      obtain ⟨other, named⟩ := s.applyItem_unnamed item
      by_cases h : item.argument? 'i' = none
      · rw [List.filter_cons_of_pos (by simpa using h), List.foldlM_cons, List.foldlM_cons,
          ← other h]
        cases s.applyItem item with
        | error stop => rfl
        | ok next => exact ih next
      · rw [List.filter_cons_of_neg (by simpa using h), List.foldlM_cons]
        have set := named h
        cases first : s.applyItem item with
        | error stop => rw [first] at set; cases set
        | ok next =>
            rw [first] at set
            rw [← Except.ok.inj set]
            exact ih next

variable {words others : List Bytes}

theorem infoHash_of_ofWords (h : ofWords (words.map Bytes.beforeNul) = .ok s) :
    s.infoHash = (given 'i' words).getLast?.getD [] :=
  applyItems_text (fun set => (applyItem_texts set).1) h

theorem torrent_of_ofWords (h : ofWords (words.map Bytes.beforeNul) = .ok s) :
    s.torrent = (given 't' words).getLast?.getD [] :=
  applyItems_text (fun set => (applyItem_texts set).2) h

theorem stop_of_ofWords (h : ofWords (words.map Bytes.beforeNul) = .error stop) :
    (stop = .help → given 'h' words ≠ []) ∧ (stop = .version → given 'v' words ≠ []) := by
  obtain ⟨item, hitem, before, stopped⟩ := applyItems_stops h
  have asked {letter : Char} (h : item.argument? letter ≠ none) : given letter words ≠ [] := by
    obtain ⟨argument, found⟩ := Option.ne_none_iff_exists'.mp h
    exact List.ne_nil_of_mem (List.mem_filterMap.mpr ⟨item, hitem, found⟩)
  obtain ⟨help, version⟩ := applyItem_stops stopped
  exact ⟨fun same => asked (help same), fun same => asked (version same)⟩

theorem ofWords_unnamed
    (same : items others = (items words).filter fun item => item.argument? 'i' = none) :
    ofWords (others.map Bytes.beforeNul) =
      (ofWords (words.map Bytes.beforeNul)).map unnamed := by
  rw [ofWords, ofWords, applyItems_unnamed]
  exact congrArg _ same

end Settings

end PieceLedger.CommandLine
