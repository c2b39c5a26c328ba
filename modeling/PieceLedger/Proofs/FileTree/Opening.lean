import PieceLedger.FileTree.Content
import PieceLedger.Proofs.FileTree.Growth

/-!
# Opening files to append

A path that can be opened leads to an entry that is no directory.  Either it is
there already and the tree stays as it is, or it is a new empty file, and
nothing else in the tree changes.
-/

namespace PieceLedger.FileTree

/-- `tree.Opens location grown` says that opening `location` to append turns `tree` into
`grown`. -/
inductive Opens (tree : FileTree) (location : Location) : FileTree → Prop
  | there {entry : Entry} : location ≠ [] → tree.entry? location = some entry →
      entry ≠ .directory → Opens tree location tree
  | created : location ≠ [] → tree.entry? location = none →
      Opens tree location (tree.put location (.file []))

theorem openAppend_opens {tree grown : FileTree} {path : Bytes} {location : Location}
    (h : tree.openAppend path = .ok (location, grown)) : tree.Opens location grown := by
  simp only [openAppend, bind, Except.bind] at h
  -- One branch finds an entry, one makes a file, and the others are faults.
  repeat' split at h
  all_goals try cases h
  · exact .there (by simp) ‹tree.entry? _ = some _› ‹_ = Entry.directory → False›
  · exact .created (by simp) ‹tree.entry? _ = none›

theorem Opens.standing {tree grown : FileTree} {location : Location}
    (h : tree.Opens location grown) : grown.entry? location ≠ none := by
  cases h with
  | there _ there => simp [there]
  | created hroot =>
      rw [entry?_put tree hroot, if_pos rfl]
      simp

theorem standing_append {tree : FileTree} {place : Location} (h : tree.entry? place ≠ none)
    (location : Location) (extra : Bytes) :
    entry? (tree.append location extra) place ≠ none := by
  rw [entry?_append]
  split
  case isTrue => simpa using h
  case isFalse => exact h

/-! ## What other paths lead to -/

section Created

variable {tree : FileTree} {location start next place : Location} {name : Bytes}
  {steps : List Bytes}

theorem step_from_created (hroot : location ≠ []) (name : Bytes) :
    (tree.put location (.file [])).step location name = .error .notDirectory := by
  rw [step, if_pos]
  rw [entry?_put tree hroot, if_pos rfl]
  simp

theorem step_created (hroot : location ≠ []) (before : start ≠ location)
    (h : (tree.put location (.file [])).step start name = .ok next) (apart : next ≠ location) :
    tree.step start name = .ok next := by
  have found (other : Location) := tree.entry?_put hroot (.file []) other
  rw [step, found, if_neg before] at h
  rw [step]
  split at h
  case isTrue => cases h
  case isFalse directory =>
    rw [if_neg directory]
    split at h
    case isTrue stays => rwa [if_pos stays]
    case isFalse moves =>
      rw [if_neg moves]
      split at h
      case isTrue up => rwa [if_pos up]
      case isFalse down =>
        rw [if_neg down]
        split at h
        case isTrue => cases h
        case isFalse short =>
          rw [if_neg short]
          split at h
          case isTrue => cases h
          case isFalse standing =>
            cases h
            rw [found, if_neg apart] at standing
            rw [if_neg standing]

theorem walk_created (hroot : location ≠ [])
    (h : (tree.put location (.file [])).walk start steps = .ok place) (apart : place ≠ location) :
    tree.walk start steps = .ok place := by
  induction steps generalizing start with
  | nil => exact h
  | cons name rest ih =>
      rw [walk, List.foldlM_cons] at h ⊢
      have before : start ≠ location := by
        rintro rfl
        rw [step_from_created hroot] at h
        cases h
      cases hnext : (tree.put location (.file [])).step start name with
      | error reason => rw [hnext] at h; cases h
      | ok next =>
          rw [hnext] at h
          have ended : next ≠ location := by
            rintro rfl
            cases rest with
            | nil =>
                cases h
                exact apart rfl
            | cons other rest =>
                change List.foldlM _ _ _ = _ at h
                rw [List.foldlM_cons, step_from_created hroot] at h
                cases h
          rw [step_created hroot before hnext ended]
          exact ih h

end Created

theorem content_append_nil (tree : FileTree) (location : Location) (path : Bytes) :
    (tree.append location []).content path = tree.content path := by
  simp only [content, resolve_append, entry?_append_nil]

theorem Opens.content_eq {tree grown : FileTree} {location : Location}
    (h : tree.Opens location grown) {path content : Bytes} (nonempty : content ≠ [])
    (read : grown.content path = .ok content) : tree.content path = .ok content := by
  cases h with
  | there => exact read
  | created hroot absent =>
      rw [FileTree.content] at read ⊢
      split at read
      case h_1 => cases read
      case h_2 place resolved =>
        split at read
        case h_2 => cases read
        case h_1 written standing =>
          cases read
          rw [entry?_put tree hroot] at standing
          split at standing
          case isTrue =>
            cases standing
            exact absurd rfl nonempty
          case isFalse apart =>
            have before : tree.resolve path.beforeNul = .ok place := by
              rw [resolve] at resolved ⊢
              cases length : checkLength path.beforeNul with
              | error reason => rw [length] at resolved; cases resolved
              | ok =>
                  rw [length] at resolved
                  exact walk_created hroot resolved apart
            simp only [before, standing]

end PieceLedger.FileTree
