import PieceLedger.FileTree
import PieceLedger.Proofs.Bytes.Slice

/-!
# Growing files

Appending to a file lets every path lead where it led before, and what could be
opened or read still can be.  Reads of one entry agree with each other: each is
a slice of what is read from the start.
-/

namespace PieceLedger

namespace Entry

/-- An entry after something was appended to it; only files keep it. -/
def grown (extra : Bytes) : Entry → Entry
  | .file content => .file (content ++ extra)
  | entry => entry

theorem grown_nil (entry : Entry) : entry.grown [] = entry := by
  cases entry <;> simp [grown]

theorem grown_grown (extra more : Bytes) (entry : Entry) :
    (entry.grown extra).grown more = entry.grown (extra ++ more) := by
  cases entry <;> simp [grown]

theorem check_grown (extra : Bytes) (entry : Entry) : (entry.grown extra).check = entry.check := by
  cases entry <;> rfl

theorem grown_eq_directory {extra : Bytes} {entry : Entry} :
    entry.grown extra = .directory ↔ entry = .directory := by
  cases entry <;> simp [grown]

theorem read_grown (extra : Bytes) (entry : Entry) (offset wanted : Nat) :
    ((entry.grown extra).read offset wanted).isOk = (entry.read offset wanted).isOk := by
  cases entry <;> rfl

theorem Device.read_slice {kind : Device} {length offset wanted : Nat} {whole : Bytes}
    (h : kind.read 0 length = .ok whole) (hspan : offset + wanted ≤ length) :
    kind.read offset wanted = .ok (whole.slice offset wanted) := by
  cases kind with
  | null =>
      cases h
      simp [Device.read, Bytes.slice]
  | zero =>
      cases h
      simp only [Device.read, Bytes.slice, List.drop_replicate, List.take_replicate]
      rw [Nat.min_eq_left (by omega)]
  | noise =>
      cases h
      apply congrArg Except.ok
      apply Bytes.eq_of_byteAt
      · rw [Bytes.length_slice _ (by simpa using hspan)]
        simp
      · intro i hi
        have inside : i < wanted := by simpa using hi
        rw [Bytes.byteAt_slice _ inside]
        simp [Bytes.byteAt, inside, show offset + i < length by omega]
  | output | errors | terminal => cases h

theorem read_slice {entry : Entry} {length offset wanted : Nat} {whole : Bytes}
    (h : entry.read 0 length = .ok whole) (hspan : offset + wanted ≤ length) :
    entry.read offset wanted = .ok (whole.slice offset wanted) := by
  cases entry with
  | file content =>
      cases h
      have inner : (content.slice 0 length).slice offset wanted =
          content.slice (0 + offset) wanted :=
        content.slice_slice hspan
      rw [Nat.zero_add] at inner
      exact congrArg Except.ok inner.symm
  | directory => cases h
  | device kind => exact Device.read_slice h hspan

end Entry

namespace FileTree

/-! ## Looking up -/

theorem lookup_filter_ne {location other : Location} (hne : other ≠ location)
    (entries : List (Location × Entry)) :
    (entries.filter fun known => known.1 ≠ location).lookup other = entries.lookup other := by
  induction entries with
  | nil => rfl
  | cons known rest ih =>
      by_cases same : known.1 = location
      · rw [List.filter_cons_of_neg (by simpa using same), ih]
        have differs : (other == known.1) = false := by
          rw [same]
          exact beq_false_of_ne hne
        rw [List.lookup_cons, differs]
      · rw [List.filter_cons_of_pos (by simpa using same), List.lookup_cons, List.lookup_cons, ih]

theorem entry?_put (tree : FileTree) {location : Location} (hroot : location ≠ [])
    (entry : Entry) (other : Location) :
    entry? (tree.put location entry) other =
      if other = location then some entry else tree.entry? other := by
  cases other with
  | nil => rw [if_neg hroot.symm, entry?, entry?]
  | cons name below =>
      simp only [put, entry?]
      split
      case isTrue same => rw [same, List.lookup_cons_self]
      case isFalse differs =>
        rw [List.lookup_cons, beq_false_of_ne differs]
        exact lookup_filter_ne differs _

theorem entry?_append (tree : FileTree) (location other : Location) (extra : Bytes) :
    entry? (tree.append location extra) other =
      if other = location then (tree.entry? other).map (Entry.grown extra)
      else tree.entry? other := by
  unfold append
  split
  case h_1 content file =>
    have hroot : location ≠ [] := by
      rintro rfl
      cases file
    rw [entry?_put tree hroot]
    split
    case isTrue same =>
      rw [same, file]
      rfl
    case isFalse => rfl
  case h_2 other_kind =>
    split
    case isTrue same =>
      subst same
      cases found : tree.entry? other with
      | none => rfl
      | some entry =>
          cases entry with
          | file content => exact absurd found (other_kind content)
          | directory | device => rfl
    case isFalse => rfl

theorem entry?_append_nil (tree : FileTree) (location : Location) :
    entry? (tree.append location []) = tree.entry? := by
  funext other
  rw [entry?_append]
  cases tree.entry? other <;> simp [Entry.grown_nil]

theorem here_append (tree : FileTree) (location : Location) (extra : Bytes) :
    (tree.append location extra).here = tree.here := by
  unfold append
  split <;> rfl

theorem step_append (tree : FileTree) (location : Location) (extra : Bytes) :
    (tree.append location extra).step = tree.step := by
  funext start name
  have directory : entry? (tree.append location extra) start = some .directory ↔
      tree.entry? start = some .directory := by
    rw [entry?_append]
    split
    case isTrue => simp [Option.map_eq_some_iff, Entry.grown_eq_directory]
    case isFalse => rfl
  have missing : entry? (tree.append location extra) (start ++ [name]) = none ↔
      tree.entry? (start ++ [name]) = none := by
    rw [entry?_append]
    split
    case isTrue => exact Option.map_eq_none_iff
    case isFalse => rfl
  simp only [step, ne_eq, directory, missing]

theorem resolve_append (tree : FileTree) (location : Location) (extra path : Bytes) :
    (tree.append location extra).resolve path = tree.resolve path := by
  simp only [resolve, walk, origin, step_append, here_append]

theorem openRead_append (tree : FileTree) (location : Location) (extra path : Bytes) :
    (tree.append location extra).openRead path = tree.openRead path := by
  simp only [openRead, resolve_append, entry?_append]
  congr 1
  funext place
  by_cases same : place = location
  · rw [if_pos same]
    cases tree.entry? place with
    | none => rfl
    | some entry => simp only [Option.map_some, Entry.check_grown]
  · rw [if_neg same]

theorem read_append (tree : FileTree) (location place : Location) (extra : Bytes)
    (offset wanted : Nat) :
    ((tree.append location extra).read place offset wanted).isOk =
      (tree.read place offset wanted).isOk := by
  simp only [read, entry?_append]
  by_cases same : place = location
  · rw [if_pos same]
    cases tree.entry? place with
    | none => rfl
    | some entry => exact entry.read_grown extra offset wanted
  · rw [if_neg same]

end FileTree

end PieceLedger
