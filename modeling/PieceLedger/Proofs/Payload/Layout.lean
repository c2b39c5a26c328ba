import PieceLedger.Payload
import PieceLedger.Proofs.Torrent.Pieces

/-!
# The layout of a torrent's files

The parts of a loaded torrent follow one another from the start of its content.
Offsets and lengths are 64-bit numbers; as long as the declared lengths add up
to less than 2^64, none of the sums wraps and the parts make up the content.
-/

namespace PieceLedger

theorem toNat_add_of_lt {a b : UInt64} (h : a.toNat + b.toNat < 2 ^ 64) :
    (a + b).toNat = a.toNat + b.toNat := by
  rw [UInt64.toNat_add, Nat.mod_eq_of_lt h]

theorem toNat_sub_of_le {a b : UInt64} (h : b.toNat ≤ a.toNat) :
    (a - b).toNat = a.toNat - b.toNat :=
  UInt64.toNat_sub_of_le _ _ (UInt64.le_iff_toNat_le.mpr h)

def FileSpan.bytes (files : List FileSpan) : Nat := (files.map fun file => file.length.toNat).sum

theorem FileSpan.bytes_cons (file : FileSpan) (rest : List FileSpan) :
    bytes (file :: rest) = file.length.toNat + bytes rest := by
  rw [bytes, List.map_cons, List.sum_cons]
  rfl

/-- The length of the content as its files declare it. -/
def Torrent.declared (t : Torrent) : Nat :=
  if t.files = [] then t.length.toNat else FileSpan.bytes t.files

namespace Payload

def Laid : Nat → List Part → Prop
  | _, [] => True
  | start, part :: rest => part.offset.toNat = start ∧ Laid (start + part.length.toNat) rest

def extent (parts : List Part) : Nat := (parts.map fun part => part.length.toNat).sum

theorem extent_cons (part : Part) (rest : List Part) :
    extent (part :: rest) = part.length.toNat + extent rest := by
  rw [extent, List.map_cons, List.sum_cons]
  rfl

theorem extent_partsFrom (directory : Bytes) (offset : UInt64) (files : List FileSpan) :
    extent (partsFrom directory offset files) = FileSpan.bytes files := by
  induction files generalizing offset with
  | nil => rfl
  | cons file rest ih => rw [partsFrom, extent_cons, ih, FileSpan.bytes_cons]

theorem laid_partsFrom (directory : Bytes) {offset : UInt64} {files : List FileSpan}
    (fits : offset.toNat + FileSpan.bytes files < 2 ^ 64) :
    Laid offset.toNat (partsFrom directory offset files) := by
  induction files generalizing offset with
  | nil => trivial
  | cons file rest ih =>
      rw [FileSpan.bytes_cons] at fits
      have next := toNat_add_of_lt (a := offset) (b := file.length) (by omega)
      refine ⟨rfl, ?_⟩
      change Laid (offset.toNat + file.length.toNat) _
      rw [← next]
      exact ih (by omega)

theorem extent_parts (t : Torrent) (path : Bytes) : extent (parts t path) = t.declared := by
  rw [parts, Torrent.declared]
  split
  case isTrue => rfl
  case isFalse => exact extent_partsFrom path 0 t.files

theorem laid_parts {t : Torrent} (path : Bytes) (fits : t.declared < 2 ^ 64) :
    Laid 0 (parts t path) := by
  rw [Torrent.declared] at fits
  rw [parts]
  split
  case isTrue => exact ⟨rfl, trivial⟩
  case isFalse several =>
    rw [if_neg several] at fits
    have front : (0 : UInt64).toNat + FileSpan.bytes t.files < 2 ^ 64 := by simpa using fits
    exact laid_partsFrom path front

end Payload

/-! ## Declared lengths -/

namespace Torrent

theorem totalLength_toNat (files : List FileSpan) :
    (totalLength files).toNat = FileSpan.bytes files % 2 ^ 64 := by
  have total (start : UInt64) :
      (files.foldl (fun total file => total + file.length) start).toNat =
        (start.toNat + FileSpan.bytes files) % 2 ^ 64 := by
    induction files generalizing start with
    | nil => exact (Nat.mod_eq_of_lt start.toNat_lt).symm
    | cons file rest ih =>
        rw [List.foldl_cons, ih, UInt64.toNat_add, Nat.mod_add_mod, FileSpan.bytes_cons,
          Nat.add_assoc]
  rw [totalLength, total, UInt64.toNat_zero, Nat.zero_add]

theorem readContent_cases {info : Bencode.Dict} {length : UInt64} {files : List FileSpan}
    (h : readContent info = .ok (length, files)) :
    ((info.integer? (key "length")).isSome ∧ files = []) ∨
      (info.integer? (key "length") = none ∧ length = totalLength files) := by
  simp only [readContent] at h
  split at h
  case h_1 number =>
    split at h
    case isTrue => cases h
    case isFalse =>
      cases h
      exact .inl ⟨by rw [number]; rfl, rfl⟩
  case h_2 absent =>
    split at h
    case h_1 => cases h
    case h_2 =>
      split at h
      case h_1 => cases h
      case h_2 =>
        cases h
        exact .inr ⟨absent, rfl⟩

theorem files_of_ofDict {entries : Bencode.Dict} {t : Torrent} (h : ofDict entries = .ok t) :
    t.files = [] ∨ t.length = totalLength t.files := by
  obtain ⟨info, -, read, -⟩ := ofDict_eq_ok.mp h
  obtain ⟨-, -, content, -, -⟩ := ofInfo_eq_ok.mp read
  rcases readContent_cases content with ⟨-, single⟩ | ⟨-, sum⟩
  · exact .inl single
  · exact .inr sum

theorem length_of_load {tree : FileTree} {source : Bencode.Source} {t : Torrent}
    (h : (load tree none source).held = some t) (fits : t.declared < 2 ^ 64) :
    t.length.toNat = t.declared := by
  rcases load_held h with ⟨-, kept⟩ | ⟨entries, lines, -, hentries⟩
  · cases kept
  · rw [declared] at fits ⊢
    split
    case isTrue => rfl
    case isFalse several =>
      rw [if_neg several] at fits
      rw [(files_of_ofDict hentries).resolve_left several, totalLength_toNat,
        Nat.mod_eq_of_lt fits]

end Torrent

end PieceLedger
