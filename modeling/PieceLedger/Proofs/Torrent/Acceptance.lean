import PieceLedger.Proofs.Payload.Layout
import PieceLedger.Proofs.Bencode.RoundTrip
import PieceLedger.Proofs.Bytes.Slice

/-!
# Which dictionaries describe torrents

`Describes` says what an info dictionary has to hold, field by field and without
an order in which the fields are looked at.  It is met exactly by the dictionaries
that are accepted, and fixes every field of the torrent that is then held.
-/

namespace PieceLedger

open Bencode

namespace Bencode.Dict

theorem integer?_eq_some {d : Dict} {name : Bytes} {n : Int64} :
    d.integer? name = some n ↔ d.find? name = some (.integer n) := by
  rw [integer?]
  split
  case h_1 found => simp [found]
  case h_2 other => simpa using other n

theorem integer?_eq_none {d : Dict} {name : Bytes} :
    d.integer? name = none ↔ ∀ n, d.find? name ≠ some (.integer n) := by
  simp only [Option.eq_none_iff_forall_ne_some, ne_eq, integer?_eq_some]

theorem list?_eq_some {d : Dict} {name : Bytes} {items : List Value} :
    d.list? name = some items ↔ d.find? name = some (.list items) := by
  rw [list?]
  split
  case h_1 found => simp [found]
  case h_2 other => simpa using other items

theorem text?_eq_some {d : Dict} {name content : Bytes} :
    d.text? name = some content ↔
      ∃ t : Text, d.find? name = some (.text t) ∧ t.bytes = content := by
  rw [text?]
  split
  case h_1 t found => simp [found]
  case h_2 other =>
    have missing : ∀ t : Text, d.find? name ≠ some (.text t) := other
    simp [missing]

theorem text?_eq_none {d : Dict} {name : Bytes} :
    d.text? name = none ↔ ∀ t, d.find? name ≠ some (.text t) := by
  simp [Option.eq_none_iff_forall_ne_some, text?_eq_some]

end Bencode.Dict

/-! ## Tables of digests -/

namespace Digest

theorem length_table (count : Nat) (b : Bytes) : (table count b).length = count := by
  induction count generalizing b with
  | zero => rfl
  | succ count ih => rw [table, List.length_cons, ih]

theorem map_bytes_table {count : Nat} {b : Bytes} (h : count * 20 ≤ b.length) :
    (table count b).map (·.bytes) = (List.range count).map fun i => b.slice (i * 20) 20 := by
  induction count generalizing b with
  | zero => rfl
  | succ count ih =>
      have whole : (b.take 20).length = 20 := by
        rw [List.length_take]
        omega
      have first : (ofBytes (b.take 20)).bytes = b.slice (0 * 20) 20 := List.take_left' whole
      have rest : count * 20 ≤ (b.drop 20).length := by
        rw [List.length_drop]
        omega
      have later (i : Nat) : Bytes.slice (b.drop 20) (i * 20) 20 = b.slice ((i + 1) * 20) 20 := by
        rw [Bytes.slice, Bytes.slice, List.drop_drop, Nat.succ_mul, Nat.add_comm]
      rw [table, List.map_cons, first, ih rest, List.range_succ_eq_map, List.map_cons, List.map_map]
      simp only [later, Function.comp_def, Nat.succ_eq_add_one]

end Digest

/-! ## What a dictionary has to hold -/

namespace Torrent

def Numbers (d : Dict) (name : String) (size : Nat) : Prop :=
  ∃ n, d.find? (key name) = some (.integer n) ∧ n.toInt = size

structure PlainName (name : Bytes) : Prop where
  nonempty : name ≠ []
  not_dot : name ≠ [46]
  not_dots : name ≠ [46, 46]
  no_slash : 47 ∉ name
  no_zero : 0 ∉ name

inductive Names : Value → Bytes → Prop
  | text {t : Text} : PlainName t.bytes → Names (.text t) t.bytes

inductive Declares : Value → FileSpan → Prop
  | dict {d : Dict} {items : List Value} {file : FileSpan} :
      Numbers d "length" file.length.toNat → d.find? (key "path") = some (.list items) →
      items ≠ [] → List.Forall₂ Names items file.path → Declares (.dict d) file

/-- The length of the content and its files, of which a single one is not listed. -/
inductive Content (info : Dict) : Nat → List FileSpan → Prop
  | single {length : Nat} : Numbers info "length" length → Content info length []
  | several {items : List Value} {files : List FileSpan} :
      (∀ n, info.find? (key "length") ≠ some (.integer n)) →
      info.find? (key "files") = some (.list items) → List.Forall₂ Declares items files →
      Content info (FileSpan.bytes files % 2 ^ 64) files

inductive Named (info : Dict) : Bytes → Prop
  | written {t : Text} : info.find? (key "name") = some (.text t) → Named info t.bytes
  | missing : (∀ t, info.find? (key "name") ≠ some (.text t)) → Named info []

/-- An info dictionary whose content has `length` bytes, in pieces of `size` bytes. -/
structure Describes (info : Dict) (size : Nat) (table : Text) (length : Nat)
    (files : List FileSpan) : Prop where
  pieceLength : Numbers info "piece length" size
  pieceLength_range : 1 ≤ size ∧ size ≤ 2 ^ 32 - 1
  pieces : info.find? (key "pieces") = some (.text table)
  pieces_whole : table.bytes.length % 20 = 0
  content : Content info length files
  count : table.bytes.length / 20 = length ⌈/⌉ size
  count_le : table.bytes.length / 20 ≤ 2 ^ 32 - 1

structure Matches (t : Torrent) (info : Dict) (size : Nat) (table : Text) (length : Nat)
    (files : List FileSpan) : Prop where
  name : Named info t.name
  pieceLength : t.pieceLength.toNat = size
  length : t.length.toNat = length
  files : t.files = files
  digests : t.digests.map (·.bytes) =
    (List.range (table.bytes.length / 20)).map fun i => table.bytes.slice (i * 20) 20

/-! ## Numbers -/

theorem toInt_eq_toNat_iff {n : Int64} {length : UInt64} :
    n.toInt = length.toNat ↔ ¬n < 0 ∧ n.toUInt64 = length := by
  have zero : (0 : Int64).toInt = 0 := rfl
  have sign : ¬n < 0 ↔ 0 ≤ n.toInt := by rw [Int64.lt_iff_toInt_lt, zero, Int.not_lt]
  have same (nonneg : 0 ≤ n.toInt) : n.toUInt64.toNat = n.toInt.toNat :=
    Int64.toNat_toUInt64_of_le (Int64.le_iff_toInt_le.mpr nonneg)
  rw [sign]
  constructor
  · intro h
    have nonneg : 0 ≤ n.toInt := by omega
    refine ⟨nonneg, UInt64.toNat_inj.mp ?_⟩
    rw [same nonneg, h, Int.toNat_natCast]
  · rintro ⟨nonneg, rfl⟩
    rw [same nonneg, Int.toNat_of_nonneg nonneg]

theorem readSize?_eq_some {d : Dict} {length : UInt64} :
    readSize? d = some length ↔ Numbers d "length" length.toNat := by
  simp only [Numbers, ← Dict.integer?_eq_some, toInt_eq_toNat_iff, readSize?]
  cases d.integer? (key "length") with
  | none => simp
  | some n => simp [eq_comm]

theorem readPieceLength_eq_ok {info : Dict} {size : UInt32} :
    readPieceLength info = .ok size ↔
      Numbers info "piece length" size.toNat ∧ 1 ≤ size.toNat := by
  have limit : (0xFFFFFFFF : Int64).toInt = 2 ^ 32 - 1 := rfl
  have zero : (0 : Int64).toInt = 0 := rfl
  simp only [readPieceLength, Numbers, ← Dict.integer?_eq_some]
  cases info.integer? (key "piece length") with
  | none => simp
  | some n =>
      simp only [Option.some.injEq, exists_eq_left', Bool.or_eq_true, decide_eq_true_eq,
        Int64.le_iff_toInt_le, Int64.lt_iff_toInt_lt, limit, zero]
      split
      case isTrue outside =>
        have small := size.toNat_lt
        constructor
        · intro h
          cases h
        · omega
      case isFalse inside =>
        -- In this range neither conversion changes the number.
        have wide : n.toUInt64.toNat = n.toInt.toNat :=
          Int64.toNat_toUInt64_of_le (Int64.le_iff_toInt_le.mpr (by omega))
        have narrow : n.toUInt64.toUInt32.toNat = n.toInt.toNat := by
          rw [UInt64.toNat_toUInt32, wide]
          exact Nat.mod_eq_of_lt (by omega)
        rw [Except.ok.injEq, ← UInt32.toNat_inj, narrow]
        omega

theorem readDigests_eq_ok {info : Dict} {digests : List Digest} :
    readDigests info = .ok digests ↔
      ∃ table : Text, info.find? (key "pieces") = some (.text table) ∧
        table.bytes.length % 20 = 0 ∧ digests = Digest.slices table.bytes := by
  rw [readDigests]
  cases pieces : info.text? (key "pieces") with
  | none => simp [Dict.text?_eq_none.mp pieces]
  | some content =>
      obtain ⟨table, found, rfl⟩ := Dict.text?_eq_some.mp pieces
      by_cases whole : table.bytes.length % 20 = 0
      · simp [found, whole, eq_comm]
      · simp [found, whole]

/-! ## Files -/

theorem mapM_eq_ok {α β ε : Type} {f : α → Except ε β} {xs : List α} {ys : List β} :
    xs.mapM f = .ok ys ↔ List.Forall₂ (fun x y => f x = .ok y) xs ys := by
  induction xs generalizing ys with
  | nil => simp [pure, Except.pure, eq_comm]
  | cons x xs ih =>
      rw [List.mapM_cons, List.forall₂_cons_left_iff]
      simp only [← ih]
      cases f x with
      | error e => simp [bind, Except.bind]
      | ok y =>
          cases xs.mapM f with
          | error e => simp [bind, Except.bind]
          | ok others => simp [bind, Except.bind, pure, Except.pure, eq_comm]

theorem isPlainName_iff {name : Bytes} : isPlainName name = true ↔ PlainName name := by
  simp only [isPlainName, Bool.and_eq_true, decide_eq_true_eq, Bool.not_eq_eq_eq_not, Bool.not_true,
    List.contains_eq_mem, decide_eq_false_iff_not]
  constructor
  · rintro ⟨⟨⟨⟨nonempty, dot⟩, dots⟩, slash⟩, zero⟩
    exact ⟨nonempty, dot, dots, slash, zero⟩
  · rintro ⟨nonempty, dot, dots, slash, zero⟩
    exact ⟨⟨⟨⟨nonempty, dot⟩, dots⟩, slash⟩, zero⟩

theorem readName_eq_ok {v : Value} {name : Bytes} : readName v = .ok name ↔ Names v name := by
  constructor
  · intro h
    cases v with
    | text t =>
        simp only [readName] at h
        split at h
        case isTrue plain =>
          cases h
          exact .text (isPlainName_iff.mp plain)
        case isFalse => cases h
    | integer | list | dict => cases h
  · rintro ⟨plain⟩
    rw [readName, if_pos (isPlainName_iff.mpr plain)]

theorem readPath_eq_ok {items : List Value} {path : List Bytes} :
    readPath items = .ok path ↔ items ≠ [] ∧ List.Forall₂ Names items path := by
  have names (read : List Bytes) :
      items.mapM readName = .ok read ↔ List.Forall₂ Names items read := by
    simp only [mapM_eq_ok, readName_eq_ok]
  rw [← names, readPath]
  cases read : items.mapM readName with
  | error flaw => simp
  | ok path' =>
      cases (names path').mp read with
      | nil => simp
      | cons => simp

theorem readFile_eq_ok {v : Value} {file : FileSpan} :
    readFile v = .ok file ↔ Declares v file := by
  constructor
  · intro h
    cases v with
    | dict d =>
        simp only [readFile] at h
        split at h
        case h_1 => cases h
        case h_2 length size =>
          split at h
          case h_1 => cases h
          case h_2 items found =>
            split at h
            case h_1 => cases h
            case h_2 path read =>
              cases h
              obtain ⟨nonempty, names⟩ := readPath_eq_ok.mp read
              exact .dict (readSize?_eq_some.mp size) (Dict.list?_eq_some.mp found) nonempty names
    | text | integer | list => cases h
  · rintro ⟨numbers, found, nonempty, names⟩
    simp only [readFile, readSize?_eq_some.mpr numbers, Dict.list?_eq_some.mpr found,
      readPath_eq_ok.mpr ⟨nonempty, names⟩]

/-! ## The info dictionary -/

theorem readContent_eq_ok {info : Dict} {length : UInt64} {files : List FileSpan} :
    readContent info = .ok (length, files) ↔ Content info length.toNat files := by
  have each (items : List Value) (files : List FileSpan) :
      items.mapM readFile = .ok files ↔ List.Forall₂ Declares items files := by
    simp only [mapM_eq_ok, readFile_eq_ok]
  constructor
  · intro h
    simp only [readContent] at h
    split at h
    case h_1 n found =>
      split at h
      case isTrue => cases h
      case isFalse nonneg =>
        cases h
        exact .single ⟨n, Dict.integer?_eq_some.mp found,
          toInt_eq_toNat_iff.mpr ⟨nonneg, rfl⟩⟩
    case h_2 absent =>
      split at h
      case h_1 => cases h
      case h_2 items found =>
        split at h
        case h_1 => cases h
        case h_2 files read =>
          cases h
          rw [totalLength_toNat]
          exact .several (Dict.integer?_eq_none.mp absent) (Dict.list?_eq_some.mp found)
            ((each _ _).mp read)
  · intro h
    -- `several` fixes the length as a sum, so the length must not be a term when `h` is split.
    generalize total : length.toNat = n at h
    cases h with
    | single numbers =>
        obtain ⟨n, found, size⟩ := numbers
        obtain ⟨nonneg, rfl⟩ := toInt_eq_toNat_iff.mp (total ▸ size)
        simp only [readContent, Dict.integer?_eq_some.mpr found, if_neg nonneg]
    | several absent found declared =>
        rw [← totalLength_toNat, UInt64.toNat_inj] at total
        simp only [readContent, Dict.integer?_eq_none.mpr absent, Dict.list?_eq_some.mpr found,
          (each _ _).mpr declared, total]

theorem name_eq_iff {info : Dict} {name : Bytes} :
    name = (info.text? (key "name")).getD [] ↔ Named info name := by
  cases written : info.text? (key "name") with
  | none =>
      have missing := Dict.text?_eq_none.mp written
      constructor
      · rintro rfl
        exact .missing missing
      · rintro (found | -)
        · exact absurd found (missing _)
        · rfl
  | some content =>
      obtain ⟨t, found, rfl⟩ := Dict.text?_eq_some.mp written
      constructor
      · rintro rfl
        exact .written found
      · rintro (other | missing)
        · cases found.symm.trans other
          rfl
        · exact absurd found (missing t)

theorem Content.lt {info : Dict} {length : Nat} {files : List FileSpan}
    (h : Content info length files) : length < 2 ^ 64 := by
  cases h with
  | single numbers =>
      obtain ⟨n, -, size⟩ := numbers
      have bound := n.toInt_lt
      omega
  | several => exact Nat.mod_lt _ (by decide)

theorem accepted_info_iff {info : Dict} {t : Torrent} :
    ofInfo info = .ok t ∧ t.Agrees ↔
      ∃ table, Describes info t.pieceLength.toNat table t.length.toNat t.files ∧
        Named info t.name ∧
        t.digests = Digest.slices table.bytes ∧
        t.infoHash = Sha1.hash (Value.dict info).encode := by
  rw [ofInfo_eq_ok, readPieceLength_eq_ok, readDigests_eq_ok, readContent_eq_ok, name_eq_iff]
  -- The digests are counted in the torrent, but in twenties of bytes in the description.
  have number {table : Text} (cut : t.digests = Digest.slices table.bytes) :
      t.pieceCount = table.bytes.length / 20 := by
    rw [pieceCount, cut, Digest.slices, Digest.length_table]
  constructor
  · rintro ⟨⟨⟨numbers, positive⟩, ⟨table, found, whole, cut⟩, content, named, hash⟩,
      agrees⟩
    have pieceCount_eq := number cut ▸ agrees.pieceCount_eq
    have pieceCount_lt := number cut ▸ agrees.pieceCount_lt
    exact ⟨table,
      ⟨numbers, ⟨positive, Nat.le_pred_of_lt t.pieceLength.toNat_lt⟩, found, whole,
      content, pieceCount_eq, Nat.le_pred_of_lt pieceCount_lt⟩, named, cut, hash⟩
  · rintro ⟨table, described, named, cut, hash⟩
    refine ⟨⟨⟨described.pieceLength, described.pieceLength_range.1⟩,
      ⟨table, described.pieces, described.pieces_whole, cut⟩, described.content, named,
      hash⟩, ?_⟩
    have count_le := described.count_le
    exact ⟨described.pieceLength_range.1, (number cut).trans described.count,
      by rw [number cut]; exact Nat.lt_succ_of_le count_le⟩

theorem Describes.exists_torrent {info : Dict} {size : Nat} {table : Text} {length : Nat}
    {files : List FileSpan} (h : Describes info size table length files) :
    ∃ t : Torrent, ofInfo info = .ok t ∧ t.Agrees ∧
      t.Matches info size table length files := by
  have small : (UInt32.ofNat size).toNat = size :=
    UInt32.toNat_ofNat_of_lt' (Nat.lt_succ_of_le h.pieceLength_range.2)
  have fits : (UInt64.ofNat length).toNat = length := UInt64.toNat_ofNat_of_lt' h.content.lt
  let t : Torrent :=
    { name := (info.text? (key "name")).getD [], length := .ofNat length, pieceLength := .ofNat size
      digests := Digest.slices table.bytes, files, infoHash := Sha1.hash (Value.dict info).encode }
  have named : Named info t.name := name_eq_iff.mp rfl
  obtain ⟨read, agrees⟩ := (accepted_info_iff (t := t)).mpr
    ⟨table, by rw [small, fits]; exact h, named, rfl, rfl⟩
  exact ⟨t, read, agrees, named, small, fits, rfl,
    Digest.map_bytes_table (Nat.div_mul_le_self _ _)⟩

end Torrent

namespace Session

open Torrent

section Decoded

variable (s : Session) {source : Source} {buffer : Bytes} {entries : Dict}

theorem exists_description (offered : source.bytes? s.tree = some buffer)
    (decoded : decode buffer = .ok entries) {held : Option Torrent}
    (accepted : (s.perform (.loadTorrent source)).reply = .torrent true held) :
    ∃ info size table length files, entries.find? (key "info") = some (.dict info) ∧
      Describes info size table length files := by
  have loaded := load_of_decoded s.torrent offered decoded
  cases read : ofDict entries with
  | error flaw =>
      rw [read] at loaded
      cases accepted.symm.trans (loadTorrent_eq loaded).1
  | ok t =>
      obtain ⟨info, found, described⟩ := ofDict_eq_ok.mp read
      obtain ⟨table, description, -⟩ := accepted_info_iff.mp described
      exact ⟨info, _, table, _, _, Dict.dict?_eq_some.mp found, description⟩

theorem holds_described (offered : source.bytes? s.tree = some buffer)
    (decoded : decode buffer = .ok entries) {info : Dict} {size : Nat} {table : Text}
    {length : Nat} {files : List FileSpan} (found : entries.find? (key "info") = some (.dict info))
    (described : Describes info size table length files) :
    ∃ t : Torrent, (s.perform (.loadTorrent source)).reply = .torrent true (some t) ∧
      (s.perform (.loadTorrent source)).session.torrent = some t ∧
      t.Matches info size table length files := by
  have loaded := load_of_decoded s.torrent offered decoded
  obtain ⟨t, read, agrees, same⟩ := described.exists_torrent
  rw [ofDict_eq_ok.mpr ⟨info, Dict.dict?_eq_some.mpr found, read, agrees⟩] at loaded
  obtain ⟨accepted, held, -⟩ := loadTorrent_eq loaded
  exact ⟨t, accepted, held, same⟩

/--
A source that decodes is accepted exactly if the dictionary under `info` describes a
torrent, and the torrent that is held from then on is the one described.
-/
theorem accepts_described_torrents (offered : source.bytes? s.tree = some buffer)
    (decoded : decode buffer = .ok entries) :
    let outcome := s.perform (.loadTorrent source)
    ((∃ held, outcome.reply = .torrent true held) ↔
      ∃ info size table length files, entries.find? (key "info") = some (.dict info) ∧
        Describes info size table length files) ∧
    ∀ info size table length files, entries.find? (key "info") = some (.dict info) →
      Describes info size table length files →
      ∃ t : Torrent, outcome.reply = .torrent true (some t) ∧
        outcome.session.torrent = some t ∧
        t.Matches info size table length files := by
  intro outcome
  refine ⟨⟨?_, ?_⟩, fun _ _ _ _ _ => s.holds_described offered decoded⟩
  · rintro ⟨held, accepted⟩
    exact s.exists_description offered decoded accepted
  · rintro ⟨info, size, table, length, files, found, described⟩
    obtain ⟨t, accepted, -⟩ := s.holds_described offered decoded found described
    exact ⟨some t, accepted⟩

end Decoded

/-- A length that is no integer, a file in a directory, and no name. -/
theorem accepts_described_torrents_nested :
    let file : FileSpan := ⟨[key "a", key "b"], 3⟩
    let declaration : Dict := [(⟨0, key "length"⟩, .integer 3),
      (⟨0, key "path"⟩, .list [.text ⟨0, key "a"⟩, .text ⟨0, key "b"⟩])]
    let info : Dict := [
      (⟨0, key "files"⟩, .list [.dict declaration]),
      (⟨0, key "length"⟩, .text ⟨0, key "3"⟩),
      (⟨0, key "piece length"⟩, .integer 2),
      (⟨0, key "pieces"⟩, .text ⟨0, List.replicate 40 120⟩)]
    let entries : Dict := [(⟨0, key "info"⟩, .dict info)]
    let buffer := (Value.dict entries).encode
    let s : Session := { tree := ⟨[], []⟩ }
    Source.bytes? s.tree (.buffer buffer) = some buffer ∧ decode buffer = .ok entries ∧
      entries.find? (key "info") = some (.dict info) ∧
      Describes info 2 ⟨0, List.replicate 40 120⟩ 3 [file] ∧
      ∃ t, (s.perform (.loadTorrent (.buffer buffer))).reply = .torrent true (some t) ∧
        t.files = [file] := by
  intro file declaration info entries buffer s
  have decoded : decode buffer = .ok entries := decode_encode (by decide) (by decide)
  have plain (c : UInt8) (h : c ≠ 46 ∧ c ≠ 47 ∧ c ≠ 0) : PlainName [c] := by
    obtain ⟨dot, slash, zero⟩ := h
    exact ⟨by simp, by simpa using dot, by simp, by simpa using slash.symm,
      by simpa using zero.symm⟩
  have declared : Declares (.dict declaration) file :=
    .dict ⟨3, rfl, rfl⟩ rfl (by simp)
      (.cons (.text (t := ⟨0, key "a"⟩) (plain 97 (by decide)))
        (.cons (.text (t := ⟨0, key "b"⟩) (plain 98 (by decide))) .nil))
  have absent : ∀ n, info.find? (key "length") ≠ some (.integer n) := by
    intro n h
    cases h
  have described : Describes info 2 ⟨0, List.replicate 40 120⟩ 3 [file] :=
    { pieceLength := ⟨2, rfl, rfl⟩
      pieceLength_range := by decide
      pieces := rfl
      pieces_whole := by decide
      content := .several absent rfl (.cons declared .nil)
      count := by decide
      count_le := by decide }
  have offered : Source.bytes? s.tree (.buffer buffer) = some buffer := rfl
  obtain ⟨t, accepted, -, same⟩ :=
    (accepts_described_torrents s offered decoded).2 info 2 _ 3 [file] rfl described
  exact ⟨offered, decoded, rfl, described, t, accepted, same.files⟩

end Session

end PieceLedger
