import PieceLedger.Proofs.Console.Course
import PieceLedger.Proofs.Payload.Layout
import Mathlib.Data.UInt

/-!
# The stream of a torrent's files

A file stands for a part of the content: what it holds, cut or filled up with
zeros to the length of the part.  The stream is what the files stand for, one
after the other.  Reading a span of the parts gives the slice of the stream,
in however many portions the files are read.
-/

namespace PieceLedger

namespace Bytes

/-- A buffer holds `length` bytes of `source` from `offset` on, and zeros where
the source has ended. -/
structure Mirrors (buffer source : Bytes) (offset length : Nat) : Prop where
  length_eq : buffer.length = length
  byteAt_eq : ∀ i < length, buffer.byteAt i = source.byteAt (offset + i)

namespace Mirrors

variable {buffer source more : Bytes} {offset length : Nat}

theorem zeros (offset length : Nat) : Mirrors (List.replicate length 0) [] offset length where
  length_eq := List.length_replicate
  byteAt_eq i _ := by
    rw [byteAt_replicate, byteAt_of_le _ (Nat.zero_le _)]

theorem eq_slice (h : Mirrors buffer source offset length)
    (hspan : offset + length ≤ source.length) : buffer = source.slice offset length := by
  apply eq_of_byteAt
  · rw [h.length_eq, source.length_slice hspan]
  · intro i hi
    rw [h.length_eq] at hi
    rw [h.byteAt_eq i hi, source.byteAt_slice hi]

theorem skip (h : Mirrors buffer source offset length)
    (beside : source.length + more.length ≤ offset ∨ offset + length ≤ source.length) :
    Mirrors buffer (source ++ more) offset length where
  length_eq := h.length_eq
  byteAt_eq i hi := by
    rw [h.byteAt_eq i hi, byteAt_append]
    split
    case isTrue => rfl
    case isFalse behind => rw [byteAt_of_le _ (by omega), byteAt_of_le _ (by omega)]

theorem patch {first wanted : Nat} {found : Bytes} (h : Mirrors buffer source offset length)
    (hfirst : first = max offset source.length)
    (hwanted : first + wanted = min (offset + length) (source.length + more.length))
    (hfound : found.length ≤ wanted)
    (hbytes : ∀ i < wanted, found.byteAt i = more.byteAt (first - source.length + i)) :
    Mirrors (buffer.overlay (first - offset) found) (source ++ more) offset length where
  length_eq := by
    rw [length_overlay (by rw [h.length_eq]; omega), h.length_eq]
  byteAt_eq i hi := by
    rw [byteAt_overlay (by rw [h.length_eq]; omega), byteAt_append]
    split
    case isTrue inside =>
      rw [hbytes _ (by omega), if_neg (by omega)]
      congr 1
      omega
    case isFalse outside =>
      rw [h.byteAt_eq i hi]
      split
      case isTrue => rfl
      case isFalse behind =>
        -- The buffer still has a zero here: the source has ended, and so has what was found.
        rw [source.byteAt_of_le (by omega)]
        by_cases within : offset + i < first + wanted
        · have ended := found.byteAt_of_le (i := offset + i - first) (by omega)
          rw [hbytes _ (by omega)] at ended
          rw [← ended]
          congr 1
          omega
        · rw [more.byteAt_of_le (by omega)]

end Mirrors

end Bytes

namespace Payload

/-! ## Files and their parts -/

namespace OpenPart

def found (tree : FileTree) (file : OpenPart) : Bytes :=
  (tree.read file.location 0 file.part.length.toNat).toOption.getD []

def content (tree : FileTree) (file : OpenPart) : Bytes :=
  (file.found tree).fit file.part.length.toNat

def Readable (tree : FileTree) (file : OpenPart) : Prop :=
  ∀ offset wanted, 0 < wanted → offset + wanted ≤ file.part.length.toNat →
    (tree.read file.location offset wanted).isOk = true

theorem length_content (tree : FileTree) (file : OpenPart) :
    (file.content tree).length = file.part.length.toNat :=
  Bytes.length_fit _ _

variable {tree : FileTree} {file : OpenPart}

theorem Readable.read_eq (h : file.Readable tree) {offset wanted : Nat} (hwanted : 0 < wanted)
    (hspan : offset + wanted ≤ file.part.length.toNat) :
    tree.read file.location offset wanted = .ok ((file.found tree).slice offset wanted) := by
  have readable := h 0 file.part.length.toNat (by omega) (by omega)
  rw [found]
  unfold FileTree.read at readable ⊢
  split at readable
  case h_2 => cases readable
  case h_1 entry _ =>
    cases whole : entry.read 0 file.part.length.toNat with
    | error => rw [whole] at readable; cases readable
    | ok bytes => exact Entry.read_slice whole hspan

theorem Readable.of_prints {c d : Console} {texts : List Bytes} (h : file.Readable c.tree)
    (course : c.Prints texts d) : file.Readable d.tree := by
  intro offset wanted hwanted hspan
  rw [course.read_isOk_eq]
  exact h offset wanted hwanted hspan

/-- However the reads are portioned, together they give the slice. -/
theorem Readable.gather_eq (h : file.Readable tree) (portion : Nat → Nat → Nat)
    {fuel offset wanted : Nat} (hfuel : wanted < fuel)
    (hspan : offset + wanted ≤ file.part.length.toNat) :
    gather tree portion file.location fuel offset wanted =
      .ok ((file.found tree).slice offset wanted) := by
  induction fuel generalizing offset wanted with
  | zero => omega
  | succ fuel ih =>
      rw [gather]
      split
      case isTrue nothing =>
        rw [nothing, Bytes.slice, List.take_zero]
      case isFalse something =>
        rw [h.read_eq (by omega) hspan]
        cases hread : (file.found tree).slice offset wanted with
        | nil => rfl
        | cons first more =>
            simp only [← hread]
            generalize hchunk : ((file.found tree).slice offset wanted).take
              (max 1 (portion offset wanted)) = chunk
            have front : chunk <+: (file.found tree).slice offset wanted :=
              hchunk ▸ List.take_prefix _ _
            have positive : 0 < chunk.length := by
              rw [← hchunk, hread, List.length_take, List.length_cons]
              omega
            have few : chunk.length ≤ wanted :=
              Nat.le_trans front.length_le (Bytes.length_slice_le _ _ _)
            rw [ih (by omega) (by omega)]
            exact congrArg Except.ok (Bytes.append_slice_of_prefix front)

theorem Readable.gather_content (h : file.Readable tree) (portion : Nat → Nat → Nat)
    {offset wanted : Nat} (hspan : offset + wanted ≤ file.part.length.toNat) :
    ∃ found, gather tree portion file.location (wanted + 1) offset wanted = .ok found ∧
      found.length ≤ wanted ∧
      ∀ i < wanted, found.byteAt i = (file.content tree).byteAt (offset + i) := by
  refine ⟨_, h.gather_eq portion (Nat.lt_succ_self _) hspan, Bytes.length_slice_le _ _ _, ?_⟩
  intro i hi
  rw [Bytes.byteAt_slice _ hi, content, Bytes.byteAt_fit _ (by omega)]

end OpenPart

theorem openParts_of_prints {c d : Console} {texts : List Bytes} (course : c.Prints texts d)
    {parts : List Part} {files : List OpenPart} (h : (openParts c parts).2.2 = some files) :
    openParts d parts = (parts, d, some files) ∧ files.map OpenPart.part = parts := by
  induction parts generalizing files with
  | nil =>
      cases h
      exact ⟨rfl, rfl⟩
  | cons part rest ih =>
      simp only [openParts, course.openRead_eq] at h ⊢
      split at h
      case h_1 => cases h
      case h_2 location hlocation =>
        split at h
        case h_1 => cases h
        case h_2 others hothers =>
          cases h
          obtain ⟨opened, parts⟩ := ih (congrArg (·.2.2) hothers)
          exact ⟨by simp only [opened], congrArg (part :: ·) parts⟩

/-! ## Streams -/

structure Yields (c : Console) (files : List OpenPart) (contents : OpenPart → Bytes) : Prop where
  readable : ∀ file ∈ files, file.Readable c.tree
  steady : ∀ d, c.Remarks d → ∀ file ∈ files, file.content d.tree = contents file

namespace Yields

variable {c d : Console} {file : OpenPart} {files : List OpenPart} {contents : OpenPart → Bytes}

theorem of_remarks (h : Yields c files contents) (remarks : c.Remarks d) :
    Yields d files contents where
  readable file hfile := (h.readable file hfile).of_prints remarks.prints
  steady e further := h.steady e (remarks.trans further)

theorem content_eq (h : Yields c files contents) (hfile : file ∈ files) :
    file.content c.tree = contents file :=
  h.steady c (.refl c) file hfile

theorem tail (h : Yields c (file :: files) contents) : Yields c files contents where
  readable other hother := h.readable other (List.mem_cons_of_mem file hother)
  steady d remarks other hother := h.steady d remarks other (List.mem_cons_of_mem file hother)

theorem length_contents (h : Yields c files contents) (hfile : file ∈ files) :
    (contents file).length = file.part.length.toNat := by
  rw [← h.content_eq hfile, OpenPart.length_content]

theorem length_stream (h : Yields c files contents) :
    (files.flatMap contents).length = extent (files.map OpenPart.part) := by
  induction files with
  | nil => rfl
  | cons file rest ih =>
      rw [List.flatMap_cons, List.length_append, ih h.tail, List.map_cons, extent_cons,
        h.length_contents List.mem_cons_self]

end Yields

/-- The files can be read, and stand for `contents` whatever is traced. -/
structure Serves (c : Console) (files : List OpenPart) (contents : OpenPart → Bytes) : Prop where
  readable : ∀ file ∈ files, file.Readable c.tree
  steady : ∀ lines, ∀ file ∈ files, file.content (c.traceAll lines).tree = contents file

namespace Serves

variable {c d : Console} {files : List OpenPart} {contents : OpenPart → Bytes}

theorem of_prints {texts : List Bytes} (h : Serves c files contents) (course : c.Prints texts d) :
    Serves d files contents where
  readable file hfile := (h.readable file hfile).of_prints course
  steady := by
    refine course.preserves
      (P := fun e => ∀ lines, ∀ file ∈ files,
        file.content (e.traceAll lines).tree = contents file)
      ?_ ?_ h.steady
    · intro e text same lines file hfile
      rw [Console.tree_traceAll_congr (c := e.print text) (d := e) rfl rfl rfl]
      exact same lines file hfile
    · exact fun e line same lines => same (line :: lines)

theorem of_silent (silent : c.level = 0) (readable : ∀ file ∈ files, file.Readable c.tree) :
    Serves c files (OpenPart.content c.tree) where
  readable := readable
  steady lines file _ := by rw [Console.traceAll_of_silent silent]

theorem yields (h : Serves c files contents) : Yields c files contents where
  readable := h.readable
  steady d remarks file hfile := by
    obtain ⟨lines, -, rfl⟩ := remarks
    exact h.steady lines file hfile

theorem length_stream (h : Serves c files contents) :
    (files.flatMap contents).length = extent (files.map OpenPart.part) :=
  h.yields.length_stream

end Serves

/-! ## Spans -/

section Spans

variable (portion : Part → Nat → Nat → Nat)

section Fill

variable {c : Console} {offset : UInt64} {length : UInt32} {rest : List OpenPart}
  {buffer before : Bytes} (hspan : offset.toNat + length.toNat < 2 ^ 64)

include hspan

theorem fill_cons {file : OpenPart} (readable : file.Readable c.tree)
    (begins : file.part.offset.toNat = before.length)
    (fits : before.length + file.part.length.toNat < 2 ^ 64)
    (mirrors : buffer.Mirrors before offset.toNat length.toNat) :
    ∃ d patched,
      fill portion offset length (file :: rest) buffer c =
        fill portion offset length rest patched d ∧
      c.Remarks d ∧
      patched.Mirrors (before ++ file.content c.tree) offset.toNat length.toNat := by
  have whole := file.length_content c.tree
  have spanEnd : (offset + length.toUInt64).toNat = offset.toNat + length.toNat :=
    toNat_add_of_lt hspan
  have partEnd : (file.part.offset + file.part.length).toNat =
      before.length + file.part.length.toNat := by
    rw [toNat_add_of_lt (begins ▸ fits), begins]
  simp only [fill]
  split
  case isTrue beside =>
    simp only [Bool.or_eq_true, decide_eq_true_eq, UInt64.le_iff_toNat_le, spanEnd, partEnd,
      begins] at beside
    exact ⟨c, buffer, rfl, .refl c, mirrors.skip (by omega)⟩
  case isFalse inside =>
    simp only [Bool.or_eq_true, decide_eq_true_eq, UInt64.le_iff_toNat_le, spanEnd, partEnd,
      begins] at inside
    have first : (max offset file.part.offset).toNat = max offset.toNat before.length := by
      rw [UInt64.toNat_max, begins]
    have last : (min (offset + length.toUInt64) (file.part.offset + file.part.length)).toNat =
        min (offset.toNat + length.toNat) (before.length + file.part.length.toNat) := by
      rw [UInt64.toNat_min, spanEnd, partEnd]
    generalize max offset file.part.offset = front at first ⊢
    generalize min (offset + length.toUInt64) (file.part.offset + file.part.length) = back
      at last ⊢
    rw [toNat_sub_of_le (a := back) (b := front) (by omega),
      toNat_sub_of_le (a := front) (b := file.part.offset) (by omega),
      toNat_sub_of_le (a := front) (b := offset) (by omega), begins]
    have within : front.toNat - before.length + (back.toNat - front.toNat) ≤
        file.part.length.toNat := by omega
    obtain ⟨found, hfound, few, bytes⟩ := readable.gather_content (portion file.part) within
    rw [hfound]
    exact ⟨_, _, rfl, .traceIf c _ rfl, mirrors.patch first (by omega) few bytes⟩

theorem fill_eq {files : List OpenPart} (readable : ∀ file ∈ files, file.Readable c.tree)
    (laid : Laid before.length (files.map OpenPart.part))
    (fits : before.length + extent (files.map OpenPart.part) < 2 ^ 64)
    (mirrors : buffer.Mirrors before offset.toNat length.toNat) :
    ∃ d filled stream, fill portion offset length files buffer c = (d, some filled) ∧
      c.Remarks d ∧ filled.Mirrors (before ++ stream) offset.toNat length.toNat ∧
      ∀ contents, Yields c files contents → stream = files.flatMap contents := by
  induction files generalizing c buffer before with
  | nil =>
      refine ⟨c, buffer, [], rfl, .refl c, ?_, fun _ _ => rfl⟩
      rwa [List.append_nil]
  | cons file rest ih =>
      obtain ⟨begins, laid⟩ := laid
      rw [List.map_cons, extent_cons] at fits
      have next : (before ++ file.content c.tree).length =
          before.length + file.part.length.toNat := by
        rw [List.length_append, OpenPart.length_content]
      obtain ⟨d, patched, step, remarks, mirrors⟩ :=
        fill_cons portion hspan (readable file List.mem_cons_self) begins (by omega) mirrors
      obtain ⟨e, filled, stream, hfill, further, shown, steady⟩ :=
        ih (fun other hother => (readable other (List.mem_cons_of_mem file hother)).of_prints
          remarks.prints) (by rwa [next]) (by omega) mirrors
      rw [List.append_assoc] at shown
      refine ⟨e, filled, _, step.trans hfill, remarks.trans further, shown, ?_⟩
      intro contents yields
      rw [List.flatMap_cons, yields.content_eq List.mem_cons_self,
        steady contents (yields.tail.of_remarks remarks)]

end Fill

variable {c : Console} {files : List OpenPart} (laid : Laid 0 (files.map OpenPart.part))
  (fits : extent (files.map OpenPart.part) < 2 ^ 64) (offset : UInt64) (length : UInt32)
  (hspan : offset.toNat + length.toNat ≤ extent (files.map OpenPart.part))

include laid fits hspan

theorem Yields.read_eq {contents : OpenPart → Bytes} (yields : Yields c files contents) :
    ∃ d, read c portion files offset length =
        (d, some (Bytes.slice (files.flatMap contents) offset.toNat length.toNat)) ∧
      c.Remarks d := by
  obtain ⟨d, filled, stream, hfill, remarks, mirrors, steady⟩ := fill_eq portion
    (Nat.lt_of_le_of_lt hspan fits) yields.readable (show Laid ([] : Bytes).length _ from laid)
    (by simpa using fits) (.zeros offset.toNat length.toNat)
  rw [List.nil_append, steady contents yields] at mirrors
  refine ⟨d, ?_, remarks⟩
  rw [← mirrors.eq_slice (by rwa [yields.length_stream])]
  exact hfill

end Spans

/-! ## Spans of a torrent -/

namespace OpenPart

theorem found_of_file {tree : FileTree} {file : OpenPart} {bytes : Bytes}
    (h : tree.entry? file.location = some (.file bytes)) :
    file.found tree = bytes.take file.part.length.toNat := by
  rw [found, FileTree.read, h]
  rfl

theorem content_of_file {tree : FileTree} {file : OpenPart} {bytes : Bytes}
    (h : tree.entry? file.location = some (.file bytes)) :
    file.content tree = bytes.fit file.part.length.toNat := by
  rw [content, found_of_file h, Bytes.fit, Bytes.fit, List.take_take, Nat.min_self,
    List.length_take]
  congr 2
  omega

end OpenPart

/--
A span within the declared length of a torrent is read without an error, and
what is read is the slice of the content: of the torrent's files one after the
other, each cut or filled up with zeros to its declared length.
-/
theorem spans_map_to_files (t : Torrent) (path : Bytes) (fits : t.declared < 2 ^ 63)
    {c : Console} {files : List OpenPart} (assigned : files.map OpenPart.part = parts t path)
    (yields : Yields c files (OpenPart.content c.tree)) (portion : Part → Nat → Nat → Nat)
    (offset : UInt64) (length : UInt32) (span : offset.toNat + length.toNat ≤ t.declared) :
    let content : Bytes := files.flatMap (OpenPart.content c.tree)
    content.length = t.declared ∧
      (∀ file ∈ files, ∀ bytes, c.tree.entry? file.location = some (.file bytes) →
        file.content c.tree = bytes.fit file.part.length.toNat) ∧
      ∃ d payload, read c portion files offset length = (d, some payload) ∧
        payload.length = length.toNat ∧ payload = content.slice offset.toNat length.toNat ∧
        c.Remarks d := by
  intro content
  have declared : extent (files.map OpenPart.part) = t.declared := by
    rw [assigned, extent_parts]
  have whole : content.length = t.declared := yields.length_stream.trans declared
  have within : t.declared < 2 ^ 64 := Nat.lt_trans fits (by decide)
  obtain ⟨d, hread, remarks⟩ := yields.read_eq portion (assigned ▸ laid_parts path within)
    (by rwa [declared]) offset length (by rwa [declared])
  exact ⟨whole, fun _ _ _ => OpenPart.content_of_file, d, _, hread,
    content.length_slice (by rwa [whole]), rfl, remarks⟩

def unevenTree : FileTree where
  here := []
  entries :=
    [ ([Bytes.ofString "long"], .file [1, 2, 9]),
      ([Bytes.ofString "none"], .file []),
      ([Bytes.ofString "short"], .file [3, 4]) ]

def unevenTorrent : Torrent where
  name := []
  length := 5
  pieceLength := 5
  digests := []
  files :=
    [ ⟨[Bytes.ofString "long"], 2⟩, ⟨[Bytes.ofString "none"], 0⟩,
      ⟨[Bytes.ofString "short"], 3⟩ ]
  infoHash := .zero

def unevenFiles : List OpenPart :=
  [ ⟨⟨Bytes.ofString "/long", 0, 2⟩, [Bytes.ofString "long"]⟩,
    ⟨⟨Bytes.ofString "/none", 2, 0⟩, [Bytes.ofString "none"]⟩,
    ⟨⟨Bytes.ofString "/short", 2, 3⟩, [Bytes.ofString "short"]⟩ ]

/-- Four bytes over the three files, in reads of one byte each. -/
theorem spans_map_to_files_uneven :
    ∃ d, read { tree := unevenTree } (fun _ _ _ => 1) unevenFiles 1 4 =
      (d, some [2, 3, 4, 0]) := by
  have readable : ∀ file ∈ unevenFiles, file.Readable unevenTree := by
    simp only [unevenFiles, List.forall_mem_cons]
    exact ⟨fun _ _ _ _ => rfl, fun _ _ _ _ => rfl, fun _ _ _ _ => rfl, nofun⟩
  have serves : Serves { tree := unevenTree } unevenFiles (OpenPart.content unevenTree) :=
    .of_silent rfl readable
  obtain ⟨-, -, d, payload, hread, -, slice, -⟩ :=
    spans_map_to_files unevenTorrent [] (by decide) (by decide) serves.yields (fun _ _ _ => 1) 1 4
      (by decide)
  have bytes : payload = [2, 3, 4, 0] := slice.trans (by decide)
  exact ⟨d, bytes ▸ hread⟩

end Payload

end PieceLedger
