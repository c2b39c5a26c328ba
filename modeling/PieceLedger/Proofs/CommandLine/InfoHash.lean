import PieceLedger.Proofs.CommandLine.Deeds
import PieceLedger.Proofs.CommandLine.Given
import PieceLedger.Proofs.FileTree.Opening
import PieceLedger.Proofs.Hex.RoundTrip
import PieceLedger.Proofs.Torrent.InfoBytes

/-!
# The expected info hash

A hash that is given and not empty lets a run pass only if it names the
dictionary under `info` in the torrent file.  An empty one counts as none, and
the check is left out.
-/

namespace PieceLedger

open Bencode

theorem Console.content_of_openLog {c start : Console} {log : Bytes}
    (h : c.openLog log = (true, start)) {path content : Bytes} (nonempty : content ≠ [])
    (read : start.tree.content path = .ok content) : c.tree.content path = .ok content := by
  rw [Console.openLog] at h
  split at h
  case isTrue =>
    cases h
    exact read
  case isFalse =>
    split at h
    case isTrue =>
      cases h
      exact read
    case isFalse =>
      split at h
      case h_1 => cases h
      case h_2 location grown opened =>
        cases h
        refine (FileTree.openAppend_opens opened).content_eq nonempty ?_
        rwa [← grown.content_append_nil location]

theorem Torrent.written_of_load {tree : FileTree} {path : Bytes} {t : Torrent}
    (h : (load tree none (.file (some path))).held = some t) :
    ∃ buffer front span info, tree.content path = .ok buffer ∧
      Writes buffer (key "info") front span (.dict info) ∧ t.infoHash = Sha1.hash span := by
  rcases load_held h with ⟨-, held⟩ | ⟨entries, lines, loaded, read⟩
  · cases held
  · obtain ⟨⟨buffer, offered, decoded⟩, -⟩ := Source.load_eq_decoded.mp loaded
    obtain ⟨info, held, described, -⟩ := ofDict_eq_ok.mp read
    obtain ⟨-, -, -, -, hash⟩ := ofInfo_eq_ok.mp described
    obtain ⟨w, begins, document⟩ := decode_eq_ok.mp decoded
    obtain ⟨front, span, writes⟩ :=
      Writes.of_document begins document (Dict.dict?_eq_some.mp held)
    refine ⟨buffer, front, span, info, ?_, writes, by rw [hash, writes.span_eq]⟩
    rw [Source.bytes?] at offered
    cases content : tree.content path with
    | error fault => rw [content] at offered; cases offered
    | ok bytes =>
        rw [content] at offered
        exact congrArg Except.ok (Option.some.inj offered)

theorem Digest.readHex_eq_true {d x : Digest} {text : Bytes} :
    d.readHex text = (true, x) ↔
      text.length = 40 ∧ (∀ c ∈ text, c ∈ Hex.digits) ∧
        Hex.decode text = .complete x.bytes := by
  constructor
  · intro h
    obtain ⟨length, digits⟩ := (d.reads text).ok_iff.mp (by rw [h])
    have nonempty : text ≠ [] := List.length_pos_iff.mp (by omega)
    rcases Hex.decode_cases nonempty (by omega) with
      ⟨_, _, stops, -, -⟩ | ⟨b, written, decoded⟩
    · obtain ⟨c, hc, bad⟩ := stops.exists_bad
      exact absurd (digits c hc) bad
    · have whole := (Hex.digits_of_encode written).1
      rw [d.readHex_of_toHex (ofBytes b) (by rw [toHex, bytes_ofBytes (by omega), written])] at h
      rw [← (Prod.mk.inj h).2, bytes_ofBytes (by omega), decoded]
      exact ⟨length, digits, rfl⟩
  · rintro ⟨length, -, decoded⟩
    rw [readHex, if_neg (by omega), decoded]
    simp only [ofBytes_bytes]

namespace CommandLine

open Torrent (key)

theorem content_of_openLog {s : Settings} {c start : Console} (h : openLog s c = (true, start))
    {path content : Bytes} (nonempty : content ≠ [])
    (read : start.tree.content path = .ok content) :
    c.tree.content path = .ok content := by
  rw [openLog] at h
  split at h
  case isTrue => exact Console.content_of_openLog h nonempty read
  case isFalse =>
    split at h
    case isTrue => exact Console.content_of_openLog h nonempty read
    case isFalse =>
      cases h
      exact read

theorem checkInfoHash_eq_ok {s : Settings} {t : Torrent} :
    checkInfoHash s t = .ok () ↔
      s.infoHash = [] ∨ Digest.zero.readHex s.infoHash = (true, t.infoHash) := by
  rw [checkInfoHash]
  split
  case isTrue empty => exact iff_of_true rfl (.inl empty)
  case isFalse given =>
    rcases Digest.zero.readHex s.infoHash with ⟨ok, expected⟩
    cases ok with
    | false => simp [given]
    | true => simp [given]

/-! ## Hashes that let a run pass -/

/-- The text is forty digits for the hash of the bytes that write the dictionary under `info` in
a file. -/
def NamesInfo (tree : FileTree) (path text : Bytes) : Prop :=
  ∃ buffer front span info, tree.content path = .ok buffer ∧
    Writes buffer (key "info") front span (.dict info) ∧ text.length = 40 ∧
    (∀ c ∈ text, c ∈ Hex.digits) ∧ Hex.decode text = .complete (Sha1.hash span).bytes

section Hashes

variable {tree : FileTree} {words : List Bytes} {s : Settings} {start : Console} {t : Torrent}

theorem written_of_loaded (logging : openLog s { tree, level := s.level } = (true, start))
    (loaded : (Torrent.load start.tree none (.file (some s.torrent))).held = some t) :
    ∃ buffer front span info, tree.content s.torrent = .ok buffer ∧
      Writes buffer (key "info") front span (.dict info) ∧ t.infoHash = Sha1.hash span := by
  obtain ⟨buffer, front, span, info, content, writes, hash⟩ := Torrent.written_of_load loaded
  have nonempty : buffer ≠ [] := by
    rintro rfl
    obtain ⟨entries, decoded, -⟩ := writes.find?
    cases decoded
  exact ⟨buffer, front, span, info, content_of_openLog logging nonempty content, writes, hash⟩

theorem Cleared.namesInfo (h : Cleared tree words s start t) (given : s.infoHash ≠ []) :
    NamesInfo tree s.torrent s.infoHash := by
  obtain ⟨buffer, front, span, info, content, writes, hash⟩ :=
    written_of_loaded h.logging h.loaded
  have read := (checkInfoHash_eq_ok.mp h.expected).resolve_left given
  rw [hash] at read
  exact ⟨buffer, front, span, info, content, writes, Digest.readHex_eq_true.mp read⟩

theorem Cleared.last_torrent (h : Cleared tree words s start t) :
    (given 't' words).getLast? = some s.torrent := by
  have file := Settings.torrent_of_ofWords h.parsed
  cases last : (given 't' words).getLast? with
  | none =>
      rw [last] at file
      exact absurd file h.named.1
  | some path =>
      rw [last] at file
      exact congrArg some file.symm

theorem NamesInfo.expected (h : NamesInfo tree s.torrent s.infoHash)
    (logging : openLog s { tree, level := s.level } = (true, start))
    (loaded : (Torrent.load start.tree none (.file (some s.torrent))).held = some t) :
    checkInfoHash s t = .ok () := by
  obtain ⟨buffer, front, span, info, content, writes, named⟩ := h
  obtain ⟨_, _, _, _, content', writes', hash⟩ := written_of_loaded logging loaded
  cases content.symm.trans content'
  obtain ⟨-, rfl, -⟩ := writes.unique writes'
  refine checkInfoHash_eq_ok.mpr (.inr ?_)
  rw [hash]
  exact Digest.readHex_eq_true.mpr named

theorem execute_unnamed (chance : Verification.Chance) (c : Console)
    (passes : ∀ start t, openLog s { c with level := s.level } = (true, start) →
      (Torrent.load start.tree none (.file (some s.torrent))).held = some t →
      checkInfoHash s t = .ok ()) :
    execute s.unnamed chance c = execute s chance c := by
  have log : openLog s.unnamed { c with level := s.unnamed.level } =
      openLog s { c with level := s.level } := rfl
  rw [execute, execute, log]
  rcases logging : openLog s { c with level := s.level } with ⟨opened, start⟩
  cases opened with
  | false => rfl
  | true =>
      have torrent : s.unnamed.torrent = s.torrent := rfl
      simp only [verifyTorrent, logging_loading, torrent]
      cases loaded : (Torrent.load start.tree none (.file (some s.torrent))).held with
      | none => rfl
      | some t =>
          simp only [passes start t logging loaded]
          rfl

end Hashes

/-! ## Runs -/

theorem Stop.conclude_ne_zero {stop : Stop} (c : Console) (help : stop ≠ .help)
    (version : stop ≠ .version) : (stop.conclude c).2 ≠ 0 := by
  have failed : failure ≠ 0 := by decide
  cases stop with
  | help => exact absurd rfl help
  | version => exact absurd rfl version
  | badWindow | badBlockSize | badPiece | badOption => exact failed

theorem refused_or_cleared (tree : FileTree) {words : List Bytes} (chance : Verification.Chance)
    (help : given 'h' words = []) (version : given 'v' words = []) :
    ((runNoted tree words chance).1 = [] ∧ (run tree words chance).2 ≠ 0) ∨
      ∃ s start t, Cleared tree words s start t := by
  rw [run]
  rcases runNoted_cases chance tree words with
    ⟨stop, stopped, ended⟩ | ⟨c, refused⟩ | cleared
  · obtain ⟨helped, told⟩ := Settings.stop_of_ofWords stopped
    rw [ended]
    exact .inl ⟨rfl, Stop.conclude_ne_zero _ (fun asked => helped asked help)
      fun asked => told asked version⟩
  · rw [refused]
    exact .inl ⟨rfl, show failure ≠ 0 by decide⟩
  · exact .inr cleared

/--
A run that was not asked for help or the version, and does nothing with the data,
fails; so does every run with a complaint about its options.  If the last info hash is
not empty, the run does nothing with the data unless the hash has forty digits, in either
case, for the bytes that write the dictionary under `info` in the torrent file.  If the
hash is so, or if it is empty, the run is the same as without the options for it.
-/
theorem info_hash_is_enforced (tree : FileTree) {words : List Bytes} (chance : Verification.Chance)
    (help : given 'h' words = []) (version : given 'v' words = []) :
    let course := runNoted tree words chance
    let named (text : Bytes) := ∃ path,
      (given 't' words).getLast? = some path ∧ NamesInfo tree path text
    course.2 = run tree words chance ∧
      (course.1 = [] → (run tree words chance).2 ≠ 0) ∧
      (∀ cause, .complaint cause ∈ items words → course.1 = []) ∧
      ∀ text, (given 'i' words).getLast? = some text →
        (text ≠ [] → named text ∨ (course.1 = [] ∧ (run tree words chance).2 ≠ 0)) ∧
        (text = [] ∨ named text → ∀ others,
          items others = ((items words).filter fun item => item.argument? 'i' = none) →
          runNoted tree others chance = course) := by
  intro course named
  refine ⟨rfl, ?_, ?_, fun text last => ?_⟩
  · intro idle
    rcases refused_or_cleared tree chance help version with
      ⟨-, failed⟩ | ⟨s, start, t, cleared⟩
    · exact failed
    · exact absurd idle (cleared.deeds_ne_nil chance)
  · intro cause inside
    rcases refused_or_cleared tree chance help version with
      ⟨idle, -⟩ | ⟨s, start, t, cleared⟩
    · exact idle
    · exact absurd inside (Settings.applyItems_options cleared.parsed cause)
  have hash {s : Settings} (parsed : Settings.ofWords (words.map Bytes.beforeNul) = .ok s) :
      s.infoHash = text := by
    rw [Settings.infoHash_of_ofWords parsed, last, Option.getD_some]
  refine ⟨fun nonempty => ?_, fun passes others without => ?_⟩
  · rcases refused_or_cleared tree chance help version with refused | ⟨s, start, t, cleared⟩
    · exact .inr refused
    · have names := cleared.namesInfo (hash cleared.parsed ▸ nonempty)
      rw [hash cleared.parsed] at names
      exact .inl ⟨s.torrent, cleared.last_torrent, names⟩
  · change runNoted tree others chance = runNoted tree words chance
    rw [runNoted, runNoted, Settings.ofWords_unnamed without]
    cases parsed : Settings.ofWords (words.map Bytes.beforeNul) with
    | error stop => rfl
    | ok s =>
        refine execute_unnamed chance { tree } fun start t logging loaded => ?_
        rcases passes with empty | ⟨path, file, names⟩
        · exact checkInfoHash_eq_ok.mpr (.inl ((hash parsed).trans empty))
        · have torrent : s.torrent = path := by
            rw [Settings.torrent_of_ofWords parsed, file, Option.getD_some]
          rw [← hash parsed, ← torrent] at names
          exact names.expected logging loaded

def byteTree : FileTree where
  here := []
  entries :=
    [ ([Bytes.ofString "t"], .file
        (Bytes.ofString "d4:infod6:lengthi1e12:piece lengthi1e6:pieces20:"
          ++ (Sha1.hash [7]).bytes ++ Bytes.ofString "ee")),
      ([Bytes.ofString "d"], .file [7]) ]

def byteTorrent : Torrent where
  name := []
  length := 1
  pieceLength := 1
  digests := [Sha1.hash [7]]
  files := []
  infoHash := Sha1.hash
    (Bytes.ofString "d6:lengthi1e12:piece lengthi1e6:pieces20:"
      ++ (Sha1.hash [7]).bytes ++ Bytes.ofString "e")

def byteWords (options : List String) : List Bytes :=
  (["ptrk", "-t", "t", "-f", "d"] ++ options).map Bytes.ofString

def byteHash : String := "D75BAB6333A639130E15EDAE11E204B417D37B13"

/-- A hash that is too short, behind the right one, and the right one in capitals. -/
theorem info_hash_is_enforced_mixed :
    let short := byteWords ["-i", byteHash, "--info-hash=d75b"]
    let right := byteWords ["-i", byteHash]
    (runNoted byteTree short).1 = [] ∧ (run byteTree short).2 ≠ 0 ∧
      .verifies 0 ∈ (runNoted byteTree right).1 ∧
      runNoted byteTree (byteWords []) = runNoted byteTree right := by
  intro short right
  obtain ⟨-, -, -, refused⟩ := @info_hash_is_enforced byteTree short .usual
    (by decide +kernel) (by decide +kernel)
  obtain ⟨-, -, -, accepted⟩ := @info_hash_is_enforced byteTree right .usual
    (by decide +kernel) (by decide +kernel)
  obtain ⟨rejects, -⟩ := refused (Bytes.ofString "d75b") (by decide +kernel)
  obtain ⟨-, passes⟩ := accepted (Bytes.ofString byteHash) (by decide +kernel)
  obtain ⟨nothing, failed⟩ := (rejects (by decide +kernel)).resolve_left fun named => by
    obtain ⟨_, -, _, _, _, _, -, -, length, -⟩ := named
    revert length
    decide +kernel
  have cleared : Cleared byteTree right
      { torrent := Bytes.ofString "t", data := Bytes.ofString "d"
        infoHash := Bytes.ofString byteHash }
      { tree := byteTree } byteTorrent :=
    { parsed := rfl
      logging := rfl
      named := by decide
      loaded := by decide +kernel
      expected := by decide +kernel
      inRange := rfl }
  have named := cleared.namesInfo (by decide +kernel)
  exact ⟨nothing, failed, by decide +kernel,
    passes (.inr ⟨_, by decide +kernel, named⟩) _ (by decide +kernel)⟩

/-- An empty hash names no dictionary, and the piece is verified all the same. -/
theorem empty_info_hash_is_ignored :
    let words := byteWords ["-i", ""]
    (given 'i' words).getLast? = some [] ∧ given 'h' words = [] ∧ given 'v' words = [] ∧
      (∀ path, ¬NamesInfo byteTree path []) ∧
      .verifies 0 ∈ (runNoted byteTree words).1 ∧ (run byteTree words).2 = 0 := by
  refine ⟨by decide +kernel, by decide +kernel, by decide +kernel, ?_, by decide +kernel,
    by decide +kernel⟩
  rintro path ⟨_, _, _, _, -, -, length, -⟩
  cases length

end CommandLine

end PieceLedger
