import PieceLedger.Proofs.Bencode.Reading
import Mathlib.Algebra.Order.Floor.Div

/-!
# Pieces tile the content

The sizes of a torrent agree when it has as many digests as its content needs
pieces.  Then the pieces follow one another without gap or overlap up to the
end of the content, and no product or sum of sizes wraps.  A session never
holds any other torrent, whatever it is told to load.
-/

namespace PieceLedger

namespace Torrent

structure Agrees (t : Torrent) : Prop where
  pieceLength_pos : 0 < t.pieceLength.toNat
  pieceCount_eq : t.pieceCount = t.length.toNat ⌈/⌉ t.pieceLength.toNat
  pieceCount_lt : t.pieceCount < UInt32.size

structure PiecesTile (t : Torrent) : Prop where
  first : t.pieceOffset 0 = 0
  next : ∀ id : UInt32, id.toNat + 1 < t.pieceCount →
    (t.pieceOffset id).toNat + (t.pieceSize id).toNat = (t.pieceOffset (id + 1)).toNat
  last : ∀ id : UInt32, id.toNat + 1 = t.pieceCount →
    (t.pieceOffset id).toNat + (t.pieceSize id).toNat = t.length.toNat
  offset : ∀ id : UInt32, (t.pieceOffset id).toNat = id.toNat * t.pieceLength.toNat
  size : ∀ id : UInt32, id.toNat < t.pieceCount →
    1 ≤ (t.pieceSize id).toNat ∧ (t.pieceSize id).toNat ≤ t.pieceLength.toNat

/-! ## The number of pieces -/

theorem ceilDiv_eq_div_add (n : Nat) {d : Nat} (hd : 0 < d) :
    n ⌈/⌉ d = n / d + if n % d = 0 then 0 else 1 := by
  have division := Nat.div_add_mod n d
  have rest := Nat.mod_lt n hd
  rw [Nat.ceilDiv_eq_add_pred_div]
  split
  case isTrue whole =>
    rw [show n + d - 1 = (d - 1) + d * (n / d) by omega, Nat.add_mul_div_left _ _ hd,
      Nat.div_eq_of_lt (a := d - 1) (by omega), Nat.zero_add, Nat.add_zero]
  case isFalse short =>
    rw [show n + d - 1 = (n % d - 1) + d * (n / d + 1) by rw [Nat.mul_succ]; omega,
      Nat.add_mul_div_left _ _ hd, Nat.div_eq_of_lt (a := n % d - 1) (by omega), Nat.zero_add]

theorem expectedCount_toNat (length : UInt64) {pieceLength : UInt32}
    (hpos : 0 < pieceLength.toNat) :
    (expectedCount length pieceLength).toNat = length.toNat ⌈/⌉ pieceLength.toNat := by
  have tail : length % pieceLength.toUInt64 = 0 ↔ length.toNat % pieceLength.toNat = 0 := by
    rw [← UInt64.toNat_inj, UInt64.toNat_mod, UInt32.toNat_toUInt64, UInt64.toNat_zero]
  have quotient := Nat.div_le_self length.toNat pieceLength.toNat
  have bound := length.toNat_lt
  rw [ceilDiv_eq_div_add _ hpos, expectedCount, UInt64.toNat_add, UInt64.toNat_div,
    UInt32.toNat_toUInt64]
  by_cases whole : length.toNat % pieceLength.toNat = 0
  · rw [if_pos (tail.mpr whole), if_pos whole, UInt64.toNat_zero]
    exact Nat.mod_eq_of_lt (by omega)
  · rw [if_neg (mt tail.mp whole), if_neg whole, UInt64.toNat_one]
    -- A rest is left, so the quotient is below the length.
    have division := Nat.div_add_mod length.toNat pieceLength.toNat
    have smaller := Nat.le_mul_of_pos_left (length.toNat / pieceLength.toNat) hpos
    exact Nat.mod_eq_of_lt (by omega)

theorem checkSizes_eq_ok {t checked : Torrent} :
    t.checkSizes = .ok checked ↔ checked = t ∧ t.Agrees := by
  have number (hpos : 0 < t.pieceLength.toNat) := expectedCount_toNat t.length hpos
  have zero : t.pieceLength = 0 ↔ ¬0 < t.pieceLength.toNat := by
    rw [← UInt32.toNat_inj, UInt32.toNat_zero]
    omega
  have many : (0xFFFFFFFF : UInt64) < expectedCount t.length t.pieceLength ↔
      UInt32.size ≤ (expectedCount t.length t.pieceLength).toNat := by
    rw [UInt64.lt_iff_toNat_lt]
    exact Nat.succ_le_iff.symm
  constructor
  · intro h
    simp only [checkSizes, zero, many] at h
    split at h
    case isTrue => cases h
    case isFalse hpos =>
      have positive := Decidable.not_not.mp hpos
      rw [number positive] at h
      split at h
      case isTrue => cases h
      case isFalse hcount =>
        have count := Decidable.not_not.mp hcount
        split at h
        case isTrue => cases h
        case isFalse hmany =>
          exact ⟨(Except.ok.inj h).symm, positive, count.symm, by omega⟩
  · rintro ⟨rfl, positive, count, few⟩
    have expected := (number positive).trans count.symm
    rw [checkSizes, if_neg (by rw [zero]; omega), if_neg (by simpa using expected),
      if_neg (by rw [many]; omega)]

/-! ## Sizes and offsets -/

theorem pieceOffset_toNat (t : Torrent) (id : UInt32) :
    (t.pieceOffset id).toNat = id.toNat * t.pieceLength.toNat := by
  have product : id.toNat * t.pieceLength.toNat < UInt32.size * UInt32.size :=
    Nat.mul_lt_mul'' id.toNat_lt t.pieceLength.toNat_lt
  rw [pieceOffset, UInt64.toNat_mul, UInt32.toNat_toUInt64, UInt32.toNat_toUInt64]
  exact Nat.mod_eq_of_lt product

theorem last_extent {i d n : Nat} (hbegins : i * d < n) (hends : n ≤ i * d + d) :
    n - i * d = if n % d = 0 then d else n % d := by
  obtain ⟨rest, rfl⟩ : ∃ rest, n = i * d + rest := ⟨n - i * d, by omega⟩
  rw [Nat.add_sub_cancel_left, Nat.mul_add_mod_self_right]
  by_cases whole : rest = d
  · rw [whole, Nat.mod_self, if_pos rfl]
  · rw [Nat.mod_eq_of_lt (by omega), if_neg (by omega)]

namespace Agrees

variable {t : Torrent}

theorem lt_pieceCount (h : t.Agrees) {i : Nat} :
    i < t.pieceCount ↔ i * t.pieceLength.toNat < t.length.toNat := by
  have positive := h.pieceLength_pos
  rw [h.pieceCount_eq, ← Nat.not_le, ceilDiv_le_iff_le_mul positive, Nat.not_le, Nat.mul_comm]

theorem pieceSize_toNat (h : t.Agrees) (id : UInt32) :
    (t.pieceSize id).toNat =
      min t.pieceLength.toNat (t.length.toNat - id.toNat * t.pieceLength.toNat) := by
  have here := h.lt_pieceCount (i := id.toNat)
  have next := h.lt_pieceCount (i := id.toNat + 1)
  rw [Nat.succ_mul] at next
  have tail : (t.length % t.pieceLength.toUInt64).toNat =
      t.length.toNat % t.pieceLength.toNat := by
    rw [UInt64.toNat_mod, UInt32.toNat_toUInt64]
  have ragged : t.length % t.pieceLength.toUInt64 ≠ 0 ↔
      t.length.toNat % t.pieceLength.toNat ≠ 0 := by
    rw [ne_eq, ← UInt64.toNat_inj, tail, UInt64.toNat_zero]
  simp only [pieceSize, Bool.and_eq_true, decide_eq_true_eq, ragged]
  split
  case isTrue outside =>
    rw [UInt32.toNat_zero]
    omega
  case isFalse inside =>
    have begins := here.mp (Nat.lt_of_not_le inside)
    by_cases hlast : id.toNat + 1 = t.pieceCount
    · have extent := last_extent begins (by omega)
      split
      case isTrue short =>
        have rest := Nat.mod_lt t.length.toNat h.pieceLength_pos
        rw [if_neg short.2] at extent
        rw [UInt64.toNat_toUInt32, tail, extent, Nat.min_eq_right (Nat.le_of_lt rest)]
        exact Nat.mod_eq_of_lt (Nat.lt_trans rest t.pieceLength.toNat_lt)
      case isFalse whole =>
        rw [if_pos (by simpa [hlast] using whole)] at extent
        rw [extent, Nat.min_self]
    · rw [if_neg (fun short => hlast short.1)]
      omega

theorem piece_within (h : t.Agrees) {id : UInt32} (hid : id.toNat < t.pieceCount) :
    (t.pieceOffset id).toNat + (t.pieceSize id).toNat =
      min ((id.toNat + 1) * t.pieceLength.toNat) t.length.toNat := by
  have begins := h.lt_pieceCount.mp hid
  rw [t.pieceOffset_toNat, h.pieceSize_toNat, Nat.succ_mul]
  omega

theorem pieceSize_pos (h : t.Agrees) {id : UInt32} (hid : id.toNat < t.pieceCount) :
    0 < (t.pieceSize id).toNat := by
  have begins := h.lt_pieceCount.mp hid
  have positive := h.pieceLength_pos
  rw [h.pieceSize_toNat]
  omega

theorem piecesTile (h : t.Agrees) : t.PiecesTile where
  first := by simp [pieceOffset]
  next := by
    intro id hnext
    have few := h.pieceCount_lt
    have succ : (id + 1).toNat = id.toNat + 1 := by
      rw [UInt32.toNat_add, UInt32.toNat_one]
      exact Nat.mod_eq_of_lt (Nat.lt_trans hnext few)
    rw [h.piece_within (by omega), t.pieceOffset_toNat, succ]
    exact Nat.min_eq_left (Nat.le_of_lt (h.lt_pieceCount.mp hnext))
  last := by
    intro id hlast
    rw [h.piece_within (by omega), hlast]
    exact Nat.min_eq_right (Nat.le_of_not_lt (mt h.lt_pieceCount.mpr (Nat.lt_irrefl _)))
  offset := t.pieceOffset_toNat
  size := by
    intro id hid
    refine ⟨h.pieceSize_pos hid, ?_⟩
    rw [h.pieceSize_toNat]
    exact Nat.min_le_left _ _

end Agrees

theorem pieceSize_of_outside (t : Torrent) {id : UInt32} (hid : t.pieceCount ≤ id.toNat) :
    t.pieceSize id = 0 := by
  simp only [pieceSize, if_pos hid]

theorem digest?_eq_none_iff (t : Torrent) (id : UInt32) :
    t.digest? id = none ↔ t.pieceCount ≤ id.toNat :=
  List.getElem?_eq_none_iff

/-! ## Loading -/

theorem agrees_of_ofPieces {pieceLength : UInt32} {length : UInt64} {digests : List Digest}
    {t : Torrent} (h : ofPieces pieceLength length digests = .ok t) : t.Agrees := by
  obtain ⟨rfl, agrees⟩ := checkSizes_eq_ok.mp h
  exact agrees

theorem ofInfo_eq_ok {info : Bencode.Dict} {t : Torrent} :
    ofInfo info = .ok t ↔
      readPieceLength info = .ok t.pieceLength ∧ readDigests info = .ok t.digests ∧
        readContent info = .ok (t.length, t.files) ∧
        t.name = (info.text? (key "name")).getD [] ∧
        t.infoHash = Sha1.hash (Bencode.Value.dict info).encode := by
  constructor
  · intro h
    simp only [ofInfo] at h
    split at h
    case h_1 => cases h
    case h_2 hpieceLength =>
      split at h
      case h_1 => cases h
      case h_2 hdigests =>
        split at h
        case h_1 => cases h
        case h_2 hcontent =>
          cases h
          exact ⟨hpieceLength, hdigests, hcontent, rfl, rfl⟩
  · obtain ⟨name, length, pieceLength, digests, files, infoHash⟩ := t
    rintro ⟨hpieceLength, hdigests, hcontent, rfl, rfl⟩
    simp only [ofInfo, hpieceLength, hdigests, hcontent]

theorem ofDict_eq_ok {entries : Bencode.Dict} {t : Torrent} :
    ofDict entries = .ok t ↔
      ∃ info, entries.dict? (key "info") = some info ∧ ofInfo info = .ok t ∧ t.Agrees := by
  constructor
  · intro h
    simp only [ofDict] at h
    split at h
    case h_1 => cases h
    case h_2 info hinfo =>
      split at h
      case h_1 => cases h
      case h_2 unchecked read =>
        split at h
        case h_1 => cases h
        case h_2 torrent checked =>
          cases h
          obtain ⟨rfl, agrees⟩ := checkSizes_eq_ok.mp checked
          exact ⟨info, hinfo, read, agrees⟩
  · rintro ⟨info, hinfo, read, agrees⟩
    simp only [ofDict, hinfo, read, checkSizes_eq_ok.mpr ⟨rfl, agrees⟩]

theorem load_of_decoded {tree : FileTree} (held : Option Torrent) {source : Bencode.Source}
    {bytes : Bytes} {entries : Bencode.Dict} (offered : source.bytes? tree = some bytes)
    (decoded : Bencode.decode bytes = .ok entries) :
    load tree held source =
      match ofDict entries with
      | .ok torrent => ⟨true, some torrent, [torrent.loadedLine]⟩
      | .error flaw => ⟨false, none, flaw.lines⟩ := by
  have loaded : source.load tree = (.decoded entries, []) :=
    Bencode.Source.load_eq_decoded.mpr ⟨⟨bytes, offered, decoded⟩, rfl⟩
  cases read : ofDict entries <;> simp only [load_eq, loaded, read, List.nil_append]

theorem load_held {tree : FileTree} {held : Option Torrent} {source : Bencode.Source} {t : Torrent}
    (h : (load tree held source).held = some t) :
    ((load tree held source).ok = false ∧ held = some t) ∨
      ∃ entries lines, source.load tree = (.decoded entries, lines) ∧
        ofDict entries = .ok t := by
  rw [load_eq] at h ⊢
  split at h
  case h_1 entries lines hsource =>
    split at h
    case h_1 torrent hentries =>
      cases h
      exact .inr ⟨entries, lines, hsource, hentries⟩
    case h_2 => cases h
  case h_2 => exact .inl ⟨rfl, h⟩

theorem agrees_of_load {tree : FileTree} {held : Option Torrent} {source : Bencode.Source}
    (hheld : ∀ t, held = some t → t.Agrees) {t : Torrent}
    (h : (load tree held source).held = some t) : t.Agrees := by
  rcases load_held h with ⟨-, kept⟩ | ⟨entries, lines, -, hentries⟩
  · exact hheld t kept
  · obtain ⟨info, -, -, agrees⟩ := ofDict_eq_ok.mp hentries
    exact agrees

theorem agrees_of_loadPieces {pieceLength : UInt32} {length : UInt64} {digests : List Digest}
    {t : Torrent} (h : (loadPieces pieceLength length digests).held = some t) : t.Agrees := by
  rw [loadPieces_eq] at h
  split at h
  case h_1 torrent hpieces => exact Option.some.inj h ▸ agrees_of_ofPieces hpieces
  case h_2 => cases h

end Torrent

namespace Session

/-! ## What sessions hold -/

theorem torrent_rememberSource (s : Session) (source : Bencode.Source) :
    (s.rememberSource source).torrent = s.torrent := by
  unfold rememberSource
  split
  · split <;> rfl
  · rfl

theorem torrent_fetching (s : Session) (path : Option Bytes) :
    (s.fetching path).result.2.torrent = s.torrent := by
  cases path with
  | none => rfl
  | some name =>
      simp only [fetching, FileTree.reading]
      cases s.tree.content name <;> rfl

theorem torrent_withTracker (s : Session) (slot : Nat)
    {operate : Tracker → Trace.Traced (Reply × Session)}
    (hoperate : ∀ t, (operate t).result.2.torrent = s.torrent) :
    (s.withTracker slot operate).result.2.torrent = s.torrent := by
  unfold withTracker
  split
  · exact hoperate _
  · rfl

theorem torrent_perform (s : Session) (command : Command) :
    (s.perform command).session.torrent =
      match command with
      | .loadTorrent source => (Torrent.load s.tree s.torrent source).held
      | .loadPieces pieceLength length digests =>
          (Torrent.loadPieces pieceLength length digests).held
      | _ => s.torrent := by
  cases command with
  | loadTorrent | loadPieces | place | find | findInteger | findText | pieceDigest | pieceSize
  | pieceOffset | newTracker | finishStream => rfl
  | fetch path => exact s.torrent_fetching path
  | loadDict source => exact s.torrent_rememberSource source
  | look | request | complete | remove | add => exact s.torrent_withTracker _ fun _ => rfl
  | validate slot =>
      apply s.torrent_withTracker
      intro t
      rw [result_validating]
      dsimp only
      split <;> rfl
  | updateStream part =>
      change (s.updateStream part).2.torrent = _
      rw [updateStream]
      split <;> rfl

theorem loadTorrent_eq {s : Session} {source : Bencode.Source} {loading : Torrent.Loading}
    (h : Torrent.load s.tree s.torrent source = loading) :
    let outcome := s.perform (.loadTorrent source)
    outcome.reply = .torrent loading.ok loading.held ∧
      outcome.session.torrent = loading.held ∧ outcome.lines = loading.lines := by
  subst h
  exact ⟨rfl, rfl, rfl⟩

theorem accepts_buffer_iff {s : Session} {buffer : Bytes} {t : Torrent} :
    (s.perform (.loadTorrent (.buffer buffer))).reply = .torrent true (some t) ↔
      ∃ entries, Bencode.decode buffer = .ok entries ∧ Torrent.ofDict entries = .ok t := by
  constructor
  · intro h
    rw [(loadTorrent_eq rfl).1] at h
    obtain ⟨accepted, held⟩ := Reply.torrent.inj h
    rcases Torrent.load_held held with ⟨refused, -⟩ | ⟨entries, lines, source, read⟩
    · rw [accepted] at refused
      cases refused
    · obtain ⟨⟨bytes, offered, decoded⟩, -⟩ := Bencode.Source.load_eq_decoded.mp source
      cases Option.some.inj offered
      exact ⟨entries, decoded, read⟩
  · rintro ⟨entries, decoded, read⟩
    have offered : Bencode.Source.bytes? s.tree (.buffer buffer) = some buffer := rfl
    have loaded := Torrent.load_of_decoded s.torrent offered decoded
    rw [read] at loaded
    exact (loadTorrent_eq loaded).1

theorem agrees_of_perform {s : Session} (hheld : ∀ t, s.torrent = some t → t.Agrees)
    (command : Command) {t : Torrent} (h : (s.perform command).session.torrent = some t) :
    t.Agrees := by
  rw [torrent_perform] at h
  split at h
  case h_1 => exact Torrent.agrees_of_load hheld h
  case h_2 => exact Torrent.agrees_of_loadPieces h
  case h_3 => exact hheld t h

theorem agrees_of_run (level : Nat) {s : Session} (hheld : ∀ t, s.torrent = some t → t.Agrees)
    (commands : List Command) {t : Torrent} (h : (s.run level commands).2.torrent = some t) :
    t.Agrees := by
  induction commands generalizing s with
  | nil => exact hheld t h
  | cons command rest ih =>
      have next : ∀ t, (s.perform command).session.torrent = some t → t.Agrees :=
        fun _ => agrees_of_perform hheld command
      rw [run_cons] at h
      dsimp only at h
      split at h
      case h_1 => exact next t h
      case h_2 => exact ih next h

/--
Whatever is loaded, one after the other and with or without success, a session
holds no torrent and shows blank fields, or it holds a torrent with as many
pieces as its content needs, which tile the content.  Beyond the last piece
there are no sizes and no digests.
-/
theorem run_holds_tiling_torrent (tree : FileTree) (level : Nat) (commands : List Command) :
    let s := (run level { tree } commands).2
    let t := s.shownTorrent
    ((s.torrent = none ∧ t = .blank) ∨
      (s.torrent = some t ∧ 0 < t.pieceLength ∧
        t.pieceCount = t.length.toNat ⌈/⌉ t.pieceLength.toNat ∧
        t.pieceCount ≤ 2 ^ 32 - 1 ∧
        t.PiecesTile)) ∧
      ∀ id : UInt32,
        ((s.perform (.pieceDigest id)).reply = .digest none ↔ t.pieceCount ≤ id.toNat) ∧
          (t.pieceCount ≤ id.toNat → (s.perform (.pieceSize id)).reply = .size 0) := by
  intro s t
  constructor
  · cases held : s.torrent with
    | none => exact .inl ⟨rfl, by simp only [t, shownTorrent, held, Option.getD_none]⟩
    | some torrent =>
        have shown : t = torrent := by simp only [t, shownTorrent, held, Option.getD_some]
        have agrees : torrent.Agrees := agrees_of_run level (by simp) commands held
        rw [shown]
        refine .inr ⟨rfl, agrees.pieceLength_pos, agrees.pieceCount_eq, ?_, agrees.piecesTile⟩
        exact Nat.le_pred_of_lt agrees.pieceCount_lt
  · intro id
    refine ⟨?_, fun hid => congrArg Reply.size (t.pieceSize_of_outside hid)⟩
    rw [← t.digest?_eq_none_iff id]
    change Reply.digest (s.shownTorrent.findingDigest id).result = _ ↔ _
    rw [Torrent.result_findingDigest, Reply.digest.injEq]

end Session

end PieceLedger
