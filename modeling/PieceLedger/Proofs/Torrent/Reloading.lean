import PieceLedger.Torrent.Draft
import PieceLedger.Proofs.Torrent.Pieces
import PieceLedger.Proofs.Bencode.RoundTrip

/-!
# Nothing is left of an earlier torrent

A draft fills its fields one after the other and can be stopped after each of them.
From any draft, whatever its fields hold, it ends with the torrent that is read at
once, or with blank fields and the same flaw.  So the one object behind all loads of
a session shows the torrent held by the session, and a load that is answered shows
nothing but what it was told to load.
-/

namespace PieceLedger

open Bencode Trace

namespace Torrent.Draft

/-! ## Filling -/

/-- How a step ends, whatever it leaves behind where it is stopped. -/
def settle : EStateM.Result Flaw Draft Unit → Except Flaw Draft
  | .ok _ d => .ok d
  | .error flaw _ => .error flaw

@[simp] theorem run_write (change : Torrent → Torrent) (d : Draft) :
    (write change).run d = .ok () { d with fields := change d.fields } := rfl

@[simp] theorem run_check_ok {α : Type} (a : α) (d : Draft) :
    (check (.ok a)).run d = .ok a d := rfl

theorem run_orWipe (step : Filling Unit) (d : Draft) :
    (orWipe step).run d =
      match settle (step.run d) with
      | .ok d => .ok () d
      | .error flaw => .error flaw empty := by
  simp only [orWipe, tryCatch, tryCatchThe, MonadExceptOf.tryCatch, EStateM.tryCatch, EStateM.run]
  cases step d <;> rfl

theorem run_fillName (info : Dict) (r : Bool) (t : Torrent) :
    (fillName info).run ⟨r, t⟩ =
      .ok () ⟨r, { t with name := (info.text? (key "name")).getD t.name }⟩ := by
  rw [fillName]
  split
  case h_1 name written => rw [run_write, written, Option.getD_some]
  case h_2 missing => rw [missing, Option.getD_none]; rfl

theorem run_fillDigests (digests : List Digest) (r : Bool) (t : Torrent) :
    (forM digests fillDigest).run ⟨r, t⟩ =
      .ok () ⟨r, { t with digests := t.digests ++ digests }⟩ := by
  induction digests generalizing t with
  | nil => simp
  | cons digest rest ih =>
      simp only [List.forM_cons, EStateM.run_bind, fillDigest, run_write]
      rw [ih, List.append_assoc, List.singleton_append]

theorem settle_fillFiles (items : List Value) (r : Bool) (t : Torrent) :
    settle ((forM items fillFile).run ⟨r, t⟩) =
      match items.mapM readFile with
      | .error flaw => .error (.info flaw)
      | .ok files =>
          .ok ⟨r, { t with
            length := files.foldl (fun total file => total + file.length) t.length
            files := t.files ++ files }⟩ := by
  -- Each file is filled in before the rest are read, so `t` holds those in front.
  induction items generalizing t with
  | nil =>
      change Except.ok (Draft.mk r t) = .ok ⟨r, { t with files := t.files ++ [] }⟩
      rw [List.append_nil]
  | cons v rest ih =>
      rw [List.forM_cons, List.mapM_cons, EStateM.run_bind, fillFile, EStateM.run_bind]
      cases read : readFile v with
      | error flaw => rfl
      | ok file =>
          simp only [run_check_ok, run_write, ih]
          cases rest.mapM readFile with
          | error flaw => rfl
          | ok files => simp [bind, Except.bind, pure, Except.pure]

theorem settle_fillContent (info : Dict) (r : Bool) {t : Torrent} (hlength : t.length = 0)
    (hfiles : t.files = []) :
    settle ((fillContent info).run ⟨r, t⟩) =
      match readContent info with
      | .error flaw => .error (.info flaw)
      | .ok (length, files) => .ok ⟨r, { t with length, files }⟩ := by
  rw [fillContent, readContent]
  cases info.integer? (key "length") with
  | some n =>
      by_cases negative : n < 0
      · simp only [if_pos negative]
        rfl
      · simp only [if_neg negative, run_write, settle, hfiles]
  | none =>
      cases info.list? (key "files") with
      | none => rfl
      | some items =>
          simp only [settle_fillFiles, hlength, hfiles, List.nil_append, totalLength]
          cases items.mapM readFile <;> rfl

theorem settle_fillInfo (info : Dict) :
    settle ((fillInfo info).run
        ⟨false, { blank with infoHash := Sha1.hash (Value.dict info).encode }⟩) =
      match ofInfo info with
      | .error flaw => .error (.info flaw)
      | .ok t => .ok ⟨false, t⟩ := by
  rw [fillInfo, ofInfo, EStateM.run_bind, run_fillName]
  simp only [fillPieceLength, fillDigests, EStateM.run_bind]
  cases readPieceLength info with
  | error flaw => rfl
  | ok pieceLength =>
      cases readDigests info with
      | error flaw => rfl
      | ok digests =>
          simp only [run_check_ok, run_write, run_fillDigests]
          rw [settle_fillContent info false rfl rfl]
          cases readContent info <;> rfl

theorem settle_checkFields (r : Bool) (t : Torrent) :
    settle (checkFields.run ⟨r, t⟩) =
      match t.checkSizes with
      | .error flaw => .error (.sizes flaw)
      | .ok checked => .ok ⟨r, checked⟩ := by
  rw [checkFields, EStateM.run_bind, EStateM.run_get]
  cases checked : t.checkSizes with
  | error flaw =>
      simp only [checked]
      rfl
  | ok same =>
      obtain ⟨rfl, -⟩ := checkSizes_eq_ok.mp checked
      simp only [checked]
      rfl

/-- Whatever the draft held, it is filled with what is read at once, or it is blank. -/
theorem run_fill (entries : Dict) (d : Draft) :
    (fill entries).run d =
      match ofDict entries with
      | .ok t => .ok () ⟨true, t⟩
      | .error flaw => .error flaw empty := by
  rw [fill, ofDict]
  cases entries.dict? (key "info") with
  | none => rfl
  | some info =>
      -- After the first step `d` is gone: what follows begins with blank fields.
      simp only [wipe, EStateM.run_bind, EStateM.run_set, run_write, run_orWipe]
      rw [empty, settle_fillInfo]
      cases ofInfo info with
      | error flaw => rfl
      | ok unchecked =>
          simp only [settle_checkFields]
          cases unchecked.checkSizes <;> rfl

theorem run_fillPieces (pieceLength : UInt32) (length : UInt64) (digests : List Digest)
    (d : Draft) :
    (fillPieces pieceLength length digests).run d =
      match ofPieces pieceLength length digests with
      | .ok t => .ok () ⟨true, t⟩
      | .error flaw => .error (.sizes flaw) empty := by
  rw [fillPieces, ofPieces]
  simp only [wipe, EStateM.run_bind, EStateM.run_set, run_write, run_orWipe, empty,
    settle_checkFields]
  cases checkSizes { blank with pieceLength, length, digests } <;> rfl

/-! ## Loading -/

def Loading.of (loading : Torrent.Loading) : Loading :=
  ⟨loading.ok, ofHeld loading.held, loading.lines⟩

theorem load_eq (tree : FileTree) (source : Source) (d : Draft) :
    d.load tree source =
      match source.load tree with
      | (.decoded entries, lines) =>
          match (fill entries).run d with
          | .ok _ d => ⟨true, d, lines ++ [d.fields.loadedLine]⟩
          | .error flaw d => ⟨false, d, lines ++ flaw.lines⟩
      | (_, lines) => ⟨false, d, lines ++ [undecodedLine source]⟩ := by
  have told {answer : Bool × Draft} {more : List Line}
      (h : Tells (d.holding source (source.load tree).1) answer more) :
      d.load tree source = ⟨answer.1, answer.2, (source.load tree).2 ++ more⟩ := by
    have whole := source.loading_bind h
    rw [load, Loading.ofTraced, loading, whole.result_eq, whole.lines_eq]
  generalize source.load tree = fetched at told
  obtain ⟨outcome, lines⟩ := fetched
  cases outcome with
  | unavailable | refused => exact told (.traced _ _)
  | decoded entries =>
      simp only [holding] at told ⊢
      generalize (fill entries).run d = filled at told ⊢
      cases filled with
      | ok _ d => exact told (.traced _ _)
      | error flaw d => exact told (.tracedAll _ _)

theorem load_ofHeld (tree : FileTree) (held : Option Torrent) (source : Source) :
    (ofHeld held).load tree source = .of (Torrent.load tree held source) := by
  rw [load_eq, Torrent.load_eq]
  cases source.load tree with
  | mk outcome lines =>
      cases outcome with
      | unavailable | refused => rfl
      | decoded entries =>
          simp only [run_fill]
          cases ofDict entries <;> rfl

theorem load_decoded (d : Draft) {tree : FileTree} (held : Option Torrent) {source : Source}
    {bytes : Bytes} {entries : Dict} (offered : source.bytes? tree = some bytes)
    (decoded : decode bytes = .ok entries) :
    d.load tree source = .of (Torrent.load tree held source) := by
  have loaded : source.load tree = (.decoded entries, []) :=
    Source.load_eq_decoded.mpr ⟨⟨bytes, offered, decoded⟩, rfl⟩
  rw [load_of_decoded held offered decoded]
  cases read : ofDict entries <;>
    simp only [load_eq, loaded, run_fill, read, List.nil_append, Loading.of, ofHeld]

theorem loadPieces_eq (d : Draft) (pieceLength : UInt32) (length : UInt64) (digests : List Digest) :
    d.loadPieces pieceLength length digests =
      .of (Torrent.loadPieces pieceLength length digests) := by
  rw [Torrent.loadPieces_eq, loadPieces, loadingPieces, run_fillPieces]
  cases ofPieces pieceLength length digests with
  | ok t => rfl
  | error flaw => exact congrArg (Loading.mk _ _) (Tells.tracedAll _ _).lines_eq

theorem load_undecoded {tree : FileTree} {source : Source}
    (undecoded : ∀ bytes entries, source.bytes? tree = some bytes →
      decode bytes ≠ .ok entries) :
    ∃ lines, ∀ (held : Option Torrent) (d : Draft),
      Torrent.load tree held source = ⟨false, held, lines⟩ ∧
        d.load tree source = ⟨false, d, lines⟩ := by
  obtain ⟨outcome, lines, loaded, undecoded⟩ := Source.load_of_undecoded undecoded
  cases outcome with
  | decoded entries => cases undecoded
  | unavailable | refused =>
      refine ⟨lines ++ [undecodedLine source], fun held d => ⟨?_, ?_⟩⟩
      · simp only [Torrent.load_eq, loaded]
      · simp only [load_eq, loaded]

/-! ## Sessions -/

def perform (tree : FileTree) (d : Draft) : Session.Command → Loading
  | .loadTorrent source => d.load tree source
  | .loadPieces pieceLength length digests => d.loadPieces pieceLength length digests
  | _ => ⟨true, d, []⟩

end Torrent.Draft

namespace Session

open Torrent

def runDraft (s : Session) (d : Draft) : List Command → Draft
  | [] => d
  | command :: rest =>
      let outcome := s.perform command
      let after := (d.perform s.tree command).draft
      match outcome.reply with
      | .aborted => after
      | _ => runDraft outcome.session after rest

theorem draft_perform (s : Session) (command : Command) :
    (Draft.perform s.tree (.ofHeld s.torrent) command).draft =
      .ofHeld (s.perform command).session.torrent := by
  rw [torrent_perform]
  cases command with
  | loadTorrent source => exact congrArg Draft.Loading.draft (Draft.load_ofHeld ..)
  | loadPieces => exact congrArg Draft.Loading.draft (Draft.loadPieces_eq ..)
  | _ => rfl

theorem runDraft_ofHeld (level : Nat) (s : Session) (commands : List Command) :
    s.runDraft (.ofHeld s.torrent) commands = .ofHeld (s.run level commands).2.torrent := by
  induction commands generalizing s with
  | nil => rfl
  | cons command rest ih =>
      cases reply : (s.perform command).reply with
      | aborted => simp only [runDraft, run_cons, reply, draft_perform]
      | _ => simp only [runDraft, run_cons, reply, draft_perform, ih]

/-- A load that fails and leaves everything as it was. -/
structure Keeps (s : Session) (d : Draft) (command : Command) : Prop where
  reply : (s.perform command).reply = .torrent false s.torrent
  torrent : (s.perform command).session.torrent = s.torrent
  draft : d.perform s.tree command = ⟨false, d, (s.perform command).lines⟩

/-- A load that fails and leaves blank fields, or that leaves what it leaves if it is
the first one. -/
inductive Replaces (s : Session) (d : Draft) (command : Command) : Prop
  | failed :
      (s.perform command).reply = .torrent false none →
      (s.perform command).session.torrent = none →
      d.perform s.tree command = ⟨false, .empty, (s.perform command).lines⟩ →
      Replaces s d command
  | loaded {t : Torrent} :
      (s.perform command).reply = .torrent true (some t) →
      (s.perform command).session.torrent = some t →
      d.perform s.tree command = ⟨true, ⟨true, t⟩, (s.perform command).lines⟩ →
      (perform { tree := s.tree } command).reply = .torrent true (some t) →
      (perform { tree := s.tree } command).session.torrent = some t →
      Draft.empty.perform s.tree command = ⟨true, ⟨true, t⟩, (s.perform command).lines⟩ →
      Replaces s d command

theorem Replaces.of_loading {s : Session} {d : Draft} {command : Command} (loading : Loading)
    (settled : loading.ok = loading.held.isSome)
    (answers : ∀ s' : Session, s'.tree = s.tree →
      (s'.perform command).reply = .torrent loading.ok loading.held ∧
        (s'.perform command).session.torrent = loading.held ∧
        (s'.perform command).lines = loading.lines)
    (drafts : ∀ d : Draft, d.perform s.tree command = .of loading) : Replaces s d command := by
  obtain ⟨ok, held, lines⟩ := loading
  obtain ⟨reply, torrent, hlines⟩ := answers s rfl
  obtain ⟨reply', torrent', -⟩ := answers { tree := s.tree } rfl
  cases held with
  | none =>
      cases settled
      exact .failed reply torrent (hlines ▸ drafts d)
  | some t =>
      cases settled
      exact .loaded reply torrent (hlines ▸ drafts d) reply' torrent' (hlines ▸ drafts .empty)

theorem keeps_of_undecoded (s : Session) (d : Draft) {source : Source}
    (undecoded : ∀ bytes entries, source.bytes? s.tree = some bytes →
      decode bytes ≠ .ok entries) :
    Keeps s d (.loadTorrent source) := by
  obtain ⟨lines, kept⟩ := Draft.load_undecoded undecoded
  obtain ⟨loaded, draft⟩ := kept s.torrent d
  obtain ⟨reply, torrent, hlines⟩ := loadTorrent_eq loaded
  refine ⟨reply, torrent, ?_⟩
  rw [hlines]
  exact draft

theorem replaces_of_decoded (s : Session) (d : Draft) {source : Source} {bytes : Bytes}
    {entries : Dict} (offered : source.bytes? s.tree = some bytes)
    (decoded : decode bytes = .ok entries) : Replaces s d (.loadTorrent source) := by
  have same (held : Option Torrent) : load s.tree held source = load s.tree none source := by
    rw [load_of_decoded held offered decoded, load_of_decoded none offered decoded]
  refine .of_loading (load s.tree none source) ?_ ?_
    fun d => Draft.load_decoded d none offered decoded
  · rw [load_of_decoded none offered decoded]
    cases ofDict entries <;> rfl
  · intro s' htree
    exact loadTorrent_eq (htree ▸ same s'.torrent)

theorem replaces_loadPieces (s : Session) (d : Draft) (pieceLength : UInt32) (length : UInt64)
    (digests : List Digest) : Replaces s d (.loadPieces pieceLength length digests) := by
  refine .of_loading (Torrent.loadPieces pieceLength length digests) ?_
    (fun _ _ => ⟨rfl, rfl, rfl⟩) fun d => d.loadPieces_eq pieceLength length digests
  rw [Torrent.loadPieces_eq]
  cases ofPieces pieceLength length digests <;> rfl

/--
After any commands the draft behind the torrents of a session holds what the session
holds.  From then on, a source without bytes or without a document at their front is
refused, and every field stays what it was.  Any other load fails and leaves blank
fields, or it leaves the torrent that it leaves as the first load of a session, so
nothing of an earlier torrent is left in either case.
-/
theorem loads_keep_or_replace (tree : FileTree) (level : Nat) (commands : List Command) :
    let s := (run level { tree } commands).2
    let d := runDraft { tree } .empty commands
    d = .ofHeld s.torrent ∧
      (∀ source : Source,
        ((∀ bytes entries, source.bytes? s.tree = some bytes → decode bytes ≠ .ok entries) →
          Keeps s d (.loadTorrent source)) ∧
        ∀ bytes entries, source.bytes? s.tree = some bytes → decode bytes = .ok entries →
          Replaces s d (.loadTorrent source)) ∧
      ∀ pieceLength length digests,
        Replaces s d (.loadPieces pieceLength length digests) := by
  intro s d
  refine ⟨runDraft_ofHeld level { tree } commands, fun source => ⟨s.keeps_of_undecoded d, ?_⟩,
    s.replaces_loadPieces d⟩
  intro bytes entries offered decoded
  exact s.replaces_of_decoded d offered decoded

/-- No bytes leave the torrent in place; a list of files that breaks off behind its first
leaves nothing, though that one was filled in. -/
theorem loads_keep_or_replace_midway :
    let info : Dict := [
      (⟨0, key "files"⟩, .list [
        .dict [(⟨0, key "length"⟩, .integer 1),
          (⟨0, key "path"⟩, .list [.text ⟨0, key "a"⟩])],
        .text ⟨0, key "b"⟩]),
      (⟨0, key "piece length"⟩, .integer 2),
      (⟨0, key "pieces"⟩, .text ⟨0, List.replicate 20 120⟩)]
    let entries : Dict := [(⟨0, key "info"⟩, .dict info)]
    let buffer := (Value.dict entries).encode
    let t : Torrent := { Torrent.blank with pieceLength := 4, length := 3, digests := [.zero] }
    let s := (run 0 { tree := ⟨[], []⟩ } [.loadPieces 4 3 [.zero]]).2
    s.torrent = some t ∧
      (s.perform (.loadTorrent (.buffer []))).reply = .torrent false (some t) ∧
      (∃ left, (Draft.fillInfo info).run .empty = .error (.info .fileNotDict) left ∧
        left.fields.files = [⟨[key "a"], 1⟩]) ∧
      (s.perform (.loadTorrent (.buffer buffer))).reply = .torrent false none ∧
      (s.perform (.loadTorrent (.buffer buffer))).session.torrent = none := by
  intro info entries buffer t s
  have decoded : decode buffer = .ok entries := decode_encode (by decide) (by decide)
  have held : s.torrent = some t := rfl
  obtain ⟨-, loads, -⟩ := loads_keep_or_replace ⟨[], []⟩ 0 [.loadPieces 4 3 [.zero]]
  have kept := (loads (.buffer [])).1 fun bytes others offered decoded => by
    cases offered
    cases decoded
  have replaced := (loads (.buffer buffer)).2 buffer entries rfl decoded
  refine ⟨held, held ▸ kept.reply, ⟨_, rfl, rfl⟩, ?_⟩
  cases replaced with
  | failed reply torrent => exact ⟨reply, torrent⟩
  | loaded reply =>
      have refused : ofDict entries = .error (.info .fileNotDict) := rfl
      obtain ⟨_, same, read⟩ := accepts_buffer_iff.mp reply
      cases decoded.symm.trans same
      cases refused.symm.trans read

end Session

end PieceLedger
