import PieceLedger.Torrent.Load
import PieceLedger.Proofs.Trace.Blind

/-!
# What loading comes to

A source is fetched, decoded and made a torrent.  Each of these steps traces its
own failure and is a script, so loading is.
-/

namespace PieceLedger

open Trace

theorem ContentFault.placed (path : Bytes) (fault : ContentFault) : (fault.line path).Placed := by
  cases fault <;> rfl

namespace FileTree

variable {tree : FileTree} {path bytes : Bytes} {fault : ContentFault}

theorem reading_of_error (h : tree.content path = .error fault) :
    Tells (tree.reading path) (.error fault) [fault.line path] := by
  rw [reading, h]
  exact .traced _ _

theorem scripted_reading (tree : FileTree) (path : Bytes) : Scripted (tree.reading path) := by
  rw [reading]
  cases tree.content path with
  | ok bytes => exact .pure _
  | error fault => exact .traced (fault.placed path) _

end FileTree

namespace Bencode

variable {tree : FileTree} {buffer name bytes : Bytes} {entries : Dict} {refusal : Refusal}
  {fault : ContentFault}

theorem decoding_of_ok (h : decode buffer = .ok entries) :
    Tells (decoding buffer) (.decoded entries) [] := by
  rw [decoding, h]
  exact .pure _

theorem decoding_of_error (h : decode buffer = .error refusal) :
    Tells (decoding buffer) (.refused refusal) refusal.lines := by
  rw [decoding, h]
  exact .tracedAll _ _

theorem Refusal.placed (refusal : Refusal) : ∀ line ∈ refusal.lines, line.Placed := by
  cases refusal with
  | notADict => exact List.forall_mem_singleton.mpr rfl
  | malformed cause offset =>
      refine List.forall_mem_cons.mpr ⟨?_, List.forall_mem_singleton.mpr rfl⟩
      cases cause <;> rfl

theorem scripted_decoding (buffer : Bytes) : Scripted (decoding buffer) := by
  rw [decoding]
  cases decode buffer with
  | ok entries => exact .pure _
  | error refusal => exact .tracedAll refusal.placed _

namespace Source

theorem loading_buffer (nonempty : buffer ≠ []) :
    loading tree (.buffer buffer) = decoding buffer := by
  cases buffer with
  | nil => exact absurd rfl nonempty
  | cons => rfl

theorem loading_file_of_ok (h : tree.content name = .ok bytes) :
    loading tree (.file (some name)) = decoding bytes := by
  rw [loading, FileTree.reading, h]
  rfl

theorem loading_file_of_error (h : tree.content name = .error fault) :
    Tells (loading tree (.file (some name))) .unavailable
      [fault.line name, unreadLine (some name)] :=
  (FileTree.reading_of_error h).bind (.traced _ _)

theorem scripted_loading (tree : FileTree) (source : Source) :
    Scripted (source.loading tree) := by
  cases source with
  | buffer bytes =>
      cases bytes with
      | nil => exact .pure _
      | cons c rest => exact scripted_decoding (c :: rest)
  | file path =>
      cases path with
      | none => exact .traced (by rfl) _
      | some name =>
          refine (tree.scripted_reading name).bind fun content => ?_
          cases content with
          | ok bytes => exact scripted_decoding bytes
          | error fault => exact .traced (by rfl) _

theorem loading_bind {β : Type} (source : Source) {next : Outcome → Traced β} {b : β}
    {more : List Line}
    (h : Tells (next (source.load tree).1) b more) :
    Tells (source.loading tree >>= next) b ((source.load tree).2 ++ more) :=
  Tells.bind (source.scripted_loading tree).blind h

end Source

end Bencode

namespace Torrent

theorem SizeFlaw.placed (flaw : SizeFlaw) : flaw.line.Placed := by
  cases flaw <;> rfl

theorem Flaw.placed (flaw : Flaw) : ∀ line ∈ flaw.lines, line.Placed := by
  cases flaw with
  | infoMissing => exact List.forall_mem_singleton.mpr rfl
  | info flaw =>
      refine List.forall_mem_cons.mpr ⟨?_, List.forall_mem_singleton.mpr rfl⟩
      cases flaw <;> rfl
  | sizes flaw => exact List.forall_mem_singleton.mpr flaw.placed

theorem undecodedLine_placed (source : Bencode.Source) : (undecodedLine source).Placed := by
  cases source <;> rfl

theorem scripted_holding (held : Option Torrent) (source : Bencode.Source)
    (outcome : Bencode.Outcome) : Scripted (holding held source outcome) := by
  cases outcome with
  | unavailable | refused => exact .traced (undecodedLine_placed source) _
  | decoded entries =>
      rw [holding]
      cases ofDict entries with
      | ok torrent => exact .traced (by rfl) _
      | error flaw => exact .tracedAll flaw.placed _

theorem scripted_loading (tree : FileTree) (held : Option Torrent) (source : Bencode.Source) :
    Scripted (loading tree held source) :=
  (source.scripted_loading tree).bind (scripted_holding held source)

theorem load_eq (tree : FileTree) (held : Option Torrent) (source : Bencode.Source) :
    load tree held source =
      match source.load tree with
      | (.decoded entries, lines) =>
          match ofDict entries with
          | .ok torrent => ⟨true, some torrent, lines ++ [torrent.loadedLine]⟩
          | .error flaw => ⟨false, none, lines ++ flaw.lines⟩
      | (_, lines) => ⟨false, held, lines ++ [undecodedLine source]⟩ := by
  have told {answer : Bool × Option Torrent} {more : List Line}
      (h : Tells (holding held source (source.load tree).1) answer more) :
      load tree held source = ⟨answer.1, answer.2, (source.load tree).2 ++ more⟩ := by
    have whole := source.loading_bind h
    rw [load, Loading.ofTraced, loading, whole.result_eq, whole.lines_eq]
  generalize source.load tree = fetched at told
  obtain ⟨outcome, lines⟩ := fetched
  cases outcome with
  | unavailable | refused => exact told (.traced _ _)
  | decoded entries =>
      simp only [holding] at told ⊢
      generalize ofDict entries = read at told ⊢
      cases read with
      | ok torrent => exact told (.traced _ _)
      | error flaw => exact told (.tracedAll _ _)

theorem scripted_loadingPieces (pieceLength : UInt32) (length : UInt64)
    (digests : List Digest) : Scripted (loadingPieces pieceLength length digests) := by
  rw [loadingPieces]
  cases ofPieces pieceLength length digests with
  | ok torrent => exact .pure _
  | error flaw => exact .traced flaw.placed _

theorem loadPieces_eq (pieceLength : UInt32) (length : UInt64) (digests : List Digest) :
    loadPieces pieceLength length digests =
      match ofPieces pieceLength length digests with
      | .ok torrent => ⟨true, some torrent, []⟩
      | .error flaw => ⟨false, none, [flaw.line]⟩ := by
  rw [loadPieces, loadingPieces]
  cases ofPieces pieceLength length digests with
  | ok torrent => rfl
  | error flaw => exact congrArg (Loading.mk _ _) (Tells.traced _ _).lines_eq

end Torrent

end PieceLedger
