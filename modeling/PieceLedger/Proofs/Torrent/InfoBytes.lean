import PieceLedger.Proofs.Torrent.Pieces
import PieceLedger.Proofs.Bencode.RoundTrip

/-!
# The bytes of the info dictionary

A torrent is read from the dictionary under `info` and from nothing else, and its
info hash is taken over the bytes that write this dictionary.  They read the same
wherever they stand, so two buffers with the same bytes under `info` are loaded
with the same result, whatever the rest of them holds.
-/

namespace PieceLedger

open Bencode

namespace Torrent

theorem ofDict_congr {entries others : Dict}
    (same : entries.dict? (key "info") = others.dict? (key "info")) :
    ofDict entries = ofDict others := by
  rw [ofDict, ofDict, same]

theorem load_congr {tree tree' : FileTree} {held held' : Option Torrent} {buffer buffer' : Bytes}
    {entries others : Dict} (decoded : decode buffer = .ok entries)
    (decoded' : decode buffer' = .ok others)
    (same : entries.dict? (key "info") = others.dict? (key "info")) :
    load tree held (.buffer buffer) = load tree' held' (.buffer buffer') := by
  rw [load_of_decoded held rfl decoded, load_of_decoded held' rfl decoded', ofDict_congr same]

end Torrent

namespace Session

open Torrent

theorem replies_congr {s s' : Session} (same : s.torrent = s'.torrent) (id : UInt32) :
    (s.perform (.pieceDigest id)).reply = (s'.perform (.pieceDigest id)).reply ∧
      (s.perform (.pieceSize id)).reply = (s'.perform (.pieceSize id)).reply ∧
      (s.perform (.pieceOffset id)).reply = (s'.perform (.pieceOffset id)).reply := by
  have shown : s.shownTorrent = s'.shownTorrent := by rw [shownTorrent, shownTorrent, same]
  exact ⟨congrArg (fun t : Torrent => Reply.digest (t.findingDigest id).result) shown,
    congrArg (fun t : Torrent => Reply.size (t.pieceSize id)) shown,
    congrArg (fun t : Torrent => Reply.offset (t.pieceOffset id)) shown⟩

/--
The info hash of an accepted torrent is the digest of the bytes that write the one
value under `info`, from their `d` to their `e`.  Buffers with the same bytes there
are answered alike in any two sessions, and show the same torrent from then on.
-/
theorem torrent_depends_on_info_bytes (s s' : Session) :
    (∀ (buffer : Bytes) (t : Torrent),
      (s.perform (.loadTorrent (.buffer buffer))).reply = .torrent true (some t) →
      ∃ front body info,
        Writes buffer (key "info") front (100 :: (body ++ [101])) (.dict info) ∧
        (∀ front' span v, Writes buffer (key "info") front' span v →
          front' = front ∧ span = 100 :: (body ++ [101])) ∧
        t.infoHash = Sha1.hash (100 :: (body ++ [101]))) ∧
    ∀ (buffer buffer' front front' span : Bytes) (info info' : Dict),
      Writes buffer (key "info") front span (.dict info) →
      Writes buffer' (key "info") front' span (.dict info') →
      let outcome := s.perform (.loadTorrent (.buffer buffer))
      let outcome' := s'.perform (.loadTorrent (.buffer buffer'))
      outcome.reply = outcome'.reply ∧ outcome.lines = outcome'.lines ∧
        outcome.session.torrent = outcome'.session.torrent ∧
        ∀ id : UInt32,
          (outcome.session.perform (.pieceDigest id)).reply =
              (outcome'.session.perform (.pieceDigest id)).reply ∧
            (outcome.session.perform (.pieceSize id)).reply =
              (outcome'.session.perform (.pieceSize id)).reply ∧
            (outcome.session.perform (.pieceOffset id)).reply =
              (outcome'.session.perform (.pieceOffset id)).reply := by
  constructor
  · intro buffer t accepted
    obtain ⟨entries, decoded, read⟩ := accepts_buffer_iff.mp accepted
    obtain ⟨info, held, described, -⟩ := ofDict_eq_ok.mp read
    obtain ⟨-, -, -, -, hash⟩ := ofInfo_eq_ok.mp described
    obtain ⟨w, begins, document⟩ := decode_eq_ok.mp decoded
    obtain ⟨front, span, writes⟩ :=
      Writes.of_document begins document (Dict.dict?_eq_some.mp held)
    rw [writes.span_eq, Value.encode] at writes
    refine ⟨front, encodeEntries info, info, writes, ?_, ?_⟩
    · intro front' span v other
      obtain ⟨rfl, rfl, -⟩ := other.unique writes
      exact ⟨rfl, rfl⟩
    · rw [hash, Value.encode]
  · intro buffer buffer' front front' span info info' writes writes'
    obtain ⟨entries, decoded, found⟩ := writes.find?
    obtain ⟨others, decoded', found'⟩ := writes'.find?
    cases writes.value_unique writes'
    have same : entries.dict? (key "info") = others.dict? (key "info") := by
      rw [Dict.dict?_eq_some.mpr found, Dict.dict?_eq_some.mpr found']
    have loaded :
        load s.tree s.torrent (.buffer buffer) = load s'.tree s'.torrent (.buffer buffer') :=
      load_congr decoded decoded' same
    have held := congrArg Loading.held loaded
    exact ⟨congrArg (fun loading : Loading => Reply.torrent loading.ok loading.held) loaded,
      congrArg Loading.lines loaded, held, replies_congr held⟩

/-- Superfluous zeros and unsorted keys under `info`, alone in one buffer; in the other
there is a key in front of them and a byte behind everything. -/
theorem torrent_depends_on_info_bytes_padded :
    let info : Dict := [(⟨2, key "piece length"⟩, .integer 2),
      (⟨0, key "length"⟩, .integer 1),
      (⟨0, key "pieces"⟩, .text ⟨0, List.replicate 20 120⟩)]
    let alone : Dict := [(⟨0, key "info"⟩, .dict info)]
    let framed : Dict :=
      [(⟨0, key "announce"⟩, .text ⟨0, [101]⟩), (⟨0, key "info"⟩, .dict info)]
    let s : Session := { tree := ⟨[], []⟩ }
    let buffer := (Value.dict alone).encode ++ []
    let buffer' := (Value.dict framed).encode ++ [101]
    ∃ (t : Torrent) (front front' span : Bytes),
      Writes buffer (key "info") front span (.dict info) ∧
      Writes buffer' (key "info") front' span (.dict info) ∧
      (s.perform (.loadTorrent (.buffer buffer))).reply = .torrent true (some t) ∧
      t.infoHash = Sha1.hash span ∧
      (s.perform (.loadTorrent (.buffer buffer'))).reply = .torrent true (some t) := by
  intro info alone framed s buffer buffer'
  obtain ⟨front, first⟩ :=
    @Writes.of_encode alone [] (key "info") (.dict info) ⟨by decide, by decide⟩ rfl
  obtain ⟨front', second⟩ :=
    @Writes.of_encode framed [101] (key "info") (.dict info) ⟨by decide, by decide⟩ rfl
  let t : Torrent :=
    { name := [], length := 1, pieceLength := 2, digests := Digest.slices (List.replicate 20 120)
      files := [], infoHash := Sha1.hash (Value.dict info).encode }
  have read : ofDict alone = .ok t := by
    refine ofDict_eq_ok.mpr ⟨info, rfl, ofInfo_eq_ok.mpr ⟨rfl, rfl, rfl, rfl, rfl⟩, ?_⟩
    exact ⟨by decide, by decide, by decide⟩
  have decoded : decode buffer = .ok alone := decode_encode_iff.mpr ⟨by decide, by decide⟩
  have accepted := (accepts_buffer_iff (s := s)).mpr ⟨alone, decoded, read⟩
  obtain ⟨named, others⟩ := torrent_depends_on_info_bytes s s
  obtain ⟨_, body, _, _, only, hash⟩ := named buffer t accepted
  obtain ⟨-, same⟩ := only _ _ _ first
  exact ⟨t, front, front', _, first, second, accepted, same ▸ hash,
    (others _ _ _ _ _ _ _ first second).1 ▸ accepted⟩

end Session

end PieceLedger
