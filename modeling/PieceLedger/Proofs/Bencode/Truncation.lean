import PieceLedger.Proofs.Bencode.Located

/-!
# Truncated buffers

A document ends where it is read to end.  Other bytes behind it change nothing, and
none of its proper front parts is a document, so a buffer that ends too early is
refused wherever it is cut.
-/

namespace PieceLedger.Bencode

theorem Document.length_le {buffer w part : Bytes} {entries others : Dict}
    (document : Document w entries) (begins : w <+: buffer) (front : part <+: buffer)
    (decoded : decode part = .ok others) : w.length ≤ part.length := by
  obtain ⟨u, hu, written⟩ := decode_eq_ok.mp decoded
  obtain ⟨rfl, -⟩ := written.unique (hu.trans front) begins document
  exact hu.length_le

theorem Outcome.replace_nil {outcome : Outcome} (h : outcome.isDecoded = false) :
    outcome.replace [] = [] := by
  cases outcome with
  | unavailable | refused => rfl
  | decoded => cases h

end PieceLedger.Bencode

namespace PieceLedger.Session

open Bencode

theorem loadDict_of_refused {s : Session} {source : Source} (empty : s.dict = [])
    (refused : ∀ bytes entries, source.bytes? s.tree = some bytes →
      decode bytes ≠ .ok entries) :
    (s.perform (.loadDict source)).reply = .dict false [] ∧
      (s.perform (.loadDict source)).session.dict = [] := by
  obtain ⟨outcome, lines, loaded, undecoded⟩ := Source.load_of_undecoded refused
  rw [reply_loadDict, dict_loadDict, loaded, undecoded, empty, Outcome.replace_nil undecoded]
  exact ⟨rfl, rfl⟩

/--
A source is decoded up to some byte `n`.  Any source with the same `n` bytes and
anything behind them is decoded to the same dictionary with the same places, also up
to byte `n`.  A source with fewer of these bytes is refused, and a decoder that had no
dictionary has none after it.
-/
theorem truncation_detected (s : Session) {source : Source} {buffer : Bytes} {entries : Dict}
    (offered : source.bytes? s.tree = some buffer)
    (accepted : (s.perform (.loadDict source)).reply = .dict true entries) :
    ∃ n ≤ buffer.length, ∃ placed,
      readBuffer buffer = .ok (entries, buffer.drop n) ∧
      locateBuffer buffer = .ok (placed, buffer.drop n) ∧
      (∀ (s' : Session) (source' : Source) (t : Bytes),
        source'.bytes? s'.tree = some (buffer.take n ++ t) →
        let outcome := s'.perform (.loadDict source')
        outcome.reply = .dict true entries ∧ outcome.session.dict = entries ∧
          readBuffer (buffer.take n ++ t) = .ok (entries, t) ∧
          locateBuffer (buffer.take n ++ t) = .ok (placed, t)) ∧
      ∀ (s' : Session) (source' : Source) (k : Nat), k < n → s'.dict = [] →
        source'.bytes? s'.tree = some (buffer.take k) →
        let outcome := s'.perform (.loadDict source')
        outcome.reply = .dict false [] ∧ outcome.session.dict = [] := by
  obtain ⟨_, same, decoded⟩ := s.loadDict_ok_iff.mp accepted
  cases offered.symm.trans same
  obtain ⟨w, ⟨rest, rfl⟩, document⟩ := decode_eq_ok.mp decoded
  have read (t : Bytes) : readBuffer (w ++ t) = .ok (entries, t) :=
    readBuffer_eq_ok.mpr ⟨w, rfl, document⟩
  have located (t : Bytes) : locateBuffer (w ++ t) = .ok (placeEntries 1 entries, t) := by
    rw [locateBuffer_eq, read t]
    rfl
  refine ⟨w.length, by rw [List.length_append]; omega, placeEntries 1 entries, ?_, ?_, ?_, ?_⟩
  · rw [List.drop_left, read]
  · rw [List.drop_left, located]
  · intro s' source' t offered'
    rw [List.take_left] at offered' ⊢
    have accepted' := s'.loadDict_ok_iff.mpr
      ⟨_, offered', decode_eq_ok.mpr ⟨w, List.prefix_append w t, document⟩⟩
    exact ⟨accepted', (Reply.dict.inj accepted').2, read t, located t⟩
  · intro s' source' k short empty offered'
    refine loadDict_of_refused empty fun bytes others offered'' decoded' => ?_
    cases offered'.symm.trans offered''
    have whole := document.length_le (List.prefix_append w rest) (List.take_prefix k _) decoded'
    rw [List.length_take] at whole
    omega

/-- Ten bytes and one more, cut before the last of the ten, or with other bytes behind them. -/
theorem truncation_detected_list :
    let entries : Dict := [(⟨0, [97]⟩, .list [.integer 7])]
    let buffer := (Value.dict entries).encode ++ [33]
    let s : Session := { tree := ⟨[], []⟩ }
    Source.bytes? s.tree (.buffer buffer) = some buffer ∧
      (s.perform (.loadDict (.buffer buffer))).reply = .dict true entries ∧
      (s.perform (.loadDict (.buffer (buffer.take 10 ++ [101, 101])))).reply =
          .dict true entries ∧
      (s.perform (.loadDict (.buffer (buffer.take 9)))).reply = .dict false [] := by
  intro entries buffer s
  have limited : (Value.dict entries).distinct = true ∧ (Value.dict entries).nesting ≤ 64 :=
    ⟨by decide, by decide⟩
  have accepted : (s.perform (.loadDict (.buffer buffer))).reply = .dict true entries :=
    s.loadDict_eq_iff.mpr (decode_encode_iff.mpr limited)
  have whole : readBuffer buffer = .ok (entries, [33]) :=
    readBuffer_eq_ok.mpr ⟨_, rfl, document_encode_iff.mpr limited⟩
  obtain ⟨n, -, _, read, -, longer, shorter⟩ := truncation_detected s rfl accepted
  have rest := congrArg (Except.map fun result => result.2.length) (whole.symm.trans read)
  have ends : n = 10 := by
    have lengths : 1 = (buffer.drop n).length := Except.ok.inj rest
    rw [List.length_drop, show buffer.length = 11 by decide] at lengths
    omega
  subst ends
  exact ⟨rfl, accepted, (longer s (.buffer _) [101, 101] rfl).1,
    (shorter s (.buffer _) 9 (by decide) rfl rfl).1⟩

end PieceLedger.Session
