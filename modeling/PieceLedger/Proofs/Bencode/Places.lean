import PieceLedger.Proofs.Bencode.Located

/-!
# The bytes at the place of a value

Every value inside a decoded dictionary stands in the bytes that were read, and the
bytes at its place are exactly those that write it: read alone they give the same
value with the same places inside it.  The places inside a list or dictionary follow
one another without gap from its first byte to its last.
-/

namespace PieceLedger.Bencode

def Span.of (span : Span) (buffer : Bytes) : Bytes := buffer.slice span.offset span.length

/-- `x` is a value of `placed`, inside `depth` lists and dictionaries. -/
inductive Inside (placed : LocatedDict) : Nat → Located → Prop
  | entry {key : Text} {x : Located} : (key, x) ∈ placed → Inside placed 1 x
  | item {depth : Nat} {span : Span} {items : List Located} {x : Located} :
      Inside placed depth (.list span items) → x ∈ items → Inside placed (depth + 1) x
  | value {depth : Nat} {span : Span} {entries : LocatedDict} {key : Text} {x : Located} :
      Inside placed depth (.dict span entries) → (key, x) ∈ entries →
        Inside placed (depth + 1) x

/-- The place of `x`, inside `depth` lists and dictionaries, is that of its encoding among the
first `consumed` bytes of a buffer. -/
structure Exact (buffer : Bytes) (consumed depth : Nat) (x : Located) : Prop where
  within : x.span.offset + x.span.length ≤ consumed
  encoding : x.span.of buffer = x.value.encode
  alone : ∀ around ≤ depth, ∃ y,
    Located.read around (x.span.of buffer) = .ok (y, []) ∧ y.shift x.span.offset = x
  list : ∀ span items, x = .list span items →
    span.of buffer = 108 :: ((items.flatMap fun y => y.span.of buffer) ++ [101])
  dict : ∀ span entries, x = .dict span entries →
    (entries.map (·.1.bytes)).Nodup ∧
      span.of buffer =
        100 :: ((entries.flatMap fun entry => entry.1.encode ++ entry.2.span.of buffer) ++
          [101]) ∧
      ∃ others, locateBuffer (span.of buffer) = .ok (others, []) ∧
        shiftEntries span.offset others = entries
  text : ∀ span content t, x = .text span content t →
    content.offset + content.length = span.offset + span.length ∧
      content.length ≤ span.length ∧ content.of buffer = t.bytes

/-! ## Where values stand -/

theorem Object.items_encode {depth : Nat} {w : Bytes} {items : List Value}
    (h : Object depth w (.list items)) : Items (depth + 1) (encodeItems items) items := by
  cases h with
  | list _ written => rwa [written.encode_eq]

theorem Object.entries_encode {depth : Nat} {w : Bytes} {entries : Dict}
    (h : Object depth w (.dict entries)) :
    Entries (depth + 1) (encodeEntries entries) entries ∧ (keys entries).Nodup := by
  cases h with
  | dict _ written distinct => exact ⟨by rwa [written.encode_eq], distinct⟩

section PlacedAt

variable {start : Nat} {v : Value} {span : Span}

theorem Value.eq_of_placedAt_list {items : List Located} (h : v.placedAt start = .list span items) :
    ∃ inner, v = .list inner ∧ span = ⟨start, v.encode.length⟩ ∧
      items = placeItems (start + 1) inner := by
  cases v <;> simp only [Value.placedAt, reduceCtorEq, Located.list.injEq] at h
  case list inner => exact ⟨inner, rfl, h.1.symm, h.2.symm⟩

theorem Value.eq_of_placedAt_dict {entries : LocatedDict}
    (h : v.placedAt start = .dict span entries) :
    ∃ inner, v = .dict inner ∧ span = ⟨start, v.encode.length⟩ ∧
      entries = placeEntries (start + 1) inner := by
  cases v <;> simp only [Value.placedAt, reduceCtorEq, Located.dict.injEq] at h
  case dict inner => exact ⟨inner, rfl, h.1.symm, h.2.symm⟩

theorem Value.eq_of_placedAt_text {content : Span} {t : Text}
    (h : v.placedAt start = .text span content t) :
    v = .text t ∧ span = ⟨start, t.encode.length⟩ ∧
      content = ⟨start + t.head.length, t.bytes.length⟩ := by
  cases v <;> simp only [Value.placedAt, reduceCtorEq, Located.text.injEq] at h
  case text content =>
    obtain ⟨rfl, rfl, rfl⟩ := h
    exact ⟨rfl, rfl, rfl⟩

end PlacedAt

/-- In `written` there is the encoding of a value that may stand inside `depth` lists and
dictionaries, and `x` is that value at that place. -/
def Stands (written : Bytes) (depth : Nat) (x : Located) : Prop :=
  ∃ before v after, written = before ++ (v.encode ++ after) ∧ x = v.placedAt before.length ∧
    Object depth v.encode v

section Stands

variable {written before after w : Bytes} {depth : Nat} {x : Located}

theorem Items.stands {items : List Value} (h : Items depth w items)
    (shape : written = before ++ (w ++ after)) (member : x ∈ placeItems before.length items) :
    Stands written depth x := by
  induction items generalizing before w with
  | nil => cases member
  | cons v rest ih =>
      cases h with
      | @cons _ w more _ _ object others =>
          rw [List.append_assoc] at shape
          rw [placeItems, List.mem_cons, object.encode_eq] at member
          rcases member with here | behind
          · exact ⟨before, v, more ++ after, by rw [object.encode_eq, shape], here,
              by rwa [object.encode_eq]⟩
          · rw [← List.length_append] at behind
            exact ih others (by rw [shape, List.append_assoc]) behind

theorem Entries.stands {entries : Dict} (h : Entries depth w entries)
    (shape : written = before ++ (w ++ after)) {key : Text}
    (member : (key, x) ∈ placeEntries before.length entries) : Stands written depth x := by
  induction entries generalizing before w with
  | nil => cases member
  | cons entry rest ih =>
      cases h with
      | @cons _ u w more name v _ spelled object others =>
          rw [List.append_assoc, List.append_assoc] at shape
          rw [placeEntries, List.mem_cons, spelled.encode_eq, object.encode_eq,
            ← List.length_append] at member
          rcases member with here | behind
          · cases here
            exact ⟨before ++ u, v, more ++ after,
              by rw [object.encode_eq, shape, List.append_assoc], rfl, by rwa [object.encode_eq]⟩
          · rw [← List.length_append] at behind
            exact ih others (by simp only [shape, List.append_assoc]) behind

end Stands

theorem Document.stands {written : Bytes} {entries : Dict} (document : Document written entries)
    {depth : Nat} {x : Located} (inside : Inside (placeEntries 1 entries) depth x) :
    Stands written depth x := by
  induction inside with
  | entry member =>
      obtain @⟨w, _, inner, -⟩ := document
      exact inner.stands (show _ = [100] ++ (w ++ [101]) from rfl) member
  | item _ member ih =>
      obtain ⟨before, v, after, rfl, placed, object⟩ := ih
      obtain ⟨items, rfl, -, rfl⟩ := Value.eq_of_placedAt_list placed.symm
      have start : before.length + 1 = (before ++ [108]).length := by rw [List.length_append]; rfl
      have shape : before ++ ((Value.list items).encode ++ after) =
          (before ++ [108]) ++ (encodeItems items ++ 101 :: after) := by
        simp only [Value.encode, List.append_assoc, List.cons_append, List.nil_append]
      exact object.items_encode.stands shape (start ▸ member)
  | value _ member ih =>
      obtain ⟨before, v, after, rfl, placed, object⟩ := ih
      obtain ⟨entries, rfl, -, rfl⟩ := Value.eq_of_placedAt_dict placed.symm
      have start : before.length + 1 = (before ++ [100]).length := by rw [List.length_append]; rfl
      have shape : before ++ ((Value.dict entries).encode ++ after) =
          (before ++ [100]) ++ (encodeEntries entries ++ 101 :: after) := by
        simp only [Value.encode, List.append_assoc, List.cons_append, List.nil_append]
      exact object.entries_encode.1.stands shape (start ▸ member)

/-! ## What stands at a place -/

theorem Span.of_append (before w after : Bytes) :
    Span.of ⟨before.length, w.length⟩ (before ++ (w ++ after)) = w := by
  rw [Span.of, Bytes.slice, List.drop_left, List.take_left]

section Parts

variable {buffer before after : Bytes}

theorem flatMap_placeItems {items : List Value}
    (shape : buffer = before ++ (encodeItems items ++ after)) :
    (placeItems before.length items).flatMap (fun y => y.span.of buffer) = encodeItems items := by
  induction items generalizing before with
  | nil => rw [placeItems, encodeItems, List.flatMap_nil]
  | cons v rest ih =>
      rw [encodeItems, List.append_assoc] at shape
      have here := Span.of_append before v.encode (encodeItems rest ++ after)
      have behind := @ih (before ++ v.encode) (by rw [shape, List.append_assoc])
      rw [List.length_append] at behind
      rw [placeItems, encodeItems, List.flatMap_cons, Value.span_placedAt, behind, shape, here]

theorem flatMap_placeEntries {entries : Dict}
    (shape : buffer = before ++ (encodeEntries entries ++ after)) :
    (placeEntries before.length entries).flatMap
        (fun entry => entry.1.encode ++ entry.2.span.of buffer) = encodeEntries entries := by
  induction entries generalizing before with
  | nil => rw [placeEntries, encodeEntries, List.flatMap_nil]
  | cons entry rest ih =>
      obtain ⟨key, v⟩ := entry
      rw [encodeEntries, List.append_assoc, List.append_assoc, ← List.append_assoc] at shape
      have here := Span.of_append (before ++ key.encode) v.encode (encodeEntries rest ++ after)
      have behind := @ih (before ++ key.encode ++ v.encode)
        (by simp only [shape, List.append_assoc])
      rw [← shape, List.length_append] at here
      rw [List.length_append, List.length_append] at behind
      rw [placeEntries, encodeEntries, List.flatMap_cons, Value.span_placedAt, here, behind,
        List.append_assoc]

theorem Value.encode_list_eq {items : List Value}
    (shape : buffer = before ++ ((Value.list items).encode ++ after)) :
    (Value.list items).encode =
      108 :: (((placeItems (before.length + 1) items).flatMap fun y => y.span.of buffer) ++
        [101]) := by
  rw [Value.encode] at shape ⊢
  have inner : buffer = (before ++ [108]) ++ (encodeItems items ++ 101 :: after) := by
    simp only [shape, List.append_assoc, List.cons_append, List.nil_append]
  have parts := flatMap_placeItems inner
  rw [List.length_append, List.length_singleton] at parts
  rw [parts]

theorem Value.encode_dict_eq {entries : Dict}
    (shape : buffer = before ++ ((Value.dict entries).encode ++ after)) :
    (Value.dict entries).encode =
      100 :: (((placeEntries (before.length + 1) entries).flatMap
        fun entry => entry.1.encode ++ entry.2.span.of buffer) ++ [101]) := by
  rw [Value.encode] at shape ⊢
  have inner : buffer = (before ++ [100]) ++ (encodeEntries entries ++ 101 :: after) := by
    simp only [shape, List.append_assoc, List.cons_append, List.nil_append]
  have parts := flatMap_placeEntries inner
  rw [List.length_append, List.length_singleton] at parts
  rw [parts]

end Parts

theorem map_key_placeEntries (start : Nat) (entries : Dict) :
    (placeEntries start entries).map (·.1.bytes) = keys entries := by
  induction entries generalizing start with
  | nil => rw [placeEntries, keys, List.map_nil, List.map_nil]
  | cons entry rest ih => exact congrArg (entry.1.bytes :: ·) (ih _)

theorem Located.read_encode {around : Nat} {v : Value} (h : Object around v.encode v) :
    Located.read around v.encode = .ok (v.placedAt 0, []) := by
  have read : readValue v.encode.length (2 * v.encode.length) around (v.encode ++ []) =
      .ok (v, []) := h.read (Nat.le_refl _) (Nat.le_refl _) []
  rw [List.append_nil] at read
  rw [Located.read, (locatesWith _ _).value _ _ (Nat.le_refl _), read, Nat.sub_self]
  rfl

theorem Object.outward {depth around : Nat} {v : Value} (h : Object depth v.encode v)
    (fewer : around ≤ depth) : Object around v.encode v := by
  obtain ⟨distinct, within⟩ := h.limited
  exact v.object distinct (by omega)

theorem locateBuffer_encode {depth : Nat} {w : Bytes} {entries : Dict}
    (h : Object depth w (.dict entries)) :
    locateBuffer (Value.dict entries).encode = .ok (placeEntries 1 entries, []) := by
  obtain ⟨distinct, within⟩ := h.limited
  have document := document_encode_iff.mpr ⟨distinct, by omega⟩
  rw [locateBuffer_eq, readBuffer_eq_ok.mpr ⟨_, (List.append_nil _).symm, document⟩]
  rfl

theorem Stands.exact {written : Bytes} {depth : Nat} {x : Located} (h : Stands written depth x)
    (rest : Bytes) : Exact (written ++ rest) written.length depth x := by
  obtain ⟨before, v, after, rfl, rfl, object⟩ := h
  generalize buffer_eq : before ++ (v.encode ++ after) ++ rest = buffer
  have shape : buffer = before ++ (v.encode ++ (after ++ rest)) := by
    simp only [← buffer_eq, List.append_assoc]
  have span := v.span_placedAt before.length
  have own : (v.placedAt before.length).span.of buffer = v.encode := by
    rw [span, shape, Span.of_append]
  constructor
  case within =>
    simp only [span, List.length_append]
    omega
  case encoding => rw [own, v.value_placedAt]
  case alone =>
    intro around fewer
    refine ⟨v.placedAt 0, ?_, ?_⟩
    · rw [own, Located.read_encode (object.outward fewer)]
    · rw [span, v.shift_placedAt, Nat.zero_add]
  case list =>
    intro place items placed
    rw [placed] at own
    obtain ⟨inner, rfl, -, rfl⟩ := Value.eq_of_placedAt_list placed
    exact own.trans (Value.encode_list_eq shape)
  case dict =>
    intro place entries placed
    rw [placed] at own
    obtain ⟨inner, rfl, rfl, rfl⟩ := Value.eq_of_placedAt_dict placed
    refine ⟨?_, own.trans (Value.encode_dict_eq shape), placeEntries 1 inner, ?_, ?_⟩
    · rw [map_key_placeEntries]
      exact object.entries_encode.2
    · exact (congrArg locateBuffer own).trans (locateBuffer_encode object)
    · rw [shiftEntries_placeEntries, Nat.add_comm]
  case text =>
    intro place content t placed
    obtain ⟨rfl, rfl, rfl⟩ := Value.eq_of_placedAt_text placed
    have encoded : (Value.text t).encode = t.head ++ t.bytes := by rw [Value.encode, t.encode_eq]
    have inner : buffer = (before ++ t.head) ++ (t.bytes ++ (after ++ rest)) := by
      simp only [shape, encoded, List.append_assoc]
    have here := Span.of_append (before ++ t.head) t.bytes (after ++ rest)
    rw [← inner, List.length_append] at here
    simp only [t.encode_eq, List.length_append]
    exact ⟨by omega, by omega, here⟩

end PieceLedger.Bencode

namespace PieceLedger.Session

open Bencode

/--
A buffer that is decoded is decoded with places as well, to the same dictionary and
up to the same byte.  The place of every value inside, at any depth, is exact.
-/
theorem places_exact (s : Session) {buffer : Bytes} {entries : Dict}
    (accepted : (s.perform (.loadDict (.buffer buffer))).reply = .dict true entries) :
    ∃ placed rest, readBuffer buffer = .ok (entries, rest) ∧
      locateBuffer buffer = .ok (placed, rest) ∧ unplaced placed = entries ∧
      ∀ depth x, Inside placed depth x →
        Exact buffer (buffer.length - rest.length) depth x := by
  obtain ⟨w, ⟨rest, rfl⟩, document⟩ := decode_eq_ok.mp (s.loadDict_eq_iff.mp accepted)
  have read : readBuffer (w ++ rest) = .ok (entries, rest) :=
    readBuffer_eq_ok.mpr ⟨w, rfl, document⟩
  refine ⟨placeEntries 1 entries, rest, read, ?_, unplaced_placeEntries 1 entries, ?_⟩
  · rw [locateBuffer_eq, read]
    rfl
  · intro depth x inside
    rw [List.length_append, Nat.add_sub_cancel]
    exact (document.stands inside).exact rest

/-- A dictionary in a list, behind a length with a superfluous zero; a byte follows the document. -/
theorem places_exact_nested :
    let entries : Dict :=
      [(⟨0, [107]⟩, .list [.text ⟨1, [97]⟩, .dict [(⟨0, [98]⟩, .integer 42)]])]
    let buffer := (Value.dict entries).encode ++ [33]
    let s : Session := { tree := ⟨[], []⟩ }
    let x : Located := .dict ⟨9, 9⟩ [(⟨0, [98]⟩, .integer ⟨13, 4⟩ 42)]
    (s.perform (.loadDict (.buffer buffer))).reply = .dict true entries ∧
      ∃ placed, locateBuffer buffer = .ok (placed, [33]) ∧ Inside placed 2 x ∧
        Exact buffer 20 2 x := by
  intro entries buffer s x
  have accepted : (s.perform (.loadDict (.buffer buffer))).reply = .dict true entries :=
    s.loadDict_eq_iff.mpr (decode_encode_iff.mpr ⟨by decide, by decide⟩)
  have whole : readBuffer buffer = .ok (entries, [33]) :=
    readBuffer_eq_ok.mpr ⟨_, rfl, document_encode_iff.mpr ⟨by decide, by decide⟩⟩
  obtain ⟨placed, rest, read, located, -, exact⟩ := places_exact s accepted
  cases whole.symm.trans read
  have inside : Inside placed 2 x := by
    rw [locateBuffer_eq, whole] at located
    cases located
    exact .item (.entry (List.mem_cons_self ..)) (List.mem_cons_of_mem _ (List.mem_cons_self ..))
  exact ⟨accepted, placed, located, inside, exact 2 x inside⟩

end PieceLedger.Session
