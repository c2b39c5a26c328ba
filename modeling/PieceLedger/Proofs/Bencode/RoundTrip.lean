import PieceLedger.Proofs.Bencode.Spans

/-!
# Encoding and decoding

Whatever has distinct keys and is not nested too deeply is read back from its
encoding, in any order of keys and in front of any other bytes.  Reading forgets
nothing, so the converse is about what a dictionary means: its canonical form has
no superfluous zeros and its keys in ascending order, and a tidy document, which
is written in that way, is the encoding of its canonical form.
-/

namespace PieceLedger.Bencode

open Decimal

/-! ## Values that can be read back -/

mutual

/-- The number of lists and dictionaries around what is enclosed by most of them. -/
def Value.nesting : Value → Nat
  | .text _ => 0
  | .integer _ => 0
  | .list items => nestingItems items
  | .dict entries => nestingEntries entries

def nestingItems : List Value → Nat
  | [] => 0
  | v :: rest => max (v.nesting + 1) (nestingItems rest)

def nestingEntries : List (Text × Value) → Nat
  | [] => 0
  | (_, v) :: rest => max (v.nesting + 1) (nestingEntries rest)

end

mutual

def Value.distinct : Value → Bool
  | .text _ => true
  | .integer _ => true
  | .list items => distinctItems items
  | .dict entries => decide (keys entries).Nodup && distinctEntries entries

def distinctItems : List Value → Bool
  | [] => true
  | v :: rest => v.distinct && distinctItems rest

def distinctEntries : List (Text × Value) → Bool
  | [] => true
  | (_, v) :: rest => v.distinct && distinctEntries rest

end

theorem Text.spells (t : Text) : Spells t.encode t := by
  have digits : Digits (List.replicate t.zeros 48 ++ write t.bytes.length) := by
    rw [Digits.append]
    refine ⟨fun c hc => ?_, digits_write _⟩
    rw [List.eq_of_mem_replicate hc]
    rfl
  have nonempty : List.replicate t.zeros 48 ++ write t.bytes.length ≠ [] := by
    simp [write_ne_nil]
  have size : Decimal.value (List.replicate t.zeros 48 ++ write t.bytes.length) =
      t.bytes.length := by
    rw [value_replicate_zero, value_write]
  have zeros := superfluous_add_length nonempty digits
  rw [size, List.length_append, List.length_replicate, Nat.add_right_cancel_iff] at zeros
  have spelled := Spells.intro nonempty digits size
  rwa [zeros, List.append_assoc] at spelled

mutual

theorem Value.object {depth : Nat} (v : Value) (distinct : v.distinct = true)
    (within : depth + v.nesting ≤ 64) : Object depth v.encode v := by
  match v with
  | .text t => exact .text within t.spells
  | .integer n =>
      rw [Value.encode]
      exact .integer within (spellsInt_iff.mpr rfl)
  | .list items =>
      rw [Value.encode]
      exact .list (by omega) (items_encode items distinct within)
  | .dict entries =>
      rw [Value.distinct, Bool.and_eq_true, decide_eq_true_eq] at distinct
      rw [Value.encode]
      exact .dict (by omega) (entries_encode entries distinct.2 within) distinct.1

theorem items_encode {depth : Nat} (items : List Value) (distinct : distinctItems items = true)
    (within : depth + nestingItems items ≤ 64) : Items (depth + 1) (encodeItems items) items := by
  match items with
  | [] => exact .nil
  | v :: rest =>
      rw [distinctItems, Bool.and_eq_true] at distinct
      rw [nestingItems] at within
      rw [encodeItems]
      exact .cons (v.object distinct.1 (by omega)) (items_encode rest distinct.2 (by omega))

theorem entries_encode {depth : Nat} (entries : Dict) (distinct : distinctEntries entries = true)
    (within : depth + nestingEntries entries ≤ 64) :
    Entries (depth + 1) (encodeEntries entries) entries := by
  match entries with
  | [] => exact .nil
  | (key, v) :: rest =>
      rw [distinctEntries, Bool.and_eq_true] at distinct
      rw [nestingEntries] at within
      rw [encodeEntries]
      exact .cons key.spells (v.object distinct.1 (by omega))
        (entries_encode rest distinct.2 (by omega))

end

mutual

theorem Object.limited {depth : Nat} {w : Bytes} {v : Value} (h : Object depth w v) :
    v.distinct = true ∧ depth + v.nesting ≤ 64 := by
  match h with
  | .text within _ | .integer within _ =>
      rw [Value.distinct, Value.nesting]
      exact ⟨rfl, within⟩
  | .list within items =>
      rw [Value.distinct, Value.nesting]
      exact items.limited within
  | .dict within entries distinct =>
      rw [Value.distinct, Value.nesting, decide_eq_true distinct, Bool.true_and]
      exact entries.limited within

theorem Items.limited {depth : Nat} {w : Bytes} {items : List Value}
    (h : Items (depth + 1) w items) (within : depth ≤ 64) :
    distinctItems items = true ∧ depth + nestingItems items ≤ 64 := by
  match h with
  | .nil =>
      rw [distinctItems, nestingItems]
      exact ⟨rfl, within⟩
  | .cons object others =>
      obtain ⟨here, below⟩ := object.limited
      obtain ⟨rest, belowRest⟩ := others.limited within
      rw [distinctItems, nestingItems, here, rest]
      exact ⟨rfl, by omega⟩

theorem Entries.limited {depth : Nat} {w : Bytes} {entries : Dict}
    (h : Entries (depth + 1) w entries) (within : depth ≤ 64) :
    distinctEntries entries = true ∧ depth + nestingEntries entries ≤ 64 := by
  match h with
  | .nil =>
      rw [distinctEntries, nestingEntries]
      exact ⟨rfl, within⟩
  | .cons _ object others =>
      obtain ⟨here, below⟩ := object.limited
      obtain ⟨rest, belowRest⟩ := others.limited within
      rw [distinctEntries, nestingEntries, here, rest]
      exact ⟨rfl, by omega⟩

end

theorem document_encode_iff {entries : Dict} :
    Document (Value.dict entries).encode entries ↔
      (Value.dict entries).distinct = true ∧ (Value.dict entries).nesting ≤ 64 := by
  rw [Value.distinct, Value.nesting, Value.encode, Bool.and_eq_true, decide_eq_true_eq]
  constructor
  · intro h
    generalize shape : 100 :: (encodeEntries entries ++ [101]) = w at h
    obtain ⟨written, distinct⟩ := h
    obtain ⟨others, within⟩ := written.limited (Nat.zero_le _)
    exact ⟨⟨distinct, others⟩, by omega⟩
  · rintro ⟨⟨distinct, others⟩, within⟩
    exact .intro (entries_encode entries others (by omega)) distinct

theorem Writes.of_encode {entries : Dict} {rest name : Bytes} {v : Value}
    (limited : (Value.dict entries).distinct = true ∧ (Value.dict entries).nesting ≤ 64)
    (found : entries.find? name = some v) :
    ∃ front, Writes ((Value.dict entries).encode ++ rest) name front v.encode v := by
  obtain ⟨front, span, writes⟩ := Writes.of_document (List.prefix_append _ rest)
    (document_encode_iff.mpr limited) found
  exact ⟨front, writes.span_eq ▸ writes⟩

/-- Decoding gives an encoded dictionary back, whatever follows it, exactly if the
grammar allows it. -/
theorem decode_encode_iff {entries : Dict} {rest : Bytes} :
    decode ((Value.dict entries).encode ++ rest) = .ok entries ↔
      (Value.dict entries).distinct = true ∧ (Value.dict entries).nesting ≤ 64 := by
  rw [← document_encode_iff, decode_eq_ok]
  constructor
  · rintro ⟨w, -, written⟩
    rwa [written.encode_eq]
  · intro written
    exact ⟨_, List.prefix_append _ _, written⟩

theorem decode_encode {entries : Dict} (distinct : (Value.dict entries).distinct = true)
    (within : (Value.dict entries).nesting ≤ 64) :
    decode (Value.dict entries).encode = .ok entries := by
  rw [← List.append_nil (Value.encode _)]
  exact decode_encode_iff.mpr ⟨distinct, within⟩

/-! ## Canonical forms -/

mutual

def Value.canonical : Value → Value
  | .text t => .text ⟨0, t.bytes⟩
  | .integer n => .integer n
  | .list items => .list (canonicalItems items)
  | .dict entries => .dict (Dict.sorted (canonicalEntries entries))

def canonicalItems : List Value → List Value
  | [] => []
  | v :: rest => v.canonical :: canonicalItems rest

def canonicalEntries : List (Text × Value) → List (Text × Value)
  | [] => []
  | (key, v) :: rest => (⟨0, key.bytes⟩, v.canonical) :: canonicalEntries rest

end

mutual

/-- No length has superfluous zeros, and the keys of every dictionary ascend. -/
def Value.tidy : Value → Bool
  | .text t => t.zeros = 0
  | .integer _ => true
  | .list items => tidyItems items
  | .dict entries => decide ((keys entries).Pairwise (· < ·)) && tidyEntries entries

def tidyItems : List Value → Bool
  | [] => true
  | v :: rest => v.tidy && tidyItems rest

def tidyEntries : List (Text × Value) → Bool
  | [] => true
  | (key, v) :: rest => key.zeros = 0 && v.tidy && tidyEntries rest

end

theorem Dict.sorted_of_ascending {entries : Dict} (h : (keys entries).Pairwise (· < ·)) :
    Dict.sorted entries = entries := by
  rw [keys, List.pairwise_map] at h
  apply List.mergeSort_of_pairwise
  exact h.imp fun before => decide_eq_true (List.le_of_lt before)

mutual

theorem Value.canonical_of_tidy (v : Value) (h : v.tidy = true) : v.canonical = v := by
  match v with
  | .text ⟨zeros, bytes⟩ =>
      rw [Value.tidy, decide_eq_true_eq] at h
      rw [Value.canonical]
      exact congrArg (fun zeros => Value.text ⟨zeros, bytes⟩) h.symm
  | .integer n => rw [Value.canonical]
  | .list items => rw [Value.canonical, canonicalItems_of_tidy items h]
  | .dict entries =>
      rw [Value.tidy, Bool.and_eq_true, decide_eq_true_eq] at h
      rw [Value.canonical, canonicalEntries_of_tidy entries h.2, Dict.sorted_of_ascending h.1]

theorem canonicalItems_of_tidy (items : List Value) (h : tidyItems items = true) :
    canonicalItems items = items := by
  match items with
  | [] => rw [canonicalItems]
  | v :: rest =>
      rw [tidyItems, Bool.and_eq_true] at h
      rw [canonicalItems, v.canonical_of_tidy h.1, canonicalItems_of_tidy rest h.2]

theorem canonicalEntries_of_tidy (entries : Dict) (h : tidyEntries entries = true) :
    canonicalEntries entries = entries := by
  match entries with
  | [] => rw [canonicalEntries]
  | (⟨zeros, bytes⟩, v) :: rest =>
      rw [tidyEntries, Bool.and_eq_true, Bool.and_eq_true, decide_eq_true_eq] at h
      obtain ⟨⟨rfl, tidy⟩, others⟩ := h
      rw [canonicalEntries, v.canonical_of_tidy tidy, canonicalEntries_of_tidy rest others]

end

end PieceLedger.Bencode

namespace PieceLedger.Session

open Bencode

theorem loadDict_eq_iff (s : Session) {buffer : Bytes} {entries : Dict} :
    (s.perform (.loadDict (.buffer buffer))).reply = .dict true entries ↔
      decode buffer = .ok entries := by
  simp only [loadDict_ok_iff, Source.bytes?, Option.some.injEq, exists_eq_left']

/--
A dictionary is decoded from its encoding, in whatever order its keys are written
and whatever follows it, exactly if no dictionary in it has a key twice and no value
in it is inside more than 64 lists and dictionaries.  The bytes that are read from a
buffer with ascending keys and without superfluous zeros are the encoding of what
is then held, in order of keys.
-/
theorem decoder_inverts_encoder (s : Session) :
    (∀ (entries : Dict) (rest : Bytes),
      let outcome := s.perform (.loadDict (.buffer ((Value.dict entries).encode ++ rest)))
      outcome.reply = .dict true entries ∧ outcome.session.dict = entries ↔
        (Value.dict entries).distinct = true ∧ (Value.dict entries).nesting ≤ 64) ∧
    ∀ (buffer : Bytes) (entries : Dict),
      (s.perform (.loadDict (.buffer buffer))).reply = .dict true entries →
      (Value.dict entries).tidy = true →
      ∃ rest, readBuffer buffer = .ok (entries, rest) ∧
        buffer = (Value.dict entries).canonical.encode ++ rest := by
  constructor
  · intro entries rest outcome
    rw [← decode_encode_iff, ← s.loadDict_eq_iff]
    refine ⟨And.left, fun accepted => ⟨accepted, ?_⟩⟩
    exact (Reply.dict.inj accepted).2
  · intro buffer entries accepted tidy
    obtain ⟨w, ⟨rest, rfl⟩, written⟩ := decode_eq_ok.mp (s.loadDict_eq_iff.mp accepted)
    refine ⟨rest, readBuffer_eq_ok.mpr ⟨w, rfl, written⟩, ?_⟩
    rw [Value.canonical_of_tidy _ tidy, written.encode_eq]

/--
Keys out of order, a byte string of delimiters, and the least integer, with a
zero and a letter behind them; and two ascending keys with a letter behind them.
-/
theorem decoder_inverts_encoder_delimiters :
    let mixed : Dict := [(⟨0, [122]⟩, .text ⟨0, [101, 58, 0, 105]⟩),
      (⟨0, [97]⟩, .list [.integer Int64.minValue, .dict [(⟨0, []⟩, .list [])]])]
    let ordered : Dict := [(⟨0, [97]⟩, .integer 7), (⟨0, [98]⟩, .text ⟨0, []⟩)]
    let s : Session := { tree := ⟨[], []⟩ }
    let buffer := Bytes.ofString "d1:ai7e1:b0:ex"
    (s.perform (.loadDict (.buffer ((Value.dict mixed).encode ++ [48, 120])))).reply =
        .dict true mixed ∧
      ∃ rest, readBuffer buffer = .ok (ordered, rest) ∧
        buffer = (Value.dict ordered).canonical.encode ++ rest := by
  intro mixed ordered s buffer
  have inverts := decoder_inverts_encoder s
  have back := (inverts.1 mixed [48, 120]).mpr ⟨by decide, by decide⟩
  have held := (inverts.1 ordered [120]).mpr ⟨by decide, by decide⟩
  have written : buffer = (Value.dict ordered).encode ++ [120] := by decide
  exact ⟨back.1, inverts.2 buffer ordered (written ▸ held.1) (by decide)⟩

end PieceLedger.Session
