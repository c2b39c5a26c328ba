import PieceLedger.Bencode.Located
import PieceLedger.Proofs.Bencode.RoundTrip
import PieceLedger.Proofs.Bytes.Slice

/-!
# The places of values

The readers that note places agree with the readers that do not, and every place
they note is that of the encoding of the value noted there.  So the bytes at the
place of a value are enough to read it again, alone and with the same places inside
it, whatever stood around them.
-/

namespace PieceLedger.Bencode

open Decimal

/-! ## What is read is an encoding -/

section Encodings

variable {size fuel depth : Nat} {bytes rest : Bytes}

theorem readText_eq_encode {t : Text} (h : readText size bytes = .ok (t, rest)) :
    bytes = t.encode ++ rest := by
  obtain ⟨w, rfl, spelled⟩ := readText_sound size _ _ _ h
  rw [spelled.encode_eq]

theorem readInteger_eq_encode {n : Int64} (h : readInteger bytes = .ok (n, rest)) :
    105 :: bytes = (Value.integer n).encode ++ rest := by
  obtain ⟨_, rfl, w, rfl, spelled⟩ := readInteger_sound _ _ _ h
  rw [Value.encode, ← spellsInt_iff.mp spelled, List.cons_append]

theorem readValue_eq_encode {v : Value} (h : readValue size fuel depth bytes = .ok (v, rest)) :
    bytes = v.encode ++ rest := by
  obtain ⟨w, rfl, object⟩ := (soundWith size fuel).value _ _ _ _ h
  rw [object.encode_eq]

theorem readItems_eq_encode {before items : List Value}
    (h : readItems size fuel depth before bytes = .ok (items, rest)) :
    ∃ new, items = before.reverse ++ new ∧ bytes = encodeItems new ++ 101 :: rest := by
  obtain ⟨_, rfl, w, new, rfl, rfl, written⟩ := (soundWith size fuel).items _ _ _ _ _ h
  exact ⟨new, rfl, by rw [written.encode_eq, List.append_assoc, List.singleton_append]⟩

theorem readEntries_eq_encode {before entries : Dict} (distinct : (keys before).Nodup)
    (h : readEntries size fuel depth before bytes = .ok (entries, rest)) :
    ∃ new, entries = before.reverse ++ new ∧ bytes = encodeEntries new ++ 101 :: rest := by
  obtain ⟨_, rfl, w, new, rfl, rfl, written, -⟩ :=
    (soundWith size fuel).entries _ _ distinct _ _ _ h
  exact ⟨new, rfl, by rw [written.encode_eq, List.append_assoc, List.singleton_append]⟩

end Encodings

/-! ## Places of encodings -/

def Text.head (t : Text) : Bytes :=
  List.replicate t.zeros 48 ++ (write t.bytes.length ++ [58])

theorem Text.encode_eq (t : Text) : t.encode = t.head ++ t.bytes := by
  rw [Text.encode, Text.head, List.append_assoc, List.append_assoc, List.singleton_append]

mutual

def Value.placedAt (start : Nat) : Value → Located
  | .text t => .text ⟨start, t.encode.length⟩ ⟨start + t.head.length, t.bytes.length⟩ t
  | .integer n => .integer ⟨start, (Value.integer n).encode.length⟩ n
  | .list items =>
      .list ⟨start, (Value.list items).encode.length⟩ (placeItems (start + 1) items)
  | .dict entries =>
      .dict ⟨start, (Value.dict entries).encode.length⟩ (placeEntries (start + 1) entries)

def placeItems (start : Nat) : List Value → List Located
  | [] => []
  | v :: rest => v.placedAt start :: placeItems (start + v.encode.length) rest

def placeEntries (start : Nat) : Dict → LocatedDict
  | [] => []
  | (key, v) :: rest =>
      (key, v.placedAt (start + key.encode.length)) ::
        placeEntries (start + key.encode.length + v.encode.length) rest

end

theorem Value.span_placedAt (start : Nat) (v : Value) :
    (v.placedAt start).span = ⟨start, v.encode.length⟩ := by
  cases v <;> simp only [Value.placedAt, Located.span, Value.encode]

mutual

theorem Value.value_placedAt (start : Nat) (v : Value) : (v.placedAt start).value = v := by
  match v with
  | .text t | .integer n => rw [Value.placedAt, Located.value]
  | .list items => rw [Value.placedAt, Located.value, valuesOf_placeItems]
  | .dict entries => rw [Value.placedAt, Located.value, unplaced_placeEntries]

theorem valuesOf_placeItems (start : Nat) (items : List Value) :
    valuesOf (placeItems start items) = items := by
  match items with
  | [] => rw [placeItems, valuesOf]
  | v :: rest => rw [placeItems, valuesOf, v.value_placedAt, valuesOf_placeItems]

theorem unplaced_placeEntries (start : Nat) (entries : Dict) :
    unplaced (placeEntries start entries) = entries := by
  match entries with
  | [] => rw [placeEntries, unplaced]
  | (key, v) :: rest => rw [placeEntries, unplaced, v.value_placedAt, unplaced_placeEntries]

end

mutual

theorem Value.shift_placedAt (distance start : Nat) (v : Value) :
    (v.placedAt start).shift distance = v.placedAt (start + distance) := by
  match v with
  | .text t =>
      rw [Value.placedAt, Value.placedAt, Located.shift, Span.shift, Span.shift,
        Nat.add_right_comm]
  | .integer n => rw [Value.placedAt, Value.placedAt, Located.shift, Span.shift]
  | .list items =>
      rw [Value.placedAt, Value.placedAt, Located.shift, Span.shift, shiftItems_placeItems,
        Nat.add_right_comm]
  | .dict entries =>
      rw [Value.placedAt, Value.placedAt, Located.shift, Span.shift, shiftEntries_placeEntries,
        Nat.add_right_comm]

theorem shiftItems_placeItems (distance start : Nat) (items : List Value) :
    shiftItems distance (placeItems start items) = placeItems (start + distance) items := by
  match items with
  | [] => rw [placeItems, placeItems, shiftItems]
  | v :: rest =>
      rw [placeItems, placeItems, shiftItems, v.shift_placedAt, shiftItems_placeItems,
        Nat.add_right_comm]

theorem shiftEntries_placeEntries (distance start : Nat) (entries : Dict) :
    shiftEntries distance (placeEntries start entries) =
      placeEntries (start + distance) entries := by
  match entries with
  | [] => rw [placeEntries, placeEntries, shiftEntries]
  | (key, v) :: rest =>
      rw [placeEntries, placeEntries, shiftEntries, v.shift_placedAt, shiftEntries_placeEntries]
      simp only [Nat.add_right_comm _ distance]

end

/-! ## The readers note these places -/

theorem Span.between_eq {size : Nat} {bytes w rest : Bytes} (h : bytes = w ++ rest) :
    Span.between size bytes rest = ⟨size - bytes.length, w.length⟩ := by
  simp only [Span.between, h, List.length_append, Nat.add_sub_cancel]

theorem locateText_eq {size : Nat} {bytes : Bytes} (fits : bytes.length ≤ size) :
    locateText size bytes = (readText size bytes).map fun (t, rest) =>
      ((t, ⟨size - bytes.length + t.head.length, t.bytes.length⟩), rest) := by
  rw [locateText, readText]
  generalize found : readLength size 0 0 bytes = length
  split
  case h_1 | h_2 => rfl
  case h_4 => simp only [Except.map]
  case h_3 length count after hcount =>
    simp only
    cases content : readContent (count - (write length).length) length after with
    | error fault => rfl
    | ok read =>
        obtain ⟨t, rest⟩ := read
        obtain ⟨digits, rfl, hdigits, rfl, hnumber⟩ := readLength_sound found
        obtain ⟨rfl, hzeros, hbytes⟩ := readContent_sound content
        rw [Nat.zero_add] at hnumber
        have nonempty : digits ≠ [] := by
          rintro rfl
          exact hcount hnumber
        have split : superfluous digits + (write (valueFrom 0 digits)).length = digits.length :=
          superfluous_add_length nonempty hdigits
        have head : t.head.length = digits.length + 1 := by
          simp only [Text.head, hzeros, hbytes, List.length_append, List.length_replicate,
            List.length_singleton]
          omega
        have place : size - (t.bytes ++ rest).length =
            size - (digits ++ 58 :: (t.bytes ++ rest)).length + t.head.length := by
          simp only [List.length_append, List.length_cons] at fits ⊢
          omega
        simp only [Except.map, Span.between_eq rfl, place]

theorem drop_reverse_append {α : Type} (before after : List α) :
    (before.reverse ++ after).drop before.length = after :=
  List.drop_left' List.length_reverse

theorem any_key_map {α : Type} (entries : List (Text × α)) (key : Bytes) :
    (entries.any fun entry => entry.1.bytes = key) =
      (entries.map fun entry => entry.1.bytes).any fun other => other = key := by
  rw [List.any_map]
  rfl

structure LocatesWith (size fuel : Nat) : Prop where
  value : ∀ (depth : Nat) (bytes : Bytes), bytes.length ≤ size →
    locateValue size fuel depth bytes =
      (readValue size fuel depth bytes).map fun (v, rest) =>
        (v.placedAt (size - bytes.length), rest)
  items : ∀ (depth : Nat) (before : List Value) (placed : List Located) (bytes : Bytes),
    bytes.length ≤ size →
    locateItems size fuel depth placed bytes =
      (readItems size fuel depth before bytes).map fun (items, rest) =>
        (placed.reverse ++ placeItems (size - bytes.length) (items.drop before.length), rest)
  entries : ∀ (depth : Nat) (before : Dict) (placed : LocatedDict) (bytes : Bytes),
    bytes.length ≤ size → (keys before).Nodup → placed.map (·.1.bytes) = keys before →
    locateEntries size fuel depth placed bytes =
      (readEntries size fuel depth before bytes).map fun (entries, rest) =>
        (placed.reverse ++ placeEntries (size - bytes.length) (entries.drop before.length), rest)

namespace LocatesWith

variable {size fuel : Nat}

theorem value_succ (ih : LocatesWith size fuel) (depth : Nat) (bytes : Bytes)
    (fits : bytes.length ≤ size) :
    locateValue size (fuel + 1) depth bytes =
      (readValue size (fuel + 1) depth bytes).map fun (v, rest) =>
        (v.placedAt (size - bytes.length), rest) := by
  by_cases deep : maxDepth < depth
  · simp only [locateValue, readValue, if_pos deep, Except.map]
  simp only [locateValue, readValue, if_neg deep]
  cases bytes with
  | nil => rfl
  | cons c more =>
      have behind : more.length ≤ size := Nat.le_of_succ_le fits
      have next : size - (c :: more).length + 1 = size - more.length := by
        rw [List.length_cons] at fits ⊢
        omega
      by_cases digit : isDigit c = true
      · simp only [if_pos digit, locateText_eq fits]
        cases text : readText size (c :: more) with
        | error fault => rfl
        | ok read =>
            obtain ⟨t, rest⟩ := read
            simp only [Except.map, Value.placedAt, Span.between_eq (readText_eq_encode text)]
      simp only [if_neg digit]
      by_cases kind : c = 105
      · subst kind
        cases integer : readInteger more with
        | error fault => rfl
        | ok read =>
            obtain ⟨n, rest⟩ := read
            have written := readInteger_eq_encode integer
            simp only [Except.map, Value.placedAt, Span.between_eq written, if_pos]
      simp only [if_neg kind]
      by_cases kind : c = 108
      · subst kind
        simp only [if_pos, ih.items _ [] [] more behind]
        cases list : readItems size fuel (depth + 1) [] more with
        | error fault => rfl
        | ok read =>
            obtain ⟨items, rest⟩ := read
            obtain ⟨_, rfl, inner⟩ := readItems_eq_encode list
            have written : 108 :: more = (Value.list items).encode ++ rest := by
              rw [inner, Value.encode, List.cons_append, List.append_assoc]
              rfl
            simp only [Except.map, Value.placedAt, next, List.reverse_nil, List.nil_append,
              List.length_nil, List.drop_zero, Span.between_eq written]
      simp only [if_neg kind]
      by_cases kind : c = 100
      · subst kind
        simp only [if_pos, ih.entries _ [] [] more behind List.nodup_nil rfl]
        cases dict : readEntries size fuel (depth + 1) [] more with
        | error fault => rfl
        | ok read =>
            obtain ⟨entries, rest⟩ := read
            have distinct : (keys []).Nodup := List.nodup_nil
            obtain ⟨_, rfl, inner⟩ := readEntries_eq_encode distinct dict
            have written : 100 :: more = (Value.dict entries).encode ++ rest := by
              rw [inner, Value.encode, List.cons_append, List.append_assoc]
              rfl
            simp only [Except.map, Value.placedAt, next, List.reverse_nil, List.nil_append,
              List.length_nil, List.drop_zero, Span.between_eq written]
      simp only [if_neg kind, Except.map]

theorem items_succ (ih : LocatesWith size fuel) (depth : Nat) (before : List Value)
    (placed : List Located) (bytes : Bytes) (fits : bytes.length ≤ size) :
    locateItems size (fuel + 1) depth placed bytes =
      (readItems size (fuel + 1) depth before bytes).map fun (items, rest) =>
        (placed.reverse ++ placeItems (size - bytes.length) (items.drop before.length), rest) := by
  cases bytes with
  | nil => simp only [locateItems, readItems, Except.map]
  | cons c more =>
      simp only [locateItems, readItems]
      by_cases last : c = 101
      · simp only [if_pos last, Except.map]
        rw [List.drop_of_length_le (Nat.le_of_eq List.length_reverse), placeItems,
          List.append_nil]
      simp only [if_neg last, ih.value depth (c :: more) fits]
      cases value : readValue size fuel depth (c :: more) with
      | error fault => rfl
      | ok read =>
          obtain ⟨v, rest⟩ := read
          have length := congrArg List.length (readValue_eq_encode value)
          rw [List.length_append] at length
          simp only [Except.map]
          rw [ih.items depth (v :: before) _ rest (by omega)]
          cases list : readItems size fuel depth (v :: before) rest with
          | error fault => rfl
          | ok read =>
              obtain ⟨_, after⟩ := read
              obtain ⟨new, rfl, -⟩ := readItems_eq_encode list
              have next : size - rest.length = size - (c :: more).length + v.encode.length := by
                omega
              simp only [Except.map, drop_reverse_append, next]
              rw [reverse_cons_append, reverse_cons_append, drop_reverse_append, placeItems]

theorem entries_succ (ih : LocatesWith size fuel) (depth : Nat) (before : Dict)
    (placed : LocatedDict) (bytes : Bytes) (fits : bytes.length ≤ size)
    (distinct : (keys before).Nodup) (same : placed.map (·.1.bytes) = keys before) :
    locateEntries size (fuel + 1) depth placed bytes =
      (readEntries size (fuel + 1) depth before bytes).map fun (entries, rest) =>
        (placed.reverse ++ placeEntries (size - bytes.length) (entries.drop before.length),
          rest) := by
  cases bytes with
  | nil => simp only [locateEntries, readEntries, Except.map]
  | cons c more =>
      simp only [locateEntries, readEntries]
      by_cases last : c = 101
      · simp only [if_pos last, Except.map]
        rw [List.drop_of_length_le (Nat.le_of_eq List.length_reverse), placeEntries,
          List.append_nil]
      simp only [if_neg last, locateText_eq fits]
      cases text : readText size (c :: more) with
      | error fault => rfl
      | ok read =>
          obtain ⟨key, middle⟩ := read
          have front := congrArg List.length (readText_eq_encode text)
          rw [List.length_append] at front
          simp only [Except.map]
          have known : (placed.any fun entry => entry.1.bytes = key.bytes) =
              before.any fun entry => entry.1.bytes = key.bytes := by
            rw [any_key_map, any_key_map, same, keys]
          rw [known]
          split
          case isTrue => rfl
          case isFalse fresh =>
            rw [ih.value depth middle (by omega)]
            cases value : readValue size fuel depth middle with
            | error fault => rfl
            | ok read =>
                obtain ⟨v, rest⟩ := read
                have length := congrArg List.length (readValue_eq_encode value)
                rw [List.length_append] at length
                have distinct : (keys ((key, v) :: before)).Nodup :=
                  List.nodup_cons.mpr ⟨fun known => fresh (any_key_iff.mpr known), distinct⟩
                have same (x : Located) :
                    ((key, x) :: placed).map (·.1.bytes) = keys ((key, v) :: before) :=
                  congrArg (key.bytes :: ·) same
                simp only [Except.map]
                rw [ih.entries depth ((key, v) :: before) _ rest (by omega) distinct (same _)]
                cases dict : readEntries size fuel depth ((key, v) :: before) rest with
                | error fault => rfl
                | ok read =>
                    obtain ⟨_, after⟩ := read
                    obtain ⟨new, rfl, -⟩ := readEntries_eq_encode distinct dict
                    have here : size - middle.length =
                        size - (c :: more).length + key.encode.length := by
                      omega
                    have next : size - rest.length =
                        size - (c :: more).length + key.encode.length + v.encode.length := by
                      omega
                    simp only [Except.map, drop_reverse_append, here, next]
                    rw [reverse_cons_append, reverse_cons_append, drop_reverse_append,
                      placeEntries]

end LocatesWith

theorem locatesWith (size fuel : Nat) : LocatesWith size fuel := by
  induction fuel with
  | zero =>
      refine ⟨?_, ?_, ?_⟩
      · intro depth bytes _
        simp only [locateValue, readValue, Except.map]
      · intro depth before placed bytes _
        simp only [locateItems, readItems, Except.map]
      · intro depth before placed bytes _ _ _
        simp only [locateEntries, readEntries, Except.map]
  | succ fuel ih => exact ⟨ih.value_succ, ih.items_succ, ih.entries_succ⟩

theorem locateBuffer_eq (buffer : Bytes) :
    locateBuffer buffer =
      (readBuffer buffer).map fun (entries, rest) => (placeEntries 1 entries, rest) := by
  unfold locateBuffer readBuffer
  split
  case h_2 => simp only [Except.map]
  case h_1 rest =>
    have start : (100 :: rest).length - rest.length = 1 := by
      rw [List.length_cons, Nat.add_sub_cancel_left]
    have located := (locatesWith (100 :: rest).length (2 * (100 :: rest).length)).entries
      1 [] [] rest (Nat.le_succ _) List.nodup_nil rfl
    simp only [located, start]
    cases readEntries (100 :: rest).length (2 * (100 :: rest).length) 1 [] rest <;> rfl

end PieceLedger.Bencode
