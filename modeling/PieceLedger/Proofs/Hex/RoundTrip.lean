import PieceLedger.Hex.InPlace
import PieceLedger.CommandLine.Settings
import PieceLedger.Proofs.Bytes.Slice
import Mathlib.Data.List.Basic

/-!
# Bytes and their hexadecimal text

A text in hexadecimal digits is the encoding of one byte string, up to the case
of its letters, and decoding gives this string back.  A text that is not stops
the decoder at its first pair with a byte that is no digit.  In place, this is
all that is stored and counted.
-/

namespace PieceLedger

namespace Hex

open CommandLine.Settings (lowerCase)

/-! ## Digits -/

theorem forall_byte {P : UInt8 → Prop} (h : ∀ n < 256, P (UInt8.ofNat n)) (c : UInt8) :
    P c := by
  have code := h c.toNat c.toNat_lt
  rwa [UInt8.ofNat_toNat] at code

theorem byte_facts (c : UInt8) :
    ((digitValue? c).isSome ↔ c ∈ digits) ∧
      ((digitValue? c).all fun v => v < 16 ∧ lowerCase [c] = [digit v] ∧ nibble c = v) ∧
      ((lowerCase [c]).all fun d => digitValue? c = digitValue? d) ∧
      (c < 16 → digitValue? (digit c) = some c ∧ lowerCase [digit c] = [digit c]) ∧
      (c >>> 4) <<< 4 ||| (c &&& 15) = c ∧ c >>> 4 < 16 ∧ c &&& 15 < 16 := by
  revert c
  refine forall_byte ?_
  decide +kernel

theorem digitValue?_isSome (c : UInt8) : (digitValue? c).isSome ↔ c ∈ digits :=
  (byte_facts c).1

theorem digit_of_digitValue? {c v : UInt8} (h : digitValue? c = some v) :
    v < 16 ∧ lowerCase [c] = [digit v] ∧ nibble c = v := by
  have valued := (byte_facts c).2.1
  rw [h, Option.all_some] at valued
  exact of_decide_eq_true valued

theorem digitValue?_lowerCase {c d : UInt8} (h : lowerCase [c] = [d]) :
    digitValue? c = digitValue? d := by
  have same := (byte_facts c).2.2.1
  rw [h, List.all_cons, Bool.and_eq_true] at same
  exact of_decide_eq_true same.1

theorem digitValue?_digit (n : UInt8) (h : n < 16) : digitValue? (digit n) = some n :=
  ((byte_facts n).2.2.2.1 h).1

theorem lowerCase_digit (n : UInt8) (h : n < 16) : lowerCase [digit n] = [digit n] :=
  ((byte_facts n).2.2.2.1 h).2

theorem exists_digitValue? {c : UInt8} (h : c ∈ digits) : ∃ v, digitValue? c = some v :=
  Option.isSome_iff_exists.mp ((digitValue?_isSome c).mpr h)

theorem halves (x : UInt8) :
    (x >>> 4) <<< 4 ||| (x &&& 15) = x ∧ x >>> 4 < 16 ∧ x &&& 15 < 16 :=
  (byte_facts x).2.2.2.2

theorem halves_join {h l : UInt8} (high : h < 16) (low : l < 16) :
    (h <<< 4 ||| l) >>> 4 = h ∧ (h <<< 4 ||| l) &&& 15 = l := by
  have all : ∀ m < 16, ∀ n < 16,
      (UInt8.ofNat m <<< 4 ||| UInt8.ofNat n) >>> 4 = UInt8.ofNat m ∧
      (UInt8.ofNat m <<< 4 ||| UInt8.ofNat n) &&& 15 = UInt8.ofNat n := by
    decide +kernel
  have joined := all h.toNat high l.toNat low
  rwa [UInt8.ofNat_toNat, UInt8.ofNat_toNat] at joined

/-! ## Pairs of digits -/

theorem encode_cons (x : UInt8) (b : Bytes) :
    encode (x :: b) = digit (x >>> 4) :: digit (x &&& 15) :: encode b :=
  rfl

theorem encode_join {h l : UInt8} (high : h < 16) (low : l < 16) (b : Bytes) :
    encode ((h <<< 4 ||| l) :: b) = digit h :: digit l :: encode b := by
  obtain ⟨first, second⟩ := halves_join high low
  rw [encode_cons, first, second]

theorem length_encode (b : Bytes) : (encode b).length = 2 * b.length := by
  induction b with
  | nil => rfl
  | cons x b ih =>
      rw [encode_cons, List.length_cons, List.length_cons, ih, List.length_cons]
      omega

theorem lowerCase_encode (b : Bytes) : lowerCase (encode b) = encode b := by
  induction b with
  | nil => rfl
  | cons x b ih =>
      obtain ⟨-, high, low⟩ := halves x
      rw [encode_cons]
      exact congrArg₂ (· ++ ·) (lowerCase_digit _ high)
        (congrArg₂ (· ++ ·) (lowerCase_digit _ low) ih)

theorem decodePairs_cons {high low h l : UInt8} (first : digitValue? high = some h)
    (second : digitValue? low = some l) (rest : Bytes) :
    decodePairs (high :: low :: rest) =
      ((h <<< 4 ||| l) :: (decodePairs rest).1, (decodePairs rest).2) := by
  simp only [decodePairs, first, second]

theorem decodePairs_stop {high low : UInt8} (bad : ¬(high ∈ digits ∧ low ∈ digits))
    (rest : Bytes) : decodePairs (high :: low :: rest) = ([], high :: low :: rest) := by
  rw [decodePairs]
  split
  case h_1 first second =>
    exact absurd ⟨(digitValue?_isSome high).mp (by rw [first]; rfl),
      (digitValue?_isSome low).mp (by rw [second]; rfl)⟩ bad
  case h_2 => rfl

theorem decodePairs_append {front b : Bytes} (h : lowerCase front = encode b) (rest : Bytes) :
    decodePairs (front ++ rest) = (b ++ (decodePairs rest).1, (decodePairs rest).2) := by
  induction b generalizing front with
  | nil =>
      obtain rfl := List.map_eq_nil_iff.mp h
      rfl
  | cons x b ih =>
      obtain ⟨join, high, low⟩ := halves x
      obtain ⟨first, tail, rfl, one, tail_eq⟩ := List.map_eq_cons_iff.mp h
      obtain ⟨second, behind, rfl, two, others⟩ := List.map_eq_cons_iff.mp tail_eq
      have upper := (digitValue?_lowerCase (congrArg ([·]) one)).trans (digitValue?_digit _ high)
      have lower := (digitValue?_lowerCase (congrArg ([·]) two)).trans (digitValue?_digit _ low)
      rw [List.cons_append, List.cons_append, decodePairs_cons upper lower, ih others, join]
      rfl

/-- Induction over the pairs of a text, up to the first that is not two digits. -/
theorem pairs_induction {motive : Bytes → Prop}
    (pair : ∀ high low h l rest, digitValue? high = some h → digitValue? low = some l →
      motive rest → motive (high :: low :: rest))
    (stop : ∀ high low rest, ¬(high ∈ digits ∧ low ∈ digits) →
      motive (high :: low :: rest))
    (nil : motive []) (single : ∀ c, motive [c]) : ∀ text, motive text
  | [] => nil
  | [c] => single c
  | high :: low :: rest => by
      by_cases both : high ∈ digits ∧ low ∈ digits
      · obtain ⟨h, first⟩ := exists_digitValue? both.1
        obtain ⟨l, second⟩ := exists_digitValue? both.2
        exact pair high low h l rest first second (pairs_induction pair stop nil single rest)
      · exact stop high low rest both

theorem decodePairs_front (text : Bytes) :
    ∃ front, text = front ++ (decodePairs text).2 ∧
      lowerCase front = encode (decodePairs text).1 ∧
      ((decodePairs text).2.length < 2 ∨ ∃ high low rest,
        (decodePairs text).2 = high :: low :: rest ∧ ¬(high ∈ digits ∧ low ∈ digits)) := by
  induction text using pairs_induction with
  | pair high low h l rest first second ih =>
      obtain ⟨high_lt, upper, -⟩ := digit_of_digitValue? first
      obtain ⟨low_lt, lower, -⟩ := digit_of_digitValue? second
      obtain ⟨front, split, written, behind⟩ := ih
      rw [decodePairs_cons first second, encode_join high_lt low_lt]
      refine ⟨high :: low :: front, by rw [List.cons_append, List.cons_append, ← split], ?_,
        behind⟩
      exact congrArg₂ (· ++ ·) upper (congrArg₂ (· ++ ·) lower written)
  | stop high low rest bad =>
      rw [decodePairs_stop bad]
      exact ⟨[], rfl, rfl, .inr ⟨high, low, rest, rfl, bad⟩⟩
  | nil => exact ⟨[], rfl, rfl, .inl (by decide)⟩
  | single c => exact ⟨[], rfl, rfl, .inl (by simp [decodePairs])⟩

theorem digits_of_encode {text b : Bytes} (h : lowerCase text = encode b) :
    text.length = 2 * b.length ∧ ∀ c ∈ text, c ∈ digits := by
  constructor
  · rw [← length_encode, ← h, lowerCase, List.length_map]
  · intro c hc
    have written : ∀ d ∈ encode b, (digitValue? d).isSome := by
      intro d hd
      obtain ⟨x, -, hx⟩ := List.mem_flatMap.mp hd
      obtain ⟨-, high, low⟩ := halves x
      rcases List.mem_pair.mp hx with rfl | rfl
      · rw [digitValue?_digit _ high, Option.isSome_some]
      · rw [digitValue?_digit _ low, Option.isSome_some]
    rw [← h, lowerCase] at written
    have lowered := written _ (List.mem_map_of_mem hc)
    rwa [← digitValue?_lowerCase (c := c) rfl, digitValue?_isSome] at lowered

/-! ## Which texts are decoded -/

/-- `front` is what stands in a text before its first pair that is not two digits. -/
inductive StopsAfter (front : Bytes) : Bytes → Prop
  | intro {high low : UInt8} (rest : Bytes) :
      front.length % 2 = 0 → (∀ c ∈ front, c ∈ digits) →
      ¬(high ∈ digits ∧ low ∈ digits) → StopsAfter front (front ++ high :: low :: rest)

theorem stops_or_writes {text : Bytes} (even : text.length % 2 = 0) :
    (∃ front, StopsAfter front text) ∨ ∃ b, lowerCase text = encode b := by
  obtain ⟨front, split, written, behind⟩ := decodePairs_front text
  obtain ⟨length, front_digits⟩ := digits_of_encode written
  rcases behind with short | ⟨high, low, rest, left, bad⟩
  · have lengths := congrArg List.length split
    rw [List.length_append] at lengths
    have none_left := List.length_eq_zero_iff.mp (show (decodePairs text).2.length = 0 by omega)
    rw [none_left, List.append_nil] at split
    exact .inr ⟨_, (congrArg lowerCase split).trans written⟩
  · rw [split, left]
    exact .inl ⟨front, .intro rest (by omega) front_digits bad⟩

namespace StopsAfter

variable {text front : Bytes}

theorem length_lt (h : StopsAfter front text) : front.length + 2 ≤ text.length := by
  obtain ⟨rest, -, -, -⟩ := h
  simp

theorem exists_bad (h : StopsAfter front text) : ∃ c ∈ text, c ∉ digits := by
  obtain @⟨high, low, rest, -, -, bad⟩ := h
  by_cases first : high ∈ digits
  · exact ⟨low, by simp, fun second => bad ⟨first, second⟩⟩
  · exact ⟨high, by simp, first⟩

theorem exists_encode (h : StopsAfter front text) : ∃ b, lowerCase front = encode b := by
  obtain ⟨rest, even, all, -⟩ := h
  rcases stops_or_writes even with ⟨_, stops⟩ | written
  · obtain ⟨c, hc, bad⟩ := stops.exists_bad
    exact absurd (all c hc) bad
  · exact written

end StopsAfter

theorem decode_refused {text : Bytes} (h : text = [] ∨ text.length % 2 = 1) :
    decode text = .refused := by
  rw [decode, if_pos (by simpa using h)]

theorem decode_whole {text : Bytes} (nonempty : text ≠ []) (even : text.length % 2 = 0) :
    decode text =
      if (decodePairs text).2 = [] then .complete (decodePairs text).1
      else .stopped (decodePairs text).1 := by
  rw [decode, if_neg (by simp [nonempty, even])]
  split <;> simp_all only [reduceCtorEq, if_true, if_false]

theorem decode_of_encode {text b : Bytes} (nonempty : text ≠ []) (h : lowerCase text = encode b) :
    decode text = .complete b := by
  have even := (digits_of_encode h).1
  have whole := decodePairs_append h []
  rw [List.append_nil] at whole
  rw [decode_whole nonempty (by omega), whole]
  simp only [decodePairs, List.append_nil, if_true]

theorem decode_of_stopsAfter {text front b : Bytes} (even : text.length % 2 = 0)
    (h : StopsAfter front text) (written : lowerCase front = encode b) :
    decode text = .stopped b := by
  have nonempty : text ≠ [] := List.length_pos_iff.mp (by have := h.length_lt; omega)
  rw [decode_whole nonempty even]
  obtain ⟨rest, -, -, bad⟩ := h
  rw [decodePairs_append written, decodePairs_stop bad]
  simp only [List.append_nil, reduceCtorEq, if_false]

theorem decode_cases {text : Bytes} (nonempty : text ≠ []) (even : text.length % 2 = 0) :
    (∃ front b, StopsAfter front text ∧ lowerCase front = encode b ∧
      decode text = .stopped b) ∨
      ∃ b, lowerCase text = encode b ∧ decode text = .complete b := by
  rcases stops_or_writes even with ⟨front, stops⟩ | ⟨b, written⟩
  · obtain ⟨b, written⟩ := stops.exists_encode
    exact .inl ⟨front, b, stops, written, decode_of_stopsAfter even stops written⟩
  · exact .inr ⟨b, written, decode_of_encode nonempty written⟩

/-! ## In place -/

def Target.holding (t : Target) (b : Bytes) : Target := ⟨t.buffer.overlay 0 b, b.length⟩

def Reading.into (t : Target) : Reading → Bool × Target
  | .refused => (false, t)
  | .stopped decoded => (false, t.holding decoded)
  | .complete decoded => (true, t.holding decoded)

theorem overlay_zero (buffer b : Bytes) : buffer.overlay 0 b = b ++ buffer.drop b.length := by
  rw [Bytes.overlay, List.take_zero, List.nil_append, Nat.zero_add]

theorem Target.content_holding (t : Target) (b : Bytes) : (t.holding b).content = b := by
  rw [content, holding, overlay_zero]
  exact List.take_left' rfl

theorem storePairs_eq (t : Target) {text : Bytes} (even : text.length % 2 = 0)
    (room : t.length + text.length / 2 ≤ t.buffer.length) :
    t.storePairs text =
      (decide ((decodePairs text).2 = []),
        ⟨t.buffer.overlay t.length (decodePairs text).1,
          t.length + (decodePairs text).1.length⟩) := by
  induction text using pairs_induction generalizing t with
  | pair high low h l rest first second ih =>
      have both : high ∈ digits ∧ low ∈ digits :=
        ⟨(digitValue?_isSome high).mp (by rw [first, Option.isSome_some]),
          (digitValue?_isSome low).mp (by rw [second, Option.isSome_some])⟩
      obtain ⟨-, -, nibble_high⟩ := digit_of_digitValue? first
      obtain ⟨-, -, nibble_low⟩ := digit_of_digitValue? second
      rw [List.length_cons, List.length_cons] at even room
      rw [Target.storePairs, if_pos both, nibble_high, nibble_low, decodePairs_cons first second]
      rw [ih (t.store _) (by omega) (by simp only [Target.store, List.length_set]; omega)]
      simp only [Target.store]
      rw [t.buffer.overlay_set (by omega), List.length_cons, Nat.add_right_comm, Nat.add_assoc]
  | stop high low rest bad =>
      rw [Target.storePairs, if_neg bad, decodePairs_stop bad]
      simp [Bytes.overlay]
  | nil => simp [Target.storePairs, decodePairs, Bytes.overlay]
  | single c => cases even

/-- In place, what a reading says is stored. -/
theorem decodeInto_eq (t : Target) {text : Bytes} (room : text.length / 2 ≤ t.buffer.length) :
    t.decodeInto text = (decode text).into t := by
  by_cases h : text = [] ∨ text.length % 2 = 1
  · rw [decode_refused h, Target.decodeInto, if_pos (by simpa using h)]
    rfl
  · obtain ⟨nonempty, odd⟩ := not_or.mp h
    have even : text.length % 2 = 0 := by omega
    rw [Target.decodeInto, if_neg (by simp [nonempty, even]),
      storePairs_eq _ even (by simpa using room),
      decode_whole nonempty even]
    simp only [Nat.zero_add]
    split
    case isTrue whole => rw [whole]; rfl
    case isFalse stopped => rw [decide_eq_false stopped]; rfl

structure Target.Decodes (t : Target) (text : Bytes) : Prop where
  agrees : t.decodeInto text = (decode text).into t
  ok_iff : (t.decodeInto text).1 = true ↔
    text ≠ [] ∧ text.length % 2 = 0 ∧ ∀ c ∈ text, c ∈ digits
  writes : (t.decodeInto text).1 = true →
    encode? (t.decodeInto text).2.content = some (lowerCase text)
  stops : text.length % 2 = 0 → (∃ c ∈ text, c ∉ digits) →
    ∃ front b, StopsAfter front text ∧ lowerCase front = encode b ∧
      b.length = front.length / 2 ∧
      t.decodeInto text = (false, t.holding b)
  refuses : text = [] ∨ text.length % 2 = 1 → t.decodeInto text = (false, t)

theorem encode?_of_ne_nil {b : Bytes} (nonempty : b ≠ []) : encode? b = some (encode b) := by
  rw [encode?, if_neg nonempty]

theorem Target.decodes (t : Target) {text : Bytes} (room : text.length / 2 ≤ t.buffer.length) :
    t.Decodes text := by
  have agrees := decodeInto_eq t room
  by_cases h : text = [] ∨ text.length % 2 = 1
  · have refused := agrees.trans (congrArg (Reading.into t) (decode_refused h))
    have failed : ¬(t.decodeInto text).1 = true := by
      rw [refused]
      exact Bool.false_ne_true
    refine ⟨agrees, iff_of_false failed ?_, fun ok => absurd ok failed, ?_, fun _ => refused⟩
    · rintro ⟨nonempty, even, -⟩
      rcases h with empty | odd
      · exact nonempty empty
      · omega
    · rintro even ⟨c, hc, -⟩
      rcases h with rfl | odd
      · cases hc
      · omega
  · obtain ⟨nonempty, odd⟩ := not_or.mp h
    have even : text.length % 2 = 0 := by omega
    rcases decode_cases nonempty even with
      ⟨front, b, stops, written, stopped⟩ | ⟨b, written, complete⟩
    · have stored := agrees.trans (congrArg (Reading.into t) stopped)
      obtain ⟨c, hc, bad⟩ := stops.exists_bad
      have failed : ¬(t.decodeInto text).1 = true := by
        rw [stored]
        exact Bool.false_ne_true
      refine ⟨agrees, iff_of_false failed fun all => bad (all.2.2 c hc),
        fun ok => absurd ok failed,
        fun _ _ => ⟨front, b, stops, written, ?_, stored⟩, fun refused => absurd refused h⟩
      have length := (digits_of_encode written).1
      omega
    · have stored := agrees.trans (congrArg (Reading.into t) complete)
      obtain ⟨length, all⟩ := digits_of_encode written
      have decoded : b ≠ [] := by
        rintro rfl
        exact nonempty (List.map_eq_nil_iff.mp written)
      refine ⟨agrees, iff_of_true (by rw [stored]; rfl) ⟨nonempty, even, all⟩,
        fun _ => ?_, ?_,
        fun refused => absurd refused h⟩
      · rw [stored, Reading.into, content_holding, encode?_of_ne_nil decoded, written]
      · rintro - ⟨c, hc, bad⟩
        exact absurd (all c hc) bad

end Hex

namespace Digest

open Hex CommandLine.Settings

variable {text front b : Bytes}

theorem ofBytes_bytes (d : Digest) : ofBytes d.bytes = d := by
  obtain ⟨bytes, length⟩ := d
  simp only [ofBytes, List.take_left' length]

theorem bytes_ofBytes (h : b.length = 20) : (ofBytes b).bytes = b :=
  List.take_left' h

theorem readHex_of_length (d : Digest) (h : text.length ≠ 40) : d.readHex text = (false, d) := by
  rw [readHex, if_pos h]

theorem readHex_of_toHex (d x : Digest) (h : lowerCase text = x.toHex) :
    d.readHex text = (true, x) := by
  obtain ⟨length, -⟩ := digits_of_encode h
  rw [x.length_eq] at length
  have nonempty : text ≠ [] := by
    rintro rfl
    cases length
  rw [readHex, if_neg (by omega), decode_of_encode nonempty h]
  simp only [ofBytes_bytes]

theorem readHex_of_stopsAfter (d : Digest) (length : text.length = 40)
    (stops : StopsAfter front text) (written : lowerCase front = encode b) :
    (d.readHex text).1 = false ∧ (d.readHex text).2.bytes = b ++ d.bytes.drop b.length := by
  have shorter := stops.length_lt
  have halves := (digits_of_encode written).1
  rw [readHex, if_neg (by omega), decode_of_stopsAfter (by omega) stops written]
  refine ⟨rfl, ?_⟩
  rw [bytes_ofBytes, overlay_zero]
  rw [Bytes.length_overlay, d.length_eq]
  rw [d.length_eq]
  omega

theorem readInto_eq (d : Digest) (length : text.length = 40) :
    readInto d.bytes text =
      (((decode text).into ⟨d.bytes, 0⟩).1,
        ((decode text).into ⟨d.bytes, 0⟩).2.buffer) := by
  have room : text.length / 2 ≤ d.bytes.length := by
    have bytes := d.length_eq
    omega
  simp only [readInto, if_neg (not_not.mpr length), decodeInto_eq ⟨d.bytes, 0⟩ room]

structure Reads (d : Digest) (text : Bytes) : Prop where
  in_place : readInto d.bytes text = ((d.readHex text).1, (d.readHex text).2.bytes)
  ok_iff : (d.readHex text).1 = true ↔ text.length = 40 ∧ ∀ c ∈ text, c ∈ digits
  keeps : text.length ≠ 40 → d.readHex text = (false, d)
  stops : text.length = 40 → (∃ c ∈ text, c ∉ digits) →
    ∃ front b, StopsAfter front text ∧ lowerCase front = encode b ∧
      b.length = front.length / 2 ∧
      (d.readHex text).1 = false ∧ (d.readHex text).2.bytes = b ++ d.bytes.drop b.length

theorem reads (d : Digest) (text : Bytes) : d.Reads text := by
  by_cases length : text.length = 40
  · have nonempty : text ≠ [] := by
      rintro rfl
      cases length
    rcases decode_cases nonempty (by omega) with
      ⟨front, b, stops, written, stopped⟩ | ⟨b, written, complete⟩
    · obtain ⟨failed, left⟩ := d.readHex_of_stopsAfter length stops written
      obtain ⟨c, hc, bad⟩ := stops.exists_bad
      have halves := (digits_of_encode written).1
      refine ⟨?_, iff_of_false (by simp [failed]) fun all => bad (all.2 c hc), fun other =>
        absurd length other, fun _ _ => ⟨front, b, stops, written, by omega, failed, left⟩⟩
      rw [d.readInto_eq length, stopped, failed, left, ← overlay_zero]
      rfl
    · obtain ⟨halves, all⟩ := digits_of_encode written
      have whole : b.length = 20 := by omega
      have ok : d.readHex text = (true, ofBytes b) :=
        d.readHex_of_toHex (ofBytes b) (by rw [toHex, bytes_ofBytes whole, written])
      refine ⟨?_, iff_of_true (by rw [ok]) ⟨length, all⟩,
        fun other => absurd length other, ?_⟩
      · rw [d.readInto_eq length, complete, ok, bytes_ofBytes whole]
        simp only [Reading.into, Target.holding, overlay_zero, whole,
          List.drop_eq_nil_of_le (Nat.le_of_eq d.length_eq), List.append_nil]
      · rintro - ⟨c, hc, bad⟩
        exact absurd (all c hc) bad
  · have kept := d.readHex_of_length length
    refine ⟨?_, iff_of_false (by simp [kept]) fun all => length all.1, fun _ => kept,
      fun same => absurd same length⟩
    rw [readInto, if_pos length, kept]

end Digest

namespace Hex

open CommandLine.Settings (lowerCase)

/--
Bytes are written as text that decodes to them, and a text decodes exactly if it has
digits in whole pairs; then the decoded bytes write it in lower case.  Any other text
leaves in the target the bytes in front of its first bad pair, or leaves it as it is if
there are no whole pairs.  Digests are read from forty digits, in either case, in the
same way.
-/
theorem decoding_inverts_encoding (t : Target) (d : Digest) :
    (∀ b : Bytes, b ≠ [] → b.length ≤ t.buffer.length →
      encode? b = some (encode b) ∧ t.decodeInto (encode b) = (true, t.holding b)) ∧
    (∀ text : Bytes, text.length / 2 ≤ t.buffer.length → t.Decodes text) ∧
    (∀ (x : Digest) (text : Bytes), lowerCase text = x.toHex → d.readHex text = (true, x)) ∧
    (∀ x : Digest, encode? x.bytes = some x.toHex ∧ lowerCase x.toHex = x.toHex) ∧
    ∀ text : Bytes, d.Reads text := by
  refine ⟨fun b nonempty room => ⟨encode?_of_ne_nil nonempty, ?_⟩, fun text => t.decodes,
    fun x text => d.readHex_of_toHex x,
    fun x => ⟨encode?_of_ne_nil ?_, lowerCase_encode x.bytes⟩,
    d.reads⟩
  · have written : encode b ≠ [] := by
      intro empty
      have length := length_encode b
      rw [empty, List.length_nil] at length
      exact nonempty (List.length_eq_zero_iff.mp (by omega))
    have fits : (encode b).length / 2 ≤ t.buffer.length := by
      rw [length_encode]
      omega
    rw [decodeInto_eq t fits, decode_of_encode written (lowerCase_encode b)]
    rfl
  · exact List.length_pos_iff.mp (by rw [x.length_eq]; decide)

/-- Two bytes, a text that stops at its second pair, and forty capital letters. -/
theorem decoding_inverts_encoding_mixed :
    let t : Target := ⟨[238, 238, 238], 777⟩
    let stopping : Bytes := Bytes.ofString "aB0g"
    let capitals : Bytes := List.replicate 40 65
    t.decodeInto (encode [171, 1]) = (true, ⟨[171, 1, 238], 2⟩) ∧
      t.Decodes stopping ∧ t.decodeInto stopping = (false, ⟨[171, 238, 238], 1⟩) ∧
      Digest.zero.readHex capitals = (true, .ofBytes (List.replicate 20 170)) ∧
      Digest.zero.Reads (stopping ++ capitals.drop 4) := by
  intro t stopping capitals
  obtain ⟨inverse, decodes, reads, -, others⟩ := decoding_inverts_encoding t Digest.zero
  obtain ⟨-, stored⟩ := inverse [171, 1] (by decide) (by decide)
  have stops := decodes stopping (by decide +kernel)
  refine ⟨stored, stops, stops.agrees.trans (by decide +kernel), ?_, others _⟩
  exact reads (.ofBytes (List.replicate 20 170)) capitals (by decide +kernel)

end Hex

end PieceLedger
