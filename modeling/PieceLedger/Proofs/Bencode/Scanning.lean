import PieceLedger.Proofs.Bencode.Reading
import PieceLedger.Proofs.Bencode.Scanner

/-!
# Scanners follow readers

A scanner with enough fuel ends as the reader of the same name does on the bytes in
front of the cursor, and leaves a sound scan behind.
-/

namespace PieceLedger.Bencode

open Decimal Scanner

theorem Sound.shorter {α : Type} {grammar : Bytes → α → Prop} {read : Bytes → Reading α}
    (sound : Sound grammar read) (positive : ∀ w x, grammar w x → 0 < w.length)
    {bytes rest : Bytes} {x : α} (h : read bytes = .ok (x, rest)) :
    rest.length < bytes.length := by
  obtain ⟨w, rfl, written⟩ := sound bytes x rest h
  have consumed := positive w x written
  rw [List.length_append]
  omega

section Scanners

variable {buffer : Bytes} (small : buffer.length < 2 ^ 60)

/-! ## Lengths -/

theorem readLength_le {size length count total number : Nat} {bytes rest : Bytes}
    (h : readLength size length count bytes = .ok ((total, number), rest)) (hle : length ≤ size) :
    total ≤ size := by
  induction bytes generalizing length count with
  | nil =>
      cases h
      exact hle
  | cons c bytes ih =>
      rw [readLength] at h
      split at h
      case isTrue =>
        split at h
        case isTrue => cases h
        case isFalse fits => exact ih h (Nat.le_of_not_lt fits)
      case isFalse =>
        cases h
        exact hle

theorem toNat_ofNat_of_le {n : Nat} (h : n ≤ 10 * 2 ^ 60) : (UInt64.ofNat n).toNat = n :=
  UInt64.toNat_ofNat_of_lt' (Nat.lt_of_le_of_lt h (by decide))

theorem ofNat_lt_ofNat_iff {m n : Nat} (hm : m ≤ 10 * 2 ^ 60) (hn : n ≤ 10 * 2 ^ 60) :
    UInt64.ofNat m < .ofNat n ↔ m < n := by
  rw [UInt64.lt_iff_toNat_lt, toNat_ofNat_of_le hm, toNat_ofNat_of_le hn]

theorem digit_eq_ofNat {c : UInt8} (digit : isDigit c = true) :
    c.toUInt64 - 48 = .ofNat (digitValue c) := by
  have range := isDigit_iff.mp digit
  have large : (48 : UInt64) ≤ c.toUInt64 := by
    rw [UInt64.le_iff_toNat_le, UInt8.toNat_toUInt64]
    exact range.1
  have units := digitValue_lt digit
  rw [← UInt64.toNat_inj, UInt64.toNat_sub_of_le _ _ large, UInt8.toNat_toUInt64,
    toNat_ofNat_of_le (by omega)]
  rfl

include small

variable {depth fuel : Nat} {bytes : Bytes} {s : Scan}

theorem scanLength_ends (length count : Nat) (h : Facing buffer depth bytes s)
    (enough : bytes.length < fuel) (hlength : length ≤ buffer.length) :
    Ends buffer depth s (scanLength buffer fuel (.ofNat length) (.ofNat count))
      ((readLength buffer.length length count bytes).map fun ((total, number), rest) =>
        ((.ofNat total, .ofNat number), rest)) := by
  induction bytes generalizing s fuel length count with
  | nil =>
      obtain _ | fuel := fuel
      · cases enough
      rw [scanLength]
      exact h.ends_peek_nil.bind fun s h => ends_pure h
  | cons c rest ih =>
      obtain _ | fuel := fuel
      · cases enough
      rw [scanLength, readLength]
      refine h.ends_peek.bind fun s h => ?_
      by_cases digit : isDigit c = true
      case neg =>
        simp only [if_neg digit]
        exact ends_pure h
      simp only [if_pos digit]
      have units := digitValue_lt digit
      have exceeds : size buffer < .ofNat (length * 10 + digitValue c) ↔
          buffer.length < length * 10 + digitValue c :=
        ofNat_lt_ofNat_iff (by omega) (by omega)
      have sum : UInt64.ofNat length * 10 + (c.toUInt64 - 48) =
          .ofNat (length * 10 + digitValue c) := by
        rw [digit_eq_ofNat digit, UInt64.ofNat_add, UInt64.ofNat_mul]
        rfl
      have safe : (Event.sum (.ofNat length) (c.toUInt64 - 48)
          (.ofNat (length * 10 + digitValue c))).Safe buffer.length := by
        rw [Event.Safe, digit_eq_ofNat digit, toNat_ofNat_of_le (by omega),
          toNat_ofNat_of_le (by omega), toNat_ofNat_of_le (by omega)]
        omega
      refine h.ends_fetch.bind fun s h => ?_
      rw [sum]
      refine (h.ends_note _ safe rfl).bind fun s h => ?_
      by_cases beyond : buffer.length < length * 10 + digitValue c
      · rw [if_pos beyond]
        exact (h.ends_refuse (exceeds.mpr beyond) _).stop
      · rw [if_neg beyond]
        refine (h.ends_admit (mt exceeds.mp beyond) _).bind fun s h => ?_
        refine (h.ends_move small).bind fun s h => ?_
        have next := ih _ (count + 1) h (Nat.lt_of_succ_lt_succ enough) (Nat.le_of_not_lt beyond)
        rwa [UInt64.ofNat_add count] at next

/-! ## Byte strings -/

omit small in
theorem readText_shorter {size : Nat} {t : Text} {rest : Bytes}
    (h : readText size bytes = .ok (t, rest)) : rest.length < bytes.length :=
  (readText_sound size).shorter (fun _ _ spelled => spelled.length_pos) h

theorem scanContent_ends (zeros : Nat) {length : Nat} (h : Facing buffer depth bytes s)
    (hlength : length ≤ buffer.length) :
    Ends buffer depth s (scanContent buffer zeros (.ofNat length))
      (readContent zeros length bytes) := by
  have within := h.offset_add_length
  have exceeds : UInt64.ofNat bytes.length < .ofNat length ↔ bytes.length < length :=
    ofNat_lt_ofNat_iff (by omega) (by omega)
  have hleft : (UInt64.ofNat bytes.length).toNat = bytes.length := toNat_ofNat_of_le (by omega)
  have hvalue : (UInt64.ofNat length).toNat = length := toNat_ofNat_of_le (by omega)
  refine h.ends_left.bind fun s h => ?_
  rw [hleft, hvalue, readContent, List.length_take]
  by_cases short : bytes.length < length
  · rw [if_pos (by omega)]
    exact (h.ends_refuse (exceeds.mpr short) _).stop
  · rw [if_neg (by omega)]
    refine (h.ends_admit (mt exceeds.mp short) _).bind fun s h => ?_
    have content := h.ends_take small (.ofNat length) (by omega)
    rw [hvalue] at content
    exact content.bind fun s h => ends_pure h

theorem scanText_ends (h : Facing buffer depth bytes s) (enough : bytes.length < fuel) :
    Ends buffer depth s (scanText buffer fuel) (readText buffer.length bytes) := by
  refine h.ends_whole .text ?_ fun t rest read => readText_shorter read
  have within := h.offset_add_length
  have length := scanLength_ends small 0 0 h enough (Nat.zero_le _)
  rw [readText]
  cases read : readLength buffer.length 0 0 bytes with
  | error fault =>
      rw [read] at length
      exact length.stop
  | ok result =>
      obtain ⟨⟨total, number⟩, rest⟩ := result
      obtain ⟨digits, rfl, -, -, hnumber⟩ := readLength_sound read
      have fits := readLength_le read (Nat.zero_le _)
      rw [List.length_append] at within
      have htotal : (UInt64.ofNat total).toNat = total := toNat_ofNat_of_le (by omega)
      have hcount : (UInt64.ofNat number).toNat = number := toNat_ofNat_of_le (by omega)
      rw [read] at length
      refine length.bind fun s h => ?_
      obtain _ | number := number
      · exact (h.ends_refuse rfl _).stop
      have present : UInt64.ofNat (number + 1) ≠ 0 := by
        rw [Ne, ← UInt64.toNat_inj, hcount]
        exact Nat.succ_ne_zero number
      refine (h.ends_admit present _).bind fun s h => ?_
      cases rest with
      | nil => exact h.ends_peek_nil.bind fun s h => (h.ends_refuse (by decide) _).stop
      | cons c rest =>
          refine h.ends_peek.bind fun s h => ?_
          by_cases colon : c = 58
          case pos =>
            subst colon
            refine (h.ends_admit (by decide) _).bind fun s h => ?_
            refine (h.ends_move small).bind fun s h => ?_
            rw [htotal, hcount]
            exact scanContent_ends small _ h fits
          case neg =>
            refine .of_eq (h.ends_refuse colon _).stop ?_
            split
            case h_1 heq => cases heq
            case h_2 heq => cases heq
            case h_3 heq =>
              cases heq
              exact absurd rfl colon
            case h_4 heq =>
              cases heq
              rfl

/-! ## Integers -/

omit small in
theorem atIntegerByte_ends {c : UInt8} {rest : Bytes} (h : Facing buffer depth (c :: rest) s) :
    Ends buffer depth s (atIntegerByte buffer) (.ok (isIntegerByte c, c :: rest)) := by
  refine h.ends_peek.bind fun s h => ?_
  rw [isIntegerByte]
  by_cases minus : c = 45
  · rw [if_pos minus, decide_eq_true minus, Bool.true_or]
    exact ends_pure h
  · rw [if_neg minus, decide_eq_false minus, Bool.false_or]
    exact h.ends_peek.bind fun s h => ends_pure h

omit small in
theorem atIntegerByte_nil (h : Facing buffer depth [] s) :
    Ends buffer depth s (atIntegerByte buffer) (.ok (false, [])) :=
  h.ends_peek_nil.bind fun _ h => h.ends_peek_nil.bind fun _ h => ends_pure h

/-- The twenty-first byte of an integer is looked at and not read. -/
theorem scanWritten_ends (before : Bytes) (h : Facing buffer depth bytes s)
    (enough : bytes.length < fuel) (fits : before.length ≤ maxIntegerLength) :
    Ends buffer depth s (scanWritten buffer fuel before)
      (if maxIntegerLength < (before ++ bytes.takeWhile isIntegerByte).length then
        .error ⟨.integerTooLong, bytes.drop (maxIntegerLength - before.length)⟩
      else
        .ok (before ++ bytes.takeWhile isIntegerByte,
          bytes.drop (bytes.takeWhile isIntegerByte).length)) := by
  induction bytes generalizing s fuel before with
  | nil =>
      obtain _ | fuel := fuel
      · cases enough
      rw [scanWritten, List.takeWhile_nil, List.append_nil, if_neg (Nat.not_lt.mpr fits)]
      exact (atIntegerByte_nil h).bind fun s h => ends_pure h
  | cons c rest ih =>
      obtain _ | fuel := fuel
      · cases enough
      rw [scanWritten]
      refine (atIntegerByte_ends h).bind fun s h => ?_
      by_cases written : isIntegerByte c = true
      case neg =>
        rw [List.takeWhile_cons_of_neg written, List.append_nil, if_neg (Nat.not_lt.mpr fits),
          if_neg written]
        exact ends_pure h
      have longer : (before ++ [c]).length = before.length + 1 := List.length_append
      rw [List.takeWhile_cons_of_pos written, if_pos written, List.append_cons]
      refine h.ends_fetch.bind fun s h => ?_
      by_cases full : before.length = maxIntegerLength
      case pos =>
        rw [if_pos (by rw [List.length_append, longer]; omega), full, Nat.sub_self]
        exact (h.ends_refuse (by omega) _).stop
      case neg =>
        refine (h.ends_admit (by omega) _).bind fun s h => ?_
        refine (h.ends_move small).bind fun s h => ?_
        have place : maxIntegerLength - before.length =
            maxIntegerLength - (before ++ [c]).length + 1 := by omega
        rw [place]
        exact ih _ h (Nat.lt_of_succ_lt_succ enough) (by omega)

omit small in
theorem readInteger_shorter {n : Int64} {rest : Bytes} (h : readInteger bytes = .ok (n, rest)) :
    rest.length < bytes.length := by
  refine readInteger_sound.shorter ?_ h
  rintro _ n ⟨number, rfl, -⟩
  rw [List.length_append]
  exact Nat.succ_pos _

theorem scanInteger_ends (h : Facing buffer depth bytes s) (enough : bytes.length < fuel) :
    Ends buffer depth s (scanInteger buffer fuel) (readInteger bytes) := by
  refine h.ends_whole .integer ?_ fun n rest read => readInteger_shorter read
  have written := scanWritten_ends small [] h enough (Nat.zero_le _)
  rw [List.nil_append] at written
  simp only [readInteger]
  by_cases long : maxIntegerLength < (bytes.takeWhile isIntegerByte).length
  · rw [if_pos long] at written ⊢
    exact written.stop
  rw [if_neg long] at written ⊢
  refine written.bind fun s h => ?_
  generalize bytes.drop (bytes.takeWhile isIntegerByte).length = behind at h ⊢
  cases behind with
  | nil => exact h.ends_peek_nil.bind fun s h => (h.ends_refuse (by decide) _).stop
  | cons c rest =>
      refine h.ends_peek.bind fun s h => ?_
      by_cases ended : c = 101
      case neg =>
        refine .of_eq (h.ends_refuse ended _).stop ?_
        split
        case h_1 heq =>
          cases heq
          exact absurd rfl ended
        case h_2 => rfl
      subst ended
      refine (h.ends_admit (by decide) _).bind fun s h => ?_
      refine (h.ends_move small).bind fun s h => ?_
      cases integerOf (bytes.takeWhile isIntegerByte) with
      | ok n => exact ends_pure h
      | error cause => exact ends_throw h

end Scanners

/-! ## Values -/

theorem readValue_shorter {size fuel depth : Nat} {bytes rest : Bytes} {v : Value}
    (h : readValue size fuel depth bytes = .ok (v, rest)) : rest.length < bytes.length :=
  ((soundWith size fuel).value depth).shorter (fun _ _ object => object.length_pos) h

-- A value takes a unit of fuel for itself and one for the place it has in a list or
-- dictionary, and none is empty, so two units a byte are enough.  The digits of a length or
-- an integer take one unit each.

/-- What scanners of values do when they have `fuel` left, which has to be enough. -/
structure FollowsWith (buffer : Bytes) (fuel : Nat) : Prop where
  value : ∀ {depth : Nat} {bytes : Bytes} {s : Scan}, Facing buffer depth bytes s →
    2 * bytes.length < fuel →
    Ends buffer depth s (scanValue buffer fuel depth) (readValue buffer.length fuel depth bytes)
  items : ∀ {depth : Nat} {bytes : Bytes} {s : Scan} (before : List Value),
    Facing buffer depth bytes s → 2 * bytes.length + 1 < fuel →
    Ends buffer depth s (scanItems buffer fuel depth before)
      (readItems buffer.length fuel depth before bytes)
  entries : ∀ {depth : Nat} {bytes : Bytes} {s : Scan} (before : Dict),
    Facing buffer depth bytes s → 2 * bytes.length + 1 < fuel →
    Ends buffer depth s (scanEntries buffer fuel depth before)
      (readEntries buffer.length fuel depth before bytes)

namespace FollowsWith

variable {buffer : Bytes} {fuel depth : Nat} {bytes : Bytes} {s : Scan}

theorem value_succ (small : buffer.length < 2 ^ 60) (ih : FollowsWith buffer fuel)
    (h : Facing buffer depth bytes s) (enough : 2 * bytes.length < fuel + 1) :
    Ends buffer depth s (scanValue buffer (fuel + 1) depth)
      (readValue buffer.length (fuel + 1) depth bytes) := by
  rw [scanValue]
  refine h.ends_whole .value ?_ fun v rest read => readValue_shorter read
  unfold readValue
  by_cases deep : maxDepth < depth
  · rw [if_pos deep]
    exact (h.ends_refuse deep _).stop
  -- The check of the depth is all that keeps a 66th list or dictionary from being opened.
  have room : depth < 65 := Nat.lt_succ_of_le (Nat.le_of_not_lt deep)
  rw [if_neg deep]
  refine (h.ends_admit deep _).bind fun s h => ?_
  cases bytes with
  | nil => exact h.ends_peek_nil.bind fun s h => ends_throw h
  | cons c rest =>
      rw [List.length_cons] at enough
      refine h.ends_peek.bind fun s h => ?_
      by_cases digit : isDigit c = true
      · simp only [if_pos digit]
        have short : (c :: rest).length < fuel := by rw [List.length_cons]; omega
        have text := scanText_ends small h short
        refine .of_eq (text.lift Value.text) ?_
        cases readText buffer.length (c :: rest) <;> rfl
      simp only [if_neg digit]
      by_cases kind : c = 105
      · simp only [if_pos kind]
        refine (h.ends_move small).bind fun s h => ?_
        have short : rest.length < fuel := by omega
        have integer := scanInteger_ends small h short
        refine .of_eq (integer.lift Value.integer) ?_
        cases readInteger rest <;> rfl
      simp only [if_neg kind]
      by_cases kind : c = 108
      · simp only [if_pos kind]
        refine (h.ends_move small).bind fun s h => ?_
        have items := h.ends_nested room fun s h => ih.items [] h (by omega)
        refine .of_eq (items.lift Value.list) ?_
        cases readItems buffer.length fuel (depth + 1) [] rest <;> rfl
      simp only [if_neg kind]
      by_cases kind : c = 100
      · simp only [if_pos kind]
        refine (h.ends_move small).bind fun s h => ?_
        have entries := h.ends_nested room fun s h => ih.entries [] h (by omega)
        refine .of_eq (entries.lift Value.dict) ?_
        cases readEntries buffer.length fuel (depth + 1) [] rest <;> rfl
      simp only [if_neg kind]
      exact ends_throw h

theorem items_succ (small : buffer.length < 2 ^ 60) (ih : FollowsWith buffer fuel)
    (before : List Value) (h : Facing buffer depth bytes s)
    (enough : 2 * bytes.length + 1 < fuel + 1) :
    Ends buffer depth s (scanItems buffer (fuel + 1) depth before)
      (readItems buffer.length (fuel + 1) depth before bytes) := by
  rw [scanItems]
  refine h.ends_left.bind fun s h => ?_
  cases bytes with
  | nil => exact (h.ends_refuse rfl _).stop
  | cons c rest =>
      rw [readItems]
      refine (h.ends_admit h.ofNat_length_ne_zero _).bind fun s h => ?_
      refine h.ends_fetch.bind fun s h => ?_
      by_cases last : c = 101
      · simp only [if_pos last]
        exact (h.ends_move small).bind fun s h => ends_pure h
      simp only [if_neg last]
      have value := ih.value h (by omega)
      cases read : readValue buffer.length fuel depth (c :: rest) with
      | error fault =>
          rw [read] at value
          exact value.stop
      | ok result =>
          have shorter := readValue_shorter read
          rw [read] at value
          exact value.bind fun s h => ih.items _ h (by omega)

theorem entries_succ (small : buffer.length < 2 ^ 60) (ih : FollowsWith buffer fuel)
    (before : Dict) (h : Facing buffer depth bytes s)
    (enough : 2 * bytes.length + 1 < fuel + 1) :
    Ends buffer depth s (scanEntries buffer (fuel + 1) depth before)
      (readEntries buffer.length (fuel + 1) depth before bytes) := by
  rw [scanEntries]
  refine h.ends_left.bind fun s h => ?_
  cases bytes with
  | nil => exact (h.ends_refuse rfl _).stop
  | cons c rest =>
      rw [readEntries]
      refine (h.ends_admit h.ofNat_length_ne_zero _).bind fun s h => ?_
      refine h.ends_fetch.bind fun s h => ?_
      by_cases last : c = 101
      · simp only [if_pos last]
        exact (h.ends_move small).bind fun s h => ends_pure h
      simp only [if_neg last]
      have short : (c :: rest).length < fuel := by
        rw [List.length_cons] at enough ⊢
        omega
      have text := scanText_ends small h short
      cases spelled : readText buffer.length (c :: rest) with
      | error fault =>
          rw [spelled] at text
          exact text.stop
      | ok result =>
          obtain ⟨key, behind⟩ := result
          have shorter := readText_shorter spelled
          rw [spelled] at text
          refine text.bind fun s h => ?_
          by_cases known : (before.any fun entry => entry.1.bytes = key.bytes) = true
          · simp only [if_pos known]
            exact (h.ends_refuse known _).stop
          simp only [if_neg known]
          refine (h.ends_admit known _).bind fun s h => ?_
          have value := ih.value h (by omega)
          cases read : readValue buffer.length fuel depth behind with
          | error fault =>
              rw [read] at value
              exact value.stop
          | ok result =>
              have shorter := readValue_shorter read
              rw [read] at value
              exact value.bind fun s h => ih.entries _ h (by omega)

end FollowsWith

theorem followsWith {buffer : Bytes} (small : buffer.length < 2 ^ 60) (fuel : Nat) :
    FollowsWith buffer fuel := by
  induction fuel with
  | zero =>
      refine ⟨?_, ?_, ?_⟩
      · intro depth bytes s _ enough
        cases enough
      · intro depth bytes s _ _ enough
        cases enough
      · intro depth bytes s _ _ enough
        cases enough
  | succ fuel ih => exact ⟨ih.value_succ small, ih.items_succ small, ih.entries_succ small⟩

end PieceLedger.Bencode
