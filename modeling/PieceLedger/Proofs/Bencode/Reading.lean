import PieceLedger.Proofs.Bencode.Grammar
import PieceLedger.Proofs.Session.Operations

/-!
# Readers accept exactly the grammar

A reader is sound when all it consumes is written by the grammar as what it
returns, and complete when it consumes all that the grammar writes and returns
what is written.  From both for every kind of value it follows that a buffer is
decoded exactly if it begins with a dictionary of the grammar.
-/

namespace PieceLedger.Bencode

open Decimal

/-- Whatever the reader consumes, `grammar` writes. -/
def Sound {α : Type} (grammar : Bytes → α → Prop) (read : Bytes → Reading α) : Prop :=
  ∀ bytes x rest, read bytes = .ok (x, rest) → ∃ w, bytes = w ++ rest ∧ grammar w x

/-! ## Lengths -/

def valueFrom (start : Nat) (digits : Bytes) : Nat :=
  digits.foldl (fun total c => total * 10 + digitValue c) start

theorem le_valueFrom (start : Nat) (digits : Bytes) : start ≤ valueFrom start digits := by
  induction digits generalizing start with
  | nil => exact Nat.le_refl _
  | cons c rest ih =>
      have next := ih (start * 10 + digitValue c)
      change start ≤ valueFrom (start * 10 + digitValue c) rest
      omega

theorem readLength_sound {size length count number : Nat} {total : Nat} {bytes rest : Bytes}
    (h : readLength size length count bytes = .ok ((total, number), rest)) :
    ∃ digits, bytes = digits ++ rest ∧ Digits digits ∧ total = valueFrom length digits ∧
      number = count + digits.length := by
  induction bytes generalizing length count with
  | nil =>
      cases h
      exact ⟨[], rfl, by simp [Digits], rfl, rfl⟩
  | cons c bytes ih =>
      rw [readLength] at h
      split at h
      case isTrue digit =>
        split at h
        case isTrue => cases h
        case isFalse =>
          obtain ⟨digits, rfl, hdigits, htotal, hnumber⟩ := ih h
          refine ⟨c :: digits, rfl, Digits.cons.mpr ⟨digit, hdigits⟩, htotal, ?_⟩
          rw [hnumber, List.length_cons]
          omega
      case isFalse =>
        cases h
        exact ⟨[], rfl, by simp [Digits], rfl, rfl⟩

theorem readLength_complete {size length count : Nat} {digits rest : Bytes}
    (hdigits : Digits digits) (hsize : valueFrom length digits ≤ size) :
    readLength size length count (digits ++ 58 :: rest) =
      .ok ((valueFrom length digits, count + digits.length), 58 :: rest) := by
  induction digits generalizing length count with
  | nil => rfl
  | cons c digits ih =>
      obtain ⟨digit, hdigits⟩ := Digits.cons.mp hdigits
      have fits := Nat.le_trans (le_valueFrom (length * 10 + digitValue c) digits) hsize
      rw [List.cons_append, readLength, if_pos digit, if_neg (Nat.not_lt.mpr fits),
        ih hdigits hsize, List.length_cons, Nat.add_right_comm, Nat.add_assoc]
      rfl

/-! ## Byte strings -/

theorem readContent_sound {zeros length : Nat} {bytes rest : Bytes} {t : Text}
    (h : readContent zeros length bytes = .ok (t, rest)) :
    bytes = t.bytes ++ rest ∧ t.zeros = zeros ∧ t.bytes.length = length := by
  simp only [readContent] at h
  split at h
  case isTrue => cases h
  case isFalse enough =>
    cases h
    refine ⟨(List.take_append_drop length bytes).symm, rfl, ?_⟩
    rw [List.length_take] at enough ⊢
    omega

theorem readContent_complete (zeros : Nat) (content rest : Bytes) :
    readContent zeros content.length (content ++ rest) = .ok (⟨zeros, content⟩, rest) := by
  simp [readContent]

theorem readText_sound (size : Nat) : Sound Spells (readText size) := by
  intro bytes t rest h
  rw [readText] at h
  split at h
  case h_1 => cases h
  case h_2 => cases h
  case h_3 length count after hne hlength =>
    obtain ⟨digits, rfl, hdigits, rfl, hcount⟩ := readLength_sound hlength
    obtain ⟨rfl, hzeros, hbytes⟩ := readContent_sound h
    rw [Nat.zero_add] at hcount
    have nonempty : digits ≠ [] := by
      rintro rfl
      exact hne hcount
    have split : superfluous digits + (write (valueFrom 0 digits)).length = digits.length :=
      superfluous_add_length nonempty hdigits
    have spelled := Spells.intro nonempty hdigits hbytes.symm
    rw [show superfluous digits = t.zeros by omega] at spelled
    exact ⟨digits ++ 58 :: t.bytes, by simp, spelled⟩
  case h_4 => cases h

theorem readText_complete {size : Nat} {w : Bytes} {t : Text} (h : Spells w t)
    (hsize : w.length ≤ size) (rest : Bytes) : readText size (w ++ rest) = .ok (t, rest) := by
  obtain @⟨digits, content, hne, hdigits, hvalue⟩ := h
  have enough : valueFrom 0 digits ≤ size := by
    rw [List.length_append, List.length_cons] at hsize
    change Decimal.value digits ≤ size
    omega
  have number : 0 + digits.length ≠ 0 := by
    have positive := List.length_pos_iff.mpr hne
    omega
  have split : superfluous digits + (write (valueFrom 0 digits)).length = digits.length :=
    superfluous_add_length hne hdigits
  have zeros : 0 + digits.length - (write (valueFrom 0 digits)).length = superfluous digits := by
    omega
  rw [List.append_assoc, List.cons_append, readText, readLength_complete hdigits enough]
  split
  case h_1 heq => cases heq
  case h_2 heq =>
    have count := congrArg (fun r => r.1.2) (Except.ok.inj heq)
    exact absurd count number
  case h_3 length count after _ heq =>
    cases heq
    rw [zeros, ← readContent_complete]
    exact congrArg (readContent _ · _) hvalue
  case h_4 hcolon heq =>
    cases heq
    exact (hcolon _ _ _ rfl rfl).elim

/-! ## Integers -/

theorem integerValue_eq {w : Bytes} {n : Int} (h : SpellsInt w n) : integerValue w = n := by
  cases h with
  | natural numeral =>
      obtain ⟨c, rest, rfl⟩ := List.exists_cons_of_ne_nil numeral.ne_nil
      have digit := numeral.digits c (List.mem_cons_self ..)
      rw [integerValue]
      intro _ hminus
      obtain ⟨rfl, -⟩ := List.cons.inj hminus
      cases digit
  | negative => rfl

theorem integerOf_eq_ok {w : Bytes} {n : Int64} :
    integerOf w = .ok n ↔ SpellsInt w n.toInt := by
  have range (m : Int) :
      (m < Int64.minValue.toInt || Int64.maxValue.toInt < m) = true ↔
        ¬(-2 ^ 63 ≤ m ∧ m < 2 ^ 63) := by
    have least : Int64.minValue.toInt = -2 ^ 63 := rfl
    have greatest : Int64.maxValue.toInt = 2 ^ 63 - 1 := rfl
    simp only [least, greatest, Bool.or_eq_true, decide_eq_true_eq]
    omega
  simp only [integerOf, range]
  constructor
  · intro h
    split at h
    case isTrue => cases h
    case isFalse written =>
      split at h
      case isTrue => cases h
      case isFalse fits =>
        obtain ⟨low, high⟩ := Decidable.not_not.mp fits
        cases h
        rw [Int64.toInt_ofInt_of_le low high, spellsInt_iff]
        exact (Decidable.not_not.mp written).symm
  · intro h
    have fits : -2 ^ 63 ≤ n.toInt ∧ n.toInt < 2 ^ 63 := ⟨n.le_toInt, n.toInt_lt⟩
    rw [integerValue_eq h, if_neg (by simp [spellsInt_iff.mp h]), if_neg (not_not.mpr fits),
      Int64.ofInt_toInt]

theorem isIntegerByte_of_spellsInt {w : Bytes} {n : Int} (h : SpellsInt w n) :
    ∀ c ∈ w, isIntegerByte c = true := by
  have digit {digits : Bytes} (numeral : IsNumeral digits) :
      ∀ c ∈ digits, isIntegerByte c = true := by
    intro c hc
    rw [isIntegerByte, numeral.digits c hc, Bool.or_true]
  cases h with
  | natural numeral => exact digit numeral
  | negative numeral => exact List.forall_mem_cons.mpr ⟨rfl, digit numeral⟩

theorem length_le_of_spellsInt {w : Bytes} {n : Int64} (h : SpellsInt w n.toInt) :
    w.length ≤ maxIntegerLength := by
  have low := n.le_toInt
  have high := n.toInt_lt
  have digits : (write n.toInt.natAbs).length ≤ 19 :=
    length_write_le (by decide) (by omega)
  rw [spellsInt_iff.mp h, writeInt, maxIntegerLength]
  split
  · exact Nat.succ_le_succ digits
  · exact Nat.le_succ_of_le digits

theorem readInteger_sound :
    Sound (fun w n => ∃ number, w = number ++ [101] ∧ SpellsInt number n.toInt)
      readInteger := by
  intro bytes n rest h
  simp only [readInteger] at h
  split at h
  case isTrue => cases h
  case isFalse =>
    split at h
    case h_2 => cases h
    case h_1 after hafter =>
      split at h
      case h_2 => cases h
      case h_1 number hnumber =>
        cases h
        refine ⟨_, ?_, _, rfl, integerOf_eq_ok.mp hnumber⟩
        have split := List.take_append_drop (bytes.takeWhile isIntegerByte).length bytes
        rw [hafter, ← List.prefix_iff_eq_take.mp (List.takeWhile_prefix _)] at split
        rw [List.append_assoc]
        exact split.symm

theorem readInteger_complete {w : Bytes} {n : Int64} (h : SpellsInt w n.toInt) (rest : Bytes) :
    readInteger (w ++ 101 :: rest) = .ok (n, rest) := by
  have written : (w ++ 101 :: rest).takeWhile isIntegerByte = w := by
    rw [List.takeWhile_append_of_pos (isIntegerByte_of_spellsInt h),
      List.takeWhile_cons_of_neg (by decide), List.append_nil]
  simp only [readInteger, written, List.drop_left, integerOf_eq_ok.mpr h]
  rw [if_neg (Nat.not_lt.mpr (length_le_of_spellsInt h))]

/-! ## Values -/

theorem any_key_iff {before : List (Text × Value)} {key : Bytes} :
    (before.any fun entry => entry.1.bytes = key) = true ↔ key ∈ keys before := by
  simp only [List.any_eq_true, decide_eq_true_eq, keys, List.mem_map]

theorem not_mem_keys_of_nodup {before entries : List (Text × Value)} {key : Text} {v : Value}
    (distinct : (keys (before.reverse ++ (key, v) :: entries)).Nodup) :
    key.bytes ∉ keys before := by
  rw [keys, List.map_append, List.map_reverse, List.nodup_append] at distinct
  intro known
  exact distinct.2.2 _ (List.mem_reverse.mpr known) _ (List.mem_cons_self ..) rfl

theorem reverse_cons_append {α : Type} (x : α) (before after : List α) :
    (x :: before).reverse ++ after = before.reverse ++ x :: after := by
  rw [List.reverse_cons, List.append_assoc]
  rfl

structure SoundWith (size fuel : Nat) : Prop where
  value : ∀ depth, Sound (Object depth) (readValue size fuel depth)
  items : ∀ depth before,
    Sound (fun w items => ∃ u new, w = u ++ [101] ∧ items = before.reverse ++ new ∧
      Items depth u new) (readItems size fuel depth before)
  entries : ∀ depth before, (keys before).Nodup →
    Sound (fun w entries => ∃ u new, w = u ++ [101] ∧ entries = before.reverse ++ new ∧
      Entries depth u new ∧ (keys entries).Nodup) (readEntries size fuel depth before)

namespace SoundWith

variable {size fuel : Nat}

theorem value_succ (ih : SoundWith size fuel) (depth : Nat) :
    Sound (Object depth) (readValue size (fuel + 1) depth) := by
  intro bytes v rest h
  unfold readValue at h
  split at h
  case isTrue => cases h
  case isFalse shallow =>
    have within : depth ≤ 64 := Nat.le_of_not_lt shallow
    split at h
    case h_1 => cases h
    case h_2 c more =>
      split at h
      case isTrue =>
        split at h
        case h_2 => cases h
        case h_1 t _ htext =>
          cases h
          obtain ⟨w, heq, spelled⟩ := readText_sound size _ _ _ htext
          exact ⟨w, heq, .text within spelled⟩
      case isFalse =>
        split at h
        case isTrue kind =>
          split at h
          case h_2 => cases h
          case h_1 n _ hnumber =>
            cases h
            obtain ⟨_, rfl, w, rfl, spelled⟩ := readInteger_sound _ _ _ hnumber
            exact ⟨_, by rw [kind]; rfl, .integer within spelled⟩
        case isFalse =>
          split at h
          case isTrue kind =>
            split at h
            case h_2 => cases h
            case h_1 items _ hitems =>
              cases h
              obtain ⟨_, rfl, w, new, rfl, rfl, written⟩ := ih.items _ _ _ _ _ hitems
              exact ⟨_, by rw [kind]; rfl, .list within written⟩
          case isFalse =>
            split at h
            case isTrue kind =>
              split at h
              case h_2 => cases h
              case h_1 entries _ hentries =>
                cases h
                obtain ⟨_, rfl, w, new, rfl, rfl, written, distinct⟩ :=
                  ih.entries _ [] List.nodup_nil _ _ _ hentries
                exact ⟨_, by rw [kind]; rfl, .dict within written distinct⟩
            case isFalse => cases h

theorem items_succ (ih : SoundWith size fuel) (depth : Nat) (before : List Value) :
    Sound (fun w items => ∃ u new, w = u ++ [101] ∧ items = before.reverse ++ new ∧
      Items depth u new) (readItems size (fuel + 1) depth before) := by
  intro bytes items rest h
  unfold readItems at h
  split at h
  case h_1 => cases h
  case h_2 c more =>
    split at h
    case isTrue last =>
      cases h
      exact ⟨[101], by rw [last]; rfl, [], [], rfl, (List.append_nil _).symm, .nil⟩
    case isFalse =>
      split at h
      case h_1 => cases h
      case h_2 v after hvalue =>
        obtain ⟨w, heq, object⟩ := ih.value _ _ _ _ hvalue
        obtain ⟨_, rfl, u, new, rfl, rfl, written⟩ := ih.items _ _ _ _ _ h
        refine ⟨(w ++ u) ++ [101], ?_, w ++ u, v :: new, rfl, reverse_cons_append _ _ _,
          .cons object written⟩
        rw [heq, List.append_assoc, List.append_assoc, List.append_assoc]

theorem entries_succ (ih : SoundWith size fuel) (depth : Nat) (before : List (Text × Value))
    (hbefore : (keys before).Nodup) :
    Sound (fun w entries => ∃ u new, w = u ++ [101] ∧ entries = before.reverse ++ new ∧
      Entries depth u new ∧ (keys entries).Nodup) (readEntries size (fuel + 1) depth before) := by
  intro bytes entries rest h
  unfold readEntries at h
  split at h
  case h_1 => cases h
  case h_2 c more =>
    split at h
    case isTrue last =>
      cases h
      refine ⟨[101], by rw [last]; rfl, [], [], rfl, (List.append_nil _).symm, .nil, ?_⟩
      rwa [keys, List.map_reverse, (List.reverse_perm _).nodup_iff]
    case isFalse =>
      split at h
      case h_1 => cases h
      case h_2 key after hkey =>
        split at h
        case isTrue => cases h
        case isFalse fresh =>
          split at h
          case h_1 => cases h
          case h_2 v after hvalue =>
            have distinct : (keys ((key, v) :: before)).Nodup := by
              refine List.nodup_cons.mpr ⟨fun known => fresh ?_, hbefore⟩
              exact any_key_iff.mpr known
            obtain ⟨k, heq, spelled⟩ := readText_sound size _ _ _ hkey
            obtain ⟨w, rfl, object⟩ := ih.value _ _ _ _ hvalue
            obtain ⟨_, rfl, u, new, rfl, rfl, written, nodup⟩ := ih.entries _ _ distinct _ _ _ h
            refine ⟨(k ++ (w ++ u)) ++ [101], ?_, k ++ (w ++ u), (key, v) :: new, rfl,
              reverse_cons_append _ _ _, .cons spelled object written, nodup⟩
            rw [heq]
            simp only [List.append_assoc]

end SoundWith

theorem soundWith (size fuel : Nat) : SoundWith size fuel := by
  induction fuel with
  | zero =>
      refine ⟨?_, ?_, ?_⟩
      · intro depth bytes v rest h
        cases h
      · intro depth before bytes items rest h
        cases h
      · intro depth before _ bytes entries rest h
        cases h
  | succ fuel ih => exact ⟨ih.value_succ, ih.items_succ, ih.entries_succ⟩

/-! ## Everything the grammar writes is read -/

section Reads

variable {size fuel depth : Nat} {bytes rest : Bytes}

theorem readValue_text {t : Text} (within : depth ≤ 64)
    (first : ∃ c more, bytes = c :: more ∧ isDigit c = true)
    (read : readText size bytes = .ok (t, rest)) :
    readValue size (fuel + 1) depth bytes = .ok (.text t, rest) := by
  have shallow : ¬maxDepth < depth := Nat.not_lt.mpr within
  obtain ⟨c, more, rfl, digit⟩ := first
  simp only [readValue, if_neg shallow, if_pos digit, read]

theorem readValue_integer {n : Int64} (within : depth ≤ 64)
    (read : readInteger bytes = .ok (n, rest)) :
    readValue size (fuel + 1) depth (105 :: bytes) = .ok (.integer n, rest) := by
  have shallow : ¬maxDepth < depth := Nat.not_lt.mpr within
  simp only [readValue, if_neg shallow, read]
  rfl

theorem readValue_list {items : List Value} (within : depth ≤ 64)
    (read : readItems size fuel (depth + 1) [] bytes = .ok (items, rest)) :
    readValue size (fuel + 1) depth (108 :: bytes) = .ok (.list items, rest) := by
  have shallow : ¬maxDepth < depth := Nat.not_lt.mpr within
  simp only [readValue, if_neg shallow, read]
  rfl

theorem readValue_dict {entries : Dict} (within : depth ≤ 64)
    (read : readEntries size fuel (depth + 1) [] bytes = .ok (entries, rest)) :
    readValue size (fuel + 1) depth (100 :: bytes) = .ok (.dict entries, rest) := by
  have shallow : ¬maxDepth < depth := Nat.not_lt.mpr within
  simp only [readValue, if_neg shallow, read]
  rfl

theorem readItems_cons {before : List Value} {v : Value} {more : Bytes}
    (first : ∃ c tail, bytes = c :: tail ∧ c ≠ 101)
    (read : readValue size fuel depth bytes = .ok (v, more)) :
    readItems size (fuel + 1) depth before bytes =
      readItems size fuel depth (v :: before) more := by
  obtain ⟨c, tail, rfl, open'⟩ := first
  simp only [readItems, if_neg open', read]

theorem readEntries_cons {before : List (Text × Value)} {key : Text} {v : Value}
    {middle more : Bytes} (first : ∃ c tail, bytes = c :: tail ∧ c ≠ 101)
    (spelled : readText size bytes = .ok (key, middle)) (fresh : key.bytes ∉ keys before)
    (read : readValue size fuel depth middle = .ok (v, more)) :
    readEntries size (fuel + 1) depth before bytes =
      readEntries size fuel depth ((key, v) :: before) more := by
  obtain ⟨c, tail, rfl, open'⟩ := first
  simp only [readEntries, if_neg open', spelled, if_neg (mt any_key_iff.mp fresh), read]

end Reads

-- Two units of fuel a byte are enough: no value is empty, and each takes one
-- unit for itself and one for the place it has in a list or dictionary.
mutual

theorem Object.read {size depth fuel : Nat} {w : Bytes} {v : Value} (h : Object depth w v)
    (hfuel : 2 * w.length ≤ fuel) (hsize : w.length ≤ size) (rest : Bytes) :
    readValue size fuel depth (w ++ rest) = .ok (v, rest) := by
  obtain _ | fuel := fuel
  · have positive := h.length_pos
    omega
  match h with
  | .text within spelled =>
      obtain ⟨c, tail, heq, digit⟩ := spelled.exists_digit
      refine readValue_text within ⟨c, tail ++ rest, by rw [heq]; rfl, digit⟩ ?_
      exact readText_complete spelled hsize rest
  | .integer within spelled =>
      rw [List.cons_append, List.append_assoc]
      exact readValue_integer within (readInteger_complete spelled rest)
  | .list within items =>
      rw [List.length_cons, List.length_append, List.length_singleton] at hfuel hsize
      rw [List.cons_append, List.append_assoc]
      exact readValue_list within (items.read [] (by omega) (by omega) rest)
  | .dict within entries distinct =>
      rw [List.length_cons, List.length_append, List.length_singleton] at hfuel hsize
      rw [List.cons_append, List.append_assoc]
      exact readValue_dict within (entries.read [] distinct (by omega) (by omega) rest)

theorem Items.read {size depth fuel : Nat} {w : Bytes} {items : List Value}
    (h : Items depth w items) (before : List Value) (hfuel : 2 * w.length + 1 ≤ fuel)
    (hsize : w.length ≤ size) (rest : Bytes) :
    readItems size fuel depth before (w ++ 101 :: rest) = .ok (before.reverse ++ items, rest) := by
  obtain _ | fuel := fuel
  · omega
  match h with
  | .nil =>
      rw [List.append_nil, List.nil_append, readItems]
      rfl
  | .cons object others =>
      have positive := object.length_pos
      rw [List.length_append] at hfuel hsize
      obtain ⟨c, tail, heq, hfirst⟩ := object.exists_first
      rw [List.append_assoc, readItems_cons ⟨c, _, by rw [heq]; rfl, hfirst⟩
          (object.read (by omega) (by omega) _),
        others.read _ (by omega) (by omega) rest, reverse_cons_append]

theorem Entries.read {size depth fuel : Nat} {w : Bytes} {entries : List (Text × Value)}
    (h : Entries depth w entries) (before : List (Text × Value))
    (distinct : (keys (before.reverse ++ entries)).Nodup)
    (hfuel : 2 * w.length + 1 ≤ fuel) (hsize : w.length ≤ size) (rest : Bytes) :
    readEntries size fuel depth before (w ++ 101 :: rest) =
      .ok (before.reverse ++ entries, rest) := by
  obtain _ | fuel := fuel
  · omega
  match h with
  | .nil =>
      rw [List.append_nil, List.nil_append, readEntries]
      rfl
  | .cons spelled object others =>
      rw [List.length_append, List.length_append] at hfuel hsize
      have positive := spelled.length_pos
      obtain ⟨c, tail, heq, hfirst⟩ := spelled.exists_first
      have fresh := not_mem_keys_of_nodup distinct
      rw [← reverse_cons_append] at distinct ⊢
      rw [List.append_assoc, List.append_assoc,
        readEntries_cons ⟨c, _, by rw [heq]; rfl, hfirst⟩
          (readText_complete spelled (by omega) _) fresh (object.read (by omega) (by omega) _),
        others.read _ distinct (by omega) (by omega) rest]

end

/-! ## Buffers -/

theorem readBuffer_eq_ok {buffer rest : Bytes} {entries : Dict} :
    readBuffer buffer = .ok (entries, rest) ↔
      ∃ w, buffer = w ++ rest ∧ Document w entries := by
  constructor
  · intro h
    unfold readBuffer at h
    split at h
    case h_2 => cases h
    case h_1 bytes =>
      split at h
      case h_2 => cases h
      case h_1 result hresult =>
        cases h
        obtain ⟨_, rfl, w, new, rfl, rfl, written, distinct⟩ :=
          (soundWith _ _).entries 1 [] List.nodup_nil _ _ _ hresult
        exact ⟨_, rfl, .intro written distinct⟩
  · rintro ⟨_, rfl, @⟨w, _, written, distinct⟩⟩
    rw [List.cons_append, List.append_assoc, List.singleton_append]
    have enough : (100 :: (w ++ 101 :: rest)).length = w.length + rest.length + 2 := by
      rw [List.length_cons, List.length_append, List.length_cons]
      omega
    simp only [readBuffer]
    generalize (100 :: (w ++ 101 :: rest)).length = size at *
    have read : readEntries size (2 * size) 1 [] (w ++ 101 :: rest) = .ok (entries, rest) :=
      written.read [] distinct (by omega) (by omega) rest
    rw [read]

theorem Document.unique {buffer u w : Bytes} {entries others : Dict} (hu : u <+: buffer)
    (hw : w <+: buffer) (first : Document u entries) (second : Document w others) :
    u = w ∧ entries = others := by
  obtain ⟨behind, rfl⟩ := hu
  obtain ⟨rest, heq⟩ := hw
  have read : readBuffer (u ++ behind) = .ok (entries, behind) :=
    readBuffer_eq_ok.mpr ⟨u, rfl, first⟩
  rw [readBuffer_eq_ok.mpr ⟨w, heq.symm, second⟩] at read
  cases read
  exact ⟨(List.append_cancel_right heq).symm, rfl⟩

theorem decode_eq_ok {buffer : Bytes} {entries : Dict} :
    decode buffer = .ok entries ↔ ∃ w, w <+: buffer ∧ Document w entries := by
  unfold decode
  constructor
  · intro h
    split at h
    case h_2 => cases h
    case h_1 rest hread =>
      cases h
      obtain ⟨w, rfl, written⟩ := readBuffer_eq_ok.mp hread
      exact ⟨w, ⟨rest, rfl⟩, written⟩
  · rintro ⟨w, ⟨rest, heq⟩, written⟩
    rw [readBuffer_eq_ok.mpr ⟨w, heq.symm, written⟩]

theorem decoding_eq_decoded {buffer : Bytes} {entries : Dict} {lines : List Trace.Line} :
    ((decoding buffer).result, (decoding buffer).lines) = (.decoded entries, lines) ↔
      decode buffer = .ok entries ∧ lines = [] := by
  cases decoded : decode buffer with
  | ok others =>
      rw [(decoding_of_ok decoded).result_eq, (decoding_of_ok decoded).lines_eq]
      simp [eq_comm]
  | error refusal =>
      rw [(decoding_of_error decoded).result_eq]
      simp

/-! ## Sources -/

/-- The bytes that a source offers, if it can be read. -/
def Source.bytes? (tree : FileTree) : Source → Option Bytes
  | .buffer bytes => some bytes
  | .file none => none
  | .file (some path) => (tree.content path).toOption

theorem Source.load_eq_decoded {tree : FileTree} {source : Source} {entries : Dict}
    {lines : List Trace.Line} :
    source.load tree = (.decoded entries, lines) ↔
      (∃ bytes, source.bytes? tree = some bytes ∧ decode bytes = .ok entries) ∧
        lines = [] := by
  rw [load]
  cases source with
  | buffer bytes =>
      simp only [Source.bytes?, Option.some.injEq, exists_eq_left']
      cases bytes with
      | nil =>
          refine iff_of_false (fun h => ?_) fun h => ?_
          · cases (Prod.mk.inj h).1
          · cases h.1
      | cons c rest => exact decoding_eq_decoded
  | file path =>
      cases path with
      | none =>
          refine iff_of_false (fun h => ?_) (by simp [Source.bytes?])
          cases (Prod.mk.inj h).1
      | some name =>
          simp only [Source.bytes?]
          cases content : tree.content name with
          | error fault =>
              rw [(loading_file_of_error content).result_eq]
              simp [Except.toOption]
          | ok bytes =>
              rw [loading_file_of_ok content, decoding_eq_decoded]
              simp [Except.toOption]

theorem Source.load_of_undecoded {tree : FileTree} {source : Source}
    (undecoded : ∀ bytes entries, source.bytes? tree = some bytes →
      decode bytes ≠ .ok entries) :
    ∃ outcome lines, source.load tree = (outcome, lines) ∧ outcome.isDecoded = false := by
  cases loaded : source.load tree with
  | mk outcome lines =>
      refine ⟨outcome, lines, rfl, ?_⟩
      cases outcome with
      | unavailable | refused => rfl
      | decoded entries =>
          obtain ⟨⟨bytes, offered, decoded⟩, -⟩ := Source.load_eq_decoded.mp loaded
          exact absurd decoded (undecoded bytes entries offered)

end PieceLedger.Bencode

namespace PieceLedger.Session

open Bencode

theorem loadDict_ok_iff (s : Session) {source : Source} {entries : Dict} :
    (s.perform (.loadDict source)).reply = .dict true entries ↔
      ∃ bytes, source.bytes? s.tree = some bytes ∧ decode bytes = .ok entries := by
  have decodes := @Source.load_eq_decoded s.tree source entries
  constructor
  · intro h
    cases loaded : source.load s.tree with
    | mk outcome lines =>
        rw [reply_loadDict, loaded] at h
        obtain ⟨decoded, held⟩ := Reply.dict.inj h
        cases outcome with
        | unavailable | refused => cases decoded
        | decoded others =>
            obtain rfl : others = entries := held
            exact (decodes.mp loaded).1
  · intro offered
    rw [reply_loadDict, decodes.mpr ⟨offered, rfl⟩]
    rfl

/--
Decoding a buffer that has bytes accepts it exactly if it begins with a document,
and then holds what the document writes; after any other buffer the decoder holds
an empty dictionary.
-/
theorem decoder_accepts_grammar (s : Session) {buffer : Bytes} (hne : buffer ≠ []) :
    let outcome := s.perform (.loadDict (.buffer buffer))
    (∀ w entries, w <+: buffer → Document w entries →
      outcome.reply = .dict true entries ∧ outcome.session.dict = entries) ∧
    ((∀ w entries, w <+: buffer → ¬Document w entries) →
      outcome.reply = .dict false [] ∧ outcome.session.dict = []) := by
  intro outcome
  have dict : outcome.session.dict = (decoding buffer).result.replace s.dict := by
    rw [dict_loadDict, Source.load, Source.loading_buffer hne]
  have reply : outcome.reply = .dict (decoding buffer).result.isDecoded outcome.session.dict := by
    rw [dict, reply_loadDict, Source.load, Source.loading_buffer hne]
  rw [reply, dict]
  constructor
  · intro w entries front document
    rw [(decoding_of_ok (decode_eq_ok.mpr ⟨w, front, document⟩)).result_eq]
    exact ⟨rfl, rfl⟩
  · intro refused
    cases decoded : decode buffer with
    | ok entries =>
        obtain ⟨w, front, document⟩ := decode_eq_ok.mp decoded
        exact absurd document (refused w entries front)
    | error refusal =>
        rw [(decoding_of_error decoded).result_eq]
        exact ⟨rfl, rfl⟩

/-- A length with superfluous zeros, an empty list, and a byte behind the document. -/
theorem decoder_accepts_grammar_padded :
    Bytes.ofString "d002:idlee!" ≠ [] ∧
      (perform { tree := ⟨[], []⟩ }
          (.loadDict (.buffer (Bytes.ofString "d002:idlee!")))).reply =
        .dict true [(⟨2, Bytes.ofString "id"⟩, .list [])] := by
  have hne : Bytes.ofString "d002:idlee!" ≠ [] := by decide
  have digits : (Bytes.ofString "002").all Decimal.isDigit = true := by decide
  have key : Spells (Bytes.ofString "002:id") ⟨2, Bytes.ofString "id"⟩ :=
    @Spells.intro (Bytes.ofString "002") (Bytes.ofString "id") (by decide)
      (List.all_eq_true.mp digits) (by decide)
  have document :
      Document (Bytes.ofString "d002:idlee") [(⟨2, Bytes.ofString "id"⟩, .list [])] :=
    .intro (.cons key (.list (by decide) .nil) .nil) (by decide)
  have front : Bytes.ofString "d002:idlee" <+: Bytes.ofString "d002:idlee!" := by decide
  exact ⟨hne, ((decoder_accepts_grammar _ hne).1 _ _ front document).1⟩

end PieceLedger.Session
