import PieceLedger.Decimal
import Mathlib.Algebra.Group.Nat.Defs
import Mathlib.Data.List.Basic
import Mathlib.Data.List.Induction

/-!
# Numerals

A numeral is a string of digits that starts with a zero only if it is `0`.
Every natural number has one numeral, which `write` gives; every integer has
one signed numeral, which `writeInt` gives.  Any other string of digits is a
numeral behind superfluous zeros.
-/

namespace PieceLedger.Decimal

def Digits (b : Bytes) : Prop := ∀ c ∈ b, isDigit c = true

structure IsNumeral (written : Bytes) : Prop where
  ne_nil : written ≠ []
  digits : Digits written
  leading : written.head? = some 48 → written = [48]

/-- Signed numerals: no sign stands before zero, and none but a minus sign. -/
inductive SpellsInt : Bytes → Int → Prop
  | natural {digits : Bytes} : IsNumeral digits → SpellsInt digits (value digits)
  | negative {digits : Bytes} : IsNumeral digits → value digits ≠ 0 →
      SpellsInt (45 :: digits) (-(value digits : Int))

/-- The number of zeros that stand before another digit and change nothing. -/
def superfluous (digits : Bytes) : Nat := (digits.dropLast.takeWhile (· = 48)).length

/-! ## Digits -/

theorem isDigit_iff {c : UInt8} : isDigit c = true ↔ 48 ≤ c.toNat ∧ c.toNat ≤ 57 := by
  simp only [isDigit, Bool.and_eq_true, decide_eq_true_eq, UInt8.le_iff_toNat_le]
  rfl

theorem digit_toNat (n : Nat) : (digit n).toNat = 48 + n % 10 := by
  rw [digit, UInt8.toNat_ofNat']
  omega

theorem isDigit_digit (n : Nat) : isDigit (digit n) = true := by
  rw [isDigit_iff, digit_toNat]
  omega

theorem digitValue_digit (n : Nat) : digitValue (digit n) = n % 10 := by
  rw [digitValue, digit_toNat]
  omega

theorem digit_digitValue {c : UInt8} (h : isDigit c = true) (n : Nat) :
    digit (n * 10 + digitValue c) = c := by
  have range := isDigit_iff.mp h
  rw [← UInt8.toNat_inj, digit_toNat, digitValue]
  omega

theorem digitValue_lt {c : UInt8} (h : isDigit c = true) : digitValue c < 10 := by
  have range := isDigit_iff.mp h
  rw [digitValue]
  omega

theorem Digits.append {b c : Bytes} : Digits (b ++ c) ↔ Digits b ∧ Digits c :=
  List.forall_mem_append

theorem Digits.cons {c : UInt8} {b : Bytes} :
    Digits (c :: b) ↔ isDigit c = true ∧ Digits b :=
  List.forall_mem_cons

/-! ## Values -/

theorem value_append_singleton (digits : Bytes) (c : UInt8) :
    value (digits ++ [c]) = value digits * 10 + digitValue c := by
  simp [value]

theorem value_zero_cons (digits : Bytes) : value (48 :: digits) = value digits := rfl

theorem value_replicate_zero (zeros : Nat) (digits : Bytes) :
    value (List.replicate zeros 48 ++ digits) = value digits := by
  induction zeros with
  | zero => rfl
  | succ zeros ih => rw [List.replicate_succ, List.cons_append, value_zero_cons, ih]

/-! ## Writing -/

theorem lastDigits_eq {places others n : Nat} (hplaces : n < places) (hothers : n < others) :
    lastDigits places n = lastDigits others n := by
  induction places generalizing others n with
  | zero => omega
  | succ places ih =>
      obtain ⟨others, rfl⟩ : ∃ k, others = k + 1 := ⟨others - 1, by omega⟩
      rw [lastDigits, lastDigits]
      split
      case isTrue => rfl
      case isFalse => exact congrArg (· ++ [digit n]) (ih (by omega) (by omega))

theorem write_of_lt {n : Nat} (h : n < 10) : write n = [digit n] := by
  rw [write, lastDigits, if_pos h]

theorem write_of_ge {n : Nat} (h : 10 ≤ n) : write n = write (n / 10) ++ [digit n] := by
  have last : lastDigits n (n / 10) = write (n / 10) :=
    lastDigits_eq (by omega) (Nat.lt_succ_self _)
  rw [write, lastDigits, if_neg (by omega), last]

theorem write_ne_nil (n : Nat) : write n ≠ [] := by
  rcases Nat.lt_or_ge n 10 with small | large
  · simp [write_of_lt small]
  · simp [write_of_ge large]

theorem digits_write (n : Nat) : Digits (write n) := by
  induction n using Nat.strongRecOn with
  | _ n ih =>
      have last : Digits [digit n] := by simpa [Digits] using isDigit_digit n
      rcases Nat.lt_or_ge n 10 with small | large
      · rwa [write_of_lt small]
      · rw [write_of_ge large, Digits.append]
        exact ⟨ih (n / 10) (by omega), last⟩

theorem value_write (n : Nat) : value (write n) = n := by
  induction n using Nat.strongRecOn with
  | _ n ih =>
      rcases Nat.lt_or_ge n 10 with small | large
      · rw [write_of_lt small, ← List.nil_append [digit n], value_append_singleton,
          digitValue_digit]
        exact (Nat.zero_add _).trans (Nat.mod_eq_of_lt small)
      · rw [write_of_ge large, value_append_singleton, ih (n / 10) (by omega), digitValue_digit]
        omega

theorem write_injective : Function.Injective write :=
  Function.LeftInverse.injective value_write

theorem length_write_le {n places : Nat} (hplaces : 0 < places) (h : n < 10 ^ places) :
    (write n).length ≤ places := by
  induction places generalizing n with
  | zero => omega
  | succ places ih =>
      rcases Nat.lt_or_ge n 10 with small | large
      · simp [write_of_lt small]
      · have positive : 0 < places := by
          apply Nat.pos_of_ne_zero
          rintro rfl
          omega
        have quotient : n / 10 < 10 ^ places := by
          rw [Nat.pow_succ] at h
          omega
        rw [write_of_ge large, List.length_append]
        exact Nat.succ_le_succ (ih positive quotient)

/-! ## Numerals -/

namespace IsNumeral

theorem write_value {digits : Bytes} (h : IsNumeral digits) : write (value digits) = digits := by
  obtain ⟨hne, hdigits, hleading⟩ := h
  induction digits using List.reverseRecOn with
  | nil => exact absurd rfl hne
  | append_singleton front c ih =>
      obtain ⟨hfront, hc⟩ := Digits.append.mp hdigits
      have hc : isDigit c = true := hc c (List.mem_singleton_self c)
      have small := digitValue_lt hc
      rw [value_append_singleton]
      rcases List.eq_nil_or_concat front with rfl | ⟨_, _, hcons⟩
      · rw [write_of_lt (by simpa [value] using small), digit_digitValue hc, List.nil_append]
      · have nonempty : front ≠ [] := by simp [hcons]
        have first : front.head? ≠ some 48 := by
          intro zero
          have alone := hleading (by rwa [List.head?_append_of_ne_nil _ nonempty])
          have length := congrArg List.length alone
          have positive := List.length_pos_iff.mpr nonempty
          rw [List.length_append, List.length_singleton, List.length_singleton] at length
          omega
        have numeral := ih nonempty hfront fun zero => absurd zero first
        have positive : value front ≠ 0 := by
          intro zero
          rw [zero] at numeral
          exact first (by rw [← numeral]; rfl)
        have quotient : (value front * 10 + digitValue c) / 10 = value front := by omega
        rw [write_of_ge (by omega), quotient, numeral, digit_digitValue hc]

theorem of_write (n : Nat) : IsNumeral (write n) := by
  refine ⟨write_ne_nil n, digits_write n, ?_⟩
  induction n using Nat.strongRecOn with
  | _ n ih =>
      intro zero
      rcases Nat.lt_or_ge n 10 with small | large
      · rw [write_of_lt small] at zero ⊢
        exact congrArg (fun c => [c]) (Option.some.inj zero)
      · -- The first digit of `n` is that of `n / 10`, which is not zero.
        rw [write_of_ge large, List.head?_append_of_ne_nil _ (write_ne_nil _)] at zero
        have alone := ih (n / 10) (by omega) zero
        have vanishes := congrArg value alone
        rw [value_write] at vanishes
        change n / 10 = 0 at vanishes
        omega

end IsNumeral

theorem isNumeral_singleton {c : UInt8} (h : isDigit c = true) : IsNumeral [c] :=
  ⟨by simp, by simpa [Digits] using h,
    fun zero => congrArg (fun c => [c]) (Option.some.inj zero)⟩

theorem superfluous_append_write {digits : Bytes} (hne : digits ≠ []) (hdigits : Digits digits) :
    List.replicate (superfluous digits) 48 ++ write (value digits) = digits := by
  induction digits with
  | nil => exact absurd rfl hne
  | cons c rest ih =>
      obtain ⟨hc, hrest⟩ := Digits.cons.mp hdigits
      cases rest with
      | nil => rw [(isNumeral_singleton hc).write_value]; rfl
      | cons d rest =>
          by_cases zero : c = 48
          · subst zero
            rw [value_zero_cons, superfluous, List.dropLast_cons_cons,
              List.takeWhile_cons_of_pos (by rfl), List.length_cons, List.replicate_succ]
            exact congrArg (48 :: ·) (ih (by simp) hrest)
          · have numeral : IsNumeral (c :: d :: rest) :=
              ⟨by simp, hdigits, fun h => absurd (Option.some.inj h) zero⟩
            rw [numeral.write_value, superfluous, List.dropLast_cons_cons,
              List.takeWhile_cons_of_neg (by simpa using zero)]
            rfl

theorem superfluous_add_length {digits : Bytes} (hne : digits ≠ []) (hdigits : Digits digits) :
    superfluous digits + (write (value digits)).length = digits.length := by
  have length := congrArg List.length (superfluous_append_write hne hdigits)
  rwa [List.length_append, List.length_replicate] at length

/-! ## Signed numerals -/

theorem spellsInt_iff {written : Bytes} {n : Int} :
    SpellsInt written n ↔ written = writeInt n := by
  constructor
  · intro h
    cases h with
    | @natural digits h =>
        rw [writeInt, if_neg (by omega), Int.natAbs_natCast, h.write_value]
    | @negative digits h hne =>
        rw [writeInt, if_pos (by omega), Int.natAbs_neg, Int.natAbs_natCast, h.write_value]
  · rintro rfl
    have numeral := IsNumeral.of_write n.natAbs
    have size := value_write n.natAbs
    rw [writeInt]
    split
    case isTrue below =>
      have spelled := SpellsInt.negative numeral (by omega)
      rwa [size, Int.ofNat_natAbs_of_nonpos (Int.le_of_lt below), Int.neg_neg] at spelled
    case isFalse above =>
      have spelled := SpellsInt.natural numeral
      rwa [size, Int.natAbs_of_nonneg (by omega)] at spelled

end PieceLedger.Decimal
