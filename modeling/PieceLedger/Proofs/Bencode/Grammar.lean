import PieceLedger.Bencode.Value
import PieceLedger.Proofs.Decimal.Numerals

/-!
# The grammar of bencoded values

`Spells w t` says that `w` writes the byte string `t`; `Object depth w v` says
that `w` writes the value `v` inside `depth` lists and dictionaries.  The rules
are those of the format, said without a reader: lengths may have leading zeros,
integers have one written form, the keys of a dictionary are distinct and in any
order, and no value stands inside more than 64 lists and dictionaries.
-/

namespace PieceLedger.Bencode

open Decimal

/-- A length, a colon, and as many bytes as the length says. -/
inductive Spells : Bytes → Text → Prop
  | intro {digits content : Bytes} :
      digits ≠ [] → Digits digits → Decimal.value digits = content.length →
      Spells (digits ++ 58 :: content) ⟨superfluous digits, content⟩

def keys (entries : List (Text × Value)) : List Bytes := entries.map fun entry => entry.1.bytes

mutual

inductive Object : Nat → Bytes → Value → Prop
  | text {depth : Nat} {w : Bytes} {t : Text} :
      depth ≤ 64 → Spells w t → Object depth w (.text t)
  | integer {depth : Nat} {w : Bytes} {n : Int64} :
      depth ≤ 64 → SpellsInt w n.toInt → Object depth (105 :: (w ++ [101])) (.integer n)
  | list {depth : Nat} {w : Bytes} {items : List Value} :
      depth ≤ 64 → Items (depth + 1) w items →
        Object depth (108 :: (w ++ [101])) (.list items)
  | dict {depth : Nat} {w : Bytes} {entries : List (Text × Value)} :
      depth ≤ 64 → Entries (depth + 1) w entries → (keys entries).Nodup →
      Object depth (100 :: (w ++ [101])) (.dict entries)

inductive Items : Nat → Bytes → List Value → Prop
  | nil {depth : Nat} : Items depth [] []
  | cons {depth : Nat} {w more : Bytes} {v : Value} {items : List Value} :
      Object depth w v → Items depth more items → Items depth (w ++ more) (v :: items)

inductive Entries : Nat → Bytes → List (Text × Value) → Prop
  | nil {depth : Nat} : Entries depth [] []
  | cons {depth : Nat} {u w more : Bytes} {key : Text} {v : Value}
      {entries : List (Text × Value)} :
      Spells u key → Object depth w v → Entries depth more entries →
      Entries depth (u ++ (w ++ more)) ((key, v) :: entries)

end

inductive Document : Bytes → Dict → Prop
  | intro {w : Bytes} {entries : Dict} :
      Entries 1 w entries → (keys entries).Nodup → Document (100 :: (w ++ [101])) entries

/-! ## First bytes -/

theorem Spells.exists_digit {w : Bytes} {t : Text} (h : Spells w t) :
    ∃ c rest, w = c :: rest ∧ isDigit c = true := by
  obtain ⟨hne, hdigits, -⟩ := h
  obtain ⟨c, rest, rfl⟩ := List.exists_cons_of_ne_nil hne
  exact ⟨c, _, rfl, hdigits c (List.mem_cons_self ..)⟩

theorem Spells.exists_first {w : Bytes} {t : Text} (h : Spells w t) :
    ∃ c rest, w = c :: rest ∧ c ≠ 101 := by
  obtain ⟨c, rest, rfl, digit⟩ := h.exists_digit
  refine ⟨c, rest, rfl, ?_⟩
  rintro rfl
  cases digit

theorem Object.exists_first {depth : Nat} {w : Bytes} {v : Value} (h : Object depth w v) :
    ∃ c rest, w = c :: rest ∧ c ≠ 101 := by
  cases h with
  | text _ spelled => exact spelled.exists_first
  | integer | list | dict => exact ⟨_, _, rfl, by decide⟩

theorem Spells.length_pos {w : Bytes} {t : Text} (h : Spells w t) : 0 < w.length := by
  obtain ⟨c, rest, rfl, -⟩ := h.exists_digit
  exact Nat.succ_pos _

theorem Object.length_pos {depth : Nat} {w : Bytes} {v : Value} (h : Object depth w v) :
    0 < w.length := by
  obtain ⟨c, rest, rfl, -⟩ := h.exists_first
  exact Nat.succ_pos _

end PieceLedger.Bencode
