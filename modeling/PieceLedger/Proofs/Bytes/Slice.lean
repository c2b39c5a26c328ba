import PieceLedger.Bytes

/-!
# Slices of byte strings

A byte string counts as going on with zeros behind its end: `byteAt` reads it
so, and `fit` cuts it or fills it up to a length.  Byte strings of one length
are equal when they have the same bytes, which is how patched buffers are
compared with what they should hold.
-/

namespace PieceLedger.Bytes

/-- `length` bytes of `b` from `offset` on, fewer where `b` ends. -/
def slice (b : Bytes) (offset length : Nat) : Bytes := (b.drop offset).take length

theorem length_slice (b : Bytes) {offset length : Nat} (h : offset + length ≤ b.length) :
    (b.slice offset length).length = length := by
  rw [slice, List.length_take, List.length_drop]
  omega

theorem slice_slice (b : Bytes) {offset length inner extent : Nat}
    (h : inner + extent ≤ length) :
    (b.slice offset length).slice inner extent = b.slice (offset + inner) extent := by
  rw [slice, slice, slice, List.drop_take, List.take_take, List.drop_drop]
  rw [Nat.min_eq_left (by omega)]

theorem length_slice_le (b : Bytes) (offset length : Nat) :
    (b.slice offset length).length ≤ length :=
  List.length_take_le _ _

theorem append_slice_of_prefix {b chunk : Bytes} {offset length : Nat}
    (h : chunk <+: b.slice offset length) :
    chunk ++ b.slice (offset + chunk.length) (length - chunk.length) = b.slice offset length := by
  have rest : b.slice (offset + chunk.length) (length - chunk.length) =
      (b.slice offset length).drop chunk.length := by
    rw [slice, slice, List.drop_take, List.drop_drop]
  have split := List.take_append_drop chunk.length (b.slice offset length)
  rwa [← List.prefix_iff_eq_take.mp h, ← rest] at split

theorem flatMap_slice (b : Bytes) (length count : Nat) :
    (List.range count).flatMap (fun i => b.slice (i * length) length) =
      b.take (count * length) := by
  induction count with
  | zero => simp
  | succ count ih =>
      rw [List.range_succ, List.flatMap_append, ih, Nat.succ_mul, List.take_add]
      simp [slice]

/-! ## Bytes at positions -/

def byteAt (b : Bytes) (position : Nat) : UInt8 := b[position]?.getD 0

/-- The first `length` bytes, with zeros behind the end of `b`. -/
def fit (b : Bytes) (length : Nat) : Bytes :=
  b.take length ++ List.replicate (length - b.length) 0

theorem length_fit (b : Bytes) (length : Nat) : (b.fit length).length = length := by
  rw [fit, List.length_append, List.length_take, List.length_replicate]
  omega

theorem byteAt_of_le (b : Bytes) {i : Nat} (h : b.length ≤ i) : b.byteAt i = 0 := by
  rw [byteAt, List.getElem?_eq_none h]
  rfl

theorem eq_of_byteAt {b c : Bytes} (hlength : b.length = c.length)
    (h : ∀ i < b.length, b.byteAt i = c.byteAt i) : b = c := by
  apply List.ext_getElem hlength
  intro i hb hc
  have same := h i hb
  rwa [byteAt, byteAt, List.getElem?_eq_getElem hb, List.getElem?_eq_getElem hc] at same

theorem byteAt_append (b c : Bytes) (i : Nat) :
    (b ++ c).byteAt i = if i < b.length then b.byteAt i else c.byteAt (i - b.length) := by
  rw [byteAt, List.getElem?_append]
  split <;> rfl

theorem byteAt_replicate (length i : Nat) : byteAt (List.replicate length 0) i = 0 := by
  rw [byteAt, List.getElem?_replicate]
  split <;> rfl

theorem byteAt_slice (b : Bytes) {offset length i : Nat} (h : i < length) :
    (b.slice offset length).byteAt i = b.byteAt (offset + i) := by
  rw [byteAt, byteAt, slice, List.getElem?_take_of_lt h, List.getElem?_drop]

theorem slice_eq_slice_iff {b c : Bytes} {offset length : Nat} (hb : offset + length ≤ b.length)
    (hc : offset + length ≤ c.length) :
    b.slice offset length = c.slice offset length ↔
      ∀ i < length, b.byteAt (offset + i) = c.byteAt (offset + i) := by
  constructor
  · intro same i hi
    rw [← b.byteAt_slice hi, same, c.byteAt_slice hi]
  · intro same
    apply eq_of_byteAt
    · rw [b.length_slice hb, c.length_slice hc]
    · intro i hi
      rw [b.length_slice hb] at hi
      rw [b.byteAt_slice hi, c.byteAt_slice hi, same i hi]

theorem byteAt_fit (b : Bytes) {length i : Nat} (h : i < length) :
    (b.fit length).byteAt i = b.byteAt i := by
  rw [fit, byteAt_append, byteAt_replicate]
  split
  case isTrue => rw [byteAt, List.getElem?_take_of_lt h, byteAt]
  case isFalse outside =>
    rw [List.length_take] at outside
    exact (b.byteAt_of_le (by omega)).symm

theorem length_overlay {b patch : Bytes} {position : Nat}
    (h : position + patch.length ≤ b.length) : (b.overlay position patch).length = b.length := by
  rw [overlay, List.length_append, List.length_append, List.length_take, List.length_drop]
  omega

theorem byteAt_overlay {b patch : Bytes} {position : Nat}
    (h : position + patch.length ≤ b.length) (i : Nat) :
    (b.overlay position patch).byteAt i =
      if position ≤ i ∧ i < position + patch.length then patch.byteAt (i - position)
      else b.byteAt i := by
  have front : (b.take position).length = position := by
    rw [List.length_take]
    omega
  rw [overlay, byteAt_append, byteAt_append, List.length_append, front]
  split
  case isTrue before =>
    split
    case isTrue outside =>
      rw [byteAt, List.getElem?_take_of_lt outside, if_neg (by omega), byteAt]
    case isFalse inside => rw [if_pos (by omega)]
  case isFalse behind =>
    rw [if_neg (by omega), byteAt, List.getElem?_drop, Nat.add_sub_cancel' (by omega), byteAt]

theorem overlay_set (b : Bytes) {position : Nat} (h : position < b.length) (x : UInt8)
    (patch : Bytes) :
    overlay (b.set position x) (position + 1) patch = b.overlay position (x :: patch) := by
  have front : (b.set position x).take (position + 1) = b.take position ++ [x] := by
    rw [List.take_add_one, List.take_set_of_le (Nat.le_refl _), List.getElem?_set_self h]
    rfl
  have behind : (b.set position x).drop (position + 1 + patch.length) =
      b.drop (position + (x :: patch).length) := by
    rw [List.drop_set_of_lt (by omega), List.length_cons, Nat.add_right_comm, Nat.add_assoc]
  rw [overlay, overlay, front, behind, List.append_assoc, List.append_assoc, List.append_assoc]
  rfl

end PieceLedger.Bytes
