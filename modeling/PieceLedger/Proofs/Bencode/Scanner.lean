import PieceLedger.Bencode.Scanner
import Mathlib.Algebra.Group.Nat.Defs

/-!
# Laws of scanners

A scan is sound if its cursor is in the buffer, all that it has written down is
safe, and no more than 65 lists and dictionaries have been open at a time.  `Ends`
says of a scanner that it ends as a reader does on the bytes in front of the cursor,
and leaves a sound scan in front of the bytes that the reader leaves.  There is one
law for each step a scanner is made of, so that the laws of whole scanners follow
their definitions.

A scanner with more fuel has every outcome that it has with less.
-/

namespace PieceLedger.Bencode

/-! ## Sound scans -/

/-- A cursor in a buffer of `size` bytes: its count and its pointer agree, and the
number of bytes in front of it does not wrap around. -/
structure Cursor.Within (size : Nat) (cursor : Cursor) : Prop where
  offset_le : cursor.offset.toNat ≤ size
  pointer_eq : cursor.pointer = cursor.offset.toNat
  left_eq : (UInt64.ofNat size - cursor.offset).toNat = size - cursor.offset.toNat

/-- What may happen in a buffer of `size` bytes.  Sums do not wrap around, and what
is read has at least one byte. -/
def Event.Safe (size : Nat) : Event → Prop
  | .stand cursor => cursor.Within size
  | .look index => index < size
  | .take index length => index + length ≤ size
  | .sum length digit total =>
      total.toNat = length.toNat * 10 + digit.toNat ∧ total.toNat ≤ 10 * size + 9
  | .read _ before after => before.offset < after.offset
  | .opened | .closed => True

structure Safe (size : Nat) (events : List Event) : Prop where
  event : ∀ event ∈ events, event.Safe size
  shallow : ∀ earlier, earlier <:+ events → nesting earlier ≤ 65

/-- A sound scan in front of `bytes`, inside `depth` lists and dictionaries. -/
structure Facing (buffer : Bytes) (depth : Nat) (bytes : Bytes) (s : Scan) : Prop where
  within : s.cursor.Within buffer.length
  bytes_eq : buffer.drop s.cursor.pointer = bytes
  safe : Safe buffer.length s.events
  depth_eq : nesting s.events = depth

theorem Cursor.within_of_le {size : Nat} {cursor : Cursor} (small : size < 2 ^ 60)
    (hle : cursor.offset.toNat ≤ size) (heq : cursor.pointer = cursor.offset.toNat) :
    cursor.Within size := by
  refine ⟨hle, heq, ?_⟩
  have total : (UInt64.ofNat size).toNat = size :=
    UInt64.toNat_ofNat_of_lt' (Nat.lt_trans small (by decide))
  rw [UInt64.toNat_sub_of_le _ _ (by rwa [UInt64.le_iff_toNat_le, total]), total]

theorem Safe.cons {size : Nat} {event : Event} {events : List Event} (h : Safe size events)
    (safe : event.Safe size) (shallow : nesting (event :: events) ≤ 65) :
    Safe size (event :: events) := by
  refine ⟨List.forall_mem_cons.mpr ⟨safe, h.event⟩, ?_⟩
  intro earlier suffix
  rcases List.suffix_cons_iff.mp suffix with rfl | suffix
  · exact shallow
  · exact h.shallow earlier suffix

def Event.plain : Event → Bool
  | .opened | .closed => false
  | _ => true

theorem nesting_plain {event : Event} (plain : event.plain = true) (events : List Event) :
    nesting (event :: events) = nesting events := by
  cases event with
  | opened | closed => cases plain
  | stand | look | take | sum | read => rfl

namespace Facing

variable {buffer bytes : Bytes} {depth : Nat} {s : Scan}

theorem note (h : Facing buffer depth bytes s) (event : Event) (safe : event.Safe buffer.length)
    (plain : event.plain = true) : Facing buffer depth bytes (s.note event) := by
  have depth_eq := (nesting_plain plain s.events).trans h.depth_eq
  have shallow := h.safe.shallow s.events (List.suffix_refl _)
  refine ⟨h.within, h.bytes_eq, h.safe.cons safe ?_, depth_eq⟩
  rwa [depth_eq, ← h.depth_eq]

theorem opened (h : Facing buffer depth bytes s) (room : depth < 65) :
    Facing buffer (depth + 1) bytes (s.note .opened) := by
  have depth_eq : nesting (.opened :: s.events) = depth + 1 := congrArg (· + 1) h.depth_eq
  exact ⟨h.within, h.bytes_eq, h.safe.cons trivial (by omega), depth_eq⟩

theorem closed (h : Facing buffer (depth + 1) bytes s) :
    Facing buffer depth bytes (s.note .closed) := by
  have depth_eq : nesting (.closed :: s.events) = depth := congrArg (· - 1) h.depth_eq
  have shallow := h.safe.shallow s.events (List.suffix_refl _)
  rw [h.depth_eq] at shallow
  exact ⟨h.within, h.bytes_eq, h.safe.cons trivial (by omega), depth_eq⟩

theorem offset_add_length (h : Facing buffer depth bytes s) :
    s.cursor.offset.toNat + bytes.length = buffer.length := by
  have inside := h.within.offset_le
  rw [← h.bytes_eq, List.length_drop, h.within.pointer_eq]
  omega

theorem left_eq (h : Facing buffer depth bytes s) :
    (Scanner.size buffer - s.cursor.offset).toNat = bytes.length := by
  have total := h.offset_add_length
  have left := h.within.left_eq
  change (Scanner.size buffer - s.cursor.offset).toNat = _ at left
  omega

theorem ofNat_length_ne_zero {c : UInt8} {rest : Bytes} (h : Facing buffer depth (c :: rest) s) :
    UInt64.ofNat (c :: rest).length ≠ 0 := by
  rw [← h.left_eq, UInt64.ofNat_toNat, Ne, ← UInt64.toNat_inj, h.left_eq]
  exact Nat.succ_ne_zero rest.length

theorem put {w rest : Bytes} {length : UInt64} (small : buffer.length < 2 ^ 60)
    (h : Facing buffer depth (w ++ rest) s) (hlength : w.length = length.toNat) :
    Facing buffer depth rest (s.put (s.cursor.advance length)) := by
  have total := h.offset_add_length
  rw [List.length_append] at total
  have offset : (s.cursor.offset + length).toNat = s.cursor.offset.toNat + w.length := by
    rw [UInt64.toNat_add, hlength]
    omega
  have pointer := h.within.pointer_eq
  have within : (s.cursor.advance length).Within buffer.length :=
    Cursor.within_of_le small (by rw [Cursor.advance, offset]; omega)
      (by rw [Cursor.advance, offset, ← hlength, pointer])
  have moved : Facing buffer depth rest { s with cursor := s.cursor.advance length } := by
    refine ⟨within, ?_, h.safe, h.depth_eq⟩
    rw [Cursor.advance, ← hlength, ← List.drop_drop, h.bytes_eq, List.drop_left]
  exact moved.note _ within rfl

end Facing

theorem facing_start {buffer : Bytes} (small : buffer.length < 2 ^ 60) :
    Facing buffer 0 buffer .start := by
  have within : Cursor.Within buffer.length ⟨0, 0⟩ :=
    Cursor.within_of_le small (Nat.zero_le _) rfl
  have nothing : Safe buffer.length [] := by
    refine ⟨fun _ h => (List.not_mem_nil h).elim, ?_⟩
    intro earlier suffix
    rw [List.suffix_nil.mp suffix]
    exact Nat.zero_le _
  exact ⟨within, rfl, nothing.cons within (Nat.zero_le _), rfl⟩

/-! ## How scanners end -/

/-- From `s` the scanner ends as a reader did; a fault may leave any number of lists
and dictionaries open. -/
def Ends {α : Type} (buffer : Bytes) (depth : Nat) (s : Scan) (scanner : Scanner α) :
    Reading α → Prop
  | .ok (x, rest) => ∃ after, scanner s = some (.ok x, after) ∧ Facing buffer depth rest after
  | .error fault =>
      ∃ after within, scanner s = some (.error fault.cause, after) ∧
        Facing buffer within fault.rest after

section Ends

variable {α β : Type} {buffer bytes rest : Bytes} {depth within : Nat} {s after : Scan}
  {scanner : Scanner α} {next : α → Scanner β} {reading : Reading β} {x : α} {cause : Cause}
  {fault : Fault}

theorem Scanner.bind_of_ok (h : scanner s = some (.ok x, after)) :
    (scanner >>= next) s = next x after := by
  simp only [bind, ExceptT.bind, ExceptT.mk, StateT.bind, h]
  rfl

theorem Scanner.bind_of_error (h : scanner s = some (.error cause, after)) :
    (scanner >>= next) s = some (.error cause, after) := by
  simp only [bind, ExceptT.bind, ExceptT.mk, StateT.bind, h]
  rfl

theorem Ends.of_eq {other : Reading β} {scanner : Scanner β}
    (h : Ends buffer depth s scanner other) (same : reading = other) :
    Ends buffer depth s scanner reading := same ▸ h

theorem Ends.of_run (run : scanner s = some (.ok x, after))
    (h : Ends buffer depth after (next x) reading) :
    Ends buffer depth s (scanner >>= next) reading := by
  cases reading with
  | ok result => rwa [Ends, Scanner.bind_of_ok run]
  | error fault => rwa [Ends, Scanner.bind_of_ok run]

theorem Ends.bind (h : Ends buffer depth s scanner (.ok (x, rest)))
    (hnext : ∀ after, Facing buffer depth rest after →
      Ends buffer within after (next x) reading) :
    Ends buffer within s (scanner >>= next) reading := by
  obtain ⟨after, run, facing⟩ := h
  exact .of_run run (hnext after facing)

theorem Ends.stop (h : Ends buffer depth s scanner (.error fault)) :
    Ends buffer within s (scanner >>= next) (.error fault) := by
  obtain ⟨after, open', run, facing⟩ := h
  exact ⟨after, open', Scanner.bind_of_error run, facing⟩

theorem ends_pure (h : Facing buffer depth bytes s) :
    Ends buffer depth s (pure x) (.ok (x, bytes)) := ⟨s, rfl, h⟩

theorem ends_throw (h : Facing buffer depth bytes s) :
    Ends buffer within s (throw cause : Scanner α) (.error ⟨cause, bytes⟩) :=
  ⟨s, depth, rfl, h⟩

theorem Ends.lift {reading : Reading α} (h : Ends buffer depth s scanner reading) (f : α → β) :
    Ends buffer depth s (scanner >>= fun x => pure (f x))
      (reading.map fun (x, rest) => (f x, rest)) := by
  cases reading with
  | ok result => exact h.bind fun after facing => ends_pure facing
  | error fault => exact h.stop

end Ends

/-! ## Steps -/

namespace Facing

open Scanner

variable {α : Type} {buffer bytes rest : Bytes} {depth : Nat} {s : Scan} {scanner : Scanner α}
  {reading : Reading α}

theorem ends_note (h : Facing buffer depth bytes s) (event : Event)
    (safe : event.Safe buffer.length) (plain : event.plain = true) :
    Ends buffer depth s (Scanner.note event) (.ok ((), bytes)) :=
  ⟨_, rfl, h.note event safe plain⟩

theorem ends_refuse (h : Facing buffer depth bytes s) {p : Prop} [Decidable p] (hp : p)
    (cause : Cause) : Ends buffer depth s (refuse p cause) (.error ⟨cause, bytes⟩) := by
  rw [refuse, if_pos hp]
  exact ends_throw h

theorem ends_admit (h : Facing buffer depth bytes s) {p : Prop} [Decidable p] (hp : ¬p)
    (cause : Cause) : Ends buffer depth s (refuse p cause) (.ok ((), bytes)) := by
  rw [refuse, if_neg hp]
  exact ends_pure h

theorem ends_left (h : Facing buffer depth bytes s) :
    Ends buffer depth s (left buffer) (.ok (.ofNat bytes.length, bytes)) := by
  have run : left buffer s = some (.ok (size buffer - s.cursor.offset), s) := rfl
  refine ⟨s, ?_, h⟩
  rw [run, ← h.left_eq, UInt64.ofNat_toNat]

theorem ends_fetch {c : UInt8} (h : Facing buffer depth (c :: rest) s) :
    Ends buffer depth s (fetch buffer) (.ok (c, c :: rest)) := by
  have run : fetch buffer s =
      some (.ok (buffer.getD s.cursor.pointer 0), s.note (.look s.cursor.pointer)) := rfl
  have total := h.offset_add_length
  have pointer := h.within.pointer_eq
  have first := congrArg (·[0]?) h.bytes_eq
  simp only [List.getElem?_drop, Nat.add_zero, List.getElem?_cons_zero] at first
  rw [List.length_cons] at total
  refine ⟨_, ?_, h.note (.look s.cursor.pointer) ?_ rfl⟩
  · rw [run, List.getD_eq_getElem?_getD, first, Option.getD_some]
  · change s.cursor.pointer < buffer.length
    omega

theorem ends_peek_nil (h : Facing buffer depth [] s) :
    Ends buffer depth s (peek buffer) (.ok (0, [])) :=
  h.ends_left.bind fun _ h => ends_pure h

theorem ends_peek {c : UInt8} (h : Facing buffer depth (c :: rest) s) :
    Ends buffer depth s (peek buffer) (.ok (c, c :: rest)) := by
  refine h.ends_left.bind fun s h => ?_
  rw [if_neg h.ofNat_length_ne_zero]
  exact h.ends_fetch

theorem ends_move (small : buffer.length < 2 ^ 60) {c : UInt8}
    (h : Facing buffer depth (c :: rest) s) :
    Ends buffer depth s (move 1) (.ok ((), rest)) :=
  ⟨_, rfl, Facing.put (w := [c]) small h rfl⟩

theorem ends_take (small : buffer.length < 2 ^ 60) (h : Facing buffer depth bytes s)
    (length : UInt64) (enough : length.toNat ≤ bytes.length) :
    Ends buffer depth s (take buffer length)
      (.ok (bytes.take length.toNat, bytes.drop length.toNat)) := by
  have total := h.offset_add_length
  have pointer := h.within.pointer_eq
  have noted := h.note (.take s.cursor.pointer length.toNat)
    (by change _ ≤ buffer.length; omega) rfl
  rw [← List.take_append_drop length.toNat bytes] at noted
  have run : take buffer length s =
      some (.ok ((buffer.drop s.cursor.pointer).take length.toNat),
        (s.note (.take s.cursor.pointer length.toNat)).put (s.cursor.advance length)) := rfl
  refine ⟨_, ?_, noted.put small (List.length_take_of_le enough)⟩
  rw [run, h.bytes_eq]
  rfl

theorem ends_whole (h : Facing buffer depth bytes s) (part : Part)
    (ends : Ends buffer depth s scanner reading)
    (shorter : ∀ x rest, reading = .ok (x, rest) → rest.length < bytes.length) :
    Ends buffer depth s (whole part scanner) reading := by
  have place (s : Scan) : (get : Scanner Scan) s = some (.ok s, s) := rfl
  refine .of_run (place s) ?_
  cases reading with
  | error fault => exact ends.stop
  | ok result =>
      obtain ⟨x, rest⟩ := result
      obtain ⟨after, run, facing⟩ := ends
      have less := shorter x rest rfl
      have before := h.offset_add_length
      have behind := facing.offset_add_length
      have farther : s.cursor.offset < after.cursor.offset := by
        rw [UInt64.lt_iff_toNat_lt]
        omega
      have noted := facing.note (.read part s.cursor after.cursor) farther rfl
      exact .of_run run (.of_run (place after) (.of_run rfl (ends_pure noted)))

theorem ends_nested (h : Facing buffer depth bytes s) (room : depth < 65)
    (ends : ∀ after, Facing buffer (depth + 1) bytes after →
      Ends buffer (depth + 1) after scanner reading) :
    Ends buffer depth s (nested scanner) reading := by
  have inner := ends _ (h.opened room)
  refine .of_run rfl ?_
  cases reading with
  | error fault => exact inner.stop
  | ok result =>
      obtain ⟨after, run, facing⟩ := inner
      exact .of_run run (.of_run rfl (ends_pure facing.closed))

end Facing

/-! ## More fuel -/

def Extends {α : Type} (first second : Scanner α) : Prop :=
  ∀ s outcome, first s = some outcome → second s = some outcome

namespace Extends

variable {α β : Type} {first second : Scanner α} {next next' : α → Scanner β}

theorem refl (scanner : Scanner α) : Extends scanner scanner := fun _ _ h => h

theorem unfinished (scanner : Scanner α) : Extends Scanner.unfinished scanner := by
  intro s outcome h
  cases h

theorem bind (h : Extends first second) (hnext : ∀ x, Extends (next x) (next' x)) :
    Extends (first >>= next) (second >>= next') := by
  intro s outcome run
  cases left : first s with
  | none =>
      simp only [Bind.bind, ExceptT.bind, ExceptT.mk, StateT.bind, left] at run
      cases run
  | some result =>
      have right := h s result left
      obtain ⟨result, after⟩ := result
      cases result with
      | error cause =>
          rw [Scanner.bind_of_error left] at run
          rwa [Scanner.bind_of_error right]
      | ok x =>
          rw [Scanner.bind_of_ok left] at run
          rw [Scanner.bind_of_ok right]
          exact hnext x after outcome run

theorem andThen (scanner : Scanner α) (hnext : ∀ x, Extends (next x) (next' x)) :
    Extends (scanner >>= next) (scanner >>= next') := (refl scanner).bind hnext

theorem ite (p : Prop) [Decidable p] {first' second' : Scanner α} (h : Extends first second)
    (h' : Extends first' second') :
    Extends (if p then first else first') (if p then second else second') := by
  split
  · exact h
  · exact h'

theorem whole (part : Part) (h : Extends first second) :
    Extends (Scanner.whole part first) (Scanner.whole part second) :=
  andThen _ fun _ => h.bind fun _ => refl _

theorem nested (h : Extends first second) :
    Extends (Scanner.nested first) (Scanner.nested second) :=
  andThen _ fun _ => h.bind fun _ => refl _

end Extends

end PieceLedger.Bencode
