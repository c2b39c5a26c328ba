import PieceLedger.Proofs.Bencode.Scanning

/-!
# The cursor stays in the buffer

The scan of a buffer ends with what the buffer decodes to, whatever its bytes are and
however much fuel there is beyond what is enough.  Nothing that it writes down on the
way is unsafe: the cursor never leaves the buffer.
-/

namespace PieceLedger.Bencode

/-! ## More fuel -/

section Fuel

variable (buffer : Bytes)

theorem scanLength_extends (fuel : Nat) (length count : UInt64) :
    Extends (scanLength buffer fuel length count) (scanLength buffer (fuel + 1) length count) := by
  induction fuel generalizing length count with
  | zero => exact .unfinished _
  | succ fuel ih =>
      rw [scanLength, scanLength]
      refine .andThen _ fun c => .ite _ (.andThen _ fun c => ?_) (.refl _)
      exact .andThen _ fun _ => .andThen _ fun _ => .andThen _ fun _ => ih _ _

theorem scanText_extends (fuel : Nat) :
    Extends (scanText buffer fuel) (scanText buffer (fuel + 1)) :=
  .whole _ ((scanLength_extends buffer fuel 0 0).bind fun _ => .refl _)

theorem scanWritten_extends (fuel : Nat) (before : Bytes) :
    Extends (scanWritten buffer fuel before) (scanWritten buffer (fuel + 1) before) := by
  induction fuel generalizing before with
  | zero => exact .unfinished _
  | succ fuel ih =>
      rw [scanWritten, scanWritten]
      refine .andThen _ fun written => .ite _ (.andThen _ fun c => ?_) (.refl _)
      exact .andThen _ fun _ => .andThen _ fun _ => ih _

theorem scanInteger_extends (fuel : Nat) :
    Extends (scanInteger buffer fuel) (scanInteger buffer (fuel + 1)) :=
  .whole _ ((scanWritten_extends buffer fuel []).bind fun _ => .refl _)

structure ExtendsWith (fuel : Nat) : Prop where
  value : ∀ depth, Extends (scanValue buffer fuel depth) (scanValue buffer (fuel + 1) depth)
  items : ∀ depth before,
    Extends (scanItems buffer fuel depth before) (scanItems buffer (fuel + 1) depth before)
  entries : ∀ depth before,
    Extends (scanEntries buffer fuel depth before) (scanEntries buffer (fuel + 1) depth before)

theorem extendsWith (fuel : Nat) : ExtendsWith buffer fuel := by
  induction fuel with
  | zero => exact ⟨fun _ => .unfinished _, fun _ _ => .unfinished _, fun _ _ => .unfinished _⟩
  | succ fuel ih =>
      refine ⟨fun depth => ?_, fun depth before => ?_, fun depth before => ?_⟩
      · rw [scanValue, scanValue]
        refine .whole _ (.andThen _ fun _ => .andThen _ fun c => ?_)
        refine .ite _ ((scanText_extends buffer fuel).bind fun _ => .refl _) ?_
        refine .ite _
          (.andThen _ fun _ => (scanInteger_extends buffer fuel).bind fun _ => .refl _) ?_
        refine .ite _ (.andThen _ fun _ => (ih.items _ _).nested.bind fun _ => .refl _) ?_
        exact .ite _ (.andThen _ fun _ => (ih.entries _ _).nested.bind fun _ => .refl _) (.refl _)
      · rw [scanItems, scanItems]
        refine .andThen _ fun _ => .andThen _ fun _ => .andThen _ fun c => .ite _ (.refl _) ?_
        exact (ih.value _).bind fun v => ih.items _ _
      · rw [scanEntries, scanEntries]
        refine .andThen _ fun _ => .andThen _ fun _ => .andThen _ fun c => .ite _ (.refl _) ?_
        refine (scanText_extends buffer fuel).bind fun key => .andThen _ fun _ => ?_
        exact (ih.value _).bind fun v => ih.entries _ _

theorem scanDocument_extends (fuel : Nat) :
    Extends (scanDocument buffer fuel) (scanDocument buffer (fuel + 1)) := by
  refine .andThen _ fun c => .ite _ (.andThen _ fun _ => ?_) (.refl _)
  exact ((extendsWith buffer fuel).entries _ _).nested.bind fun _ => .refl _

theorem scanBuffer_mono {fuel more : Nat} (h : fuel ≤ more)
    {outcome : Except Refusal Dict × List Event} (run : scanBuffer buffer fuel = some outcome) :
    scanBuffer buffer more = some outcome := by
  induction h with
  | refl => exact run
  | @step more _ ih =>
      unfold scanBuffer at ih ⊢
      cases ended : scanDocument buffer more .start with
      | none =>
          rw [ended] at ih
          cases ih
      | some result =>
          rw [scanDocument_extends buffer more _ _ ended]
          rwa [ended] at ih

end Fuel

/-! ## Whole buffers -/

theorem scanDocument_of_dict {rest : Bytes} (small : (100 :: rest).length < 2 ^ 60) {fuel : Nat}
    (enough : 2 * rest.length + 1 < fuel) :
    Ends (100 :: rest) 0 .start (scanDocument (100 :: rest) fuel)
      ((readEntries (100 :: rest).length fuel 1 [] rest).map fun (entries, rest) =>
        (some entries, rest)) := by
  refine (facing_start small).ends_peek.bind fun s h => ?_
  refine (h.ends_move small).bind fun s h => ?_
  have entries := h.ends_nested (by decide) fun s h => (followsWith small fuel).entries [] h enough
  exact entries.lift some

theorem scanDocument_of_other {buffer : Bytes} (small : buffer.length < 2 ^ 60) (fuel : Nat)
    (other : ∀ rest, buffer ≠ 100 :: rest) :
    Ends buffer 0 .start (scanDocument buffer fuel) (.ok (none, buffer)) := by
  have start := facing_start small
  cases buffer with
  | nil => exact start.ends_peek_nil.bind fun s h => ends_pure h
  | cons c rest =>
      have first : c ≠ 100 := by
        rintro rfl
        exact other rest rfl
      refine start.ends_peek.bind fun s h => ?_
      rw [if_neg first]
      exact ends_pure h

theorem scanBuffer_eq {buffer : Bytes} (small : buffer.length < 2 ^ 60) :
    ∃ events, scanBuffer buffer (2 * buffer.length) = some (decode buffer, events) ∧
      Safe buffer.length events := by
  by_cases dict : ∃ rest, buffer = 100 :: rest
  case pos =>
    obtain ⟨rest, rfl⟩ := dict
    have enough : 2 * rest.length + 1 < 2 * (100 :: rest).length := by
      rw [List.length_cons]
      omega
    have ends := scanDocument_of_dict small enough
    simp only [decode, readBuffer]
    cases read : readEntries (100 :: rest).length (2 * (100 :: rest).length) 1 [] rest with
    | ok result =>
        rw [read] at ends
        obtain ⟨after, run, facing⟩ := ends
        exact ⟨after.events, by rw [scanBuffer, run], facing.safe⟩
    | error fault =>
        rw [read] at ends
        obtain ⟨after, within, run, facing⟩ := ends
        have total := facing.offset_add_length
        refine ⟨after.events, ?_, facing.safe⟩
        have place :
            (100 :: rest).length - fault.rest.length = after.cursor.offset.toNat := by omega
        rw [scanBuffer, run]
        simp only [place]
  case neg =>
    have other : ∀ rest, buffer ≠ 100 :: rest := fun rest same => dict ⟨rest, same⟩
    obtain ⟨after, run, facing⟩ := scanDocument_of_other small (2 * buffer.length) other
    refine ⟨after.events, ?_, facing.safe⟩
    have refused : readBuffer buffer = .error .notADict := by
      unfold readBuffer
      split
      case h_1 rest => exact absurd rfl (other rest)
      case h_2 => rfl
    rw [scanBuffer, run, decode, refused]

/--
The scan of a buffer ends, whatever bytes it holds, and decodes it.  At every step
the cursor counts at most the bytes of the buffer, points to the byte behind those it
counts, and the number of bytes left does not wrap around; every byte that is read
and every content that is found is in the buffer; no length wraps around while it is
read; every value, byte string and integer that is read moves the cursor; and at most
65 lists and dictionaries are open.
-/
theorem cursor_stays_in_buffer {buffer : Bytes} (small : buffer.length < 2 ^ 60) :
    ∃ events,
      (∀ fuel, 2 * buffer.length ≤ fuel →
        scanBuffer buffer fuel = some (decode buffer, events)) ∧
      (∀ event ∈ events, event.Safe buffer.length) ∧
      ∀ earlier, earlier <:+ events → nesting earlier ≤ 65 := by
  obtain ⟨events, run, safe⟩ := scanBuffer_eq small
  exact ⟨events, fun fuel enough => scanBuffer_mono buffer enough run, safe.event, safe.shallow⟩

/-- An integer with no end, in a list with no end. -/
theorem cursor_stays_in_buffer_unended :
    (Bytes.ofString "d1:ali3").length < 2 ^ 60 ∧
      ∃ events,
        (∀ fuel, 14 ≤ fuel → scanBuffer (Bytes.ofString "d1:ali3") fuel =
          some (.error (.malformed .integerUnended 7), events)) ∧
        (∀ event ∈ events, event.Safe 7) ∧
        ∀ earlier, earlier <:+ events → nesting earlier ≤ 65 := by
  have small : (Bytes.ofString "d1:ali3").length < 2 ^ 60 := by decide
  obtain ⟨events, run, safe, shallow⟩ := cursor_stays_in_buffer small
  have refused : decode (Bytes.ofString "d1:ali3") = .error (.malformed .integerUnended 7) := rfl
  refine ⟨small, events, fun fuel enough => ?_, safe, shallow⟩
  rw [run fuel enough, refused]

end PieceLedger.Bencode
