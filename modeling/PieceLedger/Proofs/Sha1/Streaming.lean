import PieceLedger.Sha1.Stream

/-!
# Streams digest what they take

A stream that has taken some message holds the state of the whole chunks of
that message, and waits with the bytes behind them.  Finishing it therefore
gives the digest of the message, however it was cut into parts.
-/

namespace PieceLedger.Sha1

/-! ## Absorbing -/

theorem absorb_add (first second : Nat) (s : State) (b : Bytes) :
    absorb (first + second) s b =
      absorb second (absorb first s b) (b.drop (64 * first)) := by
  induction first generalizing s b with
  | zero => simp [absorb]
  | succ first ih =>
      rw [Nat.succ_add, absorb, ih, absorb, List.drop_drop]
      congr 2
      omega

theorem absorb_append (count : Nat) (s : State) (b more : Bytes)
    (hlength : 64 * count ≤ b.length) :
    absorb count s (b ++ more) = absorb count s b := by
  induction count generalizing s b with
  | zero => rfl
  | succ count ih =>
      rw [absorb, absorb]
      rw [List.take_append_of_le_length (by omega)]
      rw [List.drop_append_of_le_length (by omega)]
      apply ih
      rw [List.length_drop]
      omega

namespace Stream

/-- An open stream that has taken exactly `message`. -/
structure Took (s : Stream) (message : Bytes) : Prop where
  result : s.result = none
  length : s.length = message.length
  state : s.state = absorb (message.length / 64) initial message
  waiting : s.waiting = message.drop (64 * (message.length / 64))

theorem took_nil : Took {} [] := ⟨rfl, rfl, rfl, rfl⟩

theorem Took.update {s : Stream} {message : Bytes} (h : s.Took message) (part : Bytes) :
    ∃ next, s.update part = some next ∧ next.Took (message ++ part) := by
  have whole : 64 * (message.length / 64) ≤ message.length := Nat.mul_div_le _ _
  have filled : s.waiting ++ part =
      (message ++ part).drop (64 * (message.length / 64)) := by
    rw [h.waiting, List.drop_append_of_le_length whole]
  have count : (message ++ part).length / 64 =
      message.length / 64 + (s.waiting ++ part).length / 64 := by
    rw [filled, List.length_drop, List.length_append]
    omega
  refine ⟨_, by rw [Stream.update, h.result], rfl, ?_, ?_, ?_⟩
  · simp [h.length]
  · simp only
    rw [count, absorb_add, absorb_append _ _ _ _ whole, ← filled, h.state]
  · simp only
    rw [count, Nat.mul_add, ← List.drop_drop, ← filled]

theorem Took.updateAll {s : Stream} {message : Bytes} (h : s.Took message)
    (parts : List Bytes) :
    ∃ next, s.updateAll parts = some next ∧ next.Took (message ++ parts.flatten) := by
  induction parts generalizing s message with
  | nil => exact ⟨s, rfl, by simpa using h⟩
  | cons part rest ih =>
      obtain ⟨middle, hmiddle, took⟩ := h.update part
      obtain ⟨next, hnext, done⟩ := ih took
      refine ⟨next, ?_, by simpa using done⟩
      rw [Stream.updateAll, hmiddle]
      exact hnext

theorem Took.finalDigest {s : Stream} {message : Bytes} (h : s.Took message) :
    s.finalDigest = hash message := by
  have whole : 64 * (message.length / 64) ≤ message.length := Nat.mul_div_le _ _
  have tail : s.waiting ++ padding s.length =
      (message ++ padding message.length).drop (64 * (message.length / 64)) := by
    rw [h.waiting, h.length, List.drop_append_of_le_length whole]
  have count : (message ++ padding message.length).length / 64 =
      message.length / 64 + (s.waiting ++ padding s.length).length / 64 := by
    rw [tail, List.length_drop]
    simp only [List.length_append]
    omega
  simp only [Stream.finalDigest, hash]
  rw [count, absorb_add, absorb_append _ _ _ _ whole, h.state, ← tail]

theorem updateAll_new (parts : List Bytes) :
    ∃ s, updateAll {} parts = some s ∧ s.finish.1 = hash parts.flatten := by
  obtain ⟨s, hs, took⟩ := took_nil.updateAll parts
  refine ⟨s, hs, ?_⟩
  rw [finish, took.result]
  exact took.finalDigest

end Stream

end PieceLedger.Sha1
