import PieceLedger.CommandLine.Program
import PieceLedger.Proofs.Decimal.Numerals

/-!
# What the table and the summary say

Who reads printed text sees words: blanks and line ends stand between them, and the sequences that
set colours are no part of them.  Read so, a row of the table names a piece, its size and the
verdict, and the summary gives each count behind its name.
-/

namespace PieceLedger.CommandLine

/-! ## Words -/

/-- A reader of printed text.  Words, and the letters of the word that is read, are latest first. -/
structure Reader where
  colouring : Bool := false
  word : Bytes := []
  before : List Bytes := []
  deriving DecidableEq

namespace Reader

def finish (r : Reader) : Reader :=
  { r with word := [], before := if r.word = [] then r.before else r.word.reverse :: r.before }

def next (r : Reader) (c : UInt8) : Reader :=
  if r.colouring then { r with colouring := c ≠ 109 }
  else if c = 27 then { r with colouring := true }
  else if c = 32 || c = 10 || c = 13 then r.finish
  else { r with word := c :: r.word }

def read (r : Reader) (text : Bytes) : Reader := text.foldl next r

end Reader

def wordsOf (text : Bytes) : List Bytes := (Reader.read {} text).finish.before.reverse

def rowWords (piece size : Nat) (valid : Bool) : List Bytes :=
  let bar := Bytes.ofString "|"
  [bar, Decimal.write piece, bar, Decimal.write size, bar,
    Bytes.ofString (if valid then "VALID" else "INVALID"), bar]

def summaryWords (totals : Totals) (total : Nat) : List Bytes :=
  ["+----------+------------+----------+", "blocks", "requested:"].map Bytes.ofString
    ++ [Decimal.write totals.requested, Bytes.ofString "received:", Decimal.write totals.received]
    ++ ["pieces", "valid:"].map Bytes.ofString
    ++ [Decimal.write totals.valid, Bytes.ofString "invalid:", Decimal.write totals.invalid]
    ++ [Bytes.ofString "total:", Decimal.write total]

namespace Reader

theorem read_append (r : Reader) (text more : Bytes) :
    r.read (text ++ more) = (r.read text).read more := List.foldl_append

def behind (r : Reader) (before : List Bytes) : Reader := { r with before := r.before ++ before }

theorem next_behind (r : Reader) (before : List Bytes) (c : UInt8) :
    (r.behind before).next c = (r.next c).behind before := by
  grind [next, behind, finish]

theorem read_behind (r : Reader) (before : List Bytes) (text : Bytes) :
    (r.behind before).read text = (r.read text).behind before := by
  induction text generalizing r with
  | nil => rfl
  | cons c rest ih =>
      simp only [read, List.foldl_cons, next_behind]
      exact ih (r.next c)

end Reader

/-! ## Texts of whole words -/

section Words

open Reader

/-- From the front on, the text adds words and leaves none open. -/
def Says (text : Bytes) (words : List Bytes) : Prop :=
  ∀ before, read ⟨false, [], before⟩ text = ⟨false, [], words.reverse ++ before⟩

/-- The text ends the word in front of it before it adds others. -/
def Ends (text : Bytes) (words : List Bytes) : Prop :=
  ∀ word before, word ≠ [] →
    read ⟨false, word, before⟩ text = ⟨false, [], words.reverse ++ word.reverse :: before⟩

variable {text more : Bytes} {words others : List Bytes}

theorem Says.wordsOf_eq (h : Says text words) : wordsOf text = words := by
  rw [wordsOf, show read {} text = _ from h []]
  simp [finish]

theorem says_of_closed (closed : read {} text = ⟨false, [], words.reverse⟩) :
    Says text words := by
  intro before
  have same := read_behind {} before text
  rw [closed] at same
  exact same

theorem ends_of_closed (blank : text.head? = some 32 ∨ text.head? = some 10)
    (closed : read {} text = ⟨false, [], words.reverse⟩) : Ends text words := by
  intro word before open_
  have ended : finish ⟨false, word, before⟩ = behind {} (word.reverse :: before) := by
    simp [finish, behind, open_]
  cases text with
  | nil => simp at blank
  | cons c rest =>
      have same : read ⟨false, word, before⟩ (c :: rest) =
          (read {} (c :: rest)).behind (word.reverse :: before) := by
        rw [← read_behind, ← ended]
        rcases blank with blank | blank
        all_goals
          obtain rfl := Option.some.inj blank
          rfl
      rw [same, closed]
      rfl

theorem Says.append (h : Says text words) (next : Says more others) :
    Says (text ++ more) (words ++ others) := by
  intro before
  rw [read_append, h, next, List.reverse_append, List.append_assoc]

theorem Ends.append (h : Ends text words) (next : Says more others) :
    Ends (text ++ more) (words ++ others) := by
  intro word before unended
  rw [read_append, h word before unended, next, List.reverse_append, List.append_assoc]

theorem Says.padded (h : Says text words) (count : Nat) :
    Says (List.replicate count 32 ++ text) words := by
  induction count with
  | zero => exact h
  | succ count ih => exact ih

theorem read_colour {colour : String} (known : colour ∈ [colourOff, red, green]) (word : Bytes)
    (before : List Bytes) :
    read ⟨false, word, before⟩ (Bytes.ofString colour) = ⟨false, word, before⟩ := by
  simp only [List.mem_cons, List.not_mem_nil, or_false] at known
  rcases known with rfl | rfl | rfl <;> rfl

theorem Says.coloured (h : Says text words) {colour : String}
    (known : colour ∈ [colourOff, red, green]) : Says (Bytes.ofString colour ++ text) words := by
  intro before
  rw [read_append, read_colour known, h]

theorem Ends.coloured (h : Ends text words) {colour : String}
    (known : colour ∈ [colourOff, red, green]) : Ends (Bytes.ofString colour ++ text) words := by
  intro word before unended
  rw [read_append, read_colour known, h word before unended]

theorem read_digits {digits : Bytes} (h : Decimal.Digits digits) (word : Bytes)
    (before : List Bytes) :
    read ⟨false, word, before⟩ digits = ⟨false, digits.reverse ++ word, before⟩ := by
  induction digits generalizing word with
  | nil => rfl
  | cons c rest ih =>
      obtain ⟨digit, later⟩ := Decimal.Digits.cons.mp h
      have range := Decimal.isDigit_iff.mp digit
      have letter : next ⟨false, word, before⟩ c = ⟨false, c :: word, before⟩ := by
        have other {n : UInt8} (hn : n.toNat < 48) : c ≠ n := by
          rintro rfl
          omega
        simp [next, other (n := 27), other (n := 32), other (n := 10), other (n := 13)]
      rw [Reader.read, List.foldl_cons, letter]
      exact (ih later (c :: word)).trans (by simp)

theorem Ends.numeral (h : Ends text words) (n : Nat) :
    Says (Decimal.write n ++ text) (Decimal.write n :: words) := by
  intro before
  have unended : (Decimal.write n).reverse ≠ [] := by simp [Decimal.write_ne_nil]
  rw [read_append, read_digits (Decimal.digits_write n), List.append_nil, h _ _ unended,
    List.reverse_reverse, List.reverse_cons, List.append_assoc, List.singleton_append]

/-! ## Rows and summaries -/

theorem says_verdictCell (valid : Bool) :
    Says (verdictCell valid)
      [Bytes.ofString (if valid then "VALID" else "INVALID"), Bytes.ofString "|"] := by
  apply says_of_closed
  cases valid <;> decide +kernel

theorem Ends.padded_numeral (h : Ends text words) (width n : Nat) :
    Says ((Decimal.write n).padLeft width ++ text) (Decimal.write n :: words) := by
  rw [Bytes.padLeft, List.append_assoc]
  exact (h.numeral n).padded _

theorem wordsOf_tableRow (id size : UInt32) (valid : Bool) :
    wordsOf (tableRow id size valid) = rowWords id.toNat size.toNat valid := by
  have front : Says (Bytes.ofString "| ") [Bytes.ofString "|"] := says_of_closed rfl
  have bar : Ends (Bytes.ofString " | ") [Bytes.ofString "|"] := ends_of_closed (.inl rfl) rfl
  have behindSize := (bar.append (says_verdictCell valid)).padded_numeral 10 size.toNat
  have behindPiece := (bar.append behindSize).padded_numeral 8 id.toNat
  have row := (front.append behindPiece).wordsOf_eq
  simp only [tableRow, List.append_assoc]
  exact row

theorem rowWords_inj {piece size piece' size' : Nat} {valid valid' : Bool}
    (same : rowWords piece size valid = rowWords piece' size' valid') :
    piece = piece' ∧ size = size' ∧ valid = valid' := by
  simp only [rowWords, List.cons.injEq, true_and, and_true] at same
  obtain ⟨pieces, sizes, verdicts⟩ := same
  refine ⟨Decimal.write_injective pieces, Decimal.write_injective sizes, ?_⟩
  revert verdicts
  cases valid <;> cases valid' <;> decide

theorem Ends.coloured_numeral (h : Ends text words) {colour : String}
    (known : colour ∈ [colourOff, red, green]) (n : Nat) :
    Says (CommandLine.coloured colour (Decimal.write n) ++ text) (Decimal.write n :: words) := by
  rw [CommandLine.coloured, List.append_assoc, List.append_assoc]
  exact ((h.coloured List.mem_cons_self).numeral n).coloured known

theorem wordsOf_summary (totals : Totals) (total : Nat) :
    wordsOf (summary totals total) = summaryWords totals total := by
  have rule : Says (Bytes.ofString ("\n" ++ tableRule))
      [Bytes.ofString "+----------+------------+----------+"] :=
    says_of_closed (by decide +kernel)
  have requested : Says (Bytes.ofString "blocks requested: ")
      (["blocks", "requested:"].map Bytes.ofString) := says_of_closed (by decide +kernel)
  have received : Ends (Bytes.ofString " received: ") [Bytes.ofString "received:"] :=
    ends_of_closed (.inl rfl) (by decide +kernel)
  have valid : Ends (Bytes.ofString "\npieces valid: ") (["pieces", "valid:"].map Bytes.ofString) :=
    ends_of_closed (.inr rfl) (by decide +kernel)
  have invalid : Ends (Bytes.ofString " invalid: ") [Bytes.ofString "invalid:"] :=
    ends_of_closed (.inl rfl) (by decide +kernel)
  have all : Ends (Bytes.ofString " total: ") [Bytes.ofString "total:"] :=
    ends_of_closed (.inl rfl) (by decide +kernel)
  have lineEnd : Ends [10] [] := ends_of_closed (.inr rfl) rfl
  have known : (if totals.invalid = 0 then colourOff else red) ∈ [colourOff, red, green] := by
    split <;> simp
  have behindInvalid := (all.append (lineEnd.numeral total)).coloured_numeral known totals.invalid
  have behindValid :=
    (invalid.append behindInvalid).coloured_numeral (show green ∈ _ by simp) totals.valid
  have behindReceived := (valid.append behindValid).numeral totals.received
  have behindRequested := (received.append behindReceived).numeral totals.requested
  simp only [summary, List.append_assoc]
  exact (rule.append (requested.append behindRequested)).wordsOf_eq

end Words

end PieceLedger.CommandLine
