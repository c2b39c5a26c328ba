import PieceLedger.Bytes

/-!
Decimal numerals.

`write` gives the canonical digits of a natural number, `writeInt` puts a
minus sign in front of a negative one, and `value` reads digits back.

`Numeral.scan` reads a number at the front of free text: blanks, one optional
sign, then at least one digit.  What follows the digits is kept, so that a
caller may refuse or ignore it.
-/

namespace PieceLedger.Decimal

def digit (n : Nat) : UInt8 := UInt8.ofNat (48 + n % 10)

def isDigit (c : UInt8) : Bool := 48 ≤ c && c ≤ 57

def digitValue (c : UInt8) : Nat := c.toNat - 48

def lastDigits : Nat → Nat → Bytes
  | 0, _ => []
  | places + 1, n =>
      if n < 10 then [digit n] else lastDigits places (n / 10) ++ [digit n]

def write (n : Nat) : Bytes := lastDigits (n + 1) n

def writeInt (n : Int) : Bytes :=
  if n < 0 then 45 :: write n.natAbs else write n.natAbs

def value (digits : Bytes) : Nat :=
  digits.foldl (fun total c => total * 10 + digitValue c) 0

end PieceLedger.Decimal

namespace PieceLedger

/-- A number found at the front of a text, and the text behind it. -/
structure Numeral where
  negative : Bool
  magnitude : Nat
  rest : Bytes
  deriving DecidableEq, Repr

namespace Numeral

def isBlank (c : UInt8) : Bool := c = 32 || (9 ≤ c && c ≤ 13)

def takeSign : Bytes → Bool × Bytes
  | 45 :: rest => (true, rest)
  | 43 :: rest => (false, rest)
  | text => (false, text)

def scan (text : Bytes) : Option Numeral :=
  let (negative, unsigned) := takeSign (text.dropWhile isBlank)
  match unsigned.takeWhile Decimal.isDigit with
  | [] => none
  | digits =>
      some ⟨negative, Decimal.value digits, unsigned.dropWhile Decimal.isDigit⟩

def toInt (n : Numeral) : Int := if n.negative then -n.magnitude else n.magnitude

/-- The number at the front of `text`, moved into the range of 64-bit signed
integers; 0 where there is none. -/
def clamped (text : Bytes) : Int :=
  match scan text with
  | none => 0
  | some n => max Int64.minValue.toInt (min n.toInt Int64.maxValue.toInt)

/-- A text that is one number and nothing more, taken modulo 2^64 when it is
negative; `none` when its magnitude does not fit 64 bits. -/
def whole? (text : Bytes) : Option Nat :=
  match scan text with
  | some n =>
      if n.rest ≠ [] || UInt64.size ≤ n.magnitude then none
      else if n.negative then some ((UInt64.size - n.magnitude) % UInt64.size)
      else some n.magnitude
  | none => none

end Numeral

end PieceLedger
