import PieceLedger.Digest

/-!
Hexadecimal text decoded in place.

The caller lends a buffer and a length.  `decodeInto` puts each byte into the
buffer as soon as its pair of digits is read, and counts it, so an early stop
leaves what was read so far.  The value of a digit is computed from its code
without a look at the kind of digit; codes are signed.
-/

namespace PieceLedger

namespace Hex

/-- A buffer, and how many bytes of it hold what was decoded. -/
structure Target where
  buffer : Bytes
  length : Nat
  deriving DecidableEq, Repr

def digits : Bytes := Bytes.ofString "0123456789abcdefABCDEF"

/-- The low four bits of a code, and nine more for each 64 in it. -/
def nibble (c : UInt8) : UInt8 :=
  let code := c.toInt8.toInt32
  ((code &&& (15 : Int32)) + (code >>> (6 : Int32)) * 9).toInt8.toUInt8

namespace Target

def store (t : Target) (x : UInt8) : Target := ⟨t.buffer.set t.length x, t.length + 1⟩

def storePairs (t : Target) : Bytes → Bool × Target
  | high :: low :: rest =>
      if high ∈ digits ∧ low ∈ digits then
        storePairs (t.store (nibble high <<< 4 ||| nibble low)) rest
      else (false, t)
  | _ => (true, t)

/-- Whether the text was decoded, and the target after it.  The buffer has to
hold half as many bytes as the text. -/
def decodeInto (t : Target) (text : Bytes) : Bool × Target :=
  if text = [] || text.length % 2 = 1 then (false, t)
  else storePairs { t with length := 0 } text

def content (t : Target) : Bytes := t.buffer.take t.length

end Target

end Hex

def Digest.readInto (bytes text : Bytes) : Bool × Bytes :=
  if text.length ≠ 40 then (false, bytes)
  else
    let (ok, target) := Hex.Target.decodeInto ⟨bytes, 0⟩ text
    (ok, target.buffer)

end PieceLedger
