import PieceLedger.Bytes

/-!
Hexadecimal text.

Writing uses lower-case digits; reading takes either case.  A reader stops at
the first pair that is not two digits and reports the bytes read before it.
-/

namespace PieceLedger.Hex

def digit (n : UInt8) : UInt8 := if n < 10 then 48 + n else 87 + n

def digitValue? (c : UInt8) : Option UInt8 :=
  if 48 ≤ c && c ≤ 57 then some (c - 48)
  else if 97 ≤ c && c ≤ 102 then some (c - 87)
  else if 65 ≤ c && c ≤ 70 then some (c - 55)
  else none

def encode (b : Bytes) : Bytes :=
  b.flatMap fun (x : UInt8) => [digit (x >>> 4), digit (x &&& 15)]

/-- Empty byte strings have no written form. -/
def encode? (b : Bytes) : Option Bytes := if b = [] then none else some (encode b)

def decodePairs : Bytes → Bytes × Bytes
  | high :: low :: rest =>
      match digitValue? high, digitValue? low with
      | some h, some l =>
          let (decoded, left) := decodePairs rest
          ((h <<< 4 ||| l) :: decoded, left)
      | _, _ => ([], high :: low :: rest)
  | rest => ([], rest)

inductive Reading where
  /-- The text is empty or has an odd length; nothing was read. -/
  | refused
  /-- A pair is not two digits; these bytes stand before it. -/
  | stopped (decoded : Bytes)
  | complete (decoded : Bytes)
  deriving DecidableEq, Repr

def decode (text : Bytes) : Reading :=
  if text = [] || text.length % 2 = 1 then .refused
  else
    match decodePairs text with
    | (decoded, []) => .complete decoded
    | (decoded, _ :: _) => .stopped decoded

end PieceLedger.Hex
