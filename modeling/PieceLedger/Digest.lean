import PieceLedger.Hex

/-!
Digests of twenty bytes, their hexadecimal names, and tables of digests.
-/

namespace PieceLedger

structure Digest where
  bytes : Bytes
  length_eq : bytes.length = 20
  deriving DecidableEq, Repr

namespace Digest

/-- The first twenty bytes of `b`, zeros standing in for missing ones. -/
def ofBytes (b : Bytes) : Digest :=
  ⟨(b ++ List.replicate 20 0).take 20, by simp⟩

def zero : Digest := ofBytes []

def toHex (d : Digest) : Bytes := Hex.encode d.bytes

/--
Reads forty hexadecimal digits into `d`.  A text of another length leaves `d`
as it is; a text with a bad digit replaces only the bytes in front of the pair
that holds it.
-/
def readHex (d : Digest) (text : Bytes) : Bool × Digest :=
  if text.length ≠ 40 then (false, d)
  else
    match Hex.decode text with
    | .refused => (false, d)
    | .stopped decoded => (false, ofBytes (d.bytes.overlay 0 decoded))
    | .complete decoded => (true, ofBytes decoded)

def table : Nat → Bytes → List Digest
  | 0, _ => []
  | count + 1, b => ofBytes (b.take 20) :: table count (b.drop 20)

/-- Cuts `b` into digests; bytes after the last whole digest are dropped. -/
def slices (b : Bytes) : List Digest := table (b.length / 20) b

end Digest

end PieceLedger
