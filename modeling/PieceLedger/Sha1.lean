import PieceLedger.Digest

/-!
SHA-1 (FIPS 180-4) of a whole message.

A message is padded to a multiple of 64 bytes: a byte `0x80`, zeros, and the
length in bits as eight bytes.  `absorb` runs the compression function over
the 64-byte chunks of a byte string.
-/

namespace PieceLedger.Sha1

structure State where
  a : UInt32
  b : UInt32
  c : UInt32
  d : UInt32
  e : UInt32
  deriving DecidableEq, Repr

def initial : State := ⟨0x67452301, 0xEFCDAB89, 0x98BADCFE, 0x10325476, 0xC3D2E1F0⟩

def rotateLeft (n x : UInt32) : UInt32 := (x <<< n) ||| (x >>> (32 - n))

def choose (x y z : UInt32) : UInt32 := (x &&& y) ^^^ (~~~x &&& z)

def parity (x y z : UInt32) : UInt32 := x ^^^ y ^^^ z

def majority (x y z : UInt32) : UInt32 := (x &&& y) ^^^ (x &&& z) ^^^ (y &&& z)

def mix (t : Nat) (x y z : UInt32) : UInt32 :=
  if t < 20 then choose x y z
  else if t < 40 then parity x y z
  else if t < 60 then majority x y z
  else parity x y z

def constant (t : Nat) : UInt32 :=
  if t < 20 then 0x5A827999
  else if t < 40 then 0x6ED9EBA1
  else if t < 60 then 0x8F1BBCDC
  else 0xCA62C1D6

def word (x y z w : UInt8) : UInt32 :=
  (x.toUInt32 <<< 24) ||| (y.toUInt32 <<< 16) ||| (z.toUInt32 <<< 8) ||| w.toUInt32

/-- The big-endian words of a byte string; bytes after the last word are dropped. -/
def words : Bytes → List UInt32
  | x :: y :: z :: w :: rest => word x y z w :: words rest
  | _ => []

def wordBytes (x : UInt32) : Bytes :=
  [(x >>> 24).toUInt8, (x >>> 16).toUInt8, (x >>> 8).toUInt8, x.toUInt8]

def extend (latest : List UInt32) : List UInt32 :=
  rotateLeft 1 (latest.getD 2 0 ^^^ latest.getD 7 0 ^^^ latest.getD 13 0 ^^^ latest.getD 15 0)
    :: latest

def schedule (chunk : Bytes) : List UInt32 :=
  (Nat.repeat extend 64 (words chunk).reverse).reverse

def round (s : State) (t : Nat) (w : UInt32) : State :=
  ⟨rotateLeft 5 s.a + mix t s.b s.c s.d + s.e + constant t + w,
    s.a, rotateLeft 30 s.b, s.c, s.d⟩

def rounds (s : State) : Nat → List UInt32 → State
  | _, [] => s
  | t, w :: ws => rounds (round s t w) (t + 1) ws

def compress (s : State) (chunk : Bytes) : State :=
  let r := rounds s 0 (schedule chunk)
  ⟨s.a + r.a, s.b + r.b, s.c + r.c, s.d + r.d, s.e + r.e⟩

def absorb : Nat → State → Bytes → State
  | 0, s, _ => s
  | count + 1, s, b => absorb count (compress s (b.take 64)) (b.drop 64)

def padding (length : Nat) : Bytes :=
  let bits := UInt64.ofNat (8 * length)
  ([0x80] : Bytes) ++ List.replicate ((119 - length % 64) % 64) (0 : UInt8)
    ++ (wordBytes (bits >>> 32).toUInt32 ++ wordBytes bits.toUInt32)

def State.digest (s : State) : Digest :=
  ⟨wordBytes s.a ++ wordBytes s.b ++ wordBytes s.c ++ wordBytes s.d ++ wordBytes s.e, rfl⟩

def hash (message : Bytes) : Digest :=
  let padded := message ++ padding message.length
  (absorb (padded.length / 64) initial padded).digest

end PieceLedger.Sha1
