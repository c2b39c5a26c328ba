import PieceLedger.Bencode.Value

/-!
Reading bencoded values from a buffer.

Every reader takes the bytes from its position on and returns what it read
with the bytes behind it, or a `Fault` with the bytes that were still unread
when it gave up.  A buffer must hold one dictionary; what follows the
dictionary does not matter.

A value may stand inside at most `maxDepth` lists and dictionaries.
-/

namespace PieceLedger.Bencode

inductive Cause where
  | lengthBeyondBuffer
  | lengthMissing
  | colonMissing
  | lengthBeyondRest (length left : Nat)
  | tooDeep
  | unknownKind
  | integerTooLong
  | integerUnended
  | integerMalformed (written : Bytes)
  | integerOutOfRange
  | listUnended
  | dictUnended
  | duplicateKey (key : Bytes)
  deriving DecidableEq, Repr

structure Fault where
  cause : Cause
  rest : Bytes
  deriving DecidableEq, Repr

abbrev Reading (α : Type) := Except Fault (α × Bytes)

def maxDepth : Nat := 64

def maxIntegerLength : Nat := 20

/-! ## Byte strings -/

/--
Reads the digits of a length in a buffer of `size` bytes: their value and
their number.  A digit that takes the value beyond `size` is not read.
-/
def readLength (size : Nat) : Nat → Nat → Bytes → Reading (Nat × Nat)
  | length, count, c :: rest =>
      if Decimal.isDigit c then
        if size < length * 10 + Decimal.digitValue c then
          .error ⟨.lengthBeyondBuffer, c :: rest⟩
        else readLength size (length * 10 + Decimal.digitValue c) (count + 1) rest
      else .ok ((length, count), c :: rest)
  | length, count, [] => .ok ((length, count), [])

def readContent (zeros length : Nat) (rest : Bytes) : Reading Text :=
  let content := rest.take length
  if content.length < length then .error ⟨.lengthBeyondRest length rest.length, rest⟩
  else .ok (⟨zeros, content⟩, rest.drop length)

def readText (size : Nat) (bytes : Bytes) : Reading Text :=
  match readLength size 0 0 bytes with
  | .error fault => .error fault
  | .ok ((_, 0), rest) => .error ⟨.lengthMissing, rest⟩
  | .ok ((length, count), 58 :: rest) =>
      readContent (count - (Decimal.write length).length) length rest
  | .ok (_, rest) => .error ⟨.colonMissing, rest⟩

/-! ## Integers -/

def isIntegerByte (c : UInt8) : Bool := c = 45 || Decimal.isDigit c

def integerValue : Bytes → Int
  | 45 :: digits => -(Decimal.value digits : Int)
  | digits => Decimal.value digits

/-- Accepts nothing but the one written form of a 64-bit number. -/
def integerOf (written : Bytes) : Except Cause Int64 :=
  let n := integerValue written
  if Decimal.writeInt n ≠ written then .error (.integerMalformed written)
  else if n < Int64.minValue.toInt || Int64.maxValue.toInt < n then .error .integerOutOfRange
  else .ok (Int64.ofInt n)

def readInteger (bytes : Bytes) : Reading Int64 :=
  let written := bytes.takeWhile isIntegerByte
  if maxIntegerLength < written.length then
    .error ⟨.integerTooLong, bytes.drop maxIntegerLength⟩
  else
    match bytes.drop written.length with
    | 101 :: rest =>
        match integerOf written with
        | .ok n => .ok (n, rest)
        | .error cause => .error ⟨cause, rest⟩
    | rest => .error ⟨.integerUnended, rest⟩

/-! ## Values -/

mutual

/-- Reads a value that stands inside `depth` lists and dictionaries. -/
def readValue (size : Nat) : Nat → Nat → Bytes → Reading Value
  | 0, _, bytes => .error ⟨.unknownKind, bytes⟩
  | fuel + 1, depth, bytes =>
      if maxDepth < depth then .error ⟨.tooDeep, bytes⟩
      else
        match bytes with
        | [] => .error ⟨.unknownKind, []⟩
        | c :: rest =>
            if Decimal.isDigit c then
              match readText size (c :: rest) with
              | .ok (t, rest) => .ok (.text t, rest)
              | .error fault => .error fault
            else if c = 105 then
              match readInteger rest with
              | .ok (n, rest) => .ok (.integer n, rest)
              | .error fault => .error fault
            else if c = 108 then
              match readItems size fuel (depth + 1) [] rest with
              | .ok (items, rest) => .ok (.list items, rest)
              | .error fault => .error fault
            else if c = 100 then
              match readEntries size fuel (depth + 1) [] rest with
              | .ok (entries, rest) => .ok (.dict entries, rest)
              | .error fault => .error fault
            else .error ⟨.unknownKind, c :: rest⟩

/-- Reads the items of a list up to its end; `before` holds those already
read, latest first. -/
def readItems (size : Nat) : Nat → Nat → List Value → Bytes → Reading (List Value)
  | 0, _, _, bytes => .error ⟨.listUnended, bytes⟩
  | fuel + 1, depth, before, bytes =>
      match bytes with
      | [] => .error ⟨.listUnended, []⟩
      | c :: rest =>
          if c = 101 then .ok (before.reverse, rest)
          else
            match readValue size fuel depth (c :: rest) with
            | .error fault => .error fault
            | .ok (v, rest) => readItems size fuel depth (v :: before) rest

def readEntries (size : Nat) :
    Nat → Nat → List (Text × Value) → Bytes → Reading (List (Text × Value))
  | 0, _, _, bytes => .error ⟨.dictUnended, bytes⟩
  | fuel + 1, depth, before, bytes =>
      match bytes with
      | [] => .error ⟨.dictUnended, []⟩
      | c :: rest =>
          if c = 101 then .ok (before.reverse, rest)
          else
            match readText size (c :: rest) with
            | .error fault => .error fault
            | .ok (key, rest) =>
                if before.any fun entry => entry.1.bytes = key.bytes then
                  .error ⟨.duplicateKey key.bytes, rest⟩
                else
                  match readValue size fuel depth rest with
                  | .error fault => .error fault
                  | .ok (v, rest) => readEntries size fuel depth ((key, v) :: before) rest

end

/-! ## Buffers -/

inductive Refusal where
  | notADict
  /-- Reading stopped at `offset` bytes from the start of the buffer. -/
  | malformed (cause : Cause) (offset : Nat)
  deriving DecidableEq, Repr

/-- The dictionary at the front of a buffer, and the bytes behind it. -/
def readBuffer (buffer : Bytes) : Except Refusal (Dict × Bytes) :=
  match buffer with
  | 100 :: rest =>
      match readEntries buffer.length (2 * buffer.length) 1 [] rest with
      | .ok result => .ok result
      | .error fault => .error (.malformed fault.cause (buffer.length - fault.rest.length))
  | _ => .error .notADict

def decode (buffer : Bytes) : Except Refusal Dict :=
  match readBuffer buffer with
  | .ok (entries, _) => .ok entries
  | .error refusal => .error refusal

end PieceLedger.Bencode
