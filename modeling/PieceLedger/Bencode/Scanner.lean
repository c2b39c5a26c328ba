import PieceLedger.Bencode.Reader

/-!
Reading with a cursor.

The readers of `Reader` take the bytes from their position on.  A scanner holds
the whole buffer and a cursor: a 64-bit count of the bytes behind it, and a
pointer to the byte in front of it, given by its index in the buffer.  Both are
moved together, and nothing but the scanner's own checks keeps them inside the
buffer.  Counts and lengths wrap around at 2^64; a zero is read where the buffer
has no byte.

A scan writes down what it does, latest first.  It has no outcome where its turns
and calls go deeper than `fuel`.
-/

namespace PieceLedger.Bencode

structure Cursor where
  offset : UInt64
  pointer : Nat
  deriving DecidableEq, Repr

inductive Part where
  | value
  | text
  | integer
  deriving DecidableEq, Repr

inductive Event where
  /-- The cursor was put there. -/
  | stand (cursor : Cursor)
  /-- A byte was read through the pointer. -/
  | look (index : Nat)
  /-- The content of a byte string was found. -/
  | take (index length : Nat)
  /-- A digit was put behind a length. -/
  | sum (length digit total : UInt64)
  /-- A part was read from one place to the other. -/
  | read (part : Part) (before after : Cursor)
  /-- A list or dictionary was opened. -/
  | opened
  /-- The list or dictionary opened last was read to its end. -/
  | closed
  deriving DecidableEq, Repr

structure Scan where
  cursor : Cursor
  events : List Event
  deriving DecidableEq, Repr

/-- Steps on a scan; where a fault stops them, it stays as they have left it. -/
abbrev Scanner := ExceptT Cause (StateT Scan Option)

def Cursor.advance (cursor : Cursor) (length : UInt64) : Cursor :=
  ⟨cursor.offset + length, cursor.pointer + length.toNat⟩

def Scan.note (s : Scan) (event : Event) : Scan := { s with events := event :: s.events }

def Scan.put (s : Scan) (cursor : Cursor) : Scan := { s with cursor }.note (.stand cursor)

def Scan.start : Scan := ⟨⟨0, 0⟩, [.stand ⟨0, 0⟩]⟩

namespace Scanner

variable {α : Type}

def unfinished : Scanner α := fun _ => none

def note (event : Event) : Scanner Unit := modify fun s => s.note event

def refuse (p : Prop) [Decidable p] (cause : Cause) : Scanner Unit :=
  if p then throw cause else pure ()

def move (length : UInt64) : Scanner Unit := modify fun s => s.put (s.cursor.advance length)

def whole (part : Part) (scanner : Scanner α) : Scanner α := do
  let before := (← get).cursor
  let x ← scanner
  note (.read part before (← get).cursor)
  return x

def nested (scanner : Scanner α) : Scanner α := do
  note .opened
  let x ← scanner
  note .closed
  return x

variable (buffer : Bytes)

def size : UInt64 := .ofNat buffer.length

def left : Scanner UInt64 := return size buffer - (← get).cursor.offset

def fetch : Scanner UInt8 := do
  let index := (← get).cursor.pointer
  note (.look index)
  return buffer.getD index 0

/-- The byte in front of the cursor; a zero at the end of the buffer. -/
def peek : Scanner UInt8 := do
  if (← left buffer) = 0 then return 0 else fetch buffer

def take (length : UInt64) : Scanner Bytes := do
  let index := (← get).cursor.pointer
  note (.take index length.toNat)
  move length
  return (buffer.drop index).take length.toNat

end Scanner

open Scanner

variable (buffer : Bytes)

/-! ## Byte strings -/

def scanLength : Nat → UInt64 → UInt64 → Scanner (UInt64 × UInt64)
  | 0, _, _ => unfinished
  | fuel + 1, length, count => do
      if Decimal.isDigit (← peek buffer) then
        let digit := (← fetch buffer).toUInt64 - 48
        let total := length * 10 + digit
        note (.sum length digit total)
        refuse (size buffer < total) .lengthBeyondBuffer
        move 1
        scanLength fuel total (count + 1)
      else return (length, count)

def scanContent (zeros : Nat) (length : UInt64) : Scanner Text := do
  let rest ← left buffer
  refuse (rest < length) (.lengthBeyondRest length.toNat rest.toNat)
  let content ← take buffer length
  return ⟨zeros, content⟩

def scanText (fuel : Nat) : Scanner Text := whole .text do
  let (length, count) ← scanLength buffer fuel 0 0
  refuse (count = 0) .lengthMissing
  refuse ((← peek buffer) ≠ 58) .colonMissing
  move 1
  scanContent buffer (count.toNat - (Decimal.write length.toNat).length) length

/-! ## Integers -/

def atIntegerByte : Scanner Bool := do
  if (← peek buffer) = 45 then return true
  else return Decimal.isDigit (← peek buffer)

def scanWritten : Nat → Bytes → Scanner Bytes
  | 0, _ => unfinished
  | fuel + 1, written => do
      if ← atIntegerByte buffer then
        let written := written ++ [← fetch buffer]
        refuse (maxIntegerLength < written.length) .integerTooLong
        move 1
        scanWritten fuel written
      else return written

def scanInteger (fuel : Nat) : Scanner Int64 := whole .integer do
  let written ← scanWritten buffer fuel []
  refuse ((← peek buffer) ≠ 101) .integerUnended
  move 1
  match integerOf written with
  | .ok n => return n
  | .error cause => throw cause

/-! ## Values -/

mutual

def scanValue : Nat → Nat → Scanner Value
  | 0, _ => unfinished
  | fuel + 1, depth => whole .value do
      refuse (maxDepth < depth) .tooDeep
      let first ← peek buffer
      if Decimal.isDigit first then return .text (← scanText buffer fuel)
      else if first = 105 then
        move 1
        return .integer (← scanInteger buffer fuel)
      else if first = 108 then
        move 1
        return .list (← nested (scanItems fuel (depth + 1) []))
      else if first = 100 then
        move 1
        return .dict (← nested (scanEntries fuel (depth + 1) []))
      else throw .unknownKind

def scanItems : Nat → Nat → List Value → Scanner (List Value)
  | 0, _, _ => unfinished
  | fuel + 1, depth, before => do
      refuse ((← left buffer) = 0) .listUnended
      if (← fetch buffer) = 101 then
        move 1
        return before.reverse
      else
        let v ← scanValue fuel depth
        scanItems fuel depth (v :: before)

def scanEntries : Nat → Nat → Dict → Scanner Dict
  | 0, _, _ => unfinished
  | fuel + 1, depth, before => do
      refuse ((← left buffer) = 0) .dictUnended
      if (← fetch buffer) = 101 then
        move 1
        return before.reverse
      else
        let key ← scanText buffer fuel
        refuse (before.any fun entry => entry.1.bytes = key.bytes) (.duplicateKey key.bytes)
        let v ← scanValue fuel depth
        scanEntries fuel depth ((key, v) :: before)

end

/-! ## Buffers -/

def scanDocument (fuel : Nat) : Scanner (Option Dict) := do
  if (← peek buffer) = 100 then
    move 1
    return some (← nested (scanEntries buffer fuel 1 []))
  else return none

def scanBuffer (fuel : Nat) : Option (Except Refusal Dict × List Event) :=
  match scanDocument buffer fuel .start with
  | none => none
  | some (.ok (some entries), s) => some (.ok entries, s.events)
  | some (.ok none, s) => some (.error .notADict, s.events)
  | some (.error cause, s) => some (.error (.malformed cause s.cursor.offset.toNat), s.events)

/-- The number of lists and dictionaries that are open after some events. -/
def nesting : List Event → Nat
  | [] => 0
  | .opened :: earlier => nesting earlier + 1
  | .closed :: earlier => nesting earlier - 1
  | _ :: earlier => nesting earlier

end PieceLedger.Bencode
