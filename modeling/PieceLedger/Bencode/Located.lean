import PieceLedger.Bencode.Reader

/-!
Values with the places where they are written.

The readers of this module read as those of `Reader` do, and note where the
cursor is before and after each value.  A byte string also has the place of its
content.  Offsets are counted from the start of a buffer of `size` bytes.
-/

namespace PieceLedger.Bencode

structure Span where
  offset : Nat
  length : Nat
  deriving DecidableEq, Repr

/-- What is read while the bytes that are left go down from `bytes` to `rest`. -/
def Span.between (size : Nat) (bytes rest : Bytes) : Span :=
  ⟨size - bytes.length, bytes.length - rest.length⟩

def Span.shift (distance : Nat) (span : Span) : Span := ⟨span.offset + distance, span.length⟩

inductive Located where
  | text (span content : Span) (t : Text)
  | integer (span : Span) (number : Int64)
  | list (span : Span) (items : List Located)
  | dict (span : Span) (entries : List (Text × Located))
  deriving Repr

abbrev LocatedDict := List (Text × Located)

def Located.span : Located → Span
  | .text span _ _ => span
  | .integer span _ => span
  | .list span _ => span
  | .dict span _ => span

/-! ## Reading -/

def locateText (size : Nat) (bytes : Bytes) : Reading (Text × Span) :=
  match readLength size 0 0 bytes with
  | .error fault => .error fault
  | .ok ((_, 0), rest) => .error ⟨.lengthMissing, rest⟩
  | .ok ((length, count), 58 :: rest) =>
      match readContent (count - (Decimal.write length).length) length rest with
      | .ok (t, after) => .ok ((t, .between size rest after), after)
      | .error fault => .error fault
  | .ok (_, rest) => .error ⟨.colonMissing, rest⟩

mutual

def locateValue (size : Nat) : Nat → Nat → Bytes → Reading Located
  | 0, _, bytes => .error ⟨.unknownKind, bytes⟩
  | fuel + 1, depth, bytes =>
      if maxDepth < depth then .error ⟨.tooDeep, bytes⟩
      else
        match bytes with
        | [] => .error ⟨.unknownKind, []⟩
        | c :: rest =>
            if Decimal.isDigit c then
              match locateText size (c :: rest) with
              | .ok ((t, content), after) =>
                  .ok (.text (.between size (c :: rest) after) content t, after)
              | .error fault => .error fault
            else if c = 105 then
              match readInteger rest with
              | .ok (n, after) => .ok (.integer (.between size (c :: rest) after) n, after)
              | .error fault => .error fault
            else if c = 108 then
              match locateItems size fuel (depth + 1) [] rest with
              | .ok (items, after) => .ok (.list (.between size (c :: rest) after) items, after)
              | .error fault => .error fault
            else if c = 100 then
              match locateEntries size fuel (depth + 1) [] rest with
              | .ok (entries, after) => .ok (.dict (.between size (c :: rest) after) entries, after)
              | .error fault => .error fault
            else .error ⟨.unknownKind, c :: rest⟩

def locateItems (size : Nat) : Nat → Nat → List Located → Bytes → Reading (List Located)
  | 0, _, _, bytes => .error ⟨.listUnended, bytes⟩
  | fuel + 1, depth, before, bytes =>
      match bytes with
      | [] => .error ⟨.listUnended, []⟩
      | c :: rest =>
          if c = 101 then .ok (before.reverse, rest)
          else
            match locateValue size fuel depth (c :: rest) with
            | .error fault => .error fault
            | .ok (x, rest) => locateItems size fuel depth (x :: before) rest

def locateEntries (size : Nat) : Nat → Nat → LocatedDict → Bytes → Reading LocatedDict
  | 0, _, _, bytes => .error ⟨.dictUnended, bytes⟩
  | fuel + 1, depth, before, bytes =>
      match bytes with
      | [] => .error ⟨.dictUnended, []⟩
      | c :: rest =>
          if c = 101 then .ok (before.reverse, rest)
          else
            match locateText size (c :: rest) with
            | .error fault => .error fault
            | .ok ((key, _), rest) =>
                if before.any fun entry => entry.1.bytes = key.bytes then
                  .error ⟨.duplicateKey key.bytes, rest⟩
                else
                  match locateValue size fuel depth rest with
                  | .error fault => .error fault
                  | .ok (x, rest) => locateEntries size fuel depth ((key, x) :: before) rest

end

/-- Reads a value at the front of `bytes`, as if it stood inside `depth` lists and dictionaries. -/
def Located.read (depth : Nat) (bytes : Bytes) : Reading Located :=
  locateValue bytes.length (2 * bytes.length) depth bytes

def locateBuffer (buffer : Bytes) : Except Refusal (LocatedDict × Bytes) :=
  match buffer with
  | 100 :: rest =>
      match locateEntries buffer.length (2 * buffer.length) 1 [] rest with
      | .ok result => .ok result
      | .error fault => .error (.malformed fault.cause (buffer.length - fault.rest.length))
  | _ => .error .notADict

/-! ## Places -/

mutual

def Located.value : Located → Value
  | .text _ _ t => .text t
  | .integer _ n => .integer n
  | .list _ items => .list (valuesOf items)
  | .dict _ entries => .dict (unplaced entries)

def valuesOf : List Located → List Value
  | [] => []
  | x :: rest => x.value :: valuesOf rest

def unplaced : LocatedDict → Dict
  | [] => []
  | (key, x) :: rest => (key, x.value) :: unplaced rest

end

mutual

def Located.shift (distance : Nat) : Located → Located
  | .text span content t => .text (span.shift distance) (content.shift distance) t
  | .integer span n => .integer (span.shift distance) n
  | .list span items => .list (span.shift distance) (shiftItems distance items)
  | .dict span entries => .dict (span.shift distance) (shiftEntries distance entries)

def shiftItems (distance : Nat) : List Located → List Located
  | [] => []
  | x :: rest => x.shift distance :: shiftItems distance rest

def shiftEntries (distance : Nat) : LocatedDict → LocatedDict
  | [] => []
  | (key, x) :: rest => (key, x.shift distance) :: shiftEntries distance rest

end

end PieceLedger.Bencode
