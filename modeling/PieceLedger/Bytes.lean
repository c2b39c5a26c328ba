/-!
Byte strings.

File contents, path names, encoded values and printed text are all lists of
bytes.  Text that is embedded in a printed line ends at its first zero byte,
so it passes through `beforeNul` on its way there.
-/

namespace PieceLedger

abbrev Bytes := List UInt8

namespace Bytes

def ofString (s : String) : Bytes := s.toUTF8.data.toList

def beforeNul (b : Bytes) : Bytes := b.takeWhile (· ≠ 0)

def padLeft (width : Nat) (b : Bytes) : Bytes :=
  List.replicate (width - b.length) 32 ++ b

def padRight (width : Nat) (b : Bytes) : Bytes :=
  b ++ List.replicate (width - b.length) 32

def overlay (buffer : Bytes) (position : Nat) (patch : Bytes) : Bytes :=
  buffer.take position ++ patch ++ buffer.drop (position + patch.length)

end Bytes

end PieceLedger
