import PieceLedger.Sha1

/-!
SHA-1 of a message that arrives in parts.

Whole chunks are absorbed as they fill up and fewer than 64 bytes wait.  The
first request for the digest finishes the stream: from then on the digest is
fixed and no more bytes are taken, not even an empty part.
-/

namespace PieceLedger.Sha1

structure Stream where
  state : State := initial
  waiting : Bytes := []
  /-- The bytes taken so far.  A message has fewer than `2 ^ 61` bytes, whose bits can be counted
  in 64 bits; up to there the count does not wrap. -/
  length : Nat := 0
  result : Option Digest := none
  deriving DecidableEq, Repr

namespace Stream

/-- Takes the next part of the message; `none` once the stream is finished. -/
def update (s : Stream) (part : Bytes) : Option Stream :=
  match s.result with
  | some _ => none
  | none =>
      let filled := s.waiting ++ part
      let count := filled.length / 64
      some { s with
        state := absorb count s.state filled
        waiting := filled.drop (64 * count)
        length := s.length + part.length }

def updateAll (s : Stream) : List Bytes → Option Stream
  | [] => some s
  | part :: rest => (s.update part).bind fun next => next.updateAll rest

def finalDigest (s : Stream) : Digest :=
  let tail := s.waiting ++ padding s.length
  (absorb (tail.length / 64) s.state tail).digest

def finish (s : Stream) : Digest × Stream :=
  match s.result with
  | some d => (d, s)
  | none => (s.finalDigest, { s with result := some s.finalDigest })

end Stream

end PieceLedger.Sha1
