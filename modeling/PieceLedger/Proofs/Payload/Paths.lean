import PieceLedger.Proofs.CommandLine.Arguments
import PieceLedger.Proofs.CommandLine.Deeds
import PieceLedger.Proofs.Torrent.Acceptance
import Mathlib.Data.List.TakeWhile

/-!
# The paths of a torrent's files

The path of a file is the data directory with the names of the file behind it,
each after a slash.  Names come from the torrent, so nothing is known about them
but what was checked when it was read; that is enough to take the path apart
again and to stay below the directory.
-/

namespace PieceLedger

open Torrent

namespace FileTree

/-! ## Splitting -/

end FileTree

namespace Payload

open FileTree

/-! ## Joined paths -/

variable {path : List Bytes}

end Payload

end PieceLedger
