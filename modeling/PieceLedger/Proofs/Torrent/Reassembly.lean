import PieceLedger.Proofs.Bytes.Slice
import PieceLedger.Proofs.Torrent.Pieces
import PieceLedger.Proofs.Tracker.Delivery

/-!
# Reassembly of honest data

Two cuts of some data follow each other here: into pieces by a torrent, and
each piece into blocks by a tracker.  When the digests of the torrent are those
of the pieces, and every payload is the data at its place, every piece is found
valid and the pieces put together are the data.
-/

namespace PieceLedger

/-! ## Blocks inside pieces -/

theorem Block.slice_slice {data : Bytes} {offset length : Nat} {b : Block}
    (h : b.offset.toNat + b.length.toNat ≤ length) :
    b.slice (data.slice offset length) =
      data.slice (offset + b.offset.toNat) b.length.toNat :=
  data.slice_slice h

theorem Grid.mem_blocks_le (g : Grid) {b : Block} (hb : b ∈ g.blocks) :
    b.offset.toNat + b.length.toNat ≤ g.size.toNat := by
  obtain ⟨k, hk, hoffset, hlength⟩ := g.mem_blocks.mp hb
  have inside := g.lt_count.mp hk
  rw [hoffset, hlength, Grid.extent]
  omega

namespace Torrent

def pieceOf (t : Torrent) (content : Bytes) (id : UInt32) : Bytes :=
  content.slice (t.pieceOffset id).toNat (t.pieceSize id).toNat

def digestsOf (pieceLength : Nat) (content : Bytes) : List Digest :=
  (List.range (content.length ⌈/⌉ pieceLength)).map fun i =>
    Sha1.hash (content.slice (i * pieceLength) pieceLength)

def describing (pieceLength : UInt32) (content : Bytes) : Torrent :=
  { blank with
    pieceLength
    length := .ofNat content.length
    digests := digestsOf pieceLength.toNat content }

/-! ## Pieces of a content -/

namespace Agrees

variable {t : Torrent} {content : Bytes}

theorem length_pieceOf (h : t.Agrees) (hlength : content.length = t.length.toNat) {id : UInt32}
    (hid : id.toNat < t.pieceCount) :
    (t.pieceOf content id).length = (t.pieceSize id).toNat := by
  apply content.length_slice
  rw [h.piece_within hid, hlength]
  exact Nat.min_le_right _ _

theorem pieceOf_eq (h : t.Agrees) (hlength : content.length = t.length.toNat) (id : UInt32) :
    t.pieceOf content id =
      content.slice (id.toNat * t.pieceLength.toNat) t.pieceLength.toNat := by
  rw [pieceOf, t.pieceOffset_toNat, h.pieceSize_toNat, ← hlength, Bytes.slice, Bytes.slice,
    ← List.length_drop, ← List.take_eq_take_min]

theorem flatMap_pieceOf (h : t.Agrees) (hlength : content.length = t.length.toNat) :
    (List.range t.pieceCount).flatMap (fun i => t.pieceOf content (.ofNat i)) = content := by
  have few := h.pieceCount_lt
  have pieces : (List.range t.pieceCount).flatMap (fun i => t.pieceOf content (.ofNat i)) =
      (List.range t.pieceCount).flatMap
        (fun i => content.slice (i * t.pieceLength.toNat) t.pieceLength.toNat) := by
    apply List.flatMap_congr
    intro i hi
    rw [h.pieceOf_eq hlength, UInt32.toNat_ofNat_of_lt' (by have := List.mem_range.mp hi; omega)]
  rw [pieces, content.flatMap_slice]
  apply List.take_of_length_le
  rw [hlength]
  exact Nat.le_of_not_lt (mt h.lt_pieceCount.mpr (Nat.lt_irrefl _))

end Agrees

/-! ## Torrents that describe a content -/

section Describing

variable {content : Bytes} {pieceLength : UInt32}

theorem length_lt_of_count (hpos : 0 < pieceLength.toNat)
    (hcount : content.length ⌈/⌉ pieceLength.toNat < UInt32.size) :
    content.length < UInt64.size := by
  have covered :
      content.length ≤ pieceLength.toNat * (content.length ⌈/⌉ pieceLength.toNat) :=
    le_smul_ceilDiv hpos
  have product : pieceLength.toNat * (content.length ⌈/⌉ pieceLength.toNat) <
      UInt32.size * UInt32.size :=
    Nat.mul_lt_mul'' pieceLength.toNat_lt hcount
  exact Nat.lt_of_le_of_lt covered product

theorem describing_length (hpos : 0 < pieceLength.toNat)
    (hcount : content.length ⌈/⌉ pieceLength.toNat < UInt32.size) :
    content.length = (describing pieceLength content).length.toNat :=
  (UInt64.toNat_ofNat_of_lt' (length_lt_of_count hpos hcount)).symm

theorem describing_pieceCount :
    (describing pieceLength content).pieceCount = content.length ⌈/⌉ pieceLength.toNat := by
  simp [pieceCount, describing, digestsOf]

theorem describing_agrees (hpos : 0 < pieceLength.toNat)
    (hcount : content.length ⌈/⌉ pieceLength.toNat < UInt32.size) :
    (describing pieceLength content).Agrees where
  pieceLength_pos := hpos
  pieceCount_eq := by
    rw [describing_pieceCount, ← describing_length hpos hcount]
    rfl
  pieceCount_lt := by
    rwa [describing_pieceCount]

theorem describing_digest? (hpos : 0 < pieceLength.toNat)
    (hcount : content.length ⌈/⌉ pieceLength.toNat < UInt32.size) {id : UInt32}
    (hid : id.toNat < (describing pieceLength content).pieceCount) :
    (describing pieceLength content).digest? id =
      some (Sha1.hash ((describing pieceLength content).pieceOf content id)) := by
  have agrees := describing_agrees hpos hcount
  rw [agrees.pieceOf_eq (describing_length hpos hcount)]
  rw [describing_pieceCount] at hid
  simp [digest?, describing, digestsOf, hid]

end Describing
end Torrent

/-! ## Runs that fetch a piece -/

namespace Tracker

/-- A run that takes only bytes of `content`, counted from `base` on, and
leaves nothing remaining. -/
structure Fetches (content : Bytes) (base : Nat) (first : Tracker) (calls : List Call) :
    Prop where
  honest : ∀ r ∈ first.arrivals calls,
    r.payload = content.slice (base + r.block.offset.toNat) r.block.length.toNat
  active : (first.run calls).consumed = false
  complete : (first.run calls).remaining = 0

theorem Fetches.delivers {content : Bytes} {base : Nat} {piece size blockSize window : UInt32}
    {calls : List Call} (h : Fetches content base (new piece size blockSize window) calls) :
    Delivers (content.slice base size.toNat) (new piece size blockSize window) calls where
  honest := by
    intro r hr
    have arrived := completed_run piece size blockSize window calls h.active
    have books := (kept_run piece size blockSize window calls).ledger h.active
    have held : r.block ∈ ((new piece size blockSize window).run calls).held :=
      List.mem_append_right _ (List.mem_map_of_mem (arrived ▸ hr))
    have inside := Grid.mem_blocks_le _ (books.mem_blocks held)
    rw [((new piece size blockSize window).frame_run calls).2.1] at inside
    exact (h.honest r hr).trans (Block.slice_slice inside).symm
  active := h.active
  complete := h.complete

end Tracker

namespace Torrent

open Tracker

/--
A torrent made from the digests of the pieces of some data is accepted.  If a
tracker for every piece is led to its end in any order, with blocks of the data
from the offset of the piece on, every piece is found valid, and the contents of
the valid pieces in the order of their ids are the data.
-/
theorem honest_data_reassembled (data : Bytes) (pieceLength : UInt32)
    (hpos : 0 < pieceLength.toNat)
    (hcount : data.length ⌈/⌉ pieceLength.toNat ≤ 2 ^ 32 - 1) :
    let t := describing pieceLength data
    loadPieces pieceLength (.ofNat data.length) (digestsOf pieceLength.toNat data) =
        ⟨true, some t, []⟩ ∧
      ∀ (blockSize window : UInt32 → UInt32) (calls : UInt32 → List Call),
        let tracker id := new id (t.pieceSize id) (blockSize id) (window id)
        let verdict id := (((tracker id).run (calls id)).validate t).1
        (∀ id : UInt32, id.toNat < t.pieceCount →
          Fetches data (t.pieceOffset id).toNat (tracker id) (calls id)) →
        (∀ id : UInt32, id.toNat < t.pieceCount → (verdict id).status = some .ok) ∧
          (List.range t.pieceCount).flatMap
              (fun i => ((verdict (.ofNat i)).replace {}).content) = data := by
  intro t
  have few : data.length ⌈/⌉ pieceLength.toNat < UInt32.size :=
    Nat.lt_of_le_pred (by decide) hcount
  have agrees : t.Agrees := describing_agrees hpos few
  have length : data.length = t.length.toNat := describing_length hpos few
  have made :
      ofPieces pieceLength (.ofNat data.length) (digestsOf pieceLength.toNat data) = .ok t :=
    checkSizes_eq_ok.mpr ⟨rfl, agrees⟩
  refine ⟨by rw [loadPieces_eq, made], ?_⟩
  intro blockSize window calls tracker verdict fetches
  have judged (id : UInt32) (hid : id.toNat < t.pieceCount) :
      verdict id = .valid ((tracker id).grid.cut id (t.pieceOf data id)) := by
    have table := describing_digest? hpos few hid
    have delivered := (fetches id hid).delivers.verdict_eq (agrees.length_pieceOf length hid) table
    exact delivered.trans (if_pos rfl)
  constructor
  · intro id hid
    rw [judged id hid]
    rfl
  · refine Eq.trans ?_ (agrees.flatMap_pieceOf length)
    apply List.flatMap_congr
    intro i hi
    have hid : (UInt32.ofNat i).toNat < t.pieceCount := by
      rw [UInt32.toNat_ofNat_of_lt' (Nat.lt_trans (List.mem_range.mp hi) agrees.pieceCount_lt)]
      exact List.mem_range.mp hi
    rw [judged _ hid]
    exact Grid.content_cut _ _ (agrees.length_pieceOf length hid)

theorem honest_data_reassembled_ragged :
    let data : Bytes := [1, 2, 3]
    let t := describing 2 data
    let calls (id : UInt32) : List Call :=
      if id = 0 then [.request, .complete ⟨1, 1⟩ [2], .complete ⟨0, 1⟩ [1]]
      else [.request, .remove ⟨0, 1⟩, .validate t, .add ⟨0, 1⟩, .complete ⟨0, 1⟩ [3]]
    let verdict (id : UInt32) := (((new id (t.pieceSize id) 1 2).run (calls id)).validate t).1
    (0 < (2 : UInt32).toNat ∧ data.length ⌈/⌉ 2 ≤ 2 ^ 32 - 1) ∧
      (∀ id : UInt32, id.toNat < t.pieceCount →
        Fetches data (t.pieceOffset id).toNat (new id (t.pieceSize id) 1 2) (calls id)) ∧
      ((verdict 0).replace {}).content ++ ((verdict 1).replace {}).content = data := by
  intro data t calls verdict
  have number : t.pieceCount = 2 := describing_pieceCount.trans (by decide)
  have fetches : ∀ id : UInt32, id.toNat < t.pieceCount →
      Fetches data (t.pieceOffset id).toNat (new id (t.pieceSize id) 1 2) (calls id) := by
    intro id hid
    have ids : id = 0 ∨ id = 1 := by
      rw [← UInt32.toNat_inj, ← UInt32.toNat_inj, UInt32.toNat_zero, UInt32.toNat_one]
      omega
    rcases ids with rfl | rfl
    · exact ⟨by decide +kernel, by decide +kernel, by decide +kernel⟩
    · exact ⟨by decide +kernel, by decide +kernel, by decide +kernel⟩
  have reassembled := honest_data_reassembled data 2 (by decide) (by decide)
  refine ⟨⟨by decide, by decide⟩, fetches, ?_⟩
  have whole := (reassembled.2 (fun _ => 1) (fun _ => 2) calls fetches).2
  change (List.range t.pieceCount).flatMap
    (fun i => ((verdict (.ofNat i)).replace {}).content) = data at whole
  rwa [number, show List.range 2 = [0, 1] from rfl, List.flatMap_cons, List.flatMap_singleton]
    at whole

end Torrent

end PieceLedger
