import PieceLedger.Proofs.Tracker.Validation

/-!
# Delivery of known data

A run delivers some data when every arrival that it takes is the slice of the
data at its block, and nothing remains.  The pieces assembled by any two such
runs have the data as their content, whatever their grids, windows and orders
of arrival.
-/

namespace PieceLedger

def Block.slice (data : Bytes) (b : Block) : Bytes :=
  (data.drop b.offset.toNat).take b.length.toNat

theorem Block.Tiles.flatMap_slice {start stop : Nat} {blocks : List Block} {data : Bytes}
    (h : Tiles start blocks stop) :
    blocks.flatMap (Block.slice data) = (data.drop start).take (stop - start) := by
  induction h with
  | nil => simp
  | @cons start stop b rest hoffset htiles ih =>
      have ends := htiles.bytes_eq
      rw [List.flatMap_cons, ih, Block.slice, hoffset]
      rw [show stop - start = b.length.toNat + (stop - (start + b.length.toNat)) by omega]
      rw [List.take_add, List.drop_drop]

def Grid.cut (g : Grid) (piece : UInt32) (data : Bytes) : ValidPiece :=
  ⟨piece, g.blocks.map fun b => ⟨b, b.slice data⟩⟩

theorem Grid.content_cut (g : Grid) (piece : UInt32) {data : Bytes}
    (hsize : data.length = g.size.toNat) : (g.cut piece data).content = data := by
  have slices : g.blocks.flatMap (Block.slice data) = (data.drop 0).take (g.size.toNat - 0) :=
    g.tiles_blocks.flatMap_slice
  rw [List.drop_zero, Nat.sub_zero, ← hsize, List.take_length] at slices
  rw [ValidPiece.content, Grid.cut, List.flatMap_map]
  exact slices

namespace Tracker

/-- A run that takes only slices of `data`, and leaves nothing remaining. -/
structure Delivers (data : Bytes) (first : Tracker) (calls : List Call) : Prop where
  honest : ∀ r ∈ first.arrivals calls, r.payload = r.block.slice data
  active : (first.run calls).consumed = false
  complete : (first.run calls).remaining = 0

namespace Delivers

variable {data : Bytes} {piece size blockSize window : UInt32} {calls : List Call}

theorem assembled_eq (h : Delivers data (new piece size blockSize window) calls) :
    ((new piece size blockSize window).run calls).assembled =
      ((new piece size blockSize window).grid.cut piece data).blocks := by
  obtain ⟨-, grid, -⟩ := (new piece size blockSize window).frame_run calls
  have books := (kept_run piece size blockSize window calls).ledger h.active
  have arrived := completed_run piece size blockSize window calls h.active
  rw [Grid.cut, ← grid, ← books.assembled_blocks h.complete, List.map_map]
  refine (List.map_id _).symm.trans (List.map_congr_left ?_)
  intro r hr
  have honest := h.honest r (arrived ▸ (assembled_perm _).subset hr)
  rw [Function.comp_apply, ← honest]
  rfl

theorem verdict_eq (h : Delivers data (new piece size blockSize window) calls)
    (hsize : data.length = size.toNat) {torrent : Torrent} {expected : Digest}
    (htable : torrent.digest? piece = some expected) :
    (((new piece size blockSize window).run calls).validate torrent).1 =
      if Sha1.hash data = expected then
        .valid ((new piece size blockSize window).grid.cut piece data)
      else .invalid := by
  obtain ⟨hpiece, -, -⟩ := (new piece size blockSize window).frame_run calls
  have id : ((new piece size blockSize window).run calls).piece = piece := hpiece
  have content : ((new piece size blockSize window).run calls).assembled.flatMap
      Received.payload = data := by
    rw [h.assembled_eq]
    exact Grid.content_cut _ piece hsize
  rw [Tracker.verdict_eq _ torrent h.active h.complete (id ▸ htable), digest, content, id,
    h.assembled_eq]
  rfl

end Delivers

/--
Whatever the block sizes, the windows and the orders of the calls, two runs
that deliver the same data are judged alike, by the digest of the data; a valid
piece has the data as its content, and the block size alone decides its blocks.
-/
theorem deliveries_agree (data : Bytes) (hdata : data.length < UInt32.size)
    (torrent : Torrent) (piece : UInt32) (expected : Digest)
    (htable : torrent.digest? piece = some expected)
    (blockSize₁ window₁ blockSize₂ window₂ : UInt32) (calls₁ calls₂ : List Call)
    (h₁ : Delivers data (new piece (.ofNat data.length) blockSize₁ window₁) calls₁)
    (h₂ : Delivers data (new piece (.ofNat data.length) blockSize₂ window₂) calls₂) :
    let t₁ := (new piece (.ofNat data.length) blockSize₁ window₁).run calls₁
    let t₂ := (new piece (.ofNat data.length) blockSize₂ window₂).run calls₂
    let verdict₁ := (t₁.validate torrent).1
    let verdict₂ := (t₂.validate torrent).1
    verdict₁.status = verdict₂.status ∧
      verdict₁.status = some (if Sha1.hash data = expected then .ok else .invalid) ∧
      (verdict₁.status = some .ok →
        ∃ piece₁ piece₂, verdict₁ = .valid piece₁ ∧ verdict₂ = .valid piece₂ ∧
          piece₁.content = data ∧ piece₂.content = data ∧
          (t₁.blockSize = t₂.blockSize → piece₁.blocks = piece₂.blocks)) := by
  intro t₁ t₂ verdict₁ verdict₂
  have hsize : data.length = (UInt32.ofNat data.length).toNat :=
    (UInt32.toNat_ofNat_of_lt' hdata).symm
  have judged₁ := h₁.verdict_eq hsize htable
  have judged₂ := h₂.verdict_eq hsize htable
  change verdict₁ = _ at judged₁
  change verdict₂ = _ at judged₂
  by_cases hmatch : Sha1.hash data = expected
  · rw [if_pos hmatch] at judged₁ judged₂
    rw [judged₁, judged₂, if_pos hmatch]
    refine ⟨rfl, rfl, fun _ => ⟨_, _, rfl, rfl, Grid.content_cut _ piece hsize,
      Grid.content_cut _ piece hsize, fun hblockSize => ?_⟩⟩
    have grid₁ : t₁.grid = _ := (frame_run _ calls₁).2.1
    have grid₂ : t₂.grid = _ := (frame_run _ calls₂).2.1
    have grids : t₁.grid = t₂.grid :=
      Grid.ext (by rw [grid₁, grid₂]; rfl) hblockSize
    rw [← grid₁, ← grid₂, grids]
  · rw [if_neg hmatch] at judged₁ judged₂
    rw [judged₁, judged₂, if_neg hmatch]
    exact ⟨rfl, rfl, fun hok => nomatch hok⟩

theorem deliveries_agree_regridded :
    let data : Bytes := [1, 2, 3]
    let torrent : Torrent := { Torrent.blank with digests := [Sha1.hash data] }
    let calls₁ : List Call :=
      [.request, .complete ⟨2, 1⟩ [3], .validate torrent, .complete ⟨0, 2⟩ [1, 2]]
    let calls₂ : List Call :=
      [.request, .remove ⟨0, 1⟩, .request, .complete ⟨1, 1⟩ [2], .complete ⟨1, 1⟩ [2],
        .add ⟨0, 1⟩, .complete ⟨0, 1⟩ [1], .request, .complete ⟨2, 1⟩ [3]]
    let first₁ := new 0 3 2 2
    let first₂ := new 0 3 1 1
    Delivers data first₁ calls₁ ∧ Delivers data first₂ calls₂ ∧
      ((first₁.run calls₁).validate torrent).1.status =
        ((first₂.run calls₂).validate torrent).1.status := by
  intro data torrent calls₁ calls₂ first₁ first₂
  have h₁ : Delivers data first₁ calls₁ := ⟨by decide, by decide, by decide⟩
  have h₂ : Delivers data first₂ calls₂ := ⟨by decide, by decide, by decide⟩
  have agreed := deliveries_agree data (by decide) torrent 0 (Sha1.hash data) rfl 2 2 1 1
    calls₁ calls₂ h₁ h₂
  exact ⟨h₁, h₂, agreed.1⟩

end Tracker

end PieceLedger
