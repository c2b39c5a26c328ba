import PieceLedger.Tracker
import Mathlib.Data.List.Perm.Subperm

/-!
# The block grid of a piece

A piece of `S` bytes and a block size `B` fix a grid: block `k` begins at
`k * B` and is as long as a block, or as what is left of the piece.  All
offsets of the grid stay below `S`, so they fit into 32 bits; the statements
are about natural numbers for that reason.
-/

namespace PieceLedger

namespace Block

def bytes : List Block → Nat
  | [] => 0
  | b :: rest => b.length.toNat + bytes rest

theorem bytes_cons (b : Block) (blocks : List Block) :
    bytes (b :: blocks) = b.length.toNat + bytes blocks := rfl

theorem bytes_singleton (b : Block) : bytes [b] = b.length.toNat := rfl

theorem bytes_append (blocks more : List Block) :
    bytes (blocks ++ more) = bytes blocks + bytes more := by
  induction blocks with
  | nil => simp [bytes]
  | cons b rest ih => simp [bytes, ih, Nat.add_assoc]

theorem bytes_perm {blocks others : List Block} (h : blocks.Perm others) :
    bytes blocks = bytes others := by
  induction h with
  | nil => rfl
  | cons b _ ih => simp [bytes, ih]
  | swap b c rest =>
      simp only [bytes]
      omega
  | trans _ _ first second => exact first.trans second

end Block

@[ext]
structure Grid where
  size : UInt32
  blockSize : UInt32
  blockSize_pos : 0 < blockSize

namespace Grid

def start (g : Grid) (k : Nat) : Nat := k * g.blockSize.toNat

def extent (g : Grid) (k : Nat) : Nat :=
  min g.blockSize.toNat (g.size.toNat - g.start k)

/-- The number of blocks that begin in the first `bytes` bytes. -/
def cover (g : Grid) (bytes : Nat) : Nat :=
  (bytes + g.blockSize.toNat - 1) / g.blockSize.toNat

def count (g : Grid) : Nat := g.cover g.size.toNat

def reach (g : Grid) (k : Nat) : Nat := min (g.start k) g.size.toNat

def block (g : Grid) (k : Nat) : Block := ⟨.ofNat (g.start k), .ofNat (g.extent k)⟩

def span (g : Grid) (first number : Nat) : List Block :=
  (List.range' first number).map g.block

def blocks (g : Grid) : List Block := g.span 0 g.count

def IsBlock (g : Grid) (k : Nat) (b : Block) : Prop :=
  b.offset.toNat = g.start k ∧ b.length.toNat = g.extent k

/-! ## Block boundaries -/

theorem blockSize_toNat_pos (g : Grid) : 0 < g.blockSize.toNat := g.blockSize_pos

theorem start_zero (g : Grid) : g.start 0 = 0 := Nat.zero_mul _

theorem start_succ (g : Grid) (k : Nat) :
    g.start (k + 1) = g.start k + g.blockSize.toNat := Nat.succ_mul _ _

theorem start_lt_start (g : Grid) {j k : Nat} : g.start j < g.start k ↔ j < k :=
  Nat.mul_lt_mul_right g.blockSize_toNat_pos

theorem lt_cover (g : Grid) {k bytes : Nat} : k < g.cover bytes ↔ g.start k < bytes := by
  have positive := g.blockSize_toNat_pos
  rw [← Nat.succ_le_iff, cover, Nat.le_div_iff_mul_le positive, Nat.succ_eq_add_one]
  change g.start (k + 1) ≤ _ ↔ _
  rw [start_succ]
  omega

theorem lt_count (g : Grid) {k : Nat} : k < g.count ↔ g.start k < g.size.toNat :=
  g.lt_cover

theorem cover_eq (g : Grid) {bytes k : Nat} (h : ∀ j, g.start j < bytes ↔ j < k) :
    g.cover bytes = k := by
  apply Nat.le_antisymm
  · exact Nat.le_of_not_lt fun hlt => Nat.lt_irrefl k ((h k).mp (g.lt_cover.mp hlt))
  · exact Nat.le_of_not_lt fun hlt =>
      Nat.lt_irrefl _ (g.lt_cover.mpr ((h _).mpr hlt))

theorem cover_reach (g : Grid) {k : Nat} (hk : k ≤ g.count) : g.cover (g.reach k) = k := by
  apply g.cover_eq
  intro j
  rw [reach, Nat.lt_min, start_lt_start, ← lt_count]
  omega

theorem reach_zero (g : Grid) : g.reach 0 = 0 := by simp [reach, start_zero]

theorem reach_le (g : Grid) (k : Nat) : g.reach k ≤ g.size.toNat := Nat.min_le_right _ _

theorem toNat_reach (g : Grid) (k : Nat) : (UInt32.ofNat (g.reach k)).toNat = g.reach k := by
  apply UInt32.toNat_ofNat_of_lt'
  exact Nat.lt_of_le_of_lt (g.reach_le k) g.size.toNat_lt

theorem reach_of_lt (g : Grid) {k : Nat} (hk : k < g.count) : g.reach k = g.start k :=
  Nat.min_eq_left (Nat.le_of_lt (g.lt_count.mp hk))

theorem reach_count (g : Grid) : g.reach g.count = g.size.toNat := by
  apply Nat.min_eq_right
  exact Nat.le_of_not_lt fun h => Nat.lt_irrefl _ (g.lt_count.mpr h)

theorem reach_succ (g : Grid) {k : Nat} (hk : k < g.count) :
    g.reach (k + 1) = g.reach k + g.extent k := by
  have inside := g.lt_count.mp hk
  rw [g.reach_of_lt hk, reach, extent, start_succ]
  omega

theorem reach_cover (g : Grid) {bytes : Nat}
    (hboundary : bytes = g.size.toNat ∨ g.blockSize.toNat ∣ bytes)
    (hbytes : bytes ≤ g.size.toNat) : g.reach (g.cover bytes) = bytes := by
  rcases hboundary with rfl | ⟨k, rfl⟩
  · exact g.reach_count
  · rw [Nat.mul_comm]
    change g.reach (g.cover (g.start k)) = g.start k
    rw [g.cover_eq (k := k) fun j => g.start_lt_start]
    apply Nat.min_eq_left
    rwa [start, Nat.mul_comm]

theorem reach_boundary (g : Grid) (k : Nat) :
    g.reach k = g.size.toNat ∨ g.blockSize.toNat ∣ g.reach k := by
  rcases Nat.le_total (g.start k) g.size.toNat with inside | outside
  · right
    rw [reach, Nat.min_eq_left inside]
    exact Nat.dvd_mul_left _ _
  · left
    exact Nat.min_eq_right outside

theorem cover_le_count (g : Grid) {bytes : Nat} (hbytes : bytes ≤ g.size.toNat) :
    g.cover bytes ≤ g.count := by
  apply Nat.div_le_div_right
  omega

/-! ## Blocks -/

theorem extent_pos (g : Grid) {k : Nat} (hk : k < g.count) : 0 < g.extent k := by
  have positive := g.blockSize_toNat_pos
  have inside := g.lt_count.mp hk
  rw [extent]
  omega

theorem isBlock_block (g : Grid) {k : Nat} (hk : k < g.count) : g.IsBlock k (g.block k) := by
  have inside := g.lt_count.mp hk
  have bound := g.size.toNat_lt
  have whole := g.blockSize.toNat_lt
  constructor
  · apply UInt32.toNat_ofNat_of_lt'
    rw [UInt32.size]
    omega
  · apply UInt32.toNat_ofNat_of_lt'
    rw [extent, UInt32.size]
    omega

theorem IsBlock.eq_block {g : Grid} {k : Nat} {b : Block} (h : g.IsBlock k b) :
    b = g.block k := by
  cases b
  simp only [block, ← h.1, ← h.2, UInt32.ofNat_toNat]

theorem IsBlock.index_eq {g : Grid} {j k : Nat} {b c : Block} (hb : g.IsBlock j b)
    (hc : g.IsBlock k c) (hoffset : b.offset = c.offset) : j = k := by
  apply Nat.eq_of_mul_eq_mul_right g.blockSize_toNat_pos
  change g.start j = g.start k
  rw [← hb.1, ← hc.1, hoffset]

theorem mem_span (g : Grid) {first number : Nat} {b : Block} :
    b ∈ g.span first number ↔ ∃ k, first ≤ k ∧ k < first + number ∧ g.block k = b := by
  simp only [span, List.mem_map, List.mem_range'_1, and_assoc]

theorem mem_blocks (g : Grid) {b : Block} :
    b ∈ g.blocks ↔ ∃ k < g.count, g.IsBlock k b := by
  rw [blocks, mem_span]
  constructor
  · rintro ⟨k, -, hk, rfl⟩
    have inside : k < g.count := by omega
    exact ⟨k, inside, g.isBlock_block inside⟩
  · rintro ⟨k, hk, hblock⟩
    exact ⟨k, Nat.zero_le _, by omega, hblock.eq_block.symm⟩

theorem block_mem_span (g : Grid) {first number k : Nat} (hnumber : first + number ≤ g.count)
    (hk : k < g.count) :
    g.block k ∈ g.span first number ↔ first ≤ k ∧ k < first + number := by
  rw [mem_span]
  constructor
  · rintro ⟨j, hlow, hhigh, heq⟩
    have same : j = k := (g.isBlock_block (by omega)).index_eq (g.isBlock_block hk)
      (congrArg Block.offset heq)
    omega
  · rintro ⟨hlow, hhigh⟩
    exact ⟨k, hlow, hhigh, rfl⟩

theorem span_append (g : Grid) (first number more : Nat) :
    g.span first number ++ g.span (first + number) more = g.span first (number + more) := by
  simp [span, ← List.map_append]

theorem length_span (g : Grid) (first number : Nat) :
    (g.span first number).length = number := by
  simp [span]

theorem take_span (g : Grid) (room first number : Nat) :
    (g.span first number).take room = g.span first (min room number) := by
  rw [span, ← List.map_take]
  rcases Nat.le_total number room with le | le
  · rw [List.take_range'_of_length_le le, Nat.min_eq_right le]
    rfl
  · rw [List.take_range'_of_length_ge le, Nat.min_eq_left le]
    rfl

theorem span_pairwise (g : Grid) {first number : Nat} (hnumber : first + number ≤ g.count) :
    (g.span first number).Pairwise fun b c => b.offset < c.offset := by
  rw [span, List.pairwise_map]
  apply List.Pairwise.imp_of_mem _ List.pairwise_lt_range'
  intro j k hj hk hlt
  rw [List.mem_range'_1] at hj hk
  rw [UInt32.lt_iff_toNat_lt, (g.isBlock_block (by omega)).1, (g.isBlock_block (by omega)).1]
  exact g.start_lt_start.mpr hlt

theorem blocks_pairwise (g : Grid) : g.blocks.Pairwise fun b c => b.offset < c.offset :=
  g.span_pairwise (by omega)

theorem blocks_nodup (g : Grid) : g.blocks.Nodup := by
  apply g.blocks_pairwise.imp
  rintro b c hlt rfl
  exact UInt32.lt_irrefl _ hlt

/-! ## Bytes -/

theorem bytes_span (g : Grid) {first number : Nat} (hnumber : first + number ≤ g.count) :
    g.reach first + Block.bytes (g.span first number) = g.reach (first + number) := by
  induction number with
  | zero => rfl
  | succ number ih =>
      have last : first + number < g.count := by omega
      rw [← span_append, Block.bytes_append, ← Nat.add_assoc, ih (by omega), ← Nat.add_assoc,
        g.reach_succ last]
      simp [span, Block.bytes, (g.isBlock_block last).2]

theorem bytes_blocks (g : Grid) : Block.bytes g.blocks = g.size.toNat := by
  have total : g.reach 0 + Block.bytes (g.span 0 g.count) = g.reach (0 + g.count) :=
    g.bytes_span (by omega)
  rwa [g.reach_zero, Nat.zero_add, Nat.zero_add, g.reach_count] at total

theorem bytes_pos_of_mem (g : Grid) {b : Block} (hb : b ∈ g.blocks) : 0 < b.length.toNat := by
  obtain ⟨k, hk, hblock⟩ := g.mem_blocks.mp hb
  rw [hblock.2]
  exact g.extent_pos hk

theorem exists_rest (g : Grid) {blocks : List Block} (hnodup : blocks.Nodup)
    (hsubset : ∀ b ∈ blocks, b ∈ g.blocks) : ∃ rest, g.blocks.Perm (blocks ++ rest) := by
  obtain ⟨some, hperm, hsublist⟩ := List.subperm_of_subset hnodup hsubset
  obtain ⟨rest, hrest⟩ := hsublist.exists_perm_append
  exact ⟨rest, hrest.trans (hperm.append_right rest)⟩

theorem bytes_le (g : Grid) {blocks : List Block} (hnodup : blocks.Nodup)
    (hsubset : ∀ b ∈ blocks, b ∈ g.blocks) : Block.bytes blocks ≤ g.size.toNat := by
  obtain ⟨rest, hrest⟩ := g.exists_rest hnodup hsubset
  rw [← g.bytes_blocks, Block.bytes_perm hrest, Block.bytes_append]
  omega

theorem perm_blocks (g : Grid) {blocks : List Block} (hnodup : blocks.Nodup)
    (hsubset : ∀ b ∈ blocks, b ∈ g.blocks) (hbytes : Block.bytes blocks = g.size.toNat) :
    blocks.Perm g.blocks := by
  obtain ⟨rest, hrest⟩ := g.exists_rest hnodup hsubset
  cases rest with
  | nil => simpa using hrest.symm
  | cons b rest =>
      have positive := g.bytes_pos_of_mem (hrest.mem_iff.mpr (by simp : b ∈ blocks ++ b :: rest))
      have total := Block.bytes_perm hrest
      rw [g.bytes_blocks, Block.bytes_append, Block.bytes_cons] at total
      omega

end Grid

end PieceLedger
