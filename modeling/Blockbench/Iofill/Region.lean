import Blockbench.Iofill.Fill

/-!
# `Iofill/Region.lean` — where the header and the blocks land

`io_thread` computes every offset in 64 bits: a place in the region, `offset % rangeoff`, is
added to `minoff`, and the block's size is cut when it runs past `minoff + rangeoff`. This file
reads those formulas as arithmetic (`headerExtent_eq`, `blockExtent_off`, `blockExtent_len`,
with `multiplier` at 1), and then for a region that does not run over the top of the 64-bit
range, where a block covers its own `size` bytes of the region and no others (`holds_block`).
-/

set_option autoImplicit false

namespace Blockbench
namespace Iofill

open CInt Finset

def CmdParams.range (p : CmdParams) : ℕ := p.nblks * p.blk

def CmdParams.pos (p : CmdParams) (bno : ℕ) : ℕ :=
  (p.seekoff.toNat + p.hdr + p.blk * (u64OfI32 (1 + p.skip)).toNat * bno) % 2 ^ 64 % p.range

section Place

variable {cp : CmdParams}

theorem CmdParams.Ok.range_pos (hp : cp.Ok) : 0 < cp.range :=
  Nat.mul_pos cp.nblks_pos (by have := hp.blk_ge; omega)

theorem CmdParams.blk_le_range (cp : CmdParams) : cp.blk ≤ cp.range :=
  Nat.le_mul_of_pos_left _ cp.nblks_pos

theorem CmdParams.Ok.pos_lt (hp : cp.Ok) (bno : ℕ) : cp.pos bno < cp.range :=
  Nat.mod_lt _ hp.range_pos

theorem region_eq_range
    (hle : cp.minoff.toNat / cp.blk ≤ max (cp.maxoff.toNat / cp.blk) 1) :
    cp.region = cp.range := by
  unfold CmdParams.region CmdParams.range CmdParams.nblks
  dsimp only
  generalize cp.minoff.toNat / cp.blk = a at hle ⊢
  generalize cp.maxoff.toNat / cp.blk = b at hle ⊢
  split
  · congr 1
    omega
  · rw [if_pos (by omega), max_eq_right (by omega), Nat.one_mul]

theorem region_eq_range_of_le (hle : cp.minoff.toNat / cp.blk ≤ cp.maxoff.toNat / cp.blk) :
    cp.region = cp.range :=
  region_eq_range (hle.trans (le_max_left _ _))

/-- So does any region that ends inside the 64-bit range: past its end the start would leave a
region that reaches over the top. -/
theorem region_eq_range_of_le_top (hp : cp.Ok) (hfit : cp.minoff.toNat + cp.region ≤ 2 ^ 64) :
    cp.region = cp.range := by
  refine region_eq_range (Nat.le_of_not_lt fun hlt => ?_)
  have hblk := hp.blk_ge
  have hsub := cp.divs_mul_le.2 hlt
  have hstart : cp.minoff.toNat / cp.blk * cp.blk ≤ cp.minoff.toNat := Nat.div_mul_le_self _ _
  have hend : cp.blk ≤ max (cp.maxoff.toNat / cp.blk) 1 * cp.blk :=
    Nat.le_mul_of_pos_left _ (lt_of_lt_of_le Nat.one_pos (le_max_right _ _))
  have hmono := Nat.mul_le_mul_right cp.blk hlt.le
  unfold CmdParams.region at hfit
  dsimp only at hfit
  rw [if_neg (Nat.lt_asymm hlt), if_neg hlt.ne', Nat.sub_mul] at hfit
  rw [Nat.sub_mul] at hsub
  omega

theorem CmdParams.Ok.geometry (hp : cp.Ok) :
    (blockRange (threadParams cp 0)).2.2.toNat = cp.region ∧
      (threadParams cp 0).headersz.toNat = cp.hdr := by
  have hrange := toNat_rangeoff hp
  rw [hp.threadParams_eq 0]
  exact ⟨hrange, hp.toNat_headersz⟩

theorem toNat_blockSize (p : CmdParams) (rangeoff offset : UInt64) (cursize : Int32) :
    (blockSize p rangeoff offset cursize).toNat =
      if (p.minoff + rangeoff * u64OfI32 p.multiplier).toNat
          < (offset.toNat + (u64OfI32 cursize).toNat) % 2 ^ 64 then
        (2 ^ 64 - offset.toNat + (p.minoff + rangeoff * u64OfI32 p.multiplier).toNat)
          % 2 ^ 64 % 2 ^ 32
      else cursize.toUInt32.toNat := by
  unfold blockSize
  dsimp only
  by_cases hlt : p.minoff + rangeoff * u64OfI32 p.multiplier < offset + u64OfI32 cursize
  · have hlt' := UInt64.lt_iff_toNat_lt.mp hlt
    rw [UInt64.toNat_add offset] at hlt'
    rw [if_pos hlt, if_pos hlt', UInt64.toNat_toUInt32, UInt64.toNat_sub]
  · have hlt' := UInt64.lt_iff_toNat_lt.not.mp hlt
    rw [UInt64.toNat_add offset] at hlt'
    rw [if_neg hlt, if_neg hlt']

variable (hp : cp.Ok) (hmul : cp.multiplier = 1)
  (hreg : cp.region = cp.range)
include hp hmul

theorem minoff_add_mul (r : UInt64) :
    (threadParams cp 0).minoff + r * u64OfI32 (threadParams cp 0).multiplier = cp.minoff + r := by
  rw [hp.threadParams_eq 0]
  show cp.minoff + r * u64OfI32 cp.multiplier = _
  rw [hmul, u64OfI32_one, UInt64.mul_one]

include hreg

theorem toNat_place (offset : UInt64) :
    (place (threadParams cp 0) (blockRange (threadParams cp 0)).2.2 offset).toNat
      = (cp.minoff.toNat + offset.toNat % cp.range) % 2 ^ 64 := by
  obtain ⟨hrange, -⟩ := hp.geometry
  unfold place
  rw [minoff_add_mul hp hmul, UInt64.toNat_add, UInt64.toNat_mod, hrange, hreg]

/-- **Where the header goes.** -/
theorem headerExtent_eq :
    headerExtent cp
      = ⟨(cp.minoff.toNat + cp.seekoff.toNat % cp.range) % 2 ^ 64, cp.hdr⟩ := by
  obtain ⟨-, hheader⟩ := hp.geometry
  have hseek : (threadParams cp 0).seekoff = cp.seekoff := by rw [hp.threadParams_eq 0]
  have hlen : (threadParams cp 0).headersz.toUInt32.toNat = cp.hdr := by
    have := hp.hdr_le
    have := cp.blk_lt
    rw [toNat_toUInt32_of_lt (by omega), hheader]
  unfold headerExtent headerOffset
  dsimp only
  rw [toNat_place hp hmul hreg, hlen, hseek]

/-- **Where a block goes.** -/
theorem blockExtent_off (bno : UInt64) :
    (blockExtent cp bno).off = (cp.minoff.toNat + cp.pos bno.toNat) % 2 ^ 64 := by
  obtain ⟨-, hheader⟩ := hp.geometry
  have hseek : (threadParams cp 0).seekoff = cp.seekoff := by rw [hp.threadParams_eq 0]
  have hsize : (threadParams cp 0).size = cp.size := by rw [hp.threadParams_eq 0]
  have hskip : (threadParams cp 0).skip = cp.skip := by rw [hp.threadParams_eq 0]
  unfold blockExtent blockOffset
  dsimp only
  rw [toNat_place hp hmul hreg, hseek, hsize, hskip]
  congr 2
  unfold CmdParams.pos
  rw [UInt64.toNat_add, UInt64.toNat_add, UInt64.toNat_mul, UInt64.toNat_mul, hheader,
    hp.toNat_size]
  congr 1
  simp only [Nat.add_mod, Nat.mul_mod, Nat.mod_mod]

/-- **How long it is**: the whole size, unless the 64-bit sum of its offset and the size is past
the 64-bit end of the region. -/
theorem blockExtent_len (bno : UInt64) :
    (blockExtent cp bno).len =
      if (cp.minoff.toNat + cp.range) % 2 ^ 64
          < ((blockExtent cp bno).off + cp.blk) % 2 ^ 64 then
        (2 ^ 64 - (blockExtent cp bno).off + (cp.minoff.toNat + cp.range) % 2 ^ 64)
          % 2 ^ 64 % 2 ^ 32
      else cp.blk := by
  obtain ⟨hrange, -⟩ := hp.geometry
  have hlimit : ((threadParams cp 0).minoff +
      (blockRange (threadParams cp 0)).2.2 * u64OfI32 (threadParams cp 0).multiplier).toNat
        = (cp.minoff.toNat + cp.range) % 2 ^ 64 := by
    rw [minoff_add_mul hp hmul, UInt64.toNat_add, hrange, hreg]
  show (blockSize _ _ _ _).toNat = _
  rw [toNat_blockSize, hlimit, hp.toNat_size, hp.toNat_size32]
  rfl

/-- A region that does not run over the top of the 64-bit range gives every block its place. -/
theorem blockExtent_off_of_lt (hfit : cp.minoff.toNat + cp.range < 2 ^ 64) (bno : UInt64) :
    (blockExtent cp bno).off = cp.minoff.toNat + cp.pos bno.toNat := by
  have := hp.pos_lt bno.toNat
  rw [blockExtent_off hp hmul hreg, Nat.mod_eq_of_lt (by omega)]

/-- The block's length there. The sum of offset and size can still wrap, and then the block is
not cut. -/
theorem blockExtent_len_of_lt (hfit : cp.minoff.toNat + cp.range < 2 ^ 64) (bno : UInt64) :
    (blockExtent cp bno).len =
      if cp.range < cp.pos bno.toNat + cp.blk ∧
          cp.minoff.toNat + cp.pos bno.toNat + cp.blk < 2 ^ 64 then
        cp.range - cp.pos bno.toNat
      else cp.blk := by
  have hpos := hp.pos_lt bno.toNat
  have hblk := cp.blk_lt
  rw [blockExtent_len hp hmul hreg, blockExtent_off_of_lt hp hmul hreg hfit,
    Nat.mod_eq_of_lt hfit]
  by_cases hwrap : cp.minoff.toNat + cp.pos bno.toNat + cp.blk < 2 ^ 64
  · rw [Nat.mod_eq_of_lt hwrap]
    by_cases hcut : cp.range < cp.pos bno.toNat + cp.blk
    · rw [if_pos (by omega), if_pos ⟨hcut, hwrap⟩]
      omega
    · rw [if_neg (by omega), if_neg fun h => hcut h.1]
  · rw [if_neg (by omega), if_neg fun h => hwrap h.2]

/-- **Inside the region a block covers its own `size` bytes and no others**, cut or not.

A block that is cut is the one that reaches over the end, and what is cut off lies outside; so for
a byte of the region the cut makes no difference, and a round can be counted as if no block were
ever cut. -/
theorem holds_block (hfit : cp.minoff.toNat + cp.range < 2 ^ 64) (bno : UInt64) {x : ℕ}
    (hx : x < cp.minoff.toNat + cp.range) :
    (blockExtent cp bno).Holds x ↔
      cp.minoff.toNat + cp.pos bno.toNat ≤ x ∧
        x < cp.minoff.toNat + cp.pos bno.toNat + cp.blk := by
  unfold Extent.Holds
  rw [blockExtent_off_of_lt hp hmul hreg hfit, blockExtent_len_of_lt hp hmul hreg hfit]
  split <;> omega

/-- A block stays inside the region when the test that cuts it does not wrap. -/
theorem within_block (hfit : cp.minoff.toNat + cp.range < 2 ^ 64) (bno : UInt64)
    (hwrap : cp.minoff.toNat + cp.pos bno.toNat + cp.blk < 2 ^ 64) :
    (blockExtent cp bno).Within cp.minoff.toNat (cp.minoff.toNat + cp.range) := by
  have hpos := hp.pos_lt bno.toNat
  rw [Extent.within_iff, blockExtent_off_of_lt hp hmul hreg hfit,
    blockExtent_len_of_lt hp hmul hreg hfit]
  split <;> omega

end Place

end Iofill
end Blockbench
