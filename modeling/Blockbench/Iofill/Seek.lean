import Blockbench.Lib.Lap
import Blockbench.Iofill.Pass

/-!
# `Iofill/Seek.lean` — a pass with `seek`

With `seek` a pass of as many blocks as the region has starts in the middle of it and goes round:
a lap in the sense of `Lib/Lap.lean`. The block across the region's end is cut, and what is cut
off is not written at the start instead. So a seek that is not a whole number of blocks behind
the header leaves a hole there, unless the header happens to lie over it.

`SeekFits` is the condition for every combination of options, those included whose offsets wrap
in 64 bits or whose region ends at the very top, where a block's length is stored in 32 bits.
-/

set_option autoImplicit false

namespace Blockbench
namespace Iofill

open CInt

/-- `seek` plus the header, in 64 bits: where block 0 starts before it is taken round the
region. -/
def CmdParams.begins (p : CmdParams) : ℕ := (p.seekoff.toNat + p.hdr) % 2 ^ 64

/-- When a pass leaves no hole.

The first byte of the region is written: by a header that lies there, by a block of a pass that
starts a whole number of blocks in, or by the block that starts where the 64-bit range wraps. A
pass that wraps there goes on near the start of the region; the header has to make up for the
distance that this skips. -/
structure SeekFits (p : CmdParams) : Prop where
  inside : p.minoff.toNat + p.region ≤ 2 ^ 64
  first : (0 < p.hdr ∧ p.seekoff.toNat % p.region = 0) ∨
    (p.blk ∣ p.begins ∧
      p.begins + (p.region - p.begins % p.region) % p.region < 2 ^ 64) ∨
    (p.blk ∣ 2 ^ 64 - p.begins ∧ 2 ^ 64 + p.blk ≤ p.begins + p.region)
  below : p.minoff.toNat + p.region < 2 ^ 64 →
    p.begins + p.region < 2 ^ 64 + p.blk ∨ 2 ^ 64 % p.region ≤ p.hdr ∨
      (p.hdr = p.blk ∧ p.begins + p.region < 2 ^ 64 + 2 * p.blk)
  top : p.minoff.toNat + p.region = 2 ^ 64 →
    p.region < 2 ^ 32 ∨ (p.region < 2 * 2 ^ 32 ∧
      p.seekoff.toNat % p.region + 2 ^ 32 ≤ p.region ∧
      p.region + (if 2 ^ 64 ≤ p.seekoff.toNat + p.hdr then 2 ^ 64 % p.blk else 0)
        < p.seekoff.toNat % p.region + p.hdr + 2 ^ 32)

variable {cp : CmdParams}

def lap (hp : cp.Ok) : Lap where
  M := 2 ^ 64
  n := cp.nblks
  S := cp.blk
  head := cp.hdr
  seek := cp.seekoff.toNat
  n_pos := cp.nblks_pos
  S_pos := by have := hp.blk_ge; omega
  head_le := hp.hdr_le
  seek_lt := cp.seekoff.toNat_lt
  fits := hp.nblks_mul_lt

theorem pos_eq_place (hp : cp.Ok) (hskip : cp.skip = 0) (b : ℕ) :
    cp.pos b = (lap hp).place b := by
  have hone : (u64OfI32 (1 + 0)).toNat = 1 := rfl
  unfold CmdParams.pos Lap.place Lap.start
  rw [hskip, hone, Nat.mul_one, Nat.mod_add_mod]
  rfl

section Region

variable (hp : cp.Ok) (hmul : cp.multiplier = 1) (hskip : cp.skip = 0)
  (hreg : cp.region = cp.range)
include hp hmul hreg

theorem holds_header (hle : cp.minoff.toNat + cp.range ≤ 2 ^ 64) (y : ℕ) :
    (headerExtent cp).Holds (cp.minoff.toNat + y) ↔
      (lap hp).headerAt ≤ y ∧ y < (lap hp).headerAt + (lap hp).head := by
  have hat := Nat.mod_lt cp.seekoff.toNat hp.range_pos
  rw [headerExtent_eq hp hmul hreg, Nat.mod_eq_of_lt (by omega : _ < 2 ^ 64)]
  show cp.minoff.toNat + cp.seekoff.toNat % cp.range ≤ _ ∧
    _ < cp.minoff.toNat + cp.seekoff.toNat % cp.range + cp.hdr ↔
      cp.seekoff.toNat % cp.range ≤ y ∧ y < cp.seekoff.toNat % cp.range + cp.hdr
  omega

/-- In a region at the top a block is as long as the way to its end, in 32 bits. -/
theorem holds_block_top (htop : cp.minoff.toNat + cp.range = 2 ^ 64) (bno : UInt64) (y : ℕ) :
    (blockExtent cp bno).Holds (cp.minoff.toNat + y) ↔
      cp.pos bno.toNat ≤ y ∧
        y < cp.pos bno.toNat + (cp.range - cp.pos bno.toNat) % 2 ^ 32 := by
  have hpos := hp.pos_lt bno.toNat
  have hblk := cp.blk_lt
  have hlt := hp.nblks_mul_lt
  have hrange : cp.range < 2 ^ 64 := hlt
  have hoff : (blockExtent cp bno).off = cp.minoff.toNat + cp.pos bno.toNat := by
    rw [blockExtent_off hp hmul hreg, Nat.mod_eq_of_lt (by omega)]
  have hlen : (blockExtent cp bno).len = (cp.range - cp.pos bno.toNat) % 2 ^ 32 := by
    rw [blockExtent_len hp hmul hreg, hoff, htop, Nat.mod_self, Nat.add_zero]
    rcases Nat.lt_trichotomy (cp.minoff.toNat + cp.pos bno.toNat + cp.blk) (2 ^ 64) with
      h | h | h
    · rw [Nat.mod_eq_of_lt h, if_pos (by have := hp.blk_ge; omega),
        Nat.mod_eq_of_lt (by omega : _ < 2 ^ 64)]
      congr 1
      omega
    · -- the block ends with the region and is not cut
      rw [h, Nat.mod_self, if_neg (Nat.lt_irrefl 0), Nat.mod_eq_of_lt (by omega)]
      omega
    · rw [Nat.mod_eq_sub_mod h.le, Nat.mod_eq_of_lt (by omega : _ - 2 ^ 64 < 2 ^ 64),
        if_pos (by omega), Nat.mod_eq_of_lt (by omega : 2 ^ 64 - _ < 2 ^ 64)]
      congr 1
      omega
  unfold Extent.Holds
  rw [hoff, hlen]
  omega

include hskip

theorem covered_iff_reached (hfit : cp.minoff.toNat + cp.range < 2 ^ 64) {y : ℕ}
    (hy : y < cp.range) :
    Covered cp cp.nblks (cp.minoff.toNat + y) ↔ (lap hp).Reached y := by
  rw [covered_iff hp cp.nblks_pos, holds_header hp hmul hreg hfit.le]
  refine or_congr ⟨fun h => h.2, fun h => ⟨?_, h⟩⟩ ?_
  · have hhead : (lap hp).head = cp.hdr := rfl
    omega
  · refine exists_congr fun b => and_congr_right fun hb => ?_
    rw [holds_block hp hmul hreg hfit _ (by omega), toNat_ofNat_of_lt hp hb,
      pos_eq_place hp hskip]
    show _ ↔ (lap hp).place b ≤ y ∧ y < (lap hp).place b + cp.blk
    omega

theorem covered_iff_reachedTop (htop : cp.minoff.toNat + cp.range = 2 ^ 64) (y : ℕ) :
    Covered cp cp.nblks (cp.minoff.toNat + y) ↔ (lap hp).ReachedTop (2 ^ 32) y := by
  rw [covered_iff hp cp.nblks_pos, holds_header hp hmul hreg htop.le]
  refine or_congr ⟨fun h => h.2, fun h => ⟨?_, h⟩⟩ ?_
  · have hhead : (lap hp).head = cp.hdr := rfl
    omega
  · refine exists_congr fun b => and_congr_right fun hb => ?_
    rw [holds_block_top hp hmul hreg htop, toNat_ofNat_of_lt hp hb, pos_eq_place hp hskip]
    rfl

theorem covered_region_iff (hle : cp.minoff.toNat + cp.region ≤ 2 ^ 64) :
    (∀ y < cp.range, Covered cp cp.nblks (cp.minoff.toNat + y)) ↔ SeekFits cp := by
  have hhead : (lap hp).headerAt = cp.seekoff.toNat % cp.region := by rw [hreg]; rfl
  have hlen : (lap hp).len = cp.region := hreg.symm
  rcases Nat.lt_or_ge (cp.minoff.toNat + cp.region) (2 ^ 64) with hfit | hge
  · have hlap := (lap hp).reached_iff
    unfold Lap.FirstByte at hlap
    rw [hlen, hhead] at hlap
    have hall : (∀ y < cp.range, Covered cp cp.nblks (cp.minoff.toNat + y)) ↔
        ∀ y < cp.region, (lap hp).Reached y := by
      rw [hreg]
      exact forall₂_congr fun y hy => covered_iff_reached hp hmul hskip hreg (by omega) hy
    rw [hall, hlap]
    exact ⟨fun h => ⟨hle, h.1, fun _ => h.2, fun h' => absurd h' (by omega)⟩,
      fun h => ⟨h.first, h.below hfit⟩⟩
  · have hblk := cp.blk_lt
    have hlap := (lap hp).reachedTop_iff (W := 2 ^ 32) (by show cp.blk < _; omega)
    unfold Lap.FirstByte at hlap
    rw [hlen, hhead] at hlap
    have hall : (∀ y < cp.range, Covered cp cp.nblks (cp.minoff.toNat + y)) ↔
        ∀ y < cp.region, (lap hp).ReachedTop (2 ^ 32) y := by
      rw [hreg]
      exact forall₂_congr fun y _ => covered_iff_reachedTop hp hmul hskip hreg (by omega) y
    rw [hall, hlap]
    exact ⟨fun h => ⟨hle, h.1, fun h' => absurd h' (by omega), fun _ => h.2⟩,
      fun h => ⟨h.first, h.top (by omega)⟩⟩

end Region

/-- As many blocks as the region has are no more than a thread can number. -/
theorem count_eq (hp : cp.Ok)
    (hcount : cp.nio = (ithreadinit cp 0).rangeoff / u64OfI32 cp.size) :
    cp.nio.toNat = cp.region / cp.blk ∧ cp.region / cp.blk < 2 ^ 63 := by
  have hblk := hp.blk_ge
  have hrange : (ithreadinit cp 0).rangeoff.toNat = cp.region := hp.geometry.1
  have hregion : cp.region < 2 ^ 64 := hrange ▸ (ithreadinit cp 0).rangeoff.toNat_lt
  refine ⟨?_, (Nat.div_lt_iff_lt_mul (by omega)).mpr (by omega)⟩
  rw [hcount, UInt64.toNat_div, hp.toNat_size, hrange]

theorem passCovers_seek_iff (hp : cp.Ok) (hmul : cp.multiplier = 1) (hskip : cp.skip = 0) :
    PassCovers cp (cp.region / cp.blk) ↔ SeekFits cp := by
  rcases Nat.lt_or_ge (2 ^ 64) (cp.minoff.toNat + cp.region) with hover | hle
  · -- the last byte of the region is past the 64-bit range
    have hpos := hp.region_pos
    refine ⟨fun h => ?_, fun h => absurd h.inside (by omega)⟩
    have := (h (cp.minoff.toNat + cp.region - 1) (by omega) (by omega)).1
    omega
  · have hblk := hp.blk_ge
    have hreg := region_eq_range_of_le_top hp hle
    have hnblks : cp.region / cp.blk = cp.nblks := by
      rw [hreg]
      exact Nat.mul_div_cancel _ (by omega)
    rw [passCovers_iff_of_le hle, hnblks, ← covered_region_iff hp hmul hskip hreg hle, hreg]

/-- **A seek leaves no hole** exactly when `SeekFits`: among the requests of one pass, and so in
the runs that make it.

The first part is about the requests of the numbers below `count`, and asks for no thread. The
second is about the runs that issue them, for `nrep` at one: those that meet no failure and no
deadline end, and when they have ended every byte of the region has been written. A byte past the
64-bit range cannot be, so a region that reaches over the top is never filled. -/
theorem seek_fills_iff (hp : cp.Ok) (hmul : cp.multiplier = 1) (hskip : cp.skip = 0)
    (hcount : cp.nio = (ithreadinit cp 0).rangeoff / u64OfI32 cp.size) :
    (PassCovers cp cp.nio.toNat ↔ SeekFits cp) ∧
    ∀ endtime, cp.nrep = 1 → 0 < cp.threads →
      (PassFills cp endtime cp.threads ↔ SeekFits cp) := by
  obtain ⟨hn, hfew⟩ := count_eq hp hcount
  have hthreads := cp.threads_lt
  have hcovers := passCovers_seek_iff hp hmul hskip
  refine ⟨hn ▸ hcovers, fun endtime hrep hT => ?_⟩
  rw [passFills_iff hp hn hrep (by omega) hT, hcovers]

/-- Two blocks, from the second one on. -/
def secondFirst : CmdParams :=
  { defparams with size := 2048, maxoff := 4096, headersz := 0, nio := 2, seekoff := 2048 }

theorem secondFirst_ok : secondFirst.Ok := by
  constructor <;> first | rfl | decide

theorem seek_fills_second :
    PassCovers secondFirst 2 ∧ PassFills secondFirst 5 secondFirst.threads :=
  have hfits : SeekFits secondFirst := ⟨by decide, by decide, by decide, by decide⟩
  have hiff := seek_fills_iff secondFirst_ok rfl rfl (by decide)
  ⟨hiff.1.mpr hfits, (hiff.2 5 rfl (by decide)).mpr hfits⟩

/-- Two blocks, from the middle of the first one on. -/
def halfBlock : CmdParams :=
  { defparams with size := 2048, maxoff := 4096, headersz := 0, nio := 2, seekoff := 1024 }

theorem halfBlock_ok : halfBlock.Ok := by
  constructor <;> first | rfl | decide

/-- The pass writes from byte 1024 on and loses the last half of its second block. -/
theorem seek_leaves_hole : ¬ ∀ (cp : CmdParams) (endtime : UInt64), cp.Ok →
    cp.multiplier = 1 → cp.skip = 0 →
    cp.nio = (ithreadinit cp 0).rangeoff / u64OfI32 cp.size → cp.nrep = 1 → 0 < cp.threads →
    PassFills cp endtime cp.threads := by
  intro h
  have hfills := h halfBlock 5 halfBlock_ok rfl rfl (by decide) rfl (by decide)
  have hcovered := ((passFills_iff halfBlock_ok (n := 2) (by decide) rfl (by decide)
    (by decide)).mp hfills 0 (by decide) (by decide)).2
  have hreached := (covered_iff_reached halfBlock_ok rfl rfl (by decide) (by decide) (y := 0)
    (by decide)).mp hcovered
  have hfirst := Lap.firstByte_of_reached hreached
  revert hfirst
  unfold Lap.FirstByte
  decide

end Iofill
end Blockbench
