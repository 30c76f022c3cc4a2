import Blockbench.Iofill.Region

/-!
# `Iofill/Cover.lean` — what a finished fill has written

`timesWritten_eq` reduces a finished quiet run, whatever its schedule, to a sum over the block
numbers below `totalio`. Here the sum is evaluated. The blocks of one round are cut at increasing
points, `minoff`, `minoff + header`, then every `size` bytes, so they tile the region
(`Extent.sum_covers_cuts`), and `nrep` rounds write it `nrep` times.

That needs `count` to be the number of blocks the region has: `fills_region`. The default `count`
has nothing to do with the region, and is the subject of `Iofill/DefaultCount.lean`.
-/

set_option autoImplicit false

namespace Blockbench
namespace Iofill

open CInt Finset TicketPool

variable {cp : CmdParams} {endtime : UInt64} {T : ℕ} {s : FillState T}

/-! ## One round -/

theorem weigh_blockWork (hp : cp.Ok) (hmul : cp.multiplier = 1)
    (hreg : cp.region = cp.range) (bno : UInt64) (x : ℕ) :
    weigh (Extent.covers x) (blockWork cp bno)
      = (if bno = 0 then (headerExtent cp).covers x else 0) + (blockExtent cp bno).covers x := by
  obtain ⟨-, hheader⟩ := hp.geometry
  unfold blockWork
  by_cases hb : bno = 0
  · rw [if_pos hb]
    by_cases hh : (threadParams cp 0).headersz = 0
    · have hempty : (headerExtent cp).covers x = 0 := by
        apply Extent.covers_eq_zero
        intro hx
        rw [headerExtent_eq hp hmul hreg, ← hheader, hh] at hx
        obtain ⟨h₁, h₂⟩ := hx
        simp only [UInt64.toNat_zero] at h₁ h₂
        omega
      rw [if_neg fun h => h.2 hh, hempty]
      simp
    · rw [if_pos ⟨hb, hh⟩]
      simp
  · rw [if_neg fun h => hb h.1, if_neg hb]
    simp

/-- With `seek` and `skip` at zero the blocks of a round are `size` apart, from the header on. -/
theorem pos_sequential (hseek : cp.seekoff = 0) (hskip : cp.skip = 0) (b : ℕ) :
    cp.pos b = (cp.hdr + cp.blk * b) % 2 ^ 64 % cp.range := by
  have hone : (u64OfI32 (1 + 0)).toNat = 1 := rfl
  unfold CmdParams.pos
  rw [hseek, hskip, hone, Nat.mul_one, UInt64.toNat_zero, Nat.zero_add]

theorem toNat_ofNat_of_lt (hp : cp.Ok) {b : ℕ} (hb : b < cp.nblks) :
    (UInt64.ofNat b).toNat = b := by
  have hfit := hp.nblks_mul_lt
  have hle : cp.nblks ≤ cp.nblks * cp.blk :=
    Nat.le_mul_of_pos_right _ (by have := hp.blk_ge; omega)
  rw [UInt64.toNat_ofNat', Nat.mod_eq_of_lt (by omega)]

theorem sum_ticketWork (f : UInt64 → ℕ) {n q : ℕ} (hn : cp.nio.toNat = n)
    (hlt : n * q < 2 ^ 64) :
    ∑ k ∈ range (n * q), f (UInt64.ofNat k % cp.nio)
      = q * ∑ b ∈ range n, f (UInt64.ofNat b) := by
  have hmod : ∀ k ∈ range (n * q), f (UInt64.ofNat k % cp.nio) = f (UInt64.ofNat (k % n)) := by
    intro k hk
    have hk' := mem_range.mp hk
    congr 1
    rw [← UInt64.toNat_inj, UInt64.toNat_mod, hn, UInt64.toNat_ofNat', UInt64.toNat_ofNat',
      Nat.mod_eq_of_lt (by omega : k < 2 ^ 64)]
    have := Nat.mod_le k n
    rw [Nat.mod_eq_of_lt (by omega : k % n < 2 ^ 64)]
  rw [sum_congr rfl hmod, sum_range_mod (fun b => f (UInt64.ofNat b)), nsmul_eq_mul,
    Nat.cast_id]

/-! ## `count` blocks -/

/-- Where a round is cut: block `b` runs from cut `b` to cut `b + 1`. -/
def CmdParams.cut (p : CmdParams) (b : ℕ) : ℕ :=
  p.minoff.toNat + min (p.hdr + p.blk * b) p.range

section Count

variable (hp : cp.Ok) (hmul : cp.multiplier = 1) (hseek : cp.seekoff = 0) (hskip : cp.skip = 0)
  (hreg : cp.region = cp.range)
  (hfit : cp.minoff.toNat + cp.range < 2 ^ 64) (hhdr : cp.hdr < cp.blk)
include hp hmul hseek hskip hreg hfit hhdr

omit hp hmul hreg in
theorem pos_of_lt {b : ℕ} (hb : b < cp.nblks) : cp.pos b = cp.hdr + cp.blk * b := by
  have hstep : cp.blk * (b + 1) ≤ cp.range := by
    unfold CmdParams.range
    rw [Nat.mul_comm cp.nblks]
    exact Nat.mul_le_mul_left _ hb
  have hexp : cp.blk * (b + 1) = cp.blk * b + cp.blk := Nat.mul_succ _ _
  rw [pos_sequential hseek hskip, Nat.mod_eq_of_lt (by omega : _ < 2 ^ 64),
    Nat.mod_eq_of_lt (by omega)]

theorem covers_block {b : ℕ} (hb : b < cp.nblks) {x : ℕ}
    (hx : x < cp.minoff.toNat + cp.range) :
    (blockExtent cp (UInt64.ofNat b)).covers x
      = (Extent.between (cp.cut b) (cp.cut (b + 1))).covers x := by
  have hpos := pos_of_lt hseek hskip hfit hhdr hb
  have hlt := hp.pos_lt b
  rw [Extent.covers_between]
  unfold Extent.covers CmdParams.cut
  rw [Nat.mul_succ]
  refine if_congr ?_ rfl rfl
  rw [holds_block hp hmul hreg hfit _ hx, toNat_ofNat_of_lt hp hb, hpos]
  omega

theorem round_covers {x : ℕ} (hlo : cp.minoff.toNat ≤ x)
    (hx : x < cp.minoff.toNat + cp.range) :
    ∑ b ∈ range cp.nblks, weigh (Extent.covers x) (blockWork cp (UInt64.ofNat b)) = 1 := by
  have hrange := hp.range_pos
  have hmono : ∀ b, cp.cut b ≤ cp.cut (b + 1) := fun b => by
    unfold CmdParams.cut
    rw [Nat.mul_succ]
    omega
  have hfirst : cp.cut 0 = cp.minoff.toNat + cp.hdr := by
    have := cp.blk_le_range
    unfold CmdParams.cut
    omega
  have hlast : cp.cut cp.nblks = cp.minoff.toNat + cp.range := by
    unfold CmdParams.cut CmdParams.range
    rw [Nat.mul_comm cp.blk, min_eq_right (Nat.le_add_left _ _)]
  have hzero : ∀ b ∈ range cp.nblks, UInt64.ofNat b = 0 → b = 0 := fun b hb h => by
    rw [← toNat_ofNat_of_lt hp (mem_range.mp hb), h]
    rfl
  have hblocks : ∀ b ∈ range cp.nblks,
      weigh (Extent.covers x) (blockWork cp (UInt64.ofNat b))
        = (if b = 0 then (headerExtent cp).covers x else 0)
          + (Extent.between (cp.cut b) (cp.cut (b + 1))).covers x := by
    intro b hb
    rw [weigh_blockWork hp hmul hreg,
      covers_block hp hmul hseek hskip hreg hfit hhdr (mem_range.mp hb) hx]
    congr 1
    refine if_congr ⟨hzero b hb, fun h => h ▸ rfl⟩ rfl rfl
  have hle' : cp.cut 0 ≤ cp.cut cp.nblks := by
    have := cp.blk_le_range
    omega
  have hheader : headerExtent cp = Extent.between cp.minoff.toNat (cp.cut 0) := by
    rw [headerExtent_eq hp hmul hreg, hseek, UInt64.toNat_zero, Nat.zero_mod, Nat.add_zero,
      Nat.mod_eq_of_lt cp.minoff.toNat_lt, hfirst]
    simp [Extent.between]
  rw [sum_congr rfl hblocks, sum_add_distrib, sum_ite_eq' (range cp.nblks) 0,
    if_pos (mem_range.mpr cp.nblks_pos), Extent.sum_covers_cuts hmono, hheader,
    Extent.covers_append (by omega) hle', hlast, Extent.covers_between, if_pos ⟨hlo, hx⟩]

omit hskip hfit in
/-- With room for one more block behind the region nothing else is written. -/
theorem round_outside (hroom : cp.minoff.toNat + (cp.nblks + 1) * cp.blk < 2 ^ 64) {x : ℕ}
    (hx : ¬ (cp.minoff.toNat ≤ x ∧ x < cp.minoff.toNat + cp.range)) :
    ∑ b ∈ range cp.nblks, weigh (Extent.covers x) (blockWork cp (UInt64.ofNat b)) = 0 := by
  have hroom' : cp.minoff.toNat + (cp.range + cp.blk) < 2 ^ 64 := by
    rwa [Nat.succ_mul] at hroom
  apply sum_eq_zero
  intro b hb
  have hpos := hp.pos_lt b
  have hblock := within_block hp hmul hreg (by omega) (UInt64.ofNat b)
    (by rw [toNat_ofNat_of_lt hp (mem_range.mp hb)]; omega)
  have hheader : (headerExtent cp).covers x = 0 := by
    refine Extent.covers_eq_zero fun h => hx ?_
    have := cp.blk_le_range
    rw [headerExtent_eq hp hmul hreg, hseek, UInt64.toNat_zero, Nat.zero_mod, Nat.add_zero,
      Nat.mod_eq_of_lt cp.minoff.toNat_lt] at h
    obtain ⟨h₁, h₂⟩ := h
    simp only at h₁ h₂
    omega
  rw [weigh_blockWork hp hmul hreg, hheader, Extent.covers_eq_zero fun h => hx (hblock x h)]
  simp

end Count

/-- **A fill of `count` blocks fills its region exactly.** With `count` at the number of blocks
`ithreadinit` finds in the region, every byte of it is written `nrep` times and no other byte is
written, whatever the header, the number of threads and their schedule.

The header is part of a round and pushes the blocks behind it back, so the last block of a round
reaches over the end and is cut by as much as the header is long. That is why the header may not
fill a block (`hhdr`): the last block would then be pushed out altogether and come round to the
front. `hroom` leaves one block of room behind the region, since the comparison that cuts the last
block is made of its end before the cut. -/
theorem fills_region (hp : cp.Ok) (hmul : cp.multiplier = 1) (hseek : cp.seekoff = 0)
    (hskip : cp.skip = 0) (hle : cp.minoff.toNat / cp.blk ≤ cp.maxoff.toNat / cp.blk)
    (hcount : cp.nio.toNat * cp.blk = (ithreadinit cp 0).rangeoff.toNat)
    (hsum : cp.nio.toNat * cp.nrep.toNat + T < 2 ^ 64)
    (hroom : cp.minoff.toNat + (cp.nio.toNat + 1) * cp.blk < 2 ^ 64)
    (hhdr : (ithreadinit cp 0).params.headersz.toNat ≠ cp.blk) (hT : 1 ≤ T)
    (hr : (fill cp endtime T).Reachable (quiet endtime) s) (hfin : s.Finished) (x : ℕ) :
    timesWritten s x =
      if cp.minoff.toNat ≤ x ∧ x < cp.minoff.toNat + cp.nio.toNat * cp.blk then cp.nrep.toNat
      else 0 := by
  obtain ⟨hrange, hheader⟩ := hp.geometry
  have hblk := hp.blk_ge
  have hreg := region_eq_range_of_le hle
  have hcount' : cp.nio.toNat * cp.blk = cp.nblks * cp.blk := hcount.trans (hrange.trans hreg)
  have hn : cp.nio.toNat = cp.nblks := Nat.eq_of_mul_eq_mul_right (by omega) hcount'
  have hlt : cp.hdr < cp.blk := by
    have hle' := hp.hdr_le
    have hne : cp.hdr ≠ cp.blk := hheader ▸ hhdr
    omega
  have htotal : total cp = cp.nblks * cp.nrep.toNat := by
    rw [← hn]
    exact toNat_mul_of_lt (by omega)
  rw [hn] at hroom hsum ⊢
  rw [timesWritten_eq hp (by omega) hT hr hfin, htotal]
  refine (sum_ticketWork (fun b => weigh (Extent.covers x) (blockWork cp b)) hn
    (by omega)).trans ?_
  have hfit : cp.minoff.toNat + cp.range < 2 ^ 64 := by
    rw [Nat.succ_mul] at hroom
    unfold CmdParams.range
    omega
  by_cases hx : cp.minoff.toNat ≤ x ∧ x < cp.minoff.toNat + cp.range
  · rw [round_covers hp hmul hseek hskip hreg hfit hlt hx.1 hx.2, Nat.mul_one]
    exact (if_pos hx).symm
  · rw [round_outside hp hmul hseek hreg hlt hroom hx, Nat.mul_zero]
    exact (if_neg hx).symm

theorem fills_region_small : ∃ s, (fill smallFill 5 2).Reachable (quiet 5) s ∧ s.Finished ∧
    timesWritten s 4095 = 3 ∧ timesWritten s 4096 = 0 := by
  obtain ⟨as, s, hrun, hfin⟩ := (quiet_ends 5 smallFill_ok (by decide)).2 _
    (Machine.Reachable.start (M := fill smallFill 5 2))
  have hall := fills_region smallFill_ok rfl rfl rfl (by decide) (by decide) (by decide)
    (by decide) (by decide) (by decide) ⟨as, hrun⟩ hfin
  exact ⟨s, ⟨as, hrun⟩, hfin, hall 4095, hall 4096⟩

end Iofill
end Blockbench
