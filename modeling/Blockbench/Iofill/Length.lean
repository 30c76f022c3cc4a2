import Blockbench.Iofill.Aligned

/-!
# `Iofill/Length.lean` — how long the requests are

The buffers of a thread hold `size` bytes. A request is given a block's `size` bytes, or what
is left to the end of the region when that comes first — and both ends of that subtraction are
64-bit sums that can wrap. `multiplier` stretches the region, and the default `maxoff` of `2^62`
with a multiplier of 4 is enough to make its end wrap to `minoff`: every block then lies past
the end, and what is "left" is nearly `2^64`, of which the request keeps the low 32 bits.

`LengthFits` says which blocks this happens to, in plain arithmetic. It looks at the distance
from the block to the end of the stretched region. `lengths_fit_iff` is the exact condition.
-/

set_option autoImplicit false

namespace Blockbench
namespace Iofill

open CInt TicketPool

/-- How far into the region block `bno` is placed, before `multiplier`. -/
def CmdParams.slot (p : CmdParams) (bno : ℕ) : ℕ :=
  (p.seekoff.toNat + p.hdr + p.blk * (u64OfI32 (1 + p.skip)).toNat * bno) % 2 ^ 64 % p.region

/-- `multiplier`, as the 64-bit factor it is extended to. -/
def CmdParams.factor (p : CmdParams) : ℕ := (u64OfI32 p.multiplier).toNat

/-- The distance from block `bno` to the region's end does not run over the top of the 64-bit
range; or the block's own `size` bytes do, and then it is not cut; or the low half of the
distance happens to be small. -/
def LengthFits (p : CmdParams) (bno : ℕ) : Prop :=
  let start := (p.minoff.toNat + p.slot bno * p.factor) % 2 ^ 64
  let rest := (p.region - p.slot bno) * p.factor
  start + rest % 2 ^ 64 < 2 ^ 64 ∨ 2 ^ 64 ≤ start + p.blk ∨ rest % 2 ^ 32 ≤ p.blk

instance (p : CmdParams) (bno : ℕ) : Decidable (LengthFits p bno) :=
  inferInstanceAs (Decidable (_ ∨ _ ∨ _))

section Place

variable {cp : CmdParams} (hp : cp.Ok)
include hp

theorem CmdParams.Ok.slot_lt (bno : ℕ) : cp.slot bno < cp.region :=
  Nat.mod_lt _ hp.region_pos

/-- Where block `bno` is written, whatever the region and the multiplier. -/
theorem blockExtent_start (bno : UInt64) :
    (blockExtent cp bno).off
      = (cp.minoff.toNat + cp.slot bno.toNat * cp.factor) % 2 ^ 64 := by
  obtain ⟨hrange, hheader⟩ := hp.geometry
  have hparams := hp.threadParams_eq 0
  have hseek : (threadParams cp 0).seekoff = cp.seekoff := by rw [hparams]
  have hsize : (threadParams cp 0).size = cp.size := by rw [hparams]
  have hskip : (threadParams cp 0).skip = cp.skip := by rw [hparams]
  have hmin : (threadParams cp 0).minoff = cp.minoff := by rw [hparams]
  have hmult : (threadParams cp 0).multiplier = cp.multiplier := by rw [hparams]
  have hslot : ((cp.seekoff + (threadParams cp 0).headersz
      + u64OfI32 cp.size * u64OfI32 (1 + cp.skip) * bno)
        % (blockRange (threadParams cp 0)).2.2).toNat = cp.slot bno.toNat := by
    unfold CmdParams.slot
    rw [UInt64.toNat_mod, hrange, UInt64.toNat_add, UInt64.toNat_add, UInt64.toNat_mul,
      UInt64.toNat_mul, hheader, hp.toNat_size]
    congr 1
    simp only [Nat.add_mod, Nat.mul_mod, Nat.mod_mod]
  unfold blockExtent blockOffset place
  dsimp only
  rw [hseek, hsize, hskip, hmin, hmult, UInt64.toNat_add, UInt64.toNat_mul, hslot,
    Nat.add_mod_mod]
  rfl

/-- The region's end, reduced to 64 bits, is the block's start plus the distance between them. -/
theorem region_end_eq (bno : ℕ) :
    (cp.minoff.toNat + cp.region * cp.factor) % 2 ^ 64
      = ((cp.minoff.toNat + cp.slot bno * cp.factor) % 2 ^ 64
        + (cp.region - cp.slot bno) * cp.factor % 2 ^ 64) % 2 ^ 64 := by
  have hlt := hp.slot_lt bno
  have hsplit : cp.region * cp.factor
      = cp.slot bno * cp.factor + (cp.region - cp.slot bno) * cp.factor := by
    rw [← Nat.add_mul, Nat.add_sub_cancel' hlt.le]
  rw [← Nat.add_mod, hsplit, Nat.add_assoc]

/-- Every block fits where the stretched region ends below `2 ^ 64`: a block's start and its
distance to the end are then what they are without the reductions, and add up to the end. -/
theorem lengthFits_of_lt (hend : cp.minoff.toNat + cp.region * cp.factor < 2 ^ 64) (bno : ℕ) :
    LengthFits cp bno := by
  have hlt := hp.slot_lt bno
  have hsplit : cp.slot bno * cp.factor + (cp.region - cp.slot bno) * cp.factor
      = cp.region * cp.factor := by
    rw [← Nat.add_mul, Nat.add_sub_cancel' hlt.le]
  refine .inl ?_
  rw [Nat.mod_eq_of_lt (show _ < 2 ^ 64 by omega), Nat.mod_eq_of_lt (show _ < 2 ^ 64 by omega)]
  omega

/-- **Which blocks are no longer than `size`.** -/
theorem blockExtent_len_le_iff (bno : UInt64) :
    (blockExtent cp bno).len ≤ cp.blk ↔ LengthFits cp bno.toNat := by
  obtain ⟨hrange, -⟩ := hp.geometry
  have hparams := hp.threadParams_eq 0
  have hmin : (threadParams cp 0).minoff = cp.minoff := by rw [hparams]
  have hmult : (threadParams cp 0).multiplier = cp.multiplier := by rw [hparams]
  have hend : ((threadParams cp 0).minoff
      + (blockRange (threadParams cp 0)).2.2 * u64OfI32 (threadParams cp 0).multiplier).toNat
        = (cp.minoff.toNat + cp.region * cp.factor) % 2 ^ 64 := by
    rw [hmin, hmult, UInt64.toNat_add, UInt64.toNat_mul, hrange, Nat.add_mod_mod]
    rfl
  have hlen : (blockExtent cp bno).len
      = (blockSize (threadParams cp 0) (blockRange (threadParams cp 0)).2.2
          (blockOffset (threadParams cp 0) (blockRange (threadParams cp 0)).2.2 bno)
          cp.size).toNat := rfl
  have hoff : (blockOffset (threadParams cp 0) (blockRange (threadParams cp 0)).2.2 bno).toNat
      = (cp.minoff.toNat + cp.slot bno.toNat * cp.factor) % 2 ^ 64 := blockExtent_start hp bno
  have hblk := cp.blk_lt
  have hlow : (cp.region - cp.slot bno.toNat) * cp.factor % 2 ^ 64 % 2 ^ 32
      = (cp.region - cp.slot bno.toNat) * cp.factor % 2 ^ 32 :=
    Nat.mod_mod_of_dvd _ (by norm_num)
  rw [hlen, toNat_blockSize, hend, hoff, hp.toNat_size, hp.toNat_size32,
    region_end_eq hp bno.toNat]
  unfold LengthFits
  dsimp only
  rw [← hlow]
  have hstart : (cp.minoff.toNat + cp.slot bno.toNat * cp.factor) % 2 ^ 64 < 2 ^ 64 :=
    Nat.mod_lt _ (by norm_num)
  have hrest : (cp.region - cp.slot bno.toNat) * cp.factor % 2 ^ 64 < 2 ^ 64 :=
    Nat.mod_lt _ (by norm_num)
  generalize (cp.minoff.toNat + cp.slot bno.toNat * cp.factor) % 2 ^ 64 = start at hstart ⊢
  generalize (cp.region - cp.slot bno.toNat) * cp.factor % 2 ^ 64 = rest at hrest ⊢
  by_cases hover : start + rest < 2 ^ 64
  · -- the region ends behind the block, and the cut leaves less than `size`
    rw [Nat.mod_eq_of_lt hover]
    refine iff_of_true ?_ (.inl hover)
    split <;> omega
  · have hend : (start + rest) % 2 ^ 64 = start + rest - 2 ^ 64 := by omega
    rw [hend]
    by_cases hwrap : 2 ^ 64 ≤ start + cp.blk
    · refine iff_of_true ?_ (.inr (.inl hwrap))
      split <;> omega
    · -- the region's end has wrapped below the block
      rw [if_pos (by omega)]
      have hcut : (2 ^ 64 - start + (start + rest - 2 ^ 64)) % 2 ^ 64 = rest := by omega
      rw [hcut]
      omega

theorem headerExtent_len_le : (headerExtent cp).len ≤ cp.blk := by
  obtain ⟨-, hheader⟩ := hp.geometry
  have hle := hp.hdr_le
  have hblk := cp.blk_lt
  show (threadParams cp 0).headersz.toUInt32.toNat ≤ _
  rw [toNat_toUInt32_of_lt (by omega), hheader]
  exact hle

end Place

variable {cp : CmdParams} {endtime : UInt64} {T : ℕ}

/-- **When no request is longer than the buffers.** In every run every request asks for at most
`size` bytes exactly when the length of each block that comes up fits.

The header is never the one that is too long: `ithreadinit` takes it modulo the size. The
condition looks worse than what it excludes. Where the stretched region ends below `2 ^ 64` it
holds of every block (`lengthFits_of_lt`), and it takes a `multiplier` or a `minoff` near the top
of the range to have it fail. -/
theorem lengths_fit_iff (hp : cp.Ok) (hT : 0 < T) :
    (∀ s, (fill cp endtime T).Reachable Machine.always s → ∀ d ∈ s.issued,
      d.2.size.toNat ≤ cp.size.toInt.toNat) ↔
    ∀ b < min (total cp) cp.nio.toNat, LengthFits cp b := by
  have htop : total cp < 2 ^ 64 := (fthreadinit cp).totalio.toNat_lt
  have hblocks : (∀ k < total cp, (blockExtent cp (UInt64.ofNat k % cp.nio)).len ≤ cp.blk) ↔
      ∀ b < min (total cp) cp.nio.toNat, LengthFits cp b := by
    rw [ticket_iff fun b => (blockExtent cp b).len ≤ cp.blk]
    apply forall₂_congr
    intro b hb
    have := (lt_min_iff.mp hb).1
    rw [blockExtent_len_le_iff hp, UInt64.toNat_ofNat', Nat.mod_eq_of_lt (by omega)]
  refine (all_requests_iff hp hT fun e => e.len ≤ cp.blk).trans (Iff.trans ?_ hblocks)
  constructor
  · intro h k hk
    exact h k hk _ (mem_blockWork.mpr (.inl rfl))
  · intro h k hk e he
    rcases mem_blockWork.mp he with rfl | ⟨rfl, -, -⟩
    · exact h k hk
    · exact headerExtent_len_le hp

theorem lengths_fit_small : smallFill.Ok ∧
    ∀ s, (fill smallFill 5 2).Reachable Machine.always s → ∀ d ∈ s.issued,
      d.2.size.toNat ≤ 2048 :=
  ⟨smallFill_ok, (lengths_fit_iff smallFill_ok (by decide)).mpr
    fun b _ => lengthFits_of_lt smallFill_ok (by decide) b⟩

/-- Four times `2 ^ 62` is zero, so the region ends where it starts: the first block is asked to
write four gigabytes less a page from a buffer of one megabyte. -/
theorem length_overflows : ¬ ∀ (args : List CmdOpt) (c : Config) (endtime : UInt64) (T : ℕ),
    getopt args = some c → 1 ≤ c.cp.multiplier.toInt → 0 < T →
    ∀ s, (fill c.cp endtime T).Reachable Machine.always s → ∀ d ∈ s.issued,
      d.2.size.toNat ≤ c.cp.size.toInt.toNat := by
  intro h
  have hargs : getopt [.m [.multiplier (some 4)]]
      = some ⟨{ defparams with multiplier := 4 }, (4096 : UInt64) <<< 20⟩ := rfl
  have hok := ok_of_getopt hargs
  obtain ⟨s, hr, d, hd, hext⟩ := issued_of_ticket (T := 1) 5 hok Nat.one_pos (k := 0) (by decide)
    (mem_blockWork.mpr (.inl rfl))
  have hle := h _ _ 5 1 hargs (by decide) Nat.one_pos s hr d hd
  have hlen : (extent d.2).len ≤ ({ defparams with multiplier := 4 } : CmdParams).blk := hle
  rw [hext, blockExtent_len_le_iff hok] at hlen
  exact absurd hlen (by decide)

end Iofill
end Blockbench
