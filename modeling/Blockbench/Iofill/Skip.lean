import Blockbench.Lib.Stride
import Blockbench.Iofill.Pass

/-!
# `Iofill/Skip.lean` — a pass with `skip`

With `skip` the blocks of a pass are `1 + skip` slots apart, round and round the region: a walk
in the sense of `Lib/Stride.lean`. From `seek` 0 it comes to the slots whose number is a multiple
of `gcd (1 + skip) n` (`starts_of_walk`), so it fills the region when that is 1
(`visits_of_starts`).

`io_thread` computes `(uint64_t)(1 + skip)`, the sum in `int`. At the largest `skip` the sum
wraps to `-2 ^ 31`, and then the walk goes backwards, in steps of `2 ^ 31`, from the top of the
64-bit range. It is a walk round the region only when the region divides that range
(`dvd_of_starts`).
-/

set_option autoImplicit false

namespace Blockbench
namespace Iofill

open CInt Finset Stride

/-- `1 + skip`, as a number. -/
def CmdParams.stride (p : CmdParams) : ℕ := 1 + p.skip.toInt.toNat

/-- Where the block writes of a pass of `n` start: at the slots whose number is a multiple of
`gcd (1 + skip) n`, and at each of them that many times. -/
structure SkipStarts (cp : CmdParams) (n : ℕ) : Prop where
  only : ∀ b < n, ∃ j < n, Nat.gcd cp.stride n ∣ j ∧
    (blockExtent cp (UInt64.ofNat b)).off = cp.minoff.toNat + (cp.hdr + cp.blk * j)
  each : ∀ j < n, Nat.gcd cp.stride n ∣ j →
    ((range n).filter fun b =>
      (blockExtent cp (UInt64.ofNat b)).off = cp.minoff.toNat + (cp.hdr + cp.blk * j)).card
        = Nat.gcd cp.stride n

/-- `SkipStarts`, and what it means for the pass: it fills the region exactly when `1 + skip` and
`n` are coprime. -/
structure SkipVisits (cp : CmdParams) (n : ℕ) : Prop extends SkipStarts cp n where
  covers : PassCovers cp n ↔ Nat.Coprime cp.stride n
  fills : ∀ endtime : UInt64, 0 < cp.threads → cp.nio.toNat = n → cp.nrep = 1 →
    (PassFills cp endtime cp.threads ↔ Nat.Coprime cp.stride n)

theorem toNat_factor {cp : CmdParams} (hskip : 0 ≤ cp.skip.toInt) :
    (u64OfI32 (1 + cp.skip)).toNat
      = if cp.skip = 2147483647 then 2 ^ 64 - 2 ^ 31 else cp.stride := by
  split
  · next hmax =>
    rw [hmax]
    decide
  · next hmax =>
    have hlt := Int32.toInt_lt cp.skip
    have hne : cp.skip.toInt ≠ 2147483647 := fun h => hmax (Int32.toInt_inj.mp h)
    have hone : (1 : Int32).toInt = 1 := rfl
    have hsum : (1 + cp.skip).toInt = 1 + cp.skip.toInt := by
      rw [Int32.toInt_add, hone, Int.bmod_eq_of_le (by omega) (by omega)]
    rw [toNat_u64OfI32 (by omega), hsum]
    unfold CmdParams.stride
    omega

section Skip

variable {cp : CmdParams} {n : ℕ}
  (hp : cp.Ok) (hmul : cp.multiplier = 1) (hseek : cp.seekoff = 0) (hskip : 0 ≤ cp.skip.toInt)
  (hn : 1 ≤ n) (hreg : cp.region = cp.range) (hrange : cp.range = n * cp.blk)
  (hhdr : cp.hdr < cp.blk) (hwalk : cp.hdr + cp.blk * cp.stride * n < 2 ^ 64)
  (hroom : cp.minoff.toNat + (n + 1) * cp.blk < 2 ^ 64)

include hroom hrange in
theorem fit_of_room : cp.minoff.toNat + cp.range < 2 ^ 64 := by
  rw [Nat.succ_mul] at hroom
  omega

include hp hroom in
theorem count_lt_of_room : n < 2 ^ 55 := by
  have hblk := hp.blk_ge
  have hmono := Nat.mul_le_mul_left (n + 1) hblk
  omega

include hp hmul hreg hrange hroom in
theorem start_eq {b : ℕ} (hb : b < n) :
    (blockExtent cp (UInt64.ofNat b)).off = cp.minoff.toNat + cp.pos b := by
  have hlt := count_lt_of_room hp hroom
  rw [blockExtent_off_of_lt hp hmul hreg (fit_of_room hrange hroom), UInt64.toNat_ofNat',
    Nat.mod_eq_of_lt (by omega)]

include hseek hskip in
theorem pos_skip (b : ℕ) :
    cp.pos b = (cp.hdr + cp.blk
      * ((if cp.skip = 2147483647 then 2 ^ 64 - 2 ^ 31 else cp.stride) * b))
        % 2 ^ 64 % cp.range := by
  unfold CmdParams.pos
  rw [hseek, UInt64.toNat_zero, Nat.zero_add, toNat_factor hskip, Nat.mul_assoc]

/-! ## A walk visits its class -/

include hp hmul hreg hrange hroom in
/-- When the places of the pass are those of a walk from slot 0, it starts at the slots of the
walk's class and at each of them equally often. -/
theorem starts_of_walk {k : ℕ} (hk : Nat.gcd k n = Nat.gcd cp.stride n)
    (hpos : ∀ b < n, cp.pos b = cp.hdr + cp.blk * Stride.walk n k 0 b) : SkipStarts cp n := by
  have hstart := fun {b : ℕ} (hb : b < n) => start_eq hp hmul hreg hrange hroom hb
  constructor <;> rw [← hk]
  · intro b hb
    have hmem : Stride.walk n k 0 b ∈ Stride.places n k 0 := Stride.walk_mem (by omega) b
    obtain ⟨hlt, hclass⟩ := mem_filter.mp hmem
    rw [Nat.zero_mod] at hclass
    exact ⟨_, mem_range.mp hlt, Nat.dvd_of_mod_eq_zero hclass, by rw [hstart hb, hpos b hb]⟩
  · intro j hj hdvd
    have hblk := hp.blk_ge
    have hsame : ((range n).filter fun b => (blockExtent cp (UInt64.ofNat b)).off
          = cp.minoff.toNat + (cp.hdr + cp.blk * j))
        = (range n).filter fun b => Stride.walk n k 0 b = j := by
      apply filter_congr
      intro b hb
      rw [hstart (mem_range.mp hb), hpos b (mem_range.mp hb), Nat.add_right_inj,
        Nat.add_right_inj, Nat.mul_right_inj (by omega)]
    rw [hsame, Stride.card_walk_eq (by omega) hj, Nat.zero_mod,
      if_pos (Nat.mod_eq_zero_of_dvd hdvd)]

/-! ## What such a pass covers -/

include hp hmul hseek hreg hrange hhdr hroom in
/-- The pass covers the region when it starts at every slot; a stride that has a divisor in common
with `n` never starts at slot 1. -/
theorem covered_iff_coprime (hn : 1 ≤ n) (hstarts : SkipStarts cp n) :
    (∀ y < cp.range, Covered cp n (cp.minoff.toNat + y)) ↔ Nat.Coprime cp.stride n := by
  have hblk := hp.blk_ge
  have hfit := fit_of_room hrange hroom
  have hlt := count_lt_of_room hp hroom
  have hrangepos := hp.range_pos
  have hheader : ∀ y, (headerExtent cp).Holds (cp.minoff.toNat + y) ↔ y < cp.hdr := fun y => by
    rw [headerExtent_eq hp hmul hreg, hseek, UInt64.toNat_zero, Nat.zero_mod, Nat.add_zero,
      Nat.mod_eq_of_lt cp.minoff.toNat_lt]
    show cp.minoff.toNat ≤ _ ∧ _ < cp.minoff.toNat + cp.hdr ↔ _
    omega
  have hblock : ∀ b < n, ∀ y < cp.range,
      ((blockExtent cp (UInt64.ofNat b)).Holds (cp.minoff.toNat + y) ↔
        (blockExtent cp (UInt64.ofNat b)).off ≤ cp.minoff.toNat + y ∧
          cp.minoff.toNat + y < (blockExtent cp (UInt64.ofNat b)).off + cp.blk) := by
    intro b hb y hy
    rw [holds_block hp hmul hreg hfit _ (by omega),
      blockExtent_off_of_lt hp hmul hreg hfit]
  constructor
  · intro hall
    -- slot 1 exists unless there is a single one
    rcases Nat.lt_or_ge 1 n with hmany | hone
    · have hslot : cp.blk * 2 ≤ cp.range := by
        rw [hrange, Nat.mul_comm n]
        exact Nat.mul_le_mul_left _ hmany
      rcases (covered_iff hp (by omega) _).mp (hall (cp.hdr + cp.blk) (by omega)) with
        ⟨-, hx⟩ | ⟨b, hb, hx⟩
      · have := (hheader _).mp hx
        omega
      · obtain ⟨j, -, hdvd, hoff⟩ := hstarts.only b hb
        rw [hblock b hb _ (by omega), hoff] at hx
        have hj : j = 1 := by
          have hlow : cp.blk * j < cp.blk * 2 := by omega
          have hhigh : cp.blk * 0 < cp.blk * j := by omega
          have := Nat.lt_of_mul_lt_mul_left hlow
          have := Nat.lt_of_mul_lt_mul_left hhigh
          omega
        rw [hj] at hdvd
        exact Nat.dvd_one.mp hdvd
    · rw [show n = 1 by omega]
      exact Nat.coprime_one_right _
  · intro hcop y hy
    rw [covered_iff hp (by omega)]
    rcases Nat.lt_or_ge y cp.hdr with hlo | hlo
    · exact .inl ⟨by omega, (hheader y).mpr hlo⟩
    · obtain ⟨j, hj, hbelow, habove⟩ :=
        slot_of_byte (S := cp.blk) (n := n) (by omega) hlo (by omega)
      have hcard := hstarts.each j hj (by rw [hcop]; exact one_dvd j)
      obtain ⟨b, hb⟩ := card_pos.mp (by rw [hcard, hcop]; exact Nat.one_pos)
      obtain ⟨hmem, hoff⟩ := mem_filter.mp hb
      refine .inr ⟨b, mem_range.mp hmem, ?_⟩
      rw [hblock b (mem_range.mp hmem) y hy, hoff]
      omega

include hp hmul hseek hreg hrange hhdr hroom in
theorem visits_of_starts (hn : 1 ≤ n) (hstarts : SkipStarts cp n) : SkipVisits cp n := by
  have hlt := count_lt_of_room hp hroom
  have hthreads := cp.threads_lt
  have hfit := fit_of_room hrange hroom
  have hcovers : PassCovers cp n ↔ Nat.Coprime cp.stride n := by
    rw [passCovers_iff_of_le (by omega),
      ← covered_iff_coprime hp hmul hseek hreg hrange hhdr hroom hn hstarts, hreg]
  refine ⟨hstarts, hcovers, fun endtime hT hnio hrep => ?_⟩
  rw [passFills_iff hp hnio hrep (by omega) hT, hcovers]

/-! ## The largest `skip` -/

include hseek hskip hrange hhdr hwalk in
/-- The places of a pass, where nothing wraps or the region divides the 64-bit range. -/
theorem pos_walk (hok : cp.skip ≠ 2147483647 ∨ n * cp.blk ∣ 2 ^ 64) {b : ℕ} (hb : b < n) :
    cp.pos b = cp.hdr + cp.blk * Stride.walk n
      (if cp.skip = 2147483647 then 2 ^ 64 - 2 ^ 31 else cp.stride) 0 b := by
  unfold Stride.walk
  rw [pos_skip hseek hskip, hrange, Nat.zero_add]
  by_cases hdvd : n * cp.blk ∣ 2 ^ 64
  · rw [Nat.mod_mod_of_dvd _ hdvd, mod_slot hhdr]
  · have hmax := hok.resolve_right hdvd
    have hmono : cp.blk * (cp.stride * b) ≤ cp.blk * cp.stride * n := by
      rw [Nat.mul_assoc]
      exact Nat.mul_le_mul_left _ (Nat.mul_le_mul_left _ hb.le)
    rw [if_neg hmax, Nat.mod_eq_of_lt (by omega : _ < 2 ^ 64), mod_slot hhdr]

theorem stride_max (hmax : cp.skip = 2147483647) : cp.stride = 2 ^ 31 := by
  unfold CmdParams.stride
  rw [hmax]
  rfl

include hwalk in
theorem down_le (hmax : cp.skip = 2147483647) {b : ℕ} (hb : b < n) :
    cp.blk * (2 ^ 31 * b) < 2 ^ 64 := by
  have hmono : cp.blk * (2 ^ 31 * b) ≤ cp.blk * 2 ^ 31 * n := by
    rw [Nat.mul_assoc]
    exact Nat.mul_le_mul_left _ (Nat.mul_le_mul_left _ hb.le)
  rw [stride_max hmax] at hwalk
  omega

include hseek hskip hrange hhdr hwalk in
theorem pos_down (hmax : cp.skip = 2147483647) {b : ℕ} (hpos : 0 < b) (hb : b < n) :
    cp.pos b = (2 ^ 64 + cp.hdr - cp.blk * (2 ^ 31 * b)) % (n * cp.blk) := by
  have hhigh := down_le hwalk hmax hb
  have hlow : cp.blk * 1 ≤ cp.blk * (2 ^ 31 * b) := Nat.mul_le_mul_left _ (by omega)
  -- the factor is `2 ^ 64 - 2 ^ 31`, so the product is short of a multiple of `2 ^ 64`
  have hexp : cp.blk * ((2 ^ 64 - 2 ^ 31) * b) + cp.blk * (2 ^ 31 * b)
      = 2 ^ 64 * (cp.blk * b) := by
    rw [← Nat.mul_add, ← Nat.add_mul, Nat.sub_add_cancel (by decide), Nat.mul_left_comm]
  have hsucc : cp.blk * b = cp.blk * b - 1 + 1 := by
    have : 0 < cp.blk * b := Nat.mul_pos (by omega) hpos
    omega
  have hsum : cp.hdr + cp.blk * ((2 ^ 64 - 2 ^ 31) * b)
      = 2 ^ 64 + cp.hdr - cp.blk * (2 ^ 31 * b) + 2 ^ 64 * (cp.blk * b - 1) := by
    rw [hsucc, Nat.mul_succ] at hexp
    omega
  rw [pos_skip hseek hskip, if_pos hmax, hrange, hsum, Nat.add_mul_mod_self_left,
    Nat.mod_eq_of_lt (by omega : _ < 2 ^ 64)]

include hp hmul hseek hskip hreg hrange hhdr hwalk hroom in
/-- Block 1 then starts where a slot's header ends only if slots divide `2 ^ 64`. -/
theorem blk_dvd_of_starts (hmax : cp.skip = 2147483647) (hmany : 2 ≤ n)
    (hstarts : SkipStarts cp n) : cp.blk ∣ 2 ^ 64 := by
  obtain ⟨j, -, -, hoff⟩ := hstarts.only 1 (by omega)
  rw [start_eq hp hmul hreg hrange hroom (by omega), Nat.add_right_inj,
    pos_down hseek hskip hrange hhdr hwalk hmax Nat.one_pos (by omega)] at hoff
  have hhigh := down_le hwalk hmax (b := 1) (by omega)
  have hmod : (2 ^ 64 + cp.hdr - cp.blk * (2 ^ 31 * 1)) % cp.blk = cp.hdr := by
    rw [← Nat.mod_mul_left_mod _ n cp.blk, hoff, Nat.add_mul_mod_self_left, Nat.mod_eq_of_lt hhdr]
  have hsum : (2 ^ 64 + cp.hdr) % cp.blk = cp.hdr := by
    calc (2 ^ 64 + cp.hdr) % cp.blk
        = (2 ^ 64 + cp.hdr - cp.blk * (2 ^ 31 * 1) + cp.blk * (2 ^ 31 * 1)) % cp.blk := by
          rw [Nat.sub_add_cancel (by omega)]
      _ = cp.hdr := by rw [Nat.add_mul_mod_self_left, hmod]
  have hdiv := Nat.div_add_mod (2 ^ 64 + cp.hdr) cp.blk
  exact ⟨(2 ^ 64 + cp.hdr) / cp.blk, by omega⟩

include hseek hskip hrange hhdr hwalk in
/-- When they do, the blocks after block 0 walk round the slots, but from slot `c`. -/
theorem pos_down_walk (hmax : cp.skip = 2147483647) {c : ℕ} (hc : 2 ^ 64 = cp.blk * c) {b : ℕ}
    (hpos : 0 < b) (hb : b < n) :
    cp.pos b = cp.hdr + cp.blk * Stride.walk n ((n - 1) * 2 ^ 31) c b := by
  have hhigh := down_le hwalk hmax hb
  have hle : 2 ^ 31 * b ≤ c :=
    Nat.le_of_mul_le_mul_left (by omega : cp.blk * (2 ^ 31 * b) ≤ cp.blk * c) (by omega)
  have hsub : 2 ^ 64 + cp.hdr - cp.blk * (2 ^ 31 * b) = cp.hdr + cp.blk * (c - 2 ^ 31 * b) := by
    rw [Nat.mul_sub]
    omega
  have hturn : (n - 1) * 2 ^ 31 * b + 2 ^ 31 * b = n * (2 ^ 31 * b) := by
    rw [Nat.mul_assoc, ← Nat.succ_mul, Nat.succ_eq_add_one, Nat.sub_add_cancel (by omega)]
  have hback : c - 2 ^ 31 * b + n * (2 ^ 31 * b) = c + (n - 1) * 2 ^ 31 * b := by omega
  unfold Stride.walk
  rw [pos_down hseek hskip hrange hhdr hwalk hmax hpos hb, hsub, mod_slot hhdr, ← hback,
    Nat.add_mul_mod_self_left]

include hp hmul hseek hskip hreg hrange hhdr hwalk hroom in
/-- There it is a walk round the region only when the region divides `2 ^ 64`. -/
theorem dvd_of_starts (hmax : cp.skip = 2147483647) (hmany : 2 ≤ n)
    (hstarts : SkipStarts cp n) : n * cp.blk ∣ 2 ^ 64 := by
  have hstart := fun {b : ℕ} (hb : b < n) => start_eq hp hmul hreg hrange hroom hb
  obtain ⟨c, hc⟩ := blk_dvd_of_starts hp hmul hseek hskip hreg hrange hhdr hwalk hroom hmax hmany
    hstarts
  have hgcd : Nat.gcd ((n - 1) * 2 ^ 31) n = Nat.gcd (2 ^ 31) n :=
    Nat.Coprime.gcd_mul_left_cancel _
      ((Nat.coprime_self_sub_left (by omega)).mpr (Nat.coprime_one_left n))
  by_contra hndvd
  have hne : c % n ≠ 0 := fun h => hndvd (by
    rw [hc, Nat.mul_comm n]
    exact Nat.mul_dvd_mul_left _ (Nat.dvd_of_mod_eq_zero h))
  -- slot 0 is then visited by block 0 and by those that walk there, which is once too often
  have hsame : ((range n).filter fun b => (blockExtent cp (UInt64.ofNat b)).off
        = cp.minoff.toNat + (cp.hdr + cp.blk * 0))
      = insert 0 ((range n).filter fun b => Stride.walk n ((n - 1) * 2 ^ 31) c b = 0) := by
    ext b
    rw [mem_insert, mem_filter, mem_filter, mem_range]
    rcases Nat.eq_zero_or_pos b with rfl | hpos
    · have hzero : cp.pos 0 = cp.hdr := by
        have := cp.blk_le_range
        rw [pos_skip hseek hskip, Nat.mul_zero, Nat.mul_zero, Nat.add_zero,
          Nat.mod_eq_of_lt (by omega : cp.hdr < 2 ^ 64), Nat.mod_eq_of_lt (by omega)]
      refine ⟨fun _ => .inl rfl, fun _ => ⟨by omega, ?_⟩⟩
      rw [hstart (by omega), hzero]
      omega
    · have hat : b < n → (cp.pos b = cp.hdr + cp.blk * 0
          ↔ Stride.walk n ((n - 1) * 2 ^ 31) c b = 0) := fun hb => by
        rw [pos_down_walk hseek hskip hrange hhdr hwalk hmax hc hpos hb, Nat.add_right_inj,
          Nat.mul_right_inj (by omega)]
      constructor
      · rintro ⟨hb, h⟩
        rw [hstart hb, Nat.add_right_inj] at h
        exact .inr ⟨hb, (hat hb).mp h⟩
      · intro h
        obtain ⟨hb, hwalk0⟩ := h.resolve_left (by omega)
        exact ⟨hb, by rw [hstart hb, (hat hb).mpr hwalk0]⟩
  have hfresh : 0 ∉ (range n).filter fun b => Stride.walk n ((n - 1) * 2 ^ 31) c b = 0 := by
    intro hmem
    have hwalk0 := (mem_filter.mp hmem).2
    unfold Stride.walk at hwalk0
    rw [Nat.mul_zero, Nat.add_zero] at hwalk0
    exact hne hwalk0
  have hcard := hstarts.each 0 (by omega) (dvd_zero _)
  rw [hsame, card_insert_of_notMem hfresh, Stride.card_walk_eq (by omega) (by omega), hgcd,
    stride_max hmax, Nat.zero_mod] at hcard
  split at hcard
  · omega
  · next hclass =>
    rw [← hcard, Nat.zero_add, Nat.mod_one] at hclass
    exact hclass rfl

end Skip

theorem gcd_factor {cp : CmdParams} {n : ℕ}
    (hok : cp.skip ≠ 2147483647 ∨ n * cp.blk ∣ 2 ^ 64) :
    Nat.gcd (if cp.skip = 2147483647 then 2 ^ 64 - 2 ^ 31 else cp.stride) n
      = Nat.gcd cp.stride n := by
  by_cases hmax : cp.skip = 2147483647
  · have hdvd := hok.resolve_left (not_not.mpr hmax)
    rw [if_pos hmax, stride_max hmax,
      Nat.gcd_sub_left_left_of_dvd n (by decide) ((Nat.dvd_mul_right n _).trans hdvd)]
  · rw [if_neg hmax]

/-- **`skip` visits a subgroup of the slots**, but for the largest `skip`, whose `1 + skip` leaves
`int`: there it does so only by luck, in a region of one block or of a length that divides `2 ^
64`.

`hwalk` keeps the walk of a pass out of the wrap of the 64-bit offset for every `skip` whose `1 +
skip` is what it says. The largest one is extended to a number just below `2 ^ 64` whatever the
walk should have been, so there `hwalk` does not help, and the condition is what is left. -/
theorem skip_visits_iff {cp : CmdParams} {n : ℕ} (hp : cp.Ok) (hmul : cp.multiplier = 1)
    (hseek : cp.seekoff = 0) (hskip : 0 ≤ cp.skip.toInt) (hn : 1 ≤ n)
    (hrange : (ithreadinit cp 0).rangeoff.toNat = n * cp.blk) (hhdr : cp.hdr < cp.blk)
    (hwalk : cp.hdr + cp.blk * (1 + cp.skip.toInt.toNat) * n < 2 ^ 64)
    (hroom : cp.minoff.toNat + (n + 1) * cp.blk < 2 ^ 64) :
    SkipVisits cp n ↔ cp.skip ≠ 2147483647 ∨ n = 1 ∨ n * cp.blk ∣ 2 ^ 64 := by
  have hregion : cp.region = n * cp.blk := hp.geometry.1.symm.trans hrange
  have hreg : cp.region = cp.range := by
    rw [Nat.succ_mul] at hroom
    exact region_eq_range_of_le_top hp (by omega)
  have hlen : cp.range = n * cp.blk := hreg.symm.trans hregion
  constructor
  · intro h
    by_cases hmax : cp.skip = 2147483647
    · rcases Nat.lt_or_ge 1 n with hmany | hone
      · exact .inr (.inr (dvd_of_starts hp hmul hseek hskip hreg hlen hhdr hwalk hroom hmax hmany
          h.toSkipStarts))
      · exact .inr (.inl (by omega))
    · exact .inl hmax
  · intro h
    apply visits_of_starts hp hmul hseek hreg hlen hhdr hroom hn
    by_cases hone : n = 1
    · -- a single block starts behind the header, whatever the factor
      subst hone
      refine starts_of_walk (k := 0) hp hmul hreg hlen hroom
        (by rw [Nat.gcd_one_right, Nat.gcd_one_right]) fun b hb => ?_
      have hblk := cp.blk_le_range
      unfold Stride.walk
      rw [pos_skip hseek hskip, Nat.lt_one_iff.mp hb, Nat.mul_zero, Nat.mul_zero, Nat.add_zero,
        Nat.mod_eq_of_lt (by omega : cp.hdr < 2 ^ 64), Nat.mod_eq_of_lt (by omega)]
    · have hok : cp.skip ≠ 2147483647 ∨ n * cp.blk ∣ 2 ^ 64 := h.imp_right fun h =>
        h.resolve_left hone
      exact starts_of_walk hp hmul hreg hlen hroom (gcd_factor hok) fun b hb =>
        pos_walk hseek hskip hlen hhdr hwalk hok hb

/-- Four blocks, every other one of them. -/
def everyOther : CmdParams :=
  { defparams with size := 1024, maxoff := 4096, headersz := 0, nio := 4, skip := 1 }

theorem everyOther_ok : everyOther.Ok := by
  constructor <;> first | rfl | decide

theorem skip_visits_every_other : SkipVisits everyOther 4 :=
  (skip_visits_iff everyOther_ok rfl rfl (by decide) (by decide) (by decide) (by decide)
    (by decide) (by decide)).mpr (.inl (by decide))

/-- Three blocks, with the largest `skip` there is. -/
def farthest : CmdParams :=
  { defparams with size := 1024, maxoff := 3072, headersz := 0, nio := 3, skip := 2147483647 }

theorem farthest_ok : farthest.Ok := by
  constructor <;> first | rfl | decide

/-- `2 ^ 31` and 3 are coprime, but the pass starts at slots 0, 2 and 0. -/
theorem skip_misses_slot : ¬ ∀ (cp : CmdParams) (n : ℕ), cp.Ok → cp.multiplier = 1 →
    cp.seekoff = 0 → 0 ≤ cp.skip.toInt → 1 ≤ n →
    (ithreadinit cp 0).rangeoff.toNat = n * cp.blk → cp.hdr < cp.blk →
    cp.hdr + cp.blk * (1 + cp.skip.toInt.toNat) * n < 2 ^ 64 →
    cp.minoff.toNat + (n + 1) * cp.blk < 2 ^ 64 → SkipVisits cp n := by
  intro h
  have hvisits := h farthest 3 farthest_ok rfl rfl (by decide) (by decide) (by decide)
    (by decide) (by decide) (by decide)
  have hgcd : Nat.gcd farthest.stride 3 = 1 := by decide
  have hslot := hvisits.each 1 (by decide) (dvd_of_eq hgcd)
  have hnone : ((range 3).filter fun b => (blockExtent farthest (UInt64.ofNat b)).off
      = farthest.minoff.toNat + (farthest.hdr + farthest.blk * 1)).card = 0 := by decide
  omega

end Iofill
end Blockbench
