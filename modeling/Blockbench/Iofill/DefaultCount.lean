import Mathlib.Data.Nat.Prime.Basic
import Blockbench.Iofill.Cover

/-!
# `Iofill/DefaultCount.lean` — filling with the default `count`

`count` defaults to `1 << 40` whatever the region, and `fthreadinit` multiplies it by `nrep`. So
by default a run goes round `2 ^ 40` block numbers `nrep` times, in 64-bit arithmetic, and a
region of `n` blocks is written `2 ^ 40 / n` times in each of them.

`default_fill_iff` says when the outcome is nevertheless `nrep` times: the region has exactly
`2 ^ 40` blocks, or the header is as long as a block and `2 ^ 40 + 1` pieces come out even. The
two halves of the proof are a count and a parity. The count (`mul_eq_of_hits`) looks at the last
byte of each slot of the region, which every block covers exactly one of. The parity
(`odd_of_mod`) is about `nrep`, of which `totalio` keeps only the low 24 bits: what is left of it
can give it back only as an odd multiple, and `2 ^ 40 / n` is odd only when it is 1.
-/

set_option autoImplicit false

namespace Blockbench
namespace Iofill

open CInt Finset TicketPool

/-! ## A round of blocks in a region of slots -/

/-- How often byte `y` of the region is written in a round of `N` blocks of `S` bytes at `place`,
after a header of `h` bytes. -/
def hits (N h S : ℕ) (place : ℕ → ℕ) (y : ℕ) : ℕ :=
  (Extent.between 0 h).covers y
    + ∑ b ∈ range N, (Extent.between (place b) (place b + S)).covers y

section Round

variable {N h S n : ℕ} {place : ℕ → ℕ}

/-- A block holds the last byte of exactly one of the region's `n` slots. -/
theorem sum_covers_last (hS : 0 < S) {a : ℕ} (ha : a < n * S) :
    ∑ j ∈ range n, (Extent.between a (a + S)).covers (j * S + (S - 1)) = 1 := by
  have hslot : ∀ j ∈ range n, (Extent.between a (a + S)).covers (j * S + (S - 1))
      = if j = a / S then 1 else 0 := by
    intro j _
    rw [Extent.covers_between]
    refine if_congr ?_ rfl rfl
    have hexp : (j + 1) * S = j * S + S := Nat.succ_mul _ _
    have hlow : a / S ≤ j ↔ a < (j + 1) * S := by
      rw [← Nat.lt_succ_iff, Nat.div_lt_iff_lt_mul hS]
    have hhigh : j ≤ a / S ↔ j * S ≤ a := Nat.le_div_iff_mul_le hS
    omega
  rw [sum_congr rfl hslot, sum_ite_eq' (range n) (a / S),
    if_pos (mem_range.mpr ((Nat.div_lt_iff_lt_mul hS).mpr ha))]

/-- The header holds the last byte of the first slot when it fills it, and of no other. -/
theorem sum_header_last (hS : 0 < S) (hn : 0 < n) (hh : h ≤ S) :
    ∑ j ∈ range n, (Extent.between 0 h).covers (j * S + (S - 1)) = if h = S then 1 else 0 := by
  have hslot : ∀ j ∈ range n, (Extent.between 0 h).covers (j * S + (S - 1))
      = if j = 0 then (if h = S then 1 else 0) else 0 := by
    intro j _
    rw [Extent.covers_between]
    rcases Nat.eq_zero_or_pos j with hj | hj
    · subst hj
      rw [if_pos rfl]
      refine if_congr ?_ rfl rfl
      omega
    · have := Nat.le_mul_of_pos_left S hj
      rw [if_neg (by omega), if_neg (by omega)]
  rw [sum_congr rfl hslot, sum_ite_eq' (range n) 0, if_pos (mem_range.mpr hn)]

/-- **The count**: a round that covers every byte of the region `c` times has `n * c` pieces,
where a header that fills a slot is a piece. -/
theorem mul_eq_of_hits (hS : 0 < S) (hn : 0 < n) (hh : h ≤ S) (hplace : ∀ b, place b < n * S)
    {c : ℕ} (hc : ∀ y < n * S, hits N h S place y = c) :
    n * c = N + if h = S then 1 else 0 := by
  have hbyte : ∀ j ∈ range n, hits N h S place (j * S + (S - 1)) = c := by
    intro j hj
    have hexp : (j + 1) * S = j * S + S := Nat.succ_mul _ _
    have hle : (j + 1) * S ≤ n * S := Nat.mul_le_mul_right _ (mem_range.mp hj)
    exact hc _ (by omega)
  calc n * c = ∑ _j ∈ range n, c := by rw [sum_const, card_range, nsmul_eq_mul, Nat.cast_id]
    _ = ∑ j ∈ range n, hits N h S place (j * S + (S - 1)) := (sum_congr rfl hbyte).symm
    _ = N + if h = S then 1 else 0 := by
        unfold hits
        rw [sum_add_distrib, sum_header_last hS hn hh, sum_comm,
          sum_congr rfl fun b _ => sum_covers_last hS (hplace b), sum_const, card_range,
          nsmul_eq_mul, Nat.cast_id, Nat.mul_one, Nat.add_comm]

/-- With a header that fills a slot, header and blocks are `N + 1` pieces in a row. -/
theorem hits_slots {f : ℕ → ℕ} (hzero : f 0 = 0)
    (hslot : ∀ b < N, place b = S * f (b + 1)) (y : ℕ) :
    hits N S S place y
      = ∑ b ∈ range (N + 1), (Extent.between (S * f b) (S * f b + S)).covers y := by
  have hblocks : ∀ b ∈ range N, (Extent.between (place b) (place b + S)).covers y
      = (Extent.between (S * f (b + 1)) (S * f (b + 1) + S)).covers y := fun b hb => by
    rw [hslot b (mem_range.mp hb)]
  unfold hits
  rw [sum_range_succ', hzero, Nat.mul_zero, Nat.zero_add, sum_congr rfl hblocks, Nat.add_comm]

/-- Pieces dealt out to the slots in turn cover every byte equally often, when they come out
even. -/
theorem hits_of_cycle {c : ℕ} (hdeal : N + 1 = n * c)
    (hslot : ∀ b < N, place b = S * ((b + 1) % n)) {y : ℕ} (hy : y < n * S) :
    hits N S S place y = c := by
  have hmono : ∀ j, S * j ≤ S * (j + 1) := fun j => Nat.mul_le_mul_left _ (Nat.le_succ j)
  rw [hits_slots (f := fun b => b % n) (Nat.zero_mod n) hslot, hdeal,
    sum_range_mod (fun j => (Extent.between (S * j) (S * j + S)).covers y)]
  have hcuts := Extent.sum_covers_cuts hmono n y
  simp only [Nat.mul_succ, Nat.mul_zero] at hcuts
  rw [hcuts, Extent.covers_between, if_pos ⟨Nat.zero_le _, by rwa [Nat.mul_comm S]⟩,
    nsmul_eq_mul, Nat.mul_one, Nat.cast_id]

/-- When the first byte and the last byte of a slot are covered equally often, no block starts
inside the first slot. -/
theorem place_eq_zero (hS : 0 < S)
    (hc : hits N S S place 0 = hits N S S place (S - 1)) {b : ℕ} (hb : b < N)
    (hlt : place b < S) : place b = 0 := by
  have hhdr : (Extent.between 0 S).covers 0 = (Extent.between 0 S).covers (S - 1) := by
    rw [Extent.covers_between, Extent.covers_between, if_pos (by omega), if_pos (by omega)]
  unfold hits at hc
  rw [hhdr, Nat.add_left_cancel_iff] at hc
  have hle : ∀ b ∈ range N, (Extent.between (place b) (place b + S)).covers 0
      ≤ (Extent.between (place b) (place b + S)).covers (S - 1) := by
    intro b _
    rw [Extent.covers_between, Extent.covers_between]
    split_ifs <;> omega
  have heq := (sum_eq_sum_iff_of_le hle).mp hc b (mem_range.mpr hb)
  rw [Extent.covers_between, Extent.covers_between,
    if_pos (by omega : place b ≤ S - 1 ∧ S - 1 < place b + S)] at heq
  by_contra hne
  rw [if_neg (by omega)] at heq
  exact Nat.zero_ne_one heq

/-- Pieces that are dealt out in decks of `P`, the last deck just begun, leave the last slot
short. -/
theorem last_slot_lt {P : ℕ} (hn : 2 ≤ n) (hP : P ∣ N) :
    ((range (N + 1)).filter fun b => b % P % n = n - 1).card
      < ((range (N + 1)).filter fun b => b % P % n = 0).card := by
  have hback : ∀ b, b % P % n = n - 1 → n - 1 ≤ b ∧ (b - (n - 1)) % P % n = 0 := by
    intro b hb
    have hdiv := Nat.div_add_mod (b % P) n
    have hle := Nat.mod_le b P
    have hb' := Nat.div_add_mod b P
    have hsub : b - (n - 1) = P * (b / P) + (b % P - (n - 1)) := by omega
    have hlt : b % P - (n - 1) < P ∨ P = 0 := by
      rcases Nat.eq_zero_or_pos P with h | h
      · exact .inr h
      · exact .inl (lt_of_le_of_lt (Nat.sub_le _ _) (Nat.mod_lt _ h))
    refine ⟨by omega, ?_⟩
    have hmod : (b - (n - 1)) % P = b % P - (n - 1) := by
      rw [hsub, Nat.mul_add_mod]
      rcases hlt with h | h
      · exact Nat.mod_eq_of_lt h
      · rw [h, Nat.mod_zero]
    have hmul : b % P - (n - 1) = n * (b % P / n) := by omega
    rw [hmod, hmul, Nat.mul_mod_right]
  have himage : ((range (N + 1)).filter fun b => b % P % n = n - 1).image (fun b => b - (n - 1))
      ⊂ (range (N + 1)).filter fun b => b % P % n = 0 := by
    refine (ssubset_iff_of_subset ?_).mpr ⟨N, ?_, ?_⟩
    · intro x hx
      obtain ⟨b, hb, rfl⟩ := mem_image.mp hx
      obtain ⟨hlt, hres⟩ := mem_filter.mp hb
      have := mem_range.mp hlt
      exact mem_filter.mpr ⟨mem_range.mpr (by omega), (hback b hres).2⟩
    · refine mem_filter.mpr ⟨mem_range.mpr (Nat.lt_succ_self N), ?_⟩
      rw [Nat.mod_eq_zero_of_dvd hP, Nat.zero_mod]
    · intro hx
      obtain ⟨b, hb, heq⟩ := mem_image.mp hx
      obtain ⟨hlt, hres⟩ := mem_filter.mp hb
      have := mem_range.mp hlt
      have := (hback b hres).1
      omega
  rw [← card_image_of_injOn (f := fun b => b - (n - 1))]
  · exact card_lt_card himage
  · intro a ha b hb hab
    have ha' := (hback a (mem_filter.mp (mem_coe.mp ha)).2).1
    have hb' := (hback b (mem_filter.mp (mem_coe.mp hb)).2).1
    simp only at hab
    omega

/-- **Wrapping rounds**: when the byte offsets of a round wrap around `2 ^ w`, a header that
fills a slot comes out even in a region of a single slot only, whose size divides `2 ^ w`. -/
theorem single_slot {w k c : ℕ} (hS : 0 < S) (hn : 0 < n) (hfit : n * S < 2 ^ w)
    (hbig : 2 ^ w ≤ S * 2 ^ k)
    (hplace : ∀ b, place b = S * (b + 1) % 2 ^ w % (n * S))
    (hc : ∀ y < n * S, hits (2 ^ k) S S place y = c) : n = 1 ∧ S ∣ 2 ^ w := by
  have hle : S ≤ n * S := Nat.le_mul_of_pos_left _ hn
  -- `P` is the first piece that starts past the wrap
  obtain ⟨P, hPlow, hPhigh⟩ : ∃ P, 2 ^ w ≤ S * P ∧ S * P < 2 ^ w + S := by
    have h₁ := Nat.mul_div_le (2 ^ w + S - 1) S
    have h₂ := Nat.lt_mul_div_succ (2 ^ w + S - 1) hS
    rw [Nat.mul_succ] at h₂
    exact ⟨(2 ^ w + S - 1) / S, by omega, by omega⟩
  have hPpos : 0 < P := Nat.pos_of_ne_zero fun h => by
    rw [h, Nat.mul_zero] at hPlow
    exact absurd hPlow (by have := Nat.two_pow_pos w; omega)
  have hPle : P ≤ 2 ^ k := by
    have : S * P < S * (2 ^ k + 1) := by
      rw [Nat.mul_succ]
      omega
    exact Nat.lt_succ_iff.mp (Nat.lt_of_mul_lt_mul_left this)
  have hwrap : place (P - 1) = S * P - 2 ^ w := by
    rw [hplace, Nat.sub_add_cancel hPpos, Nat.mod_eq_sub_mod hPlow,
      Nat.mod_eq_of_lt (by omega : S * P - 2 ^ w < 2 ^ w), Nat.mod_eq_of_lt (by omega)]
  have hstart : place (P - 1) = 0 := by
    refine place_eq_zero hS ?_ (by omega : P - 1 < 2 ^ k) (by omega)
    rw [hc 0 (by omega), hc (S - 1) (by omega)]
  have hP : S * P = 2 ^ w := by omega
  refine ⟨?_, P, hP.symm⟩
  by_contra hne
  -- with two slots or more the last one comes up short
  have hPdvd : P ∣ 2 ^ k := by
    obtain ⟨i, -, hi⟩ := (Nat.dvd_prime_pow Nat.prime_two).mp ⟨S, by rw [Nat.mul_comm, hP]⟩
    rw [hi] at hPle ⊢
    exact pow_dvd_pow 2 ((Nat.pow_le_pow_iff_right Nat.one_lt_two).mp hPle)
  have hslot : ∀ b < 2 ^ k, place b = S * ((b + 1) % P % n) := fun b _ => by
    rw [hplace, ← hP, Nat.mul_mod_mul_left, Nat.mul_comm n, Nat.mul_mod_mul_left]
  have hcount : ∀ j, hits (2 ^ k) S S place (S * j)
      = ((range (2 ^ k + 1)).filter fun b => b % P % n = j).card := by
    intro j
    have hcov : ∀ b ∈ range (2 ^ k + 1),
        (Extent.between (S * (b % P % n)) (S * (b % P % n) + S)).covers (S * j)
          = if b % P % n = j then 1 else 0 := by
      intro b _
      rw [Extent.covers_between, ← Nat.mul_succ]
      refine if_congr ?_ rfl rfl
      rw [Nat.mul_le_mul_left_iff hS, Nat.mul_lt_mul_left hS]
      omega
    rw [hits_slots (f := fun b => b % P % n) (by rw [Nat.zero_mod, Nat.zero_mod]) hslot,
      sum_congr rfl hcov, card_filter]
  have hlast : S * (n - 1) < n * S := by
    rw [Nat.mul_comm n]
    exact Nat.mul_lt_mul_of_pos_left (by omega) hS
  have hfew := last_slot_lt (n := n) (by omega) hPdvd
  rw [← hcount, ← hcount, hc _ hlast, Nat.mul_zero, hc 0 (by omega)] at hfew
  exact Nat.lt_irrefl _ hfew

end Round

/-- A repeat count that comes back after losing its top bits is an odd multiple. -/
theorem odd_of_mod {m r c : ℕ} (hr : 0 < r) (h : r % 2 ^ m * c = r) : Odd c := by
  by_contra hc
  have heven : Even c := Nat.not_odd_iff_even.mp hc
  have hcpos : 0 < c := Nat.pos_of_ne_zero fun hz => by
    rw [hz, Nat.mul_zero] at h
    omega
  have hodd : Odd (c - 1) := Nat.Even.sub_odd hcpos heven odd_one
  have hdvd : 2 ^ m ∣ r % 2 ^ m * (c - 1) := by
    rw [Nat.mul_sub_one, h]
    exact Nat.dvd_sub_mod r
  have hcop : Nat.Coprime (2 ^ m) (c - 1) :=
    Nat.Coprime.pow_left m (Nat.coprime_two_left.mpr hodd)
  have hq := hcop.dvd_of_dvd_mul_right hdvd
  have hlt : r % 2 ^ m < 2 ^ m := Nat.mod_lt _ (Nat.two_pow_pos m)
  rw [Nat.eq_zero_of_dvd_of_lt hq hlt, Nat.zero_mul] at h
  omega

/-! ## The runs -/

/-- How many I/O threads `init_threads` creates for a file. -/
def CmdParams.threads (p : CmdParams) : ℕ := p.nthreads.toInt.toNat

theorem CmdParams.threads_lt (p : CmdParams) : p.threads < 2 ^ 31 := by
  have := Int32.toInt_lt p.nthreads
  unfold CmdParams.threads
  omega

/-- A fill that meets no failure and no deadline ends, after writing every byte of
`[minoff, maxoff)` exactly `nrep` times. -/
structure FillsRegion (cp : CmdParams) (endtime : UInt64) (T : ℕ) : Prop where
  bounded : ∃ N, ∀ as s, Machine.Run (fill cp endtime T) (quiet endtime) (fillInit cp T) as s →
    as.length ≤ N
  ends : ∀ s, (fill cp endtime T).Reachable (quiet endtime) s →
    ∃ as t, Machine.Run (fill cp endtime T) (quiet endtime) s as t ∧ t.Finished
  written : ∀ s, (fill cp endtime T).Reachable (quiet endtime) s → s.Finished →
    ∀ x, cp.minoff.toNat ≤ x → x < cp.maxoff.toNat → timesWritten s x = cp.nrep.toNat

/-- When the default `count` comes out right. `nrep % 2 ^ 24` is what `totalio` keeps of
`nrep`. -/
def DefaultCountFits (cp : CmdParams) : Prop :=
  (cp.hdr < cp.blk ∧ cp.nblks = 2 ^ 40 ∧ cp.nrep.toNat < 2 ^ 24) ∨
  (cp.hdr = cp.blk ∧
    (∃ c, cp.nblks * c = 2 ^ 40 + 1 ∧ cp.nrep.toNat % 2 ^ 24 * c = cp.nrep.toNat) ∧
    (cp.blk < 2 ^ 24 ∨ cp.nblks = 1 ∧ cp.blk ∣ 2 ^ 64))

variable {cp : CmdParams} {endtime : UInt64} {T : ℕ} {s : FillState T}

theorem range_of_dvd (hp : cp.Ok) (hlt : cp.minoff.toNat < cp.maxoff.toNat)
    (hmin : cp.blk ∣ cp.minoff.toNat) (hmax : cp.blk ∣ cp.maxoff.toNat) :
    cp.minoff.toNat / cp.blk ≤ cp.maxoff.toNat / cp.blk ∧
      cp.minoff.toNat + cp.range = cp.maxoff.toNat := by
  obtain ⟨a, ha⟩ := hmin
  obtain ⟨b, hb⟩ := hmax
  have hblk : 0 < cp.blk := by
    have := hp.blk_ge
    omega
  have hab : a < b := by
    rw [ha, hb] at hlt
    exact Nat.lt_of_mul_lt_mul_left hlt
  unfold CmdParams.range CmdParams.nblks
  rw [ha, hb, Nat.mul_div_cancel_left _ hblk, Nat.mul_div_cancel_left _ hblk,
    max_eq_left (by omega), Nat.sub_mul, Nat.mul_comm cp.blk, Nat.mul_comm cp.blk]
  have := Nat.mul_le_mul_right cp.blk hab.le
  omega

theorem total_default (hnio : cp.nio = defparams.nio) :
    total cp = 2 ^ 40 * (cp.nrep.toNat % 2 ^ 24) := by
  have hn : cp.nio.toNat = 2 ^ 40 := hnio ▸ by decide
  have hsplit : (2 : ℕ) ^ 64 = 2 ^ 40 * 2 ^ 24 := by decide
  unfold total fthreadinit
  dsimp only
  rw [UInt64.toNat_mul, hn, hsplit, Nat.mul_mod_mul_left]

theorem total_default_lt (hnio : cp.nio = defparams.nio) (hT : T < 2 ^ 31) :
    total cp + T < 2 ^ 64 := by
  have hlt : cp.nrep.toNat % 2 ^ 24 < 2 ^ 24 := Nat.mod_lt _ (by decide)
  rw [total_default hnio]
  omega

section Region

variable (hp : cp.Ok) (hmul : cp.multiplier = 1) (hseek : cp.seekoff = 0) (hskip : cp.skip = 0)
  (hreg : cp.region = cp.range)
  (hfit : cp.minoff.toNat + cp.range < 2 ^ 64)
include hp hmul hseek hreg hfit

theorem round_hits {N : ℕ} (hpos : 0 < N) (hN : N ≤ 2 ^ 64) {y : ℕ} (hy : y < cp.range) :
    ∑ b ∈ range N, weigh (Extent.covers (cp.minoff.toNat + y)) (blockWork cp (UInt64.ofNat b))
      = hits N cp.hdr cp.blk cp.pos y := by
  have hnum : ∀ b ∈ range N, (UInt64.ofNat b).toNat = b := fun b hb => by
    have := mem_range.mp hb
    rw [UInt64.toNat_ofNat', Nat.mod_eq_of_lt (by omega)]
  have hheader : (headerExtent cp).covers (cp.minoff.toNat + y)
      = (Extent.between 0 cp.hdr).covers y := by
    rw [headerExtent_eq hp hmul hreg, hseek, UInt64.toNat_zero, Nat.zero_mod, Nat.add_zero,
      Nat.mod_eq_of_lt cp.minoff.toNat_lt, Extent.covers_between]
    exact if_congr (by unfold Extent.Holds; simp) rfl rfl
  have hwork : ∀ b ∈ range N,
      weigh (Extent.covers (cp.minoff.toNat + y)) (blockWork cp (UInt64.ofNat b))
        = (if b = 0 then (Extent.between 0 cp.hdr).covers y else 0)
          + (Extent.between (cp.pos b) (cp.pos b + cp.blk)).covers y := by
    intro b hb
    rw [weigh_blockWork hp hmul hreg, hheader]
    apply congrArg₂ (· + ·)
    · refine if_congr ⟨fun h => ?_, fun h => h ▸ rfl⟩ rfl rfl
      rw [← hnum b hb, h]
      rfl
    · refine if_congr ?_ rfl rfl
      rw [holds_block hp hmul hreg hfit _ (by omega), hnum b hb, Extent.holds_between]
      omega
  rw [sum_congr rfl hwork, sum_add_distrib, sum_ite_eq' (range N) 0,
    if_pos (mem_range.mpr hpos)]
  rfl

/-- **What a finished run has written by default**: as many rounds of `2 ^ 40` blocks as
`totalio` keeps of `nrep`. -/
theorem timesWritten_default (hnio : cp.nio = defparams.nio) (hT : 0 < T) (hT' : T < 2 ^ 31)
    (hr : (fill cp endtime T).Reachable (quiet endtime) s) (hfin : s.Finished) {y : ℕ}
    (hy : y < cp.range) :
    timesWritten s (cp.minoff.toNat + y)
      = cp.nrep.toNat % 2 ^ 24 * hits (2 ^ 40) cp.hdr cp.blk cp.pos y := by
  have hn : cp.nio.toNat = 2 ^ 40 := hnio ▸ by decide
  have hlt : cp.nrep.toNat % 2 ^ 24 < 2 ^ 24 := Nat.mod_lt _ (by decide)
  rw [timesWritten_eq hp (total_default_lt hnio hT') hT hr hfin, total_default hnio]
  refine (sum_ticketWork (fun b => weigh (Extent.covers (cp.minoff.toNat + y)) (blockWork cp b))
    hn (by omega)).trans ?_
  rw [round_hits hp hmul hseek hreg hfit (by decide) (by decide) hy]

theorem fillsRegion_iff_hits (hnio : cp.nio = defparams.nio) (hT : 0 < T) (hT' : T < 2 ^ 31)
    (hend : cp.minoff.toNat + cp.range = cp.maxoff.toNat) :
    FillsRegion cp endtime T ↔ ∀ y < cp.range,
      cp.nrep.toNat % 2 ^ 24 * hits (2 ^ 40) cp.hdr cp.blk cp.pos y = cp.nrep.toNat := by
  obtain ⟨hbound, hends⟩ := quiet_ends endtime hp (total_default_lt hnio hT')
  have hwritten : ∀ s, (fill cp endtime T).Reachable (quiet endtime) s → s.Finished →
      ∀ y < cp.range, timesWritten s (cp.minoff.toNat + y)
        = cp.nrep.toNat % 2 ^ 24 * hits (2 ^ 40) cp.hdr cp.blk cp.pos y :=
    fun s hr hfin y hy => timesWritten_default hp hmul hseek hreg hfit hnio hT hT' hr hfin hy
  constructor
  · intro h y hy
    obtain ⟨as, t, hrun, hfin⟩ := hends _ Machine.Reachable.start
    rw [← hwritten t ⟨as, hrun⟩ hfin y hy]
    exact h.written t ⟨as, hrun⟩ hfin _ (by omega) (by omega)
  · intro h
    refine ⟨⟨_, hbound⟩, hends, fun s hr hfin x hlo hhi => ?_⟩
    obtain ⟨y, rfl⟩ := Nat.exists_eq_add_of_le hlo
    rw [hwritten s hr hfin y (by omega), h y (by omega)]

end Region

/-! ## The condition -/

/-- A header that fills a slot puts the blocks behind it, slot by slot. -/
theorem pos_full_header (hseek : cp.seekoff = 0) (hskip : cp.skip = 0) (hhdr : cp.hdr = cp.blk)
    (b : ℕ) : cp.pos b = cp.blk * (b + 1) % 2 ^ 64 % (cp.nblks * cp.blk) := by
  rw [pos_sequential hseek hskip, hhdr, Nat.mul_succ, Nat.add_comm]
  rfl

/-- **Necessity**: a round that gives back `nrep` is one of the two kinds. -/
theorem fits_of_hits (hp : cp.Ok) (hseek : cp.seekoff = 0) (hskip : cp.skip = 0)
    (hrep : 1 ≤ cp.nrep.toNat)
    (h : ∀ y < cp.range,
      cp.nrep.toNat % 2 ^ 24 * hits (2 ^ 40) cp.hdr cp.blk cp.pos y = cp.nrep.toNat) :
    DefaultCountFits cp := by
  have hS : 0 < cp.blk := by
    have := hp.blk_ge
    omega
  have hn := cp.nblks_pos
  have hrange := hp.range_pos
  have hqpos : 0 < cp.nrep.toNat % 2 ^ 24 := Nat.pos_of_ne_zero fun hz => by
    have := h 0 hrange
    rw [hz, Nat.zero_mul] at this
    omega
  obtain ⟨c, hc⟩ : ∃ c, hits (2 ^ 40) cp.hdr cp.blk cp.pos 0 = c := ⟨_, rfl⟩
  have hqc : cp.nrep.toNat % 2 ^ 24 * c = cp.nrep.toNat := hc ▸ h 0 hrange
  have hconst : ∀ y < cp.nblks * cp.blk, hits (2 ^ 40) cp.hdr cp.blk cp.pos y = c := fun y hy =>
    Nat.eq_of_mul_eq_mul_left hqpos ((h y hy).trans hqc.symm)
  have hcount := mul_eq_of_hits hS hn hp.hdr_le hp.pos_lt hconst
  by_cases hhdr : cp.hdr = cp.blk
  · rw [if_pos hhdr] at hcount
    refine .inr ⟨hhdr, ⟨c, hcount, hqc⟩, ?_⟩
    by_cases hbig : cp.blk < 2 ^ 24
    · exact .inl hbig
    · rw [hhdr] at hconst
      exact .inr (single_slot hS hn hp.nblks_mul_lt (by omega)
        (pos_full_header hseek hskip hhdr) hconst)
  · rw [if_neg hhdr, Nat.add_zero] at hcount
    have hodd := odd_of_mod (by omega) hqc
    obtain ⟨i, -, hi⟩ := (Nat.dvd_prime_pow Nat.prime_two).mp (Dvd.intro_left _ hcount)
    have hone : c = 1 := by
      cases i with
      | zero => rw [hi, pow_zero]
      | succ i =>
        rw [hi, pow_succ] at hodd
        exact absurd (even_two.mul_left _) (Nat.not_even_iff_odd.mpr hodd)
    rw [hone, Nat.mul_one] at hcount hqc
    have hlt : cp.nrep.toNat % 2 ^ 24 < 2 ^ 24 := Nat.mod_lt _ (by decide)
    exact .inl ⟨lt_of_le_of_ne hp.hdr_le hhdr, hcount, by omega⟩

/-- **Sufficiency**: both kinds give back `nrep`. -/
theorem hits_of_fits (hp : cp.Ok) (hmul : cp.multiplier = 1) (hseek : cp.seekoff = 0)
    (hskip : cp.skip = 0) (hreg : cp.region = cp.range)
    (hfit : cp.minoff.toNat + cp.range < 2 ^ 64) (h : DefaultCountFits cp) :
    ∀ y < cp.range,
      cp.nrep.toNat % 2 ^ 24 * hits (2 ^ 40) cp.hdr cp.blk cp.pos y = cp.nrep.toNat := by
  intro y hy
  rcases h with ⟨hhdr, hn, hrep⟩ | ⟨hhdr, ⟨c, hcount, hqc⟩, hwrap⟩
  · have hround := round_covers hp hmul hseek hskip hreg hfit hhdr (Nat.le_add_right _ y)
      (by omega)
    rw [hn, round_hits hp hmul hseek hreg hfit (by decide) (by decide) hy] at hround
    rw [hround, Nat.mod_eq_of_lt hrep, Nat.mul_one]
  · have hslot : ∀ b < 2 ^ 40, cp.pos b = cp.blk * ((b + 1) % cp.nblks) := by
      intro b hb
      rw [pos_full_header hseek hskip hhdr]
      rcases hwrap with hsmall | ⟨hone, hdvd⟩
      · have hlt : cp.blk * (b + 1) < 2 ^ 24 * 2 ^ 40 :=
          Nat.mul_lt_mul_of_lt_of_le hsmall (by omega) (by decide)
        rw [Nat.mod_eq_of_lt (by omega : cp.blk * (b + 1) < 2 ^ 64), Nat.mul_comm cp.nblks,
          Nat.mul_mod_mul_left]
      · rw [hone, Nat.one_mul, Nat.mod_one, Nat.mul_zero]
        exact Nat.mod_eq_zero_of_dvd
          ((Nat.dvd_mod_iff hdvd).mpr (Nat.dvd_mul_right cp.blk (b + 1)))
    rw [hhdr, hits_of_cycle hcount.symm hslot hy, hqc]

/-- **Filling with the default `count`.** The fill writes every byte of its region `nrep` times
exactly when there is a thread to do it and the region has one of the two forms of
`DefaultCountFits`.

What is decided here is arithmetic. `2 ^ 40` numbers are drawn for each of the `nrep % 2 ^ 24`
rounds that the wrapped `totalio` leaves, and they go round the region until they run out; so a
byte is written `nrep % 2 ^ 24` times the number of blocks that hold it (`fillsRegion_iff_hits`),
and this is to be `nrep` for all of them. `fits_of_hits` and `hits_of_fits` are the two halves. -/
theorem default_fill_iff (hp : cp.Ok) (hmul : cp.multiplier = 1) (hseek : cp.seekoff = 0)
    (hskip : cp.skip = 0) (hnio : cp.nio = defparams.nio)
    (hlt : cp.minoff.toNat < cp.maxoff.toNat) (hmin : cp.blk ∣ cp.minoff.toNat)
    (hmax : cp.blk ∣ cp.maxoff.toNat) (hrep : 1 ≤ cp.nrep.toNat) :
    FillsRegion cp endtime cp.threads ↔ 0 < cp.threads ∧ DefaultCountFits cp := by
  obtain ⟨hle, hend⟩ := range_of_dvd hp hlt hmin hmax
  have hreg := region_eq_range_of_le hle
  have hfit : cp.minoff.toNat + cp.range < 2 ^ 64 := hend ▸ cp.maxoff.toNat_lt
  rcases Nat.eq_zero_or_pos cp.threads with hzero | hpos
  · -- without a thread the run is over before anything is written
    refine ⟨fun h => ?_, fun h => absurd h.1 (by omega)⟩
    have hfin : (fillInit cp cp.threads).Finished := fun i => absurd i.isLt (by omega)
    have hnone := h.written _ Machine.Reachable.start hfin _ le_rfl hlt
    simp only [fill, timesWritten, fillInit, List.filter_nil, List.map_nil, List.sum_nil] at hnone
    omega
  · rw [fillsRegion_iff_hits hp hmul hseek hreg hfit hnio hpos cp.threads_lt hend]
    exact ⟨fun h => ⟨hpos, fits_of_hits hp hseek hskip hrep h⟩,
      fun h => hits_of_fits hp hmul hseek hskip hreg hfit h.2⟩

/-- A region of `2 ^ 40` blocks of 512 bytes. -/
def vastFill : CmdParams := { defparams with size := 512, maxoff := (1 : UInt64) <<< 49 }

theorem vastFill_ok : vastFill.Ok := by
  constructor <;> first | rfl | decide

theorem default_fill_vast : FillsRegion vastFill 5 vastFill.threads :=
  (default_fill_iff vastFill_ok rfl rfl rfl rfl (by decide) (by decide) (by decide)
    (by decide)).mpr ⟨by decide, .inl ⟨by decide, by decide, by decide⟩⟩

/-- Two blocks of 4 KB, everything else at its default. -/
def tinyFill : CmdParams := { defparams with size := 4096, maxoff := 8192 }

theorem tinyFill_ok : tinyFill.Ok := by
  constructor <;> first | rfl | decide

/-- The default `count` goes over a region of two blocks `2 ^ 39` times. -/
theorem default_fill_tiny : ¬ ∀ (cp : CmdParams) (endtime : UInt64), cp.Ok →
    cp.multiplier = 1 → cp.seekoff = 0 → cp.skip = 0 → cp.nio = defparams.nio →
    cp.minoff.toNat < cp.maxoff.toNat → cp.blk ∣ cp.minoff.toNat → cp.blk ∣ cp.maxoff.toNat →
    1 ≤ cp.nrep.toNat → 0 < cp.threads → FillsRegion cp endtime cp.threads := by
  intro h
  have hfill := h tinyFill 5 tinyFill_ok rfl rfl rfl rfl (by decide) (by decide) (by decide)
    (by decide) (by decide)
  have hhits := (fillsRegion_iff_hits tinyFill_ok rfl rfl (by decide) (by decide) rfl (by decide)
    (by decide) (by decide)).mp hfill
  have hfits := fits_of_hits tinyFill_ok rfl rfl (by decide) hhits
  have hblocks : tinyFill.nblks = 2 := by decide
  have hheader : tinyFill.hdr < tinyFill.blk := by decide
  rcases hfits with ⟨-, hn, -⟩ | ⟨hhdr, -, -⟩
  · omega
  · omega

end Iofill
end Blockbench
