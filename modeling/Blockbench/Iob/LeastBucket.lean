import Mathlib.Algebra.Order.BigOperators.Group.Finset
import Mathlib.Order.Bounds.Basic
import Mathlib.Tactic.Linarith
import Blockbench.Iob.Percentile

/-!
# `Iob/LeastBucket.lean` — what the percentiles are

`printbuckets` walks over the buckets once and carries, for each column, the count so far and
the number of the next percentile. What it is after is the least bucket at which the count has
come to a threshold (`Reached`), for five thresholds at once. One cursor is enough because the
thresholds do not decrease: a threshold that is not reached yet holds back only larger ones.
`Scanned` is the invariant of the walk.

The thresholds are `N - ⌊N * q⌋` with a product of `double`s. `exactThreshold` is the number
this stands for, and the theorem about it is `percentiles_exact`; `threshold_inOrder` says that
rounding does not put the code's own thresholds out of order, so the same holds of them
(`percentiles_least`).

Counts and totals are those of the program, modulo `2 ^ 64`; `mem_reached_iff` reads the running
count as a sum of natural numbers while that fits.
-/

set_option autoImplicit false

namespace Blockbench

open Finset

/-- The buckets at which the running count of a column has come to `t`. -/
def Reached (n : ℕ) (col : ℕ → UInt64) (t : UInt64) : Set ℕ :=
  {i | i < n ∧ t ≤ ∑ k ∈ range (i + 1), col k}

section Reached

variable {n i : ℕ} {col : ℕ → UInt64} {t u : UInt64}

theorem isLeast_reached_succ (h : IsLeast (Reached n col t) i) :
    IsLeast (Reached (n + 1) col t) i := by
  refine ⟨⟨Nat.lt_succ_of_lt h.1.1, h.1.2⟩, fun k hk => ?_⟩
  by_cases hkn : k < n
  · exact h.2 ⟨hkn, hk.2⟩
  · exact h.1.1.le.trans (Nat.le_of_not_lt hkn)

theorem isLeast_reached_last (hnone : ∀ k, k ∉ Reached n col t)
    (hlast : t ≤ ∑ k ∈ range (n + 1), col k) : IsLeast (Reached (n + 1) col t) n :=
  ⟨⟨Nat.lt_succ_self n, hlast⟩, fun k hk => Nat.le_of_not_lt fun hkn => hnone k ⟨hkn, hk.2⟩⟩

theorem reached_anti (htu : t ≤ u) : Reached n col u ⊆ Reached n col t :=
  fun _ hk => ⟨hk.1, UInt64.le_trans htu hk.2⟩

/-- While a column adds up to less than `2 ^ 64`, its running counts are the sums. -/
theorem toNat_cumulative (hfit : ∑ k ∈ range n, (col k).toNat < 2 ^ 64) (hi : i ≤ n) :
    (∑ k ∈ range i, col k).toNat = ∑ k ∈ range i, (col k).toNat := by
  induction i with
  | zero => rfl
  | succ i ih =>
    have hle : ∑ k ∈ range (i + 1), (col k).toNat ≤ ∑ k ∈ range n, (col k).toNat :=
      sum_le_sum_of_subset (range_subset_range.mpr hi)
    rw [sum_range_succ] at hle
    rw [sum_range_succ, sum_range_succ, CInt.toNat_add_of_lt, ih (by omega)]
    rw [ih (by omega)]
    omega

/-- Then a threshold is reached where the sum of the counts comes to it. -/
theorem mem_reached_iff (hfit : ∑ k ∈ range n, (col k).toNat < 2 ^ 64) :
    i ∈ Reached n col t ↔ i < n ∧ t.toNat ≤ ∑ k ∈ range (i + 1), (col k).toNat := by
  apply and_congr_right
  intro hi
  rw [UInt64.le_iff_toNat_le, toNat_cumulative hfit hi]

end Reached

/-! ## The walk over the buckets -/

/-- The thresholds of the five percentiles are in order. -/
def InOrder (pct : ℕ → UInt64) : Prop := ∀ j k, j ≤ k → k < nPercent → pct j ≤ pct k

/-- A cursor after `n` buckets: the percentiles below its `j` have the end of the least bucket
that reached them, and the others are not reached. -/
structure Scanned (pct col : ℕ → UInt64) (n : ℕ) (c : Cursor) : Prop where
  tot : c.tot = ∑ k ∈ range n, col k
  j_le : c.j ≤ nPercent
  done : ∀ j < c.j, ∃ i, IsLeast (Reached n col (pct j)) i ∧ c.val j = (i + 1) * latdiv.toNat
  left : ∀ j, c.j ≤ j → j < nPercent → ∀ i, i ∉ Reached n col (pct j)

section Scan

variable {pct col : ℕ → UInt64} {n : ℕ} {c : Cursor}

/-- The percentiles the inner `while` sets are reached, and get the latency of its bucket. -/
theorem advance_reached {v left k : ℕ} (hk : c.j ≤ k) (hk' : k < (c.advance pct v left).j) :
    pct k ≤ c.tot ∧ (c.advance pct v left).val k = v := by
  induction left generalizing c with
  | zero => exact absurd hk' (Nat.not_lt.mpr hk)
  | succ left ih =>
    rw [Cursor.advance] at hk' ⊢
    split at hk'
    · rename_i hle
      rw [if_pos hle]
      by_cases hkj : k = c.j
      · subst hkj
        refine ⟨hle, ?_⟩
        rw [advance_keeps (Nat.lt_succ_self _), Cursor.record_val, Function.update_self]
      · refine ih ?_ hk'
        rw [Cursor.record_j]
        omega
    · exact absurd hk' (Nat.not_lt.mpr hk)

/-- **One bucket.** The percentiles set before keep their bucket, those set now have this one,
and the first that is left holds back the rest. -/
theorem Scanned.bucket (hmono : InOrder pct) (h : Scanned pct col n c) :
    Scanned pct col (n + 1) (c.bucket pct col n) := by
  have hcount : (c.count (col n)).tot = ∑ k ∈ range (n + 1), col k := by
    rw [Cursor.count_tot, h.tot, sum_range_succ]
  have hbounds := @advance_bounds pct (c.count (col n)) ((n + 1) * latdiv.toNat) (nPercent - c.j)
  have hstop := @advance_stop pct (c.count (col n)) ((n + 1) * latdiv.toNat) (nPercent - c.j)
  have hj := h.j_le
  rw [Cursor.count_j] at hbounds hstop
  rw [hcount] at hstop
  refine ⟨?_, ?_, fun j hjlt => ?_, fun j hle hlt i hi => ?_⟩
  · rw [Cursor.bucket, advance_tot, hcount]
  · rw [Cursor.bucket]
    omega
  · rw [Cursor.bucket] at hjlt ⊢
    by_cases hold : j < c.j
    · obtain ⟨i, hleast, hval⟩ := h.done j hold
      exact ⟨i, isLeast_reached_succ hleast,
        (advance_keeps (c := c.count (col n)) hold).trans hval⟩
    · have hge : c.j ≤ j := Nat.le_of_not_lt hold
      obtain ⟨hreach, hval⟩ := advance_reached (c := c.count (col n)) hge hjlt
      rw [hcount] at hreach
      exact ⟨n, isLeast_reached_last (h.left j hge (by omega)) hreach, hval⟩
  · rw [Cursor.bucket] at hle
    rcases hstop with hall | hnot
    · omega
    · -- what is left is no smaller than the threshold the `while` stopped at
      have hjn := UInt64.lt_of_lt_of_le hnot (hmono _ j hle hlt)
      rcases Nat.lt_succ_iff_lt_or_eq.mp hi.1 with hin | rfl
      · exact h.left j (hbounds.1.trans hle) hlt i ⟨hin, hi.2⟩
      · exact absurd hi.2 (UInt64.not_le.mpr hjn)

theorem scanned_scan (n : ℕ) (col : ℕ → UInt64) (hmono : InOrder pct) (val : ℕ → ℕ) :
    Scanned pct col n (scan pct col n ⟨0, 0, val⟩) := by
  induction n with
  | zero =>
    refine ⟨rfl, Nat.zero_le _, fun j hj => absurd hj (Nat.not_lt_zero j), fun j _ _ i hi => ?_⟩
    exact absurd hi.1 (Nat.not_lt_zero i)
  | succ n ih =>
    rw [scan_succ]
    exact ih.bucket hmono

/-- **The walk sets every percentile to the end of the least bucket that reaches it**, when the
thresholds are in order and none is above the total. -/
theorem scan_least (hmono : InOrder pct) (hn : 0 < n)
    (htop : ∀ j < nPercent, pct j ≤ colTotal n col) (val : ℕ → ℕ) {j : ℕ} (hj : j < nPercent) :
    ∃ i, IsLeast (Reached n col (pct j)) i ∧
      (scan pct col n ⟨0, 0, val⟩).val j = (i + 1) * latdiv.toNat := by
  have h := scanned_scan n col hmono val
  refine h.done j (Nat.lt_of_not_le fun hle => h.left j hle hj (n - 1) ⟨by omega, ?_⟩)
  rw [Nat.sub_add_cancel hn]
  exact htop j hj

end Scan

/-! ## The thresholds -/

/-- The five proportions, by their denominators: 1/2, 1/10, 1/100, 1/1000 and 1/10000. -/
def proportion : ℕ → UInt64
  | 0 => 2
  | 1 => 10
  | 2 => 100
  | 3 => 1000
  | _ => 10000

/-- `pct[j]` with the product taken as exact. -/
def exactThreshold (tot : UInt64) (j : ℕ) : UInt64 := tot - tot / proportion j

section Thresholds

variable {tot : UInt64}

theorem sub_le_sub_of_le {a b : UInt64} (hb : b ≤ a) (ha : a ≤ tot) : tot - a ≤ tot - b := by
  rw [UInt64.le_iff_toNat_le] at *
  rw [CInt.toNat_sub_of_le ha, CInt.toNat_sub_of_le (hb.trans ha)]
  omega

theorem inOrder_of_succ {pct : ℕ → UInt64}
    (h : ∀ j, j + 1 < nPercent → pct j ≤ pct (j + 1)) : InOrder pct := by
  intro j k hjk
  induction k, hjk using Nat.le_induction with
  | base => exact fun _ => UInt64.le_refl _
  | succ k _ ih => exact fun hk => UInt64.le_trans (ih (by omega)) (h k hk)

theorem toNat_exactThreshold (tot : UInt64) (j : ℕ) :
    (exactThreshold tot j).toNat = tot.toNat - tot.toNat / (proportion j).toNat := by
  rw [exactThreshold, CInt.toNat_sub_of_le, UInt64.toNat_div]
  rw [UInt64.toNat_div]
  exact Nat.div_le_self _ _

theorem exactThreshold_le (tot : UInt64) (j : ℕ) : exactThreshold tot j ≤ tot := by
  rw [UInt64.le_iff_toNat_le, toNat_exactThreshold]
  exact Nat.sub_le _ _

theorem exactThreshold_inOrder (tot : UInt64) : InOrder (exactThreshold tot) := by
  apply inOrder_of_succ
  intro j hj
  have hprop : 0 < (proportion j).toNat ∧ (proportion j).toNat ≤ (proportion (j + 1)).toNat := by
    match j with
    | 0 | 1 | 2 | 3 => decide
    | j + 4 =>
      have hlt : j + 4 + 1 < 5 := hj
      omega
  have hdiv := Nat.div_le_div_left (a := tot.toNat) hprop.2 hprop.1
  rw [UInt64.le_iff_toNat_le, toNat_exactThreshold, toNat_exactThreshold]
  exact Nat.sub_le_sub_left hdiv _

theorem percentile_step {j : ℕ} (hj : j + 1 < nPercent) :
    5 * ((percentile (j + 1)).1 * 2 ^ (percentile j).2) ≤
      2 * ((percentile j).1 * 2 ^ (percentile (j + 1)).2) := by
  match j with
  | 0 | 1 | 2 | 3 => norm_num [percentile]
  | j + 4 =>
    have hlt : j + 4 + 1 < 5 := hj
    omega

/-- Rounding takes less from the one and adds less to the other than lies between them. -/
theorem scaled_anti {j : ℕ} (hj : j + 1 < nPercent) (tot : UInt64) :
    scaled tot (j + 1) ≤ scaled tot j := by
  unfold scaled
  generalize round53 tot.toNat = x
  have hup := round53_le (x * (percentile (j + 1)).1)
  have hlow := le_round53 (x * (percentile j).1)
  have hstep := Nat.mul_le_mul_left x (percentile_step hj)
  generalize round53 (x * (percentile (j + 1)).1) = r' at *
  generalize round53 (x * (percentile j).1) = r at *
  have hcross : r' * 2 ^ (percentile j).2 ≤ r * 2 ^ (percentile (j + 1)).2 := by
    generalize 2 ^ (percentile j).2 = a at *
    generalize 2 ^ (percentile (j + 1)).2 = b at *
    have hup' := Nat.mul_le_mul_right a hup
    have hlow' := Nat.mul_le_mul_right b hlow
    linarith
  rw [Nat.le_div_iff_mul_le (by positivity)]
  refine Nat.le_of_mul_le_mul_right ?_ (show 0 < 2 ^ (percentile (j + 1)).2 by positivity)
  calc r' / 2 ^ (percentile (j + 1)).2 * 2 ^ (percentile j).2 * 2 ^ (percentile (j + 1)).2
      = r' / 2 ^ (percentile (j + 1)).2 * 2 ^ (percentile (j + 1)).2 * 2 ^ (percentile j).2 :=
        Nat.mul_right_comm _ _ _
    _ ≤ r' * 2 ^ (percentile j).2 := Nat.mul_le_mul_right _ (Nat.div_mul_le_self _ _)
    _ ≤ r * 2 ^ (percentile (j + 1)).2 := hcross

theorem threshold_inOrder (tot : UInt64) : InOrder (threshold tot) := by
  apply inOrder_of_succ
  intro j hj
  have hlt := UInt64.toNat_lt tot
  have hof : ∀ j, (UInt64.ofNat (scaled tot j)).toNat = scaled tot j := fun j =>
    UInt64.toNat_ofNat_of_lt' ((scaled_le tot j).trans_lt hlt)
  apply sub_le_sub_of_le
  · rw [UInt64.le_iff_toNat_le, hof, hof]
    exact scaled_anti hj tot
  · rw [UInt64.le_iff_toNat_le, hof]
    exact scaled_le tot j

end Thresholds

/-! ## One call -/

/-- What `printbuckets` does to `pctval` when `thr` computes `pct` from a total. -/
def percentilesWith (thr : UInt64 → ℕ → UInt64) (n : ℕ) (rcol wcol : ℕ → UInt64)
    (totreads totwrites : UInt64) (pv : Pctval) : Pctval :=
  let s := scanBoth (thr (nonzero totreads)) (thr (nonzero totwrites)) rcol wcol n
    (⟨0, 0, pv.read⟩, ⟨0, 0, pv.write⟩)
  ⟨s.1.val, s.2.val⟩

theorem percentilesWith_threshold : percentilesWith threshold = percentiles := rfl

/-- The five values of a column are the ends of the least buckets that reach the thresholds;
they do not decrease, and thresholds first reached in one bucket all have its end. -/
structure ColumnRight (n : ℕ) (col pct : ℕ → UInt64) (val : ℕ → ℕ) : Prop where
  least : ∀ j < nPercent, ∃ i, IsLeast (Reached n col (pct j)) i ∧ val j = (i + 1) * latdiv.toNat
  mono : ∀ j k, j ≤ k → k < nPercent → val j ≤ val k
  together : ∀ i, ∀ j < nPercent, IsLeast (Reached n col (pct j)) i →
    val j = (i + 1) * latdiv.toNat

section Percentiles

variable {thr : UInt64 → ℕ → UInt64} {n : ℕ} {col rcol wcol : ℕ → UInt64}
  {tot totreads totwrites : UInt64}

theorem column_right (hin : ∀ tot, InOrder (thr tot)) (hle : ∀ tot j, thr tot j ≤ tot)
    (htot : tot = colTotal n col) (hne : tot ≠ 0) (val : ℕ → ℕ) :
    ColumnRight n col (thr tot) (scan (thr (nonzero tot)) col n ⟨0, 0, val⟩).val := by
  have hn : 0 < n := by
    refine Nat.pos_of_ne_zero fun hz => hne ?_
    rw [htot, hz]
    rfl
  have htop : ∀ j < nPercent, thr tot j ≤ colTotal n col := fun j _ => htot ▸ hle tot j
  have hleast : ∀ j < nPercent, ∃ i, IsLeast (Reached n col (thr tot j)) i ∧
      (scan (thr tot) col n ⟨0, 0, val⟩).val j = (i + 1) * latdiv.toNat :=
    fun j hj => scan_least (hin tot) hn htop val hj
  have hval : ∀ i j, j < nPercent → IsLeast (Reached n col (thr tot j)) i →
      (scan (thr tot) col n ⟨0, 0, val⟩).val j = (i + 1) * latdiv.toNat := by
    intro i j hj hi
    obtain ⟨k, hk, hv⟩ := hleast j hj
    rw [hv, hk.unique hi]
  rw [nonzero, if_neg hne]
  refine ⟨hleast, fun j k hjk hk => ?_, fun i j => hval i j⟩
  obtain ⟨i, hi, hvi⟩ := hleast j (hjk.trans_lt hk)
  obtain ⟨l, hl, hvl⟩ := hleast k hk
  rw [hvi, hvl]
  have hil : i ≤ l := hl.mono hi (reached_anti (hin tot j k hjk hk))
  exact Nat.mul_le_mul_right _ (Nat.succ_le_succ hil)

theorem percentilesWith_right (hin : ∀ tot, InOrder (thr tot)) (hle : ∀ tot j, thr tot j ≤ tot)
    (htr : totreads = colTotal n rcol) (htw : totwrites = colTotal n wcol) (pv : Pctval) :
    (totreads ≠ 0 → ColumnRight n rcol (thr totreads)
      (percentilesWith thr n rcol wcol totreads totwrites pv).read) ∧
    (totwrites ≠ 0 → ColumnRight n wcol (thr totwrites)
      (percentilesWith thr n rcol wcol totreads totwrites pv).write) := by
  have hfst : (percentilesWith thr n rcol wcol totreads totwrites pv).read =
      (scan (thr (nonzero totreads)) rcol n ⟨0, 0, pv.read⟩).val :=
    congrArg Cursor.val (scanBoth_fst _ _ _ _ _ _ _)
  have hsnd : (percentilesWith thr n rcol wcol totreads totwrites pv).write =
      (scan (thr (nonzero totwrites)) wcol n ⟨0, 0, pv.write⟩).val :=
    congrArg Cursor.val (scanBoth_snd _ _ _ _ _ _ _)
  rw [hfst, hsnd]
  exact ⟨fun hne => column_right hin hle htr hne _, fun hne => column_right hin hle htw hne _⟩

theorem columnVal_right (htot : tot = colTotal n col) (hne : tot ≠ 0) (val : ℕ → ℕ) :
    ColumnRight n col (threshold tot) (columnVal n col tot val) :=
  column_right threshold_inOrder (fun tot j => UInt64.le_iff_toNat_le.mpr (threshold_le tot j))
    htot hne val

theorem percentiles_least (htr : totreads = colTotal n rcol) (htw : totwrites = colTotal n wcol)
    (pv : Pctval) :
    (totreads ≠ 0 → ColumnRight n rcol (threshold totreads)
      (percentiles n rcol wcol totreads totwrites pv).read) ∧
    (totwrites ≠ 0 → ColumnRight n wcol (threshold totwrites)
      (percentiles n rcol wcol totreads totwrites pv).write) := by
  rw [← percentilesWith_threshold]
  exact percentilesWith_right threshold_inOrder
    (fun tot j => UInt64.le_iff_toNat_le.mpr (threshold_le tot j)) htr htw pv

/-- **The percentiles are right.** With `pct[j] = N - ⌊N * q_j⌋`, one pass over the histogram sets
the five values of every column that has an I/O in it to the ends of the least buckets that reach
them.

The pass has one cursor for each column, and the inner `while` may set several percentiles in one
bucket. That it misses none rests on the order of the thresholds: one that is not reached holds
back only those that are not smaller. The running count is compared as the program keeps it, in 64
bits, and the total is that of the column. -/
theorem percentiles_exact (htr : totreads = colTotal nlatbkts rcol)
    (htw : totwrites = colTotal nlatbkts wcol) (pv : Pctval) :
    (totreads ≠ 0 → ColumnRight nlatbkts rcol (exactThreshold totreads)
      (percentilesWith exactThreshold nlatbkts rcol wcol totreads totwrites pv).read) ∧
    (totwrites ≠ 0 → ColumnRight nlatbkts wcol (exactThreshold totwrites)
      (percentilesWith exactThreshold nlatbkts rcol wcol totreads totwrites pv).write) :=
  percentilesWith_right exactThreshold_inOrder exactThreshold_le htr htw pv

/-- Two reads in different buckets, and no write. -/
theorem percentiles_exact_small :
    ColumnRight nlatbkts (fun i => single 3 i + single 7 i) (exactThreshold 2)
      (percentilesWith exactThreshold nlatbkts (fun i => single 3 i + single 7 i) (fun _ => 0)
        2 0 .zero).read := by
  have htot : (2 : UInt64) = colTotal nlatbkts fun i => single 3 i + single 7 i := by
    rw [colTotal_add, colTotal_single (by norm_num), colTotal_single (by norm_num)]
    rfl
  exact (percentiles_exact htot (colTotal_zero nlatbkts).symm .zero).1 (by decide)

end Percentiles

end Blockbench
