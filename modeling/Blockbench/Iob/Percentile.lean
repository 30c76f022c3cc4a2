import Mathlib.Data.Nat.Size
import Mathlib.Data.UInt
import Mathlib.Algebra.BigOperators.Group.Finset.Basic
import Mathlib.Logic.Function.Basic
import Blockbench.Iob.Types

/-!
# `Iob/Percentile.lean` — the percentiles of a latency histogram

Both tools compute the same five percentiles with the same loop, over their own copy of the
globals `percentile`, `pct` and `pctval`; `printbuckets` of either tool is built on this.

`pct` is computed in `double`. A `uint64_t` converted to `double`, and a product of two of them,
is rounded to 53 significant bits, ties to even; since only products with constants below one
occur, numerators over a fixed power of two carry this exactly (`round53`), and the conversion
back truncates.

`pct` is cleared at each call and `pctval` is not. What a column prints depends on earlier calls
through that alone, so the question is which of the five values a call sets: all of them, when
the column has an I/O in it (`scan_complete`), and none when it has not (`scan_empty`).
-/

set_option autoImplicit false

namespace Blockbench

open Finset

abbrev nPercent : ℕ := 5

/-! ## The thresholds -/

/-- A natural number rounded to 53 significant bits, ties to even. -/
def round53 (m : ℕ) : ℕ :=
  let s := m.size - 53
  let q := m / 2 ^ s
  let r := m % 2 ^ s
  (if 2 ^ s < 2 * r ∨ 2 ^ s = 2 * r ∧ q % 2 = 1 then q + 1 else q) * 2 ^ s

/-- `percentile`: the `double`s nearest to 0.5, 0.1, 0.01, 0.001 and 0.0001, as a numerator and
the exponent of the denominator. -/
def percentile : ℕ → ℕ × ℕ
  | 0 => (1, 1)
  | 1 => (3602879701896397, 55)
  | 2 => (5764607523034235, 59)
  | 3 => (1152921504606847, 60)
  | _ => (7378697629483821, 66)

/-- `(uint64_t)((double)tot * percentile[j])`. -/
def scaled (tot : UInt64) (j : ℕ) : ℕ :=
  round53 (round53 tot.toNat * (percentile j).1) / 2 ^ (percentile j).2

def threshold (tot : UInt64) (j : ℕ) : UInt64 := tot - UInt64.ofNat (scaled tot j)

/-- What rounding does: nothing up to 53 bits, and above that it goes to one of the two
neighbouring multiples of `p`, of which `m` holds `2 ^ 52` at least. -/
theorem round53_cases (m : ℕ) : round53 m = m ∨
    ∃ p, 0 < p ∧ 2 ^ 52 * p ≤ m ∧ m / p * p ≤ round53 m ∧ round53 m ≤ m / p * p + p := by
  unfold round53
  dsimp only
  rcases Nat.eq_zero_or_pos (m.size - 53) with hs | hs
  · left
    rw [hs, pow_zero, Nat.mod_one, Nat.div_one, if_neg (by omega), Nat.mul_one]
  · right
    have hlow : 2 ^ (m.size - 1) ≤ m := Nat.lt_size.mp (by omega)
    have hsplit : 2 ^ (m.size - 1) = 2 ^ 52 * 2 ^ (m.size - 53) := by
      rw [← pow_add]
      congr 1
      omega
    refine ⟨2 ^ (m.size - 53), by positivity, hsplit ▸ hlow, ?_, ?_⟩
    · exact Nat.mul_le_mul_right _ (by split <;> omega)
    · rw [← Nat.succ_mul]
      exact Nat.mul_le_mul_right _ (by split <;> omega)

theorem round53_le (m : ℕ) : 4 * round53 m ≤ 5 * m := by
  rcases round53_cases m with heq | ⟨p, -, hlow, -, hup⟩
  · omega
  · have hdiv := Nat.div_mul_le_self m p
    omega

theorem le_round53 (m : ℕ) : m ≤ 2 * round53 m := by
  rcases round53_cases m with heq | ⟨p, hp, hlow, hge, -⟩
  · omega
  · have hdiv := Nat.div_add_mod' m p
    have hmod := Nat.mod_lt m hp
    omega

theorem percentile_le (j : ℕ) : 2 * (percentile j).1 ≤ 2 ^ (percentile j).2 := by
  match j with
  | 0 | 1 | 2 | 3 => norm_num [percentile]
  | n + 4 => exact (by decide : 2 * (percentile 4).1 ≤ 2 ^ (percentile 4).2)

theorem scaled_le (tot : UInt64) (j : ℕ) : scaled tot j ≤ tot.toNat := by
  have hout := round53_le (round53 tot.toNat * (percentile j).1)
  have hin := Nat.mul_le_mul_right (percentile j).1 (round53_le tot.toNat)
  have hhalf := Nat.mul_le_mul_left tot.toNat (percentile_le j)
  apply Nat.div_le_of_le_mul
  rw [Nat.mul_comm (2 ^ _)]
  have hin' : 4 * (round53 tot.toNat * (percentile j).1) ≤
      5 * (tot.toNat * (percentile j).1) := by
    calc 4 * (round53 tot.toNat * (percentile j).1)
        = 4 * round53 tot.toNat * (percentile j).1 := (Nat.mul_assoc _ _ _).symm
      _ ≤ 5 * tot.toNat * (percentile j).1 := hin
      _ = 5 * (tot.toNat * (percentile j).1) := Nat.mul_assoc _ _ _
  have hhalf' : 2 * (tot.toNat * (percentile j).1) ≤ tot.toNat * 2 ^ (percentile j).2 := by
    calc 2 * (tot.toNat * (percentile j).1)
        = tot.toNat * (2 * (percentile j).1) := by rw [Nat.mul_left_comm]
      _ ≤ tot.toNat * 2 ^ (percentile j).2 := hhalf
  omega

theorem threshold_le (tot : UInt64) (j : ℕ) : (threshold tot j).toNat ≤ tot.toNat := by
  have hle := scaled_le tot j
  have hlt := UInt64.toNat_lt tot
  have hof : (UInt64.ofNat (scaled tot j)).toNat = scaled tot j :=
    UInt64.toNat_ofNat_of_lt' (lt_of_le_of_lt hle hlt)
  rw [threshold, CInt.toNat_sub_of_le (by rw [hof]; exact hle)]
  exact Nat.sub_le _ _

/-- The thresholds of a total of one, which is what an empty column is given. -/
theorem threshold_one (j : ℕ) : threshold 1 j = 1 := by
  have hzero : scaled 1 j = 0 := by
    match j with
    | 0 | 1 | 2 | 3 => decide
    | _ + 4 => exact (by decide : scaled 1 4 = 0)
  rw [threshold, hzero]
  rfl

/-! ## The loop -/

/-- One column's `rdtot`, `jr` and `pctval[·][0]`, or `wrtot`, `jw` and `pctval[·][1]`. -/
structure Cursor where
  tot : UInt64
  j : ℕ
  val : ℕ → ℕ

/-- `rdtot += …` -/
def Cursor.count (c : Cursor) (x : UInt64) : Cursor := { c with tot := c.tot + x }

/-- `pctval[jr][0] = v; jr++` -/
def Cursor.record (c : Cursor) (v : ℕ) : Cursor :=
  { c with j := c.j + 1, val := Function.update c.val c.j v }

@[simp] theorem Cursor.count_tot (c : Cursor) (x : UInt64) : (c.count x).tot = c.tot + x := rfl
@[simp] theorem Cursor.count_j (c : Cursor) (x : UInt64) : (c.count x).j = c.j := rfl
@[simp] theorem Cursor.count_val (c : Cursor) (x : UInt64) : (c.count x).val = c.val := rfl
@[simp] theorem Cursor.record_tot (c : Cursor) (v : ℕ) : (c.record v).tot = c.tot := rfl
@[simp] theorem Cursor.record_j (c : Cursor) (v : ℕ) : (c.record v).j = c.j + 1 := rfl
@[simp] theorem Cursor.record_val (c : Cursor) (v : ℕ) :
    (c.record v).val = Function.update c.val c.j v := rfl

/-- The inner `while`: at most `left` percentiles are left to set. -/
def Cursor.advance (pct : ℕ → UInt64) (v : ℕ) : ℕ → Cursor → Cursor
  | 0, c => c
  | left + 1, c => if pct c.j ≤ c.tot then Cursor.advance pct v left (c.record v) else c

/-- One turn of the loop over the buckets, for one column. -/
def Cursor.bucket (pct : ℕ → UInt64) (col : ℕ → UInt64) (c : Cursor) (i : ℕ) : Cursor :=
  (c.count (col i)).advance pct ((i + 1) * latdiv.toNat) (nPercent - c.j)

/-- The loop over the buckets; the two cursors move in the same loop and do not meet. -/
def scanBoth (rpct wpct rcol wcol : ℕ → UInt64) (n : ℕ) (s : Cursor × Cursor) :
    Cursor × Cursor :=
  (List.range n).foldl (fun s i => (s.1.bucket rpct rcol i, s.2.bucket wpct wcol i)) s

def scan (pct col : ℕ → UInt64) (n : ℕ) (c : Cursor) : Cursor :=
  (List.range n).foldl (Cursor.bucket pct col) c

theorem scanBoth_eq (rpct wpct rcol wcol : ℕ → UInt64) (n : ℕ) (s : Cursor × Cursor) :
    scanBoth rpct wpct rcol wcol n s = (scan rpct rcol n s.1, scan wpct wcol n s.2) := by
  induction n with
  | zero => rfl
  | succ n ih =>
    rw [scanBoth, scan, scan, List.range_succ, List.foldl_append, List.foldl_append,
      List.foldl_append]
    rw [scanBoth] at ih
    rw [ih]
    rfl

theorem scanBoth_fst (rpct wpct rcol wcol : ℕ → UInt64) (n : ℕ) (c d : Cursor) :
    (scanBoth rpct wpct rcol wcol n (c, d)).1 = scan rpct rcol n c := by
  rw [scanBoth_eq]

theorem scanBoth_snd (rpct wpct rcol wcol : ℕ → UInt64) (n : ℕ) (c d : Cursor) :
    (scanBoth rpct wpct rcol wcol n (c, d)).2 = scan wpct wcol n d := by
  rw [scanBoth_eq]

section Scan

variable {pct col : ℕ → UInt64} {c d : Cursor} {v left n : ℕ}

theorem scan_succ (pct col : ℕ → UInt64) (n : ℕ) (c : Cursor) :
    scan pct col (n + 1) c = (scan pct col n c).bucket pct col n := by
  rw [scan, List.range_succ, List.foldl_append]
  rfl

@[simp] theorem advance_tot : (c.advance pct v left).tot = c.tot := by
  induction left generalizing c with
  | zero => rfl
  | succ left ih =>
    rw [Cursor.advance]
    split
    · rw [ih, Cursor.record_tot]
    · rfl

theorem scan_tot : (scan pct col n c).tot = c.tot + ∑ i ∈ range n, col i := by
  induction n with
  | zero => simp [scan]
  | succ n ih =>
    rw [scan_succ, Cursor.bucket, advance_tot, Cursor.count_tot, ih, sum_range_succ, add_assoc]

/-- The `while` goes on until there is nothing left or a threshold is above the total. -/
theorem advance_stop : (c.advance pct v left).j = c.j + left ∨
    c.tot < pct (c.advance pct v left).j := by
  induction left generalizing c with
  | zero => exact .inl rfl
  | succ left ih =>
    rw [Cursor.advance]
    split
    · apply (@ih (c.record v)).imp_left
      intro h
      rw [h, Cursor.record_j]
      omega
    · rename_i hnot
      exact .inr (UInt64.not_le.mp hnot)

theorem advance_bounds : c.j ≤ (c.advance pct v left).j ∧
    (c.advance pct v left).j ≤ c.j + left := by
  induction left generalizing c with
  | zero => exact ⟨le_rfl, le_rfl⟩
  | succ left ih =>
    rw [Cursor.advance]
    split
    · have hb := @ih (c.record v)
      rw [Cursor.record_j] at hb
      omega
    · exact ⟨le_rfl, Nat.le_add_right _ _⟩

theorem scan_bounds (hc : c.j ≤ nPercent) (n : ℕ) :
    c.j ≤ (scan pct col n c).j ∧ (scan pct col n c).j ≤ nPercent := by
  induction n with
  | zero => exact ⟨le_rfl, hc⟩
  | succ n ih =>
    rw [scan_succ, Cursor.bucket]
    have hb := @advance_bounds pct ((scan pct col n c).count (col n)) ((n + 1) * latdiv.toNat)
      (nPercent - (scan pct col n c).j)
    rw [Cursor.count_j] at hb
    omega

/-! ### What a call sets -/

/-- Two cursors at the same place that agree on the values set so far. -/
structure Agree (c d : Cursor) : Prop where
  tot : c.tot = d.tot
  j : c.j = d.j
  val : ∀ k < c.j, c.val k = d.val k

theorem Agree.count (h : Agree c d) (x : UInt64) : Agree (c.count x) (d.count x) :=
  ⟨by rw [Cursor.count_tot, Cursor.count_tot, h.tot], h.j, h.val⟩

theorem Agree.record (h : Agree c d) (v : ℕ) : Agree (c.record v) (d.record v) := by
  refine ⟨h.tot, by rw [Cursor.record_j, Cursor.record_j, h.j], fun k hk => ?_⟩
  rw [Cursor.record_j] at hk
  rw [Cursor.record_val, Cursor.record_val, ← h.j]
  by_cases hkj : k = c.j
  · rw [hkj, Function.update_self, Function.update_self]
  · rw [Function.update_of_ne hkj, Function.update_of_ne hkj]
    exact h.val k (by omega)

theorem Agree.advance (h : Agree c d) :
    Agree (c.advance pct v left) (d.advance pct v left) := by
  induction left generalizing c d with
  | zero => exact h
  | succ left ih =>
    rw [Cursor.advance, Cursor.advance, ← h.tot, ← h.j]
    split
    · exact ih (h.record v)
    · exact h

theorem Agree.scan (h : Agree c d) (n : ℕ) :
    Agree (Blockbench.scan pct col n c) (Blockbench.scan pct col n d) := by
  induction n with
  | zero => exact h
  | succ n ih =>
    rw [scan_succ, scan_succ, Cursor.bucket, Cursor.bucket, ih.j]
    exact (ih.count (col n)).advance

/-- **A column with nothing in it sets nothing**, whatever was left there before. -/
theorem scan_empty (hcol : ∀ i < n, col i = 0) (htot : c.tot = 0) (hpct : pct c.j ≠ 0) :
    scan pct col n c = c := by
  induction n with
  | zero => rfl
  | succ n ih =>
    have hcount : c.count 0 = c := by
      rw [Cursor.count, UInt64.add_zero]
    rw [scan_succ, ih fun i hi => hcol i (by omega), Cursor.bucket, hcol n (Nat.lt_succ_self n),
      hcount]
    cases nPercent - c.j with
    | zero => rfl
    | succ left =>
      rw [Cursor.advance, if_neg]
      rw [htot]
      exact fun hle => hpct (UInt64.le_zero_iff.mp hle)

/-- The turn in which the running total comes to every threshold sets what is left. -/
theorem bucket_complete {i : ℕ} (hc : c.j ≤ nPercent)
    (hreach : ∀ j < nPercent, pct j ≤ c.tot + col i) :
    (c.bucket pct col i).j = nPercent := by
  rw [Cursor.bucket]
  have hb := @advance_bounds pct (c.count (col i)) ((i + 1) * latdiv.toNat) (nPercent - c.j)
  rcases @advance_stop pct (c.count (col i)) ((i + 1) * latdiv.toNat) (nPercent - c.j) with h | h
  · rw [h, Cursor.count_j]
    omega
  · rw [Cursor.count_j] at hb
    refine le_antisymm (by omega) (Nat.le_of_not_lt fun hlt => ?_)
    exact absurd h (UInt64.not_lt.mpr (hreach _ hlt))

/-- **A column whose running total comes to every threshold sets all the values.** -/
theorem scan_complete {i : ℕ} (hi : i < n) (hc : c.j ≤ nPercent)
    (hreach : ∀ j < nPercent, pct j ≤ c.tot + ∑ k ∈ range (i + 1), col k) :
    (scan pct col n c).j = nPercent := by
  induction n with
  | zero => exact absurd hi (Nat.not_lt_zero i)
  | succ n ih =>
    rw [scan_succ]
    rcases Nat.lt_succ_iff_lt_or_eq.mp hi with hlt | rfl
    · -- the values are set already, and later turns do not go back
      rw [Cursor.bucket, ih hlt, Nat.sub_self]
      exact ih hlt
    · apply bucket_complete (scan_bounds hc i).2
      intro j hj
      rw [scan_tot, add_assoc, ← sum_range_succ]
      exact hreach j hj

theorem advance_keeps {k : ℕ} (hk : k < c.j) : (c.advance pct v left).val k = c.val k := by
  induction left generalizing c with
  | zero => rfl
  | succ left ih =>
    rw [Cursor.advance]
    split
    · have hk' : k < (c.record v).j := by
        rw [Cursor.record_j]
        exact Nat.lt_succ_of_lt hk
      rw [ih hk', Cursor.record_val, Function.update_of_ne hk.ne]
    · rfl

/-- A turn that finds every threshold left at or below the total sets the rest to its own
latency. -/
theorem advance_sets {k : ℕ} (hk : c.j ≤ k) (hlt : k < c.j + left)
    (hall : ∀ j, c.j ≤ j → j < c.j + left → pct j ≤ c.tot) :
    (c.advance pct v left).val k = v := by
  induction left generalizing c with
  | zero => exact absurd hlt (Nat.not_lt.mpr hk)
  | succ left ih =>
    rw [Cursor.advance, if_pos (hall c.j le_rfl (by omega))]
    by_cases hkj : k = c.j
    · have hset : k < (c.record v).j := by
        rw [Cursor.record_j]
        omega
      rw [advance_keeps hset, Cursor.record_val, hkj, Function.update_self]
    · refine ih ?_ ?_ fun j hj hj' => ?_
      · rw [Cursor.record_j]
        omega
      · rw [Cursor.record_j]
        omega
      · rw [Cursor.record_j] at hj hj'
        exact hall j (by omega) (by omega)

end Scan

/-! ## One column -/

/-- A total of zero is replaced by one. -/
def nonzero (tot : UInt64) : UInt64 := if tot = 0 then 1 else tot

/-- A column's `pctval` after a call, over a histogram of `n` buckets. -/
def columnVal (n : ℕ) (col : ℕ → UInt64) (tot : UInt64) (val : ℕ → ℕ) : ℕ → ℕ :=
  (scan (threshold (nonzero tot)) col n ⟨0, 0, val⟩).val

/-- The number of I/Os in a column, as a loop that adds them up in 64 bits finds it. -/
def colTotal (n : ℕ) (col : ℕ → UInt64) : UInt64 := ∑ i ∈ range n, col i

def Occupied (n : ℕ) (col : ℕ → UInt64) : Prop := ∃ i < n, col i ≠ 0

section Column

variable {n : ℕ} {col : ℕ → UInt64} {tot : UInt64}

theorem colTotal_zero (n : ℕ) : colTotal n (fun _ => 0) = 0 := sum_const_zero

theorem colTotal_add (n : ℕ) (f g : ℕ → UInt64) :
    colTotal n (fun i => f i + g i) = colTotal n f + colTotal n g := sum_add_distrib

theorem colTotal_sub (n : ℕ) (f g : ℕ → UInt64) :
    colTotal n (fun i => f i - g i) = colTotal n f - colTotal n g := sum_sub_distrib f g

theorem colTotal_one {n b : ℕ} (hb : b < n) (p : Prop) [Decidable p] :
    colTotal n (fun i => if i = b ∧ p then 1 else 0) = if p then 1 else 0 := by
  rw [colTotal]
  by_cases hp : p
  · rw [if_pos hp]
    refine (sum_eq_single b (fun i _ hi => if_neg fun h => hi h.1)
      fun h => absurd (Finset.mem_range.mpr hb) h).trans ?_
    exact if_pos ⟨rfl, hp⟩
  · rw [if_neg hp]
    exact sum_eq_zero fun i _ => if_neg fun h => hp h.2

/-- In a column with an I/O in it the running total comes to every threshold: at the last bucket
when the total is not zero, and at the first I/O when the total has wrapped to zero and counts as
one. -/
theorem reaches_thresholds (hne : Occupied n col) (htot : tot = colTotal n col) :
    ∃ i < n, ∀ j < nPercent, threshold (nonzero tot) j ≤ 0 + ∑ k ∈ range (i + 1), col k := by
  by_cases hz : tot = 0
  · have hex : ∃ i, i < n ∧ col i ≠ 0 := hne
    obtain ⟨hlt, hfirst⟩ := Nat.find_spec hex
    refine ⟨Nat.find hex, hlt, fun j _ => ?_⟩
    have hbefore : ∑ k ∈ range (Nat.find hex), col k = 0 := by
      apply sum_eq_zero
      intro k hk
      have hk' := Finset.mem_range.mp hk
      by_contra hcol
      exact Nat.find_min hex hk' ⟨lt_trans hk' hlt, hcol⟩
    have hpos : (col (Nat.find hex)).toNat ≠ 0 := fun h => hfirst (CInt.eq_zero_iff.mpr h)
    have hone : (1 : UInt64).toNat = 1 := rfl
    rw [nonzero, if_pos hz, threshold_one, zero_add, sum_range_succ, hbefore, zero_add,
      UInt64.le_iff_toNat_le]
    omega
  · obtain ⟨b, hb, _⟩ := hne
    have hlast : n - 1 + 1 = n := Nat.sub_add_cancel (Nat.one_le_of_lt hb)
    refine ⟨n - 1, Nat.sub_lt (Nat.zero_lt_of_lt hb) Nat.one_pos, fun j _ => ?_⟩
    rw [nonzero, if_neg hz, zero_add, hlast, ← colTotal, ← htot, UInt64.le_iff_toNat_le]
    exact threshold_le tot j

/-- **A column with an I/O in it prints the same whatever was left in `pctval`.** Its running
count comes to the total, and no threshold is above the total, so at the last bucket that has an
I/O every value has been set in this call. -/
theorem columnVal_of_occupied (hne : Occupied n col) (htot : tot = colTotal n col)
    (val val' : ℕ → ℕ) {k : ℕ} (hk : k < nPercent) :
    columnVal n col tot val k = columnVal n col tot val' k := by
  obtain ⟨i, hi, hreach⟩ := reaches_thresholds hne htot
  have hagree : Agree ⟨0, 0, val⟩ ⟨0, 0, val'⟩ :=
    ⟨rfl, rfl, fun k hk => absurd hk (Nat.not_lt_zero k)⟩
  have hall : (scan (threshold (nonzero tot)) col n ⟨0, 0, val⟩).j = nPercent :=
    scan_complete hi (Nat.zero_le _) hreach
  apply (hagree.scan n).val k
  rw [hall]
  exact hk

/-- **An empty column prints what was left in `pctval`.** Its total is made one so that nothing is
divided by zero, but its running count stays at zero and comes to no threshold. -/
theorem columnVal_of_empty (hempty : ¬ Occupied n col) (htot : tot = colTotal n col)
    (val : ℕ → ℕ) : columnVal n col tot val = val := by
  have hcol : ∀ i < n, col i = 0 := by
    intro i hi
    by_contra h
    exact hempty ⟨i, hi, h⟩
  have hz : tot = 0 := htot.trans (sum_eq_zero fun i hi => hcol i (Finset.mem_range.mp hi))
  have hfirst : threshold (nonzero tot) 0 ≠ 0 := by
    rw [nonzero, if_pos hz, threshold_one]
    decide
  rw [columnVal, scan_empty hcol rfl hfirst]

def single (b i : ℕ) : UInt64 := if i = b then 1 else 0

theorem colTotal_single {b : ℕ} (hb : b < n) : colTotal n (single b) = 1 :=
  (sum_eq_single b (fun _ _ hi => if_neg hi)
    fun h => absurd (Finset.mem_range.mpr hb) h).trans (if_pos rfl)

theorem occupied_single {b : ℕ} (hb : b < n) : Occupied n (single b) :=
  ⟨b, hb, by rw [single, if_pos rfl]; decide⟩

/-- The turn of the only I/O sets all five values to the end of its bucket. -/
theorem bucket_single {b : ℕ} {c : Cursor} (hj : c.j = 0) (htot : c.tot = 0) :
    (c.bucket (fun _ => 1) (single b) b).j = nPercent ∧
      ∀ k < nPercent, (c.bucket (fun _ => 1) (single b) b).val k = (b + 1) * latdiv.toNat := by
  have hone : c.tot + single b b = 1 := by
    rw [htot, single, if_pos rfl, zero_add]
  refine ⟨bucket_complete (hj ▸ Nat.zero_le _) fun j _ => ?_, fun k hk => ?_⟩
  · exact hone ▸ UInt64.le_refl _
  · refine advance_sets ?_ ?_ fun j _ _ => ?_
    · rw [Cursor.count_j, hj]
      exact Nat.zero_le k
    · rw [Cursor.count_j, hj]
      exact (Nat.zero_add _).symm ▸ hk
    · rw [Cursor.count_tot, hone]
      exact UInt64.le_refl 1

/-- One I/O in bucket `b` sets all five values to the end of that bucket. -/
theorem columnVal_single {b : ℕ} (hb : b < n) (val : ℕ → ℕ) {k : ℕ} (hk : k < nPercent) :
    columnVal n (single b) 1 val k = (b + 1) * latdiv.toNat := by
  have hthr : threshold (nonzero 1) = fun _ => 1 := funext threshold_one
  have hbefore : scan (fun _ => 1) (single b) b ⟨0, 0, val⟩ = ⟨0, 0, val⟩ :=
    scan_empty (fun i hi => if_neg hi.ne) rfl (by decide)
  -- the later buckets find nothing left to set
  have hlater : ∀ m, b + 1 ≤ m →
      (scan (fun _ => 1) (single b) m ⟨0, 0, val⟩).j = nPercent ∧
        ∀ k < nPercent,
          (scan (fun _ => 1) (single b) m ⟨0, 0, val⟩).val k = (b + 1) * latdiv.toNat := by
    intro m hm
    induction m, hm using Nat.le_induction with
    | base =>
      rw [scan_succ, hbefore]
      exact bucket_single rfl rfl
    | succ m _ ih =>
      rw [scan_succ, Cursor.bucket, ih.1, Nat.sub_self]
      exact ih
  rw [columnVal, hthr]
  exact (hlater n hb).2 k hk

end Column

/-! ## One call -/

structure Pctval where
  read : ℕ → ℕ
  write : ℕ → ℕ

def Pctval.zero : Pctval := ⟨fun _ => 0, fun _ => 0⟩

/-- What `printbuckets` does to `pctval`, for two columns of `n` buckets and their totals. -/
def percentiles (n : ℕ) (rcol wcol : ℕ → UInt64) (totreads totwrites : UInt64) (pv : Pctval) :
    Pctval :=
  let s := scanBoth (threshold (nonzero totreads)) (threshold (nonzero totwrites)) rcol wcol n
    (⟨0, 0, pv.read⟩, ⟨0, 0, pv.write⟩)
  ⟨s.1.val, s.2.val⟩

/-- The five lines of percentiles, in microseconds. -/
def Pctval.lines (pv : Pctval) : List (ℕ × ℕ) :=
  (List.range nPercent).map fun i => (pv.read i / 1000, pv.write i / 1000)

section Percentiles

variable {n : ℕ} {rcol wcol : ℕ → UInt64} {totreads totwrites : UInt64} {pv pv' : Pctval}

@[simp] theorem percentiles_read :
    (percentiles n rcol wcol totreads totwrites pv).read = columnVal n rcol totreads pv.read :=
  congrArg Cursor.val (scanBoth_fst _ _ _ _ _ _ _)

@[simp] theorem percentiles_write :
    (percentiles n rcol wcol totreads totwrites pv).write =
      columnVal n wcol totwrites pv.write :=
  congrArg Cursor.val (scanBoth_snd _ _ _ _ _ _ _)

def SameValues (pv pv' : Pctval) : Prop :=
  ∀ k < nPercent, pv.read k = pv'.read k ∧ pv.write k = pv'.write k

theorem SameValues.lines (h : SameValues pv pv') : pv.lines = pv'.lines := by
  apply List.map_congr_left
  intro k hk
  obtain ⟨hread, hwrite⟩ := h k (List.mem_range.mp hk)
  rw [hread, hwrite]

theorem first_of_lines (h : pv.lines = pv'.lines) :
    pv.read 0 / 1000 = pv'.read 0 / 1000 ∧ pv.write 0 / 1000 = pv'.write 0 / 1000 := by
  have hhead := congrArg List.head? h
  exact Prod.mk.injEq _ _ _ _ ▸ Option.some.inj hhead

/-- **With an I/O in both columns nothing that was left in `pctval` is printed.** -/
theorem percentiles_of_occupied (hr : Occupied n rcol) (hw : Occupied n wcol)
    (htr : totreads = colTotal n rcol) (htw : totwrites = colTotal n wcol) (pv pv' : Pctval) :
    SameValues (percentiles n rcol wcol totreads totwrites pv)
      (percentiles n rcol wcol totreads totwrites pv') := by
  intro k hk
  rw [percentiles_read, percentiles_read, percentiles_write, percentiles_write]
  exact ⟨columnVal_of_occupied hr htr _ _ hk, columnVal_of_occupied hw htw _ _ hk⟩

/-- If two `pctval`s that differ in both columns give the same lines, then both columns have an
I/O in them. -/
theorem occupied_of_lines (htr : totreads = colTotal n rcol) (htw : totwrites = colTotal n wcol)
    (hread : pv.read 0 / 1000 ≠ pv'.read 0 / 1000)
    (hwrite : pv.write 0 / 1000 ≠ pv'.write 0 / 1000)
    (h : (percentiles n rcol wcol totreads totwrites pv).lines =
      (percentiles n rcol wcol totreads totwrites pv').lines) :
    Occupied n rcol ∧ Occupied n wcol := by
  have hfirst := first_of_lines h
  rw [percentiles_read, percentiles_read, percentiles_write, percentiles_write] at hfirst
  constructor
  · by_contra hempty
    rw [columnVal_of_empty hempty htr, columnVal_of_empty hempty htr] at hfirst
    exact hread hfirst.1
  · by_contra hempty
    rw [columnVal_of_empty hempty htw, columnVal_of_empty hempty htw] at hfirst
    exact hwrite hfirst.2

/-- A call for one I/O of each kind in bucket `b` leaves the end of that bucket in all ten
values. -/
theorem percentiles_single {b : ℕ} (hb : b < n) {k : ℕ} (hk : k < nPercent) (pv : Pctval) :
    (percentiles n (single b) (single b) 1 1 pv).read k = (b + 1) * latdiv.toNat ∧
      (percentiles n (single b) (single b) 1 1 pv).write k = (b + 1) * latdiv.toNat := by
  rw [percentiles_read, percentiles_write]
  exact ⟨columnVal_single hb _ hk, columnVal_single hb _ hk⟩

end Percentiles

end Blockbench
