import Mathlib.Algebra.BigOperators.ModEq
import Mathlib.Algebra.Order.BigOperators.Group.Finset
import Mathlib.Algebra.Order.Group.Unbundled.Int
import Mathlib.Algebra.Ring.GeomSum
import Mathlib.Data.Int.ModEq
import Mathlib.Data.Matrix.Mul
import Mathlib.RingTheory.Coprime.Lemmas
import Mathlib.Tactic.Linarith
import Mathlib.Tactic.LinearCombination
import Mathlib.Tactic.Ring

/-!
# `Lcg` — linear congruential generators

A generator is the map `x ↦ a * x + c`, read modulo a number. Two things are proved of it, and
together they say that a stretch of its output does not come back.

* Modulo `2 ^ k`, with `a` one above a multiple of four and `c` odd, the states of a run are all
  different until there are no others left (`modEq_of_iterate`).
* What a program sees of a state is often only its top bits. A `Window` is a proof that the
  output of `n` states in a row is enough to tell the first of them: `n` relations
  `∑ j, U i j * a ^ j ≡ 0` with small coefficients. Two runs with the same output differ by
  little in each state; so each relation holds of the differences as it stands, without the
  modulus, and the relations have only the zero solution (`Window.recovers`).

The iterates are integers and are reduced where they are looked at.
-/

set_option autoImplicit false

namespace Lcg

open Finset Matrix

def next (a c x : ℤ) : ℤ := a * x + c

section Iterates

variable {a c x y : ℤ}

theorem iterate_eq (n : ℕ) :
    (next a c)^[n] x = next (a ^ n) (c * ∑ i ∈ range n, a ^ i) x := by
  induction n with
  | zero => simp [next]
  | succ n ih =>
    rw [Function.iterate_succ_apply', ih, geom_sum_succ, pow_succ]
    unfold next
    ring

theorem iterate_sub (n : ℕ) : (next a c)^[n] x - (next a c)^[n] y = a ^ n * (x - y) := by
  rw [iterate_eq, iterate_eq]
  unfold next
  ring

theorem iterate_sub_self (n : ℕ) :
    (next a c)^[n] x - x = (∑ i ∈ range n, a ^ i) * ((a - 1) * x + c) := by
  rw [iterate_eq]
  unfold next
  linear_combination -x * mul_geom_sum a n

theorem iterate_mul (s n : ℕ) :
    (next a c)^[s * n] x = (next (a ^ s) (c * ∑ i ∈ range s, a ^ i))^[n] x := by
  have hstretch : (next a c)^[s] = next (a ^ s) (c * ∑ i ∈ range s, a ^ i) :=
    funext fun _ => iterate_eq s
  rw [Function.iterate_mul, hstretch]

end Iterates

/-! ## The period -/

section Period

variable {a c x : ℤ}

theorem pow_emod_four (ha : a % 4 = 1) (n : ℕ) : a ^ n % 4 = 1 := by
  have h : a ^ n ≡ 1 ^ n [ZMOD 4] := Int.ModEq.pow n ha
  rwa [one_pow] at h

theorem geom_emod_two (ha : a % 4 = 1) (n : ℕ) : (∑ i ∈ range n, a ^ i) % 2 = (n : ℤ) % 2 := by
  induction n with
  | zero => simp
  | succ n ih =>
    have hpow := pow_emod_four ha n
    rw [sum_range_succ]
    push_cast
    omega

theorem geom_two_mul (n : ℕ) :
    ∑ i ∈ range (2 * n), a ^ i = (∑ i ∈ range n, a ^ i) * (1 + a ^ n) := by
  rw [two_mul, sum_range_add]
  have hhalf : ∑ i ∈ range n, a ^ (n + i) = a ^ n * ∑ i ∈ range n, a ^ i := by
    rw [mul_sum]
    exact sum_congr rfl fun i _ => pow_add a n i
  rw [hhalf]
  ring

theorem dvd_of_dvd_mul_odd {k : ℕ} {s q : ℤ} (hq : q % 2 = 1) (h : 2 ^ k ∣ s * q) :
    2 ^ k ∣ s := by
  have hco : IsCoprime (2 : ℤ) q := ⟨-(q / 2), 1, by omega⟩
  exact hco.pow_left.dvd_of_dvd_mul_right h

theorem dvd_of_dvd_geom (ha : a % 4 = 1) (k n : ℕ) (h : 2 ^ k ∣ ∑ i ∈ range n, a ^ i) :
    2 ^ k ∣ n := by
  induction k generalizing n with
  | zero => simp
  | succ k ih =>
    have htwo : (2 : ℤ) ∣ ∑ i ∈ range n, a ^ i := (dvd_pow_self 2 k.succ_ne_zero).trans h
    have hparity := geom_emod_two ha n
    obtain ⟨m, rfl⟩ : ∃ m, n = 2 * m := ⟨n / 2, by omega⟩
    -- the second factor is twice an odd number
    have hpow := pow_emod_four ha m
    have hfactor : 1 + a ^ m = 2 * ((1 + a ^ m) / 2) := by omega
    rw [geom_two_mul, hfactor, mul_left_comm, pow_succ'] at h
    have hhalf := Int.dvd_of_mul_dvd_mul_left (by norm_num) h
    rw [pow_succ']
    exact Nat.mul_dvd_mul_left 2 (ih m (dvd_of_dvd_mul_odd (by omega) hhalf))

/-- **A run does not meet a state again until it has been through all of them**, for an odd
increment, a multiplier that is one more than a multiple of four, and a modulus that is a power of
two. The distance after `n` steps is a sum of `n` powers of the multiplier, in which two has the
exponent it has in `n`. -/
theorem modEq_of_iterate (ha : a % 4 = 1) (hc : c % 2 = 1) {k m n : ℕ}
    (h : (next a c)^[m] x ≡ (next a c)^[n] x [ZMOD 2 ^ k]) : m ≡ n [MOD 2 ^ k] := by
  wlog hle : m ≤ n generalizing m n
  · exact (this h.symm (Nat.le_of_not_le hle)).symm
  obtain ⟨d, rfl⟩ := Nat.exists_eq_add_of_le hle
  have hsplit : (next a c)^[m + d] x - (next a c)^[m] x =
      (∑ i ∈ range d, a ^ i) * (a ^ m * ((a - 1) * x + c)) := by
    rw [Function.iterate_add_apply, iterate_sub, iterate_sub_self]
    ring
  have hdvd := h.dvd
  rw [hsplit] at hdvd
  have hodd : a ^ m * ((a - 1) * x + c) % 2 = 1 := by
    have hpow := pow_emod_four ha m
    have heven : (a - 1) * x % 2 = 0 := by
      rw [Int.mul_emod, show (a - 1) % 2 = 0 by omega]
      simp
    rw [Int.mul_emod, show a ^ m % 2 = 1 by omega, show ((a - 1) * x + c) % 2 = 1 by omega]
    rfl
  have hd := dvd_of_dvd_geom ha k d (dvd_of_dvd_mul_odd hodd hdvd)
  rw [Nat.modEq_iff_dvd' (Nat.le_add_right m d), Nat.add_sub_cancel_left]
  exact hd

end Period

/-! ## What the output tells -/

/-- `n + 1` relations between the differences of two runs with multiplier `a`, with coefficients
so small that they hold without the modulus `M` where each difference is below `B`; and how they
combine to a multiple of the first difference. -/
structure Window (a M B : ℤ) (n : ℕ) where
  U : Matrix (Fin (n + 1)) (Fin (n + 1)) ℤ
  w : Fin (n + 1) → ℤ
  det : ℤ
  det_ne : det ≠ 0
  relation : ∀ i, M ∣ ∑ j, U i j * a ^ (j : ℕ)
  short : ∀ i, (B - 1) * ∑ j, |U i j| < M
  solves : w ᵥ* U = Pi.single 0 det

theorem abs_sub_lt_of_ediv_eq {p q B : ℤ} (hB : 0 < B) (h : p / B = q / B) : |p - q| < B := by
  have hp := Int.emod_add_mul_ediv p B
  have hq := Int.emod_add_mul_ediv q B
  have hp0 := Int.emod_nonneg p hB.ne'
  have hq0 := Int.emod_nonneg q hB.ne'
  have hpB := Int.emod_lt_of_pos p hB
  have hqB := Int.emod_lt_of_pos q hB
  rw [h] at hp
  rw [abs_lt]
  constructor <;> linarith

section Window

variable {a c M B x y : ℤ} {n : ℕ}

theorem Window.row_eq_zero (W : Window a M B n) {D : Fin (n + 1) → ℤ} {e : ℤ}
    (hD : ∀ j, D j ≡ a ^ (j : ℕ) * e [ZMOD M]) (hlt : ∀ j, |D j| < B) (i : Fin (n + 1)) :
    (W.U *ᵥ D) i = 0 := by
  have hrow : (W.U *ᵥ D) i = ∑ j, W.U i j * D j := rfl
  rw [hrow]
  apply Int.eq_zero_of_abs_lt_dvd (m := M)
  · rw [← Int.modEq_zero_iff_dvd]
    calc ∑ j, W.U i j * D j
        ≡ ∑ j, W.U i j * (a ^ (j : ℕ) * e) [ZMOD M] :=
          Int.ModEq.sum fun j _ => (hD j).mul_left _
      _ = (∑ j, W.U i j * a ^ (j : ℕ)) * e := by
          rw [sum_mul]
          exact sum_congr rfl fun j _ => (mul_assoc _ _ _).symm
      _ ≡ 0 [ZMOD M] := Int.modEq_zero_iff_dvd.mpr ((W.relation i).mul_right e)
  · calc |∑ j, W.U i j * D j|
        ≤ ∑ j, |W.U i j * D j| := abs_sum_le_sum_abs _ _
      _ ≤ ∑ j, (B - 1) * |W.U i j| := by
          apply sum_le_sum
          intro j _
          rw [abs_mul, mul_comm]
          exact mul_le_mul_of_nonneg_right (Int.le_sub_one_of_lt (hlt j)) (abs_nonneg _)
      _ = (B - 1) * ∑ j, |W.U i j| := (mul_sum _ _ _).symm
      _ < M := W.short i

/-- **The output of a window tells its first state**: two runs of which as many states have the
same top part start at the same number, modulo `M`. -/
theorem Window.recovers (W : Window a M B n) (hB : 0 < B)
    (h : ∀ j ≤ n, (next a c)^[j] x % M / B = (next a c)^[j] y % M / B) : x ≡ y [ZMOD M] := by
  let D : Fin (n + 1) → ℤ := fun j => (next a c)^[j] x % M - (next a c)^[j] y % M
  have hD : ∀ j, D j ≡ a ^ (j : ℕ) * (x - y) [ZMOD M] := by
    intro j
    rw [← iterate_sub (a := a) (c := c)]
    exact (Int.mod_modEq _ M).sub (Int.mod_modEq _ M)
  have hlt : ∀ j, |D j| < B := fun j =>
    abs_sub_lt_of_ediv_eq hB (h j (Nat.le_of_lt_succ j.isLt))
  have hrows : W.U *ᵥ D = 0 := funext fun i => W.row_eq_zero hD hlt i
  have hfirst : W.det * D 0 = 0 := by
    have hcomb := dotProduct_mulVec W.w W.U D
    rw [hrows, dotProduct_zero, W.solves, single_dotProduct] at hcomb
    exact hcomb.symm
  have hzero : D 0 = 0 := (mul_eq_zero.mp hfirst).resolve_left W.det_ne
  exact sub_eq_zero.mp hzero

/-- **Where a stretch of output stands in a run**: two stretches with the same top parts, in each
the states `s` apart, stand at the same place, as long as the run is no longer than the period. -/
theorem Window.position {s k p q : ℕ} (W : Window (a ^ s) (2 ^ k) B n) (ha : a % 4 = 1)
    (hc : c % 2 = 1) (hB : 0 < B)
    (h : ∀ j ≤ n, (next a c)^[p + s * j] x % 2 ^ k / B = (next a c)^[q + s * j] x % 2 ^ k / B) :
    p ≡ q [MOD 2 ^ k] := by
  apply modEq_of_iterate ha hc (x := x)
  apply W.recovers (c := c * ∑ i ∈ range s, a ^ i) hB
  intro j hj
  have hj := h j hj
  rwa [Nat.add_comm p, Nat.add_comm q, Function.iterate_add_apply, Function.iterate_add_apply,
    iterate_mul, iterate_mul] at hj

end Window

end Lcg
