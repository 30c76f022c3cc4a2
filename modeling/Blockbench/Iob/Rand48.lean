import Blockbench.Lib.Lcg
import Blockbench.Iob.Types
import Mathlib.LinearAlgebra.Matrix.Notation

/-!
# `Iob/Rand48.lean` — the generator

`mrand48` steps a state of 48 bits and returns the upper 32 of them. `iob_initdata` sets the
state with `seed48` and fills the pools with what comes out, so the pools are the same in every
run, and what they hold is a matter of arithmetic.

The pools keep less than `mrand48` returns: a byte of it, or some bits of each byte. Those are the
upper bits of the state modulo a smaller power of two, which is a generator as well. The three
windows say how much of such output tells where in the run it was made: two words, four bytes, or
thirteen times four bits.
-/

set_option autoImplicit false

namespace Blockbench

open Lcg

def Drand48.next (x : Drand48) : Drand48 :=
  ⟨(0x5DEECE66D * x.val + 0xB) % 2 ^ 48, Nat.mod_lt _ (by norm_num)⟩

/-- `mrand48()`: what it returns, and the state it leaves. -/
def mrand48 (x : Drand48) : Int32 × Drand48 :=
  ((UInt32.ofNat (x.next.val / 2 ^ 16)).toInt32, x.next)

/-- `seed48`: the first element is the lowest. -/
def seed48 (s0 s1 s2 : UInt16) : Drand48 :=
  ⟨2 ^ 32 * s2.toNat + 2 ^ 16 * s1.toNat + s0.toNat, by
    have h0 := s0.toNat_lt
    have h1 := s1.toNat_lt
    have h2 := s2.toNat_lt
    omega⟩

def Drand48.after (x : Drand48) (n : ℕ) : Drand48 := Drand48.next^[n] x

/-- What call `n` of `mrand48` returns, as an unsigned number. -/
def Drand48.draw (x : Drand48) (n : ℕ) : UInt32 := (mrand48 (x.after n)).1.toUInt32

section Draws

variable {x : Drand48} {n : ℕ}

@[simp] theorem Drand48.after_zero (x : Drand48) : x.after 0 = x := rfl

theorem Drand48.after_succ (x : Drand48) (n : ℕ) : (x.after n).next = x.after (n + 1) :=
  (Function.iterate_succ_apply' Drand48.next n x).symm

theorem Drand48.after_after (x : Drand48) (m n : ℕ) : (x.after m).after n = x.after (m + n) := by
  unfold Drand48.after
  rw [Nat.add_comm, Function.iterate_add_apply]

theorem Drand48.draw_after (x : Drand48) (m n : ℕ) : (x.after m).draw n = x.draw (m + n) := by
  unfold Drand48.draw
  rw [Drand48.after_after]

@[simp] theorem mrand48_snd (x : Drand48) : (mrand48 x).2 = x.after 1 := rfl

theorem Drand48.after_eq (x : Drand48) (n : ℕ) :
    ((x.after n).val : ℤ) = (Lcg.next 0x5DEECE66D 0xB)^[n] (x.val : ℤ) % 2 ^ 48 := by
  induction n with
  | zero =>
    have hx : x.val < 2 ^ 48 := x.isLt
    show (x.val : ℤ) = (x.val : ℤ) % 2 ^ 48
    omega
  | succ n ih =>
    have hval : ((x.after (n + 1)).val : ℤ) =
        Lcg.next 0x5DEECE66D 0xB ((x.after n).val : ℤ) % 2 ^ 48 := by
      rw [← Drand48.after_succ]
      unfold Drand48.next Lcg.next
      push_cast
      rfl
    have hmod : Lcg.next 0x5DEECE66D 0xB ((Lcg.next 0x5DEECE66D 0xB)^[n] (x.val : ℤ) % 2 ^ 48) ≡
        Lcg.next 0x5DEECE66D 0xB ((Lcg.next 0x5DEECE66D 0xB)^[n] (x.val : ℤ)) [ZMOD 2 ^ 48] :=
      ((Int.mod_modEq _ _).mul_left _).add_right _
    rw [hval, ih, Function.iterate_succ_apply']
    exact hmod

theorem Drand48.toNat_draw (x : Drand48) (n : ℕ) :
    (x.draw n).toNat = (x.after (n + 1)).val / 2 ^ 16 := by
  have hlt : (x.after (n + 1)).val < 2 ^ 48 := (x.after (n + 1)).isLt
  have hdraw : x.draw n = UInt32.ofNat ((x.after (n + 1)).val / 2 ^ 16) := by
    rw [← Drand48.after_succ]
    exact UInt32.toUInt32_toInt32 _
  rw [hdraw, UInt32.toNat_ofNat_of_lt']
  show _ < 2 ^ 32
  omega

/-- Bits `t` up to `k` of a state are the upper bits of the generator modulo `2 ^ k`. -/
theorem Drand48.bits_eq {t k : ℕ} (htk : t ≤ k) (hk : k ≤ 48) :
    (((x.after n).val / 2 ^ t % 2 ^ (k - t) : ℕ) : ℤ) =
      (Lcg.next 0x5DEECE66D 0xB)^[n] (x.val : ℤ) % 2 ^ k / 2 ^ t := by
  have hlow : (((x.after n).val % 2 ^ k : ℕ) : ℤ) =
      (Lcg.next 0x5DEECE66D 0xB)^[n] (x.val : ℤ) % 2 ^ k := by
    push_cast
    rw [Drand48.after_eq]
    exact Int.emod_emod_of_dvd _ (pow_dvd_pow 2 hk)
  have hpow : 2 ^ k = 2 ^ t * 2 ^ (k - t) := by rw [← pow_add, Nat.add_sub_cancel' htk]
  rw [← hlow, ← Nat.mod_mul_right_div_self, ← hpow]
  push_cast
  rfl

end Draws

/-! ## The windows -/

/-- Two words, every other one drawn. -/
def wordWindow : Window (0x5DEECE66D ^ 2) (2 ^ 48) (2 ^ 16) 1 where
  U := !![5155272, -15192712; -17786647, -2181761]
  w := ![2181761, -15192712]
  det := 2 ^ 48
  det_ne := by decide
  relation := by decide +kernel
  short := by decide +kernel
  solves := by decide +kernel

def byteWindow : Window (0x5DEECE66D ^ 1) (2 ^ 24) (2 ^ 16) 3 where
  U := !![-32, 3, 10, 35; -10, -28, -46, 4; 45, -39, 1, 17; 38, 71, -65, 40]
  w := ![-149486, -117345, 187310, 62928]
  det := 2 ^ 24
  det_ne := by decide
  relation := by decide +kernel
  short := by decide +kernel
  solves := by decide +kernel

/-- Thirteen times four bits, every other one drawn. -/
def maskWindow : Window (0x5DEECE66D ^ 2) (2 ^ 22) (2 ^ 18) 12 where
  U := !![
    -1, 1, 1, -1, 0, -1, -1, 1, -1, 2, -1, 0, 1;
    0, -1, 2, -1, 0, -2, -1, 2, 0, 0, 1, 0, 0;
    0, 0, 0, -1, 2, -1, 0, -2, -1, 2, 0, 0, 1;
    -1, 2, -1, 0, -2, -1, 2, 0, 0, 1, 0, 0, 0;
    0, 0, 0, 0, -1, 0, -3, 2, -1, 0, 1, 2, 0;
    0, 0, 1, -1, -1, 0, 2, 0, 1, -3, 0, 0, 1;
    0, -2, -2, 1, 1, -2, 1, 1, 0, 0, 2, 0, 0;
    -2, 0, -1, -1, 0, -2, -2, -1, 0, 1, 1, 0, -1;
    0, 0, -1, 2, -1, 0, -2, -1, 2, 0, 0, 1, 0;
    -1, -1, 0, 0, 0, 1, 0, 0, 1, 0, 1, 2, -3;
    0, 0, -2, -2, 2, 1, 1, -1, 2, 0, -1, 0, 0;
    1, -2, 0, -1, -1, 0, -1, -1, 1, 2, 2, 0, 0;
    0, 2, 0, 0, 2, 1, 2, 0, 1, -1, 2, -1, 0]
  w := ![-3063112, 2083309, 957076, 1276766, 662001, -1330128, -1003643, -916779, -36903,
    -839795, 728790, -265395, -392491]
  det := 2 ^ 22
  det_ne := by decide
  relation := by decide +kernel
  short := by decide +kernel
  solves := by decide +kernel

/-- **Output tells its place**: where two stretches of a run agree in bits `t` up to `k` of each
state, they stand at the same place modulo `2 ^ k`. -/
theorem Drand48.position {x : Drand48} {s t k n p q : ℕ}
    (W : Window (0x5DEECE66D ^ s) (2 ^ k) (2 ^ t) n) (htk : t ≤ k) (hk : k ≤ 48)
    (h : ∀ j ≤ n, (x.after (p + s * j)).val / 2 ^ t % 2 ^ (k - t) =
      (x.after (q + s * j)).val / 2 ^ t % 2 ^ (k - t)) : p ≡ q [MOD 2 ^ k] := by
  apply W.position (c := 0xB) (x := (x.val : ℤ)) (by norm_num) (by norm_num) (by positivity)
  intro j hj
  rw [← Drand48.bits_eq htk hk, ← Drand48.bits_eq htk hk, h j hj]

end Blockbench
