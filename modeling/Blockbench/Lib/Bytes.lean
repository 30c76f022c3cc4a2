import Mathlib.Algebra.BigOperators.Group.Finset.Basic
import Mathlib.Algebra.Order.Ring.Nat

/-!
# `Bytes` — a memory of bytes

A memory is its contents, by address. All that is done to it is copying a run of bytes in, of
which filling and storing a word are instances; `copy_inside` and `copy_outside` say what it
then holds. `load64_eq` reads a word back from eight bytes, lowest first.
-/

set_option autoImplicit false

open Finset

namespace Bytes

abbrev Mem := ℕ → UInt8

/-- `memcpy` of `n` bytes to `a`. -/
def copy (mem : Mem) (a n : ℕ) (src : ℕ → UInt8) : Mem := fun x =>
  if a ≤ x ∧ x < a + n then src (x - a) else mem x

/-- `memset` of `n` bytes at `a`. -/
def fill (mem : Mem) (a n : ℕ) (b : UInt8) : Mem := copy mem a n fun _ => b

def byteOf (w : UInt64) (i : ℕ) : UInt8 := UInt8.ofNat (w.toNat / 256 ^ i)

def store64 (mem : Mem) (a : ℕ) (w : UInt64) : Mem := copy mem a 8 (byteOf w)

def store32 (mem : Mem) (a : ℕ) (w : UInt32) : Mem := copy mem a 4 (byteOf w.toUInt64)

def load64 (mem : Mem) (a : ℕ) : UInt64 :=
  UInt64.ofNat (∑ i ∈ range 8, (mem (a + i)).toNat * 256 ^ i)

variable {mem : Mem} {a n x i : ℕ} {src : ℕ → UInt8} {w : UInt64}

theorem copy_inside (hi : i < n) : copy mem a n src (a + i) = src i := by
  unfold copy
  rw [if_pos ⟨Nat.le_add_right _ _, by omega⟩, Nat.add_sub_cancel_left]

theorem copy_outside (h : x < a ∨ a + n ≤ x) : copy mem a n src x = mem x :=
  if_neg (by omega)

theorem store64_inside (hi : i < 8) : store64 mem a w (a + i) = byteOf w i := copy_inside hi

theorem store64_outside (h : x < a ∨ a + 8 ≤ x) : store64 mem a w x = mem x := copy_outside h

theorem store32_inside {w : UInt32} (hi : i < 4) :
    store32 mem a w (a + i) = byteOf w.toUInt64 i := copy_inside hi

theorem store32_outside {w : UInt32} (h : x < a ∨ a + 4 ≤ x) : store32 mem a w x = mem x :=
  copy_outside h

theorem sum_digits (v b k : ℕ) : ∑ i ∈ range k, v / b ^ i % b * b ^ i = v % b ^ k := by
  induction k with
  | zero => rw [sum_range_zero, Nat.pow_zero, Nat.mod_one]
  | succ k ih => rw [sum_range_succ, ih, Nat.mod_pow_succ, Nat.mul_comm]

/-- **A word is read back** from the bytes it was stored as. -/
theorem load64_eq (h : ∀ i < 8, mem (a + i) = byteOf w i) : load64 mem a = w := by
  have hbyte : ∀ i ∈ range 8,
      (mem (a + i)).toNat * 256 ^ i = w.toNat / 256 ^ i % 256 * 256 ^ i := fun i hi => by
    rw [h i (mem_range.mp hi), byteOf, UInt8.toNat_ofNat']
  have hfit : w.toNat % 256 ^ 8 = w.toNat := Nat.mod_eq_of_lt w.toNat_lt
  unfold load64
  rw [sum_congr rfl hbyte, sum_digits, hfit, UInt64.ofNat_toNat]

theorem word_ext {w w' : UInt64} (h : ∀ i < 8, byteOf w i = byteOf w' i) : w = w' := by
  have hw : load64 (byteOf w) 0 = w := by
    apply load64_eq
    intro i _
    rw [Nat.zero_add]
  have hw' : load64 (byteOf w) 0 = w' := by
    apply load64_eq
    intro i hi
    rw [Nat.zero_add, h i hi]
  exact hw.symm.trans hw'

end Bytes
