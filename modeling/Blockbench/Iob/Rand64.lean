import Mathlib.Logic.Function.Basic
import Blockbench.Lib.CInt

/-!
# `Iob/Rand64.lean` — `IOB_RAND64`

A 64-bit number is drawn as two of 32 bits. `mrand48` returns them signed, in a `long`, and the
macro converts both to `uint64_t` before it shifts one and adds, so a negative low half takes
one from the high half. The low 32 bits of the sum are those of the low half whatever its sign,
and with the low half known the high one can be read off: nothing is lost
(`rand64_bijective`).
-/

set_option autoImplicit false

namespace Blockbench

open CInt

/-- `IOB_RAND64()`, from what the two calls of `mrand48` return. -/
def iobRand64 (hi lo : Int32) : UInt64 := (u64OfI32 hi <<< 32) + u64OfI32 lo

section Rand64

variable {hi lo hi' lo' : Int32}

theorem toNat_shift_u64OfI32 (hi : Int32) :
    (u64OfI32 hi <<< 32).toNat = 2 ^ 32 * hi.toUInt32.toNat := by
  have hshift : (32 : UInt64).toNat % 64 = 32 := rfl
  have hlt := hi.toUInt32.toNat_lt
  rw [UInt64.toNat_shiftLeft, hshift, Nat.shiftLeft_eq, toNat_u64OfI32_eq]
  split <;> omega

/-- What a negative low half takes from the high one. -/
def borrow (lo : Int32) : ℕ := if lo.toUInt32.toNat < 2 ^ 31 then 0 else 2 ^ 32 - 1

theorem toNat_iobRand64 (hi lo : Int32) : (iobRand64 hi lo).toNat =
    2 ^ 32 * ((hi.toUInt32.toNat + borrow lo) % 2 ^ 32) + lo.toUInt32.toNat := by
  have hhi := hi.toUInt32.toNat_lt
  have hlo := lo.toUInt32.toNat_lt
  rw [iobRand64, UInt64.toNat_add, toNat_shift_u64OfI32, toNat_u64OfI32_eq, borrow]
  split <;> omega

theorem toUInt32_inj_of_toNat (h : lo.toUInt32.toNat = lo'.toUInt32.toNat) : lo = lo' := by
  have h32 : lo.toUInt32 = lo'.toUInt32 := UInt32.toNat_inj.mp h
  rw [← Int32.toInt32_toUInt32 lo, h32, Int32.toInt32_toUInt32]

theorem iobRand64_inj (h : iobRand64 hi lo = iobRand64 hi' lo') : hi = hi' ∧ lo = lo' := by
  have hnat := congrArg UInt64.toNat h
  rw [toNat_iobRand64, toNat_iobRand64] at hnat
  have hlo := lo.toUInt32.toNat_lt
  have hlo' := lo'.toUInt32.toNat_lt
  have hsame : lo = lo' := toUInt32_inj_of_toNat (by omega)
  subst hsame
  have hhi := hi.toUInt32.toNat_lt
  have hhi' := hi'.toUInt32.toNat_lt
  exact ⟨toUInt32_inj_of_toNat (by omega), rfl⟩

/-- **Every number is drawn.** -/
theorem exists_iobRand64 (v : UInt64) : ∃ hi lo, iobRand64 hi lo = v := by
  have hv := v.toNat_lt
  have hof : ∀ n < 2 ^ 32, (UInt32.ofNat n).toInt32.toUInt32.toNat = n := by
    intro n hn
    rw [UInt32.toUInt32_toInt32, UInt32.toNat_ofNat_of_lt' hn]
  obtain ⟨lo, hlo⟩ : ∃ lo : Int32, lo.toUInt32.toNat = v.toNat % 2 ^ 32 :=
    ⟨_, hof _ (Nat.mod_lt _ (by norm_num))⟩
  -- give back what the low half takes
  obtain ⟨hi, hhi⟩ : ∃ hi : Int32,
      hi.toUInt32.toNat = (v.toNat / 2 ^ 32 + (2 ^ 32 - borrow lo)) % 2 ^ 32 :=
    ⟨_, hof _ (Nat.mod_lt _ (by norm_num))⟩
  refine ⟨hi, lo, ?_⟩
  rw [← UInt64.toNat_inj, toNat_iobRand64, hhi, hlo]
  have hborrow : borrow lo ≤ 2 ^ 32 := by
    unfold borrow
    split <;> norm_num
  omega

/-- **`IOB_RAND64` loses no randomness**: each 64-bit number is drawn by exactly one pair of
values of `mrand48`.

The high half is not the first draw itself. A negative second draw is extended to 64 bits and
takes one from it, so the pair that makes a number has its first draw one higher where the low
half has its top bit set (`borrow`). -/
theorem rand64_bijective : Function.Bijective fun p : Int32 × Int32 => iobRand64 p.1 p.2 := by
  constructor
  · rintro ⟨hi, lo⟩ ⟨hi', lo'⟩ h
    obtain ⟨rfl, rfl⟩ := iobRand64_inj h
    rfl
  · intro v
    obtain ⟨hi, lo, h⟩ := exists_iobRand64 v
    exact ⟨(hi, lo), h⟩

/-- A negative low half borrows. -/
example : iobRand64 1 (-1) = 0xffffffff := by decide

end Rand64

end Blockbench
