import Mathlib.Data.Nat.ModEq
import Mathlib.Data.UInt
import Mathlib.Tactic.NormNum

/-!
# `CInt` — C's integer conversions over Lean's fixed-width types

The arithmetic of `uint64_t`, `uint32_t` and `int` is `UInt64`'s, `UInt32`'s and `Int32`'s own.
What Lean does not do silently is C's *usual conversions*: an `int` operand next to a
`uint64_t` one is sign-extended, and an assignment to a narrower type keeps the low bits. These
two are named here, with the reading of each as a natural number; the rest of the file is the
wrap-free forms of the `UInt64` operations, which is how a bound turns machine arithmetic into
arithmetic.
-/

set_option autoImplicit false

namespace CInt

/-- An `int` converted to `uint64_t`: sign extension. -/
def u64OfI32 (i : Int32) : UInt64 := i.toInt64.toUInt64

/-- A `uint64_t` assigned to an `int`: the low 32 bits. -/
def i32OfU64 (x : UInt64) : Int32 := x.toUInt32.toInt32

theorem toNat_u64OfI32 {i : Int32} (h : 0 ≤ i.toInt) : (u64OfI32 i).toNat = i.toInt.toNat := by
  rw [u64OfI32, Int64.toNat_toUInt64_of_le, Int32.toNatClampNeg_toInt64]
  · rfl
  · rw [Int64.le_iff_toInt_le]
    simpa using h

/-- Sign extension read off the unsigned 32 bits: a set top bit adds the high half. -/
theorem toNat_u64OfI32_eq (i : Int32) :
    (u64OfI32 i).toNat =
      if i.toUInt32.toNat < 2 ^ 31 then i.toUInt32.toNat
      else i.toUInt32.toNat + (2 ^ 64 - 2 ^ 32) := by
  have hext : (u64OfI32 i).toNat = (i.toBitVec.signExtend 64).toNat := rfl
  have hlow : i.toUInt32.toNat = i.toBitVec.toNat := rfl
  have hlt := i.toBitVec.isLt
  rw [hext, hlow, BitVec.toNat_signExtend]
  simp only [BitVec.toNat_setWidth, BitVec.msb_eq_decide, decide_eq_true_eq]
  split <;> split <;> omega

theorem toNat_toUInt32_of_nonneg {i : Int32} (h : 0 ≤ i.toInt) :
    i.toUInt32.toNat = i.toInt.toNat := by
  rw [Int32.toNat_toUInt32_of_le]
  · rfl
  · rw [Int32.le_iff_toInt_le]
    exact h

/-- An `unsigned` assigned to an `int`: itself below `2^31`, and negative from there on. -/
theorem toInt_toInt32_eq (x : UInt32) :
    x.toInt32.toInt = if x.toNat < 2 ^ 31 then (x.toNat : ℤ) else x.toNat - 2 ^ 32 := by
  have h : x.toInt32.toInt = x.toBitVec.toInt := rfl
  rw [h, BitVec.toInt_eq_toNat_cond]
  have hlow : x.toBitVec.toNat = x.toNat := rfl
  rw [hlow]
  split <;> split <;> omega

/-- An `int` with a clear top bit is the same number as an `unsigned`. -/
theorem toInt_of_lt {i : Int32} (h : i.toUInt32.toNat < 2 ^ 31) : i.toInt = i.toUInt32.toNat := by
  have hval := toInt_toInt32_eq i.toUInt32
  rwa [Int32.toInt32_toUInt32, if_pos h] at hval

theorem toInt32_pos_iff {x : UInt32} : 0 < x.toInt32 ↔ 0 < x.toNat ∧ x.toNat < 2 ^ 31 := by
  have hzero : (0 : Int32).toInt = 0 := rfl
  rw [Int32.lt_iff_toInt_lt, toInt_toInt32_eq, hzero]
  have hlt := x.toNat_lt
  split <;> omega

theorem toNat_toUInt32_eq_zero {i : Int32} : i.toUInt32.toNat = 0 ↔ i = 0 := by
  refine ⟨fun h => ?_, fun h => h ▸ rfl⟩
  have hz : i.toUInt32 = 0 := UInt32.toNat_inj.mp h
  rw [← Int32.toInt32_toUInt32 i, hz]
  rfl

@[simp] theorem u64OfI32_one : u64OfI32 1 = 1 := by decide

theorem toNat_add_of_lt {a b : UInt64} (h : a.toNat + b.toNat < 2 ^ 64) :
    (a + b).toNat = a.toNat + b.toNat := by
  rw [UInt64.toNat_add, Nat.mod_eq_of_lt h]

theorem toNat_mul_of_lt {a b : UInt64} (h : a.toNat * b.toNat < 2 ^ 64) :
    (a * b).toNat = a.toNat * b.toNat := by
  rw [UInt64.toNat_mul, Nat.mod_eq_of_lt h]

theorem toNat_sub_of_le {a b : UInt64} (h : b.toNat ≤ a.toNat) :
    (a - b).toNat = a.toNat - b.toNat := by
  rw [UInt64.toNat_sub_of_le]
  exact UInt64.le_iff_toNat_le.mpr h

/-! ## Divisibility

A divisor of `2 ^ 32` divides both moduli, so it survives every wrap and every truncation. -/

section Dvd

variable {d : ℕ} {a b : UInt64}

theorem dvd_two_pow_64 (hd : d ∣ 2 ^ 32) : d ∣ 2 ^ 64 := hd.trans (by norm_num)

theorem dvd_toNat_add (hd : d ∣ 2 ^ 32) (ha : d ∣ a.toNat) (hb : d ∣ b.toNat) :
    d ∣ (a + b).toNat := by
  rw [UInt64.toNat_add, Nat.dvd_mod_iff (dvd_two_pow_64 hd)]
  exact Nat.dvd_add ha hb

theorem dvd_toNat_sub (hd : d ∣ 2 ^ 32) (ha : d ∣ a.toNat) (hb : d ∣ b.toNat) :
    d ∣ (a - b).toNat := by
  rw [UInt64.toNat_sub, Nat.dvd_mod_iff (dvd_two_pow_64 hd)]
  exact Nat.dvd_add (Nat.dvd_sub (dvd_two_pow_64 hd) hb) ha

theorem dvd_toNat_mul_left (hd : d ∣ 2 ^ 32) (ha : d ∣ a.toNat) (b : UInt64) :
    d ∣ (a * b).toNat := by
  rw [UInt64.toNat_mul, Nat.dvd_mod_iff (dvd_two_pow_64 hd)]
  exact Dvd.dvd.mul_right ha _

theorem dvd_toNat_mul_right (hd : d ∣ 2 ^ 32) (a : UInt64) (hb : d ∣ b.toNat) :
    d ∣ (a * b).toNat := by
  rw [UInt64.mul_comm]
  exact dvd_toNat_mul_left hd hb a

theorem dvd_toNat_mod (ha : d ∣ a.toNat) (hb : d ∣ b.toNat) : d ∣ (a % b).toNat := by
  rw [UInt64.toNat_mod, Nat.dvd_mod_iff hb]
  exact ha

theorem dvd_toNat_toUInt32 (hd : d ∣ 2 ^ 32) (ha : d ∣ a.toNat) : d ∣ a.toUInt32.toNat := by
  rw [UInt64.toNat_toUInt32, Nat.dvd_mod_iff hd]
  exact ha

end Dvd

theorem eq_zero_iff {a : UInt64} : a = 0 ↔ a.toNat = 0 := by
  rw [← UInt64.toNat_inj]
  rfl

theorem toNat_toUInt32_of_lt {a : UInt64} (h : a.toNat < 2 ^ 32) : a.toUInt32.toNat = a.toNat := by
  rw [UInt64.toNat_toUInt32, Nat.mod_eq_of_lt h]

theorem toNat_and_not_mask {w : ℕ} (k : ℕ) (v : BitVec w) :
    (v &&& ~~~BitVec.ofNat w (2 ^ k - 1)).toNat = v.toNat / 2 ^ k * 2 ^ k := by
  have hshift : v &&& ~~~BitVec.ofNat w (2 ^ k - 1) = (v >>> k) <<< k := by
    apply BitVec.eq_of_getLsbD_eq
    intro i hi
    rw [BitVec.getLsbD_and, BitVec.getLsbD_not, BitVec.getLsbD_ofNat,
      Nat.testBit_two_pow_sub_one, BitVec.getLsbD_shiftLeft, BitVec.getLsbD_ushiftRight]
    by_cases hlow : i < k
    · simp [hi, hlow]
    · simp [hi, hlow, Nat.add_sub_cancel' (Nat.le_of_not_lt hlow)]
  have hle : v.toNat / 2 ^ k * 2 ^ k ≤ v.toNat := Nat.div_mul_le_self _ _
  rw [hshift, BitVec.toNat_shiftLeft, BitVec.toNat_ushiftRight, Nat.shiftRight_eq_div_pow,
    Nat.shiftLeft_eq, Nat.mod_eq_of_lt (hle.trans_lt v.isLt)]

/-! ## Tables of counters -/

theorem update_add {α : Type*} [DecidableEq α] (f : α → UInt64) (a b : α) (x : UInt64) :
    Function.update f a (f a + x) b = f b + if b = a then x else 0 := by
  by_cases h : b = a
  · rw [h, Function.update_self, if_pos rfl]
  · rw [Function.update_of_ne h, if_neg h, UInt64.add_zero]

theorem sum_map_set {α : Type*} {g : α → UInt64} {x y : α} {d : UInt64} (h : g y = g x + d) :
    ∀ {l : List α} {i : ℕ}, l[i]? = some x → ((l.set i y).map g).sum = (l.map g).sum + d
  | [], i, hi => by
    rw [List.getElem?_nil] at hi
    cases hi
  | a :: l, 0, hi => by
    rw [List.getElem?_cons_zero] at hi
    cases hi
    rw [List.set_cons_zero, List.map_cons, List.sum_cons, h, List.map_cons, List.sum_cons,
      UInt64.add_assoc, UInt64.add_assoc, UInt64.add_comm d]
  | a :: l, i + 1, hi => by
    rw [List.getElem?_cons_succ] at hi
    rw [List.set_cons_succ, List.map_cons, List.sum_cons, sum_map_set h hi, List.map_cons,
      List.sum_cons, UInt64.add_assoc]

end CInt
