import Mathlib.Data.List.Basic
import Mathlib.Algebra.Order.Ring.Nat

/-!
# `BigEndian` — numbers as bytes, highest first

`decode` is what a reader of the bytes gets; `encode k v` is the `k` low bytes of a number, in
that order. Decoding gives the number back modulo `256 ^ k`, which is the number itself when it
fits.
-/

set_option autoImplicit false

namespace BigEndian

def decode : List UInt8 → ℕ
  | [] => 0
  | b :: bs => b.toNat * 256 ^ bs.length + decode bs

def encode : ℕ → ℕ → List UInt8
  | 0, _ => []
  | k + 1, v => UInt8.ofNat (v / 256 ^ k) :: encode k v

@[simp] theorem length_encode (k v : ℕ) : (encode k v).length = k := by
  induction k with
  | zero => rfl
  | succ k ih => simp [encode, ih]

/-- **Round trip**, for as much as `k` bytes hold. -/
theorem decode_encode (k v : ℕ) : decode (encode k v) = v % 256 ^ k := by
  induction k with
  | zero => simp [encode, decode, Nat.mod_one]
  | succ k ih =>
    have hsplit : v % 256 ^ (k + 1) = v % 256 ^ k + 256 ^ k * (v / 256 ^ k % 256) :=
      Nat.mod_pow_succ
    rw [encode, decode, ih, length_encode, UInt8.toNat_ofNat', hsplit, Nat.add_comm,
      Nat.mul_comm]

theorem decode_encode_of_lt {k v : ℕ} (h : v < 256 ^ k) : decode (encode k v) = v := by
  rw [decode_encode, Nat.mod_eq_of_lt h]

end BigEndian
