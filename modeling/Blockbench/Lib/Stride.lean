import Mathlib.Data.Nat.ModEq
import Blockbench.Lib.Extent

/-!
# `Stride` — going round a cycle in steps of `k`

A walk round a cycle of `n` places in steps of `k` visits the places of one class modulo
`gcd k n`, and in `n` steps it visits each of them `gcd k n` times. The statement is about sums,
so that it can be used for counting and for covering alike: `sum_range_walk`.

The walk repeats itself after `n / gcd k n` steps (`walk_mod`), within which it does not come
back to a place (`walk_injOn`); there are as many places in the class (`card_places`).
-/

set_option autoImplicit false

open Finset

namespace Stride

variable {n k c : ℕ}

def walk (n k c b : ℕ) : ℕ := (c + k * b) % n

def places (n k c : ℕ) : Finset ℕ := (range n).filter fun j => j % Nat.gcd k n = c % Nat.gcd k n

theorem walk_mem (hn : 0 < n) (b : ℕ) : walk n k c b ∈ places n k c := by
  refine mem_filter.mpr ⟨mem_range.mpr (Nat.mod_lt _ hn), ?_⟩
  have hk : Nat.gcd k n ∣ k * b := Dvd.dvd.mul_right (Nat.gcd_dvd_left k n) b
  rw [walk, Nat.mod_mod_of_dvd _ (Nat.gcd_dvd_right k n), Nat.add_mod,
    Nat.mod_eq_zero_of_dvd hk, Nat.add_zero, Nat.mod_mod]

theorem walk_mod (b : ℕ) : walk n k c (b % (n / Nat.gcd k n)) = walk n k c b := by
  have hturn : n ∣ k * (n / Nat.gcd k n) := by
    obtain ⟨q, hq⟩ := Nat.gcd_dvd_left k n
    refine ⟨q, ?_⟩
    have hcancel := Nat.mul_div_cancel' (Nat.gcd_dvd_right k n)
    calc k * (n / Nat.gcd k n) = Nat.gcd k n * q * (n / Nat.gcd k n) := by rw [← hq]
      _ = Nat.gcd k n * (n / Nat.gcd k n) * q := Nat.mul_right_comm _ _ _
      _ = n * q := by rw [hcancel]
  have hsplit := Nat.mod_add_div b (n / Nat.gcd k n)
  have hmul : k * b = k * (b % (n / Nat.gcd k n))
      + k * (n / Nat.gcd k n) * (b / (n / Nat.gcd k n)) := by
    rw [Nat.mul_assoc, ← Nat.mul_add, hsplit]
  obtain ⟨q, hq⟩ := hturn
  unfold walk
  rw [hmul, hq, ← Nat.add_assoc, Nat.mul_assoc, Nat.add_mul_mod_self_left]

theorem walk_injOn (hn : 0 < n) :
    Set.InjOn (walk n k c) (range (n / Nat.gcd k n) : Finset ℕ) := by
  intro a ha b hb hab
  have hmod : c + k * a ≡ c + k * b [MOD n] := hab
  have hstep : a ≡ b [MOD n / Nat.gcd n k] :=
    (Nat.ModEq.add_left_cancel' c hmod).cancel_left_div_gcd hn
  rw [Nat.gcd_comm] at hstep
  exact hstep.eq_of_lt_of_lt (mem_range.mp ha) (mem_range.mp hb)

theorem card_places (hn : 0 < n) : (places n k c).card = n / Nat.gcd k n := by
  have hg : 0 < Nat.gcd k n := Nat.gcd_pos_of_pos_right k hn
  have hcycle := sum_range_mod (fun j => if j = c % Nat.gcd k n then 1 else 0) (Nat.gcd k n)
    (n / Nat.gcd k n)
  rw [Nat.mul_div_cancel' (Nat.gcd_dvd_right k n), sum_ite_eq' (range (Nat.gcd k n)),
    if_pos (mem_range.mpr (Nat.mod_lt c hg)), nsmul_eq_mul, Nat.cast_id, Nat.mul_one] at hcycle
  rw [places, card_filter, hcycle]

/-- **`n` steps of `k`** visit every place of the class `gcd k n` times. -/
theorem sum_range_walk {M : Type*} [AddCommMonoid M] (hn : 0 < n) (f : ℕ → M) :
    ∑ b ∈ range n, f (walk n k c b) = Nat.gcd k n • ∑ j ∈ places n k c, f j := by
  have himage : (range (n / Nat.gcd k n)).image (walk n k c) = places n k c := by
    apply eq_of_subset_of_card_le
    · intro j hj
      obtain ⟨b, -, rfl⟩ := mem_image.mp hj
      exact walk_mem hn b
    · rw [card_image_of_injOn (walk_injOn hn), card_range, card_places hn]
  have hturn : ∑ b ∈ range (n / Nat.gcd k n), f (walk n k c b) = ∑ j ∈ places n k c, f j := by
    rw [← himage, sum_image (walk_injOn hn)]
  rw [← hturn]
  calc ∑ b ∈ range n, f (walk n k c b)
      = ∑ b ∈ range (n / Nat.gcd k n * Nat.gcd k n),
          f (walk n k c (b % (n / Nat.gcd k n))) := by
        rw [Nat.div_mul_cancel (Nat.gcd_dvd_right k n)]
        exact sum_congr rfl fun b _ => by rw [walk_mod]
    _ = Nat.gcd k n • ∑ b ∈ range (n / Nat.gcd k n), f (walk n k c b) :=
        sum_range_mod (fun b => f (walk n k c b)) _ _

theorem card_walk_eq (hn : 0 < n) {j : ℕ} (hj : j < n) :
    ((range n).filter fun b => walk n k c b = j).card
      = if j % Nat.gcd k n = c % Nat.gcd k n then Nat.gcd k n else 0 := by
  have hsum := sum_range_walk (k := k) (c := c) hn fun i => if i = j then 1 else 0
  rw [card_filter, hsum, sum_ite_eq' (places n k c)]
  unfold places
  simp only [mem_filter, mem_range, hj, true_and, nsmul_eq_mul, Nat.cast_id, mul_ite,
    Nat.mul_one, Nat.mul_zero]

/-! ## Slots

A region of `n * S` bytes consists of `n` slots of `S`. -/

section Slots

variable {h S n y : ℕ}

/-- Going round a region of `n` slots from inside a slot stays at that place of the slot. -/
theorem mod_slot (hh : h < S) (m : ℕ) : (h + S * m) % (n * S) = h + S * (m % n) := by
  rw [Nat.mul_comm n, Nat.mod_mul, Nat.add_mul_mod_self_left, Nat.mod_eq_of_lt hh,
    Nat.add_mul_div_left _ _ (by omega), Nat.div_eq_of_lt hh, Nat.zero_add]

theorem slot_of_byte (hS : 0 < S) (hlo : h ≤ y) (hy : y < n * S) :
    ∃ j < n, h + S * j ≤ y ∧ y < h + S * j + S := by
  have hdiv := Nat.div_add_mod (y - h) S
  have hmod := Nat.mod_lt (y - h) hS
  refine ⟨(y - h) / S, (Nat.div_lt_iff_lt_mul hS).mpr (by omega), by omega, by omega⟩

end Slots

end Stride
