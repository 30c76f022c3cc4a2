import Mathlib.Data.Int.Log
import Mathlib.Data.Rat.Floor
import Mathlib.Algebra.Order.Field.Power
import Mathlib.Tactic.Linarith
import Mathlib.Tactic.NormNum
import Mathlib.Tactic.Positivity
import Mathlib.Tactic.FieldSimp
import Mathlib.Tactic.Ring

/-!
# `Binary64` — C's `double`

The values are the rationals of the format, two infinities and one that is not a number; the two
zeros are one value, since neither `<` nor `-` tells them apart, and the payload of a NaN is left
out for the same reason. A finite value carries the proof that the format has it.

Arithmetic is exact arithmetic and one rounding, to the nearest number of 53 places and a half to
the even one (`rounded`); what reaches `2 ^ 1024` is infinite. Where the exact result is in the
format nothing is rounded (`finite_sub_finite`), which is how a computation on doubles is read as one on
rationals.
-/

set_option autoImplicit false

namespace Binary64

/-- The rationals of the format: 53 places, and exponents from `-1074` up. -/
structure Representable (x : ℚ) : Prop where
  form : ∃ m e : ℤ, |m| < 2 ^ 53 ∧ -1074 ≤ e ∧ x = m * 2 ^ e
  lt : |x| < 2 ^ 1024

end Binary64

inductive Binary64
  | nan
  | inf (neg : Bool)
  | finite (x : ℚ) (h : Binary64.Representable x)

namespace Binary64

/-! ## Rounding -/

/-- To the nearest integer, and a half to the even one. -/
def roundEven (q : ℚ) : ℤ :=
  let n := ⌊q⌋
  if q - n < 1 / 2 then n
  else if 1 / 2 < q - n then n + 1
  else if n % 2 = 0 then n else n + 1

/-- The exponent of the last place. -/
def lastPlace (x : ℚ) : ℤ := max (-1074) (Int.log 2 |x| - 52)

def rounded (x : ℚ) : ℚ := roundEven (x / 2 ^ lastPlace x) * 2 ^ lastPlace x

theorem floor_le_roundEven (q : ℚ) : ⌊q⌋ ≤ roundEven q ∧ roundEven q ≤ ⌊q⌋ + 1 := by
  unfold roundEven
  dsimp only
  split_ifs <;> omega

theorem roundEven_intCast (n : ℤ) : roundEven n = n := by
  unfold roundEven
  simp

theorem abs_div_lastPlace_lt (x : ℚ) : |x / 2 ^ lastPlace x| < 2 ^ 53 := by
  have hlog : |x| < (2 : ℚ) ^ (Int.log 2 |x| + 1) := by
    exact_mod_cast Int.lt_zpow_succ_log_self (R := ℚ) (b := 2) (by norm_num) |x|
  have hexp : (2 : ℚ) ^ (Int.log 2 |x| + 1) ≤ 2 ^ ((53 : ℤ) + lastPlace x) := by
    apply zpow_le_zpow_right₀ (by norm_num)
    unfold lastPlace
    omega
  have hpos : (0 : ℚ) < 2 ^ lastPlace x := by positivity
  have hsplit : (2 : ℚ) ^ ((53 : ℤ) + lastPlace x) = 2 ^ 53 * 2 ^ lastPlace x :=
    zpow_add₀ (by norm_num) 53 _
  rw [abs_div, abs_of_pos hpos, div_lt_iff₀ hpos, ← hsplit]
  exact hlog.trans_le hexp

theorem form_of_le {m e : ℤ} (hm : |m| ≤ 2 ^ 53) (he : -1074 ≤ e) :
    ∃ m' e' : ℤ, |m'| < 2 ^ 53 ∧ -1074 ≤ e' ∧ (m * 2 ^ e : ℚ) = m' * 2 ^ e' := by
  obtain hlt | heq := hm.lt_or_eq
  · exact ⟨m, e, hlt, he, rfl⟩
  · have hcarry : (2 : ℚ) ^ (e + 1) = 2 ^ e * 2 := zpow_add_one₀ (by norm_num) e
    obtain rfl | rfl := (abs_eq (by norm_num)).mp heq
    · refine ⟨2 ^ 52, e + 1, by norm_num, by omega, ?_⟩
      rw [hcarry]
      push_cast
      ring
    · refine ⟨-2 ^ 52, e + 1, by norm_num, by omega, ?_⟩
      rw [hcarry]
      push_cast
      ring

theorem form_rounded (x : ℚ) :
    ∃ m e : ℤ, |m| < 2 ^ 53 ∧ -1074 ≤ e ∧ rounded x = m * 2 ^ e := by
  refine form_of_le ?_ (le_max_left _ _)
  obtain ⟨hlow, hhigh⟩ := abs_lt.mp (abs_div_lastPlace_lt x)
  obtain ⟨hge, hle⟩ := floor_le_roundEven (x / 2 ^ lastPlace x)
  have hfloor_le : -2 ^ 53 ≤ ⌊x / 2 ^ lastPlace x⌋ := Int.le_floor.mpr (by exact_mod_cast hlow.le)
  have hfloor_lt : ⌊x / 2 ^ lastPlace x⌋ < 2 ^ 53 := Int.floor_lt.mpr (by exact_mod_cast hhigh)
  exact abs_le.mpr ⟨by omega, by omega⟩

/-- The last place of a number of the format is no higher than that of any form it has. -/
theorem lastPlace_le {m e : ℤ} {x : ℚ} (hm : |m| < 2 ^ 53) (he : -1074 ≤ e)
    (hx : x = m * 2 ^ e) (hne : x ≠ 0) : lastPlace x ≤ e := by
  have hlow : (2 : ℚ) ^ Int.log 2 |x| ≤ |x| := by
    exact_mod_cast Int.zpow_log_le_self (R := ℚ) (b := 2) (by norm_num) (abs_pos.mpr hne)
  have hpos : (0 : ℚ) < 2 ^ e := by positivity
  have habs : |x| < 2 ^ ((53 : ℤ) + e) := by
    have hsplit : (2 : ℚ) ^ ((53 : ℤ) + e) = 2 ^ 53 * 2 ^ e := zpow_add₀ (by norm_num) 53 _
    have hmq : |(m : ℚ)| < 2 ^ 53 := by exact_mod_cast hm
    rw [hx, abs_mul, abs_of_pos hpos, hsplit]
    exact mul_lt_mul_of_pos_right hmq hpos
  have hlog := (zpow_lt_zpow_iff_right₀ (by norm_num)).mp (hlow.trans_lt habs)
  unfold lastPlace
  omega

/-- **A number of the format is not rounded**: it is a whole number of last places. -/
theorem rounded_eq {x : ℚ} (h : Representable x) : rounded x = x := by
  obtain ⟨m, e, hm, he, hx⟩ := h.form
  obtain rfl | hne := eq_or_ne x 0
  · simp [rounded, roundEven]
  have hle := lastPlace_le hm he hx hne
  have hpos : (0 : ℚ) < 2 ^ lastPlace x := by positivity
  have hwhole : x / 2 ^ lastPlace x = (m * 2 ^ (e - lastPlace x).toNat : ℤ) := by
    have hsplit : (2 : ℚ) ^ e = 2 ^ (e - lastPlace x).toNat * 2 ^ lastPlace x := by
      rw [← zpow_natCast, ← zpow_add₀ (by norm_num)]
      congr 1
      omega
    rw [div_eq_iff hpos.ne']
    push_cast
    rw [mul_assoc, ← hsplit]
    exact hx
  rw [rounded, hwhole, roundEven_intCast, ← hwhole, div_mul_cancel₀ x hpos.ne']

def ofRat (x : ℚ) : Binary64 :=
  if h : |rounded x| < 2 ^ 1024 then .finite (rounded x) ⟨form_rounded x, h⟩
  else .inf (decide (x < 0))

theorem ofRat_eq {x : ℚ} (h : Representable x) : ofRat x = .finite x h := by
  unfold ofRat
  simp only [rounded_eq h, h.lt, dite_true]

/-! ## Arithmetic -/

instance : Sub Binary64 where
  sub
    | .finite x _, .finite y _ => ofRat (x - y)
    | .finite _ _, .inf neg => .inf !neg
    | .inf neg, .finite _ _ => .inf neg
    | .inf neg, .inf neg' => if neg = neg' then .nan else .inf neg
    | .nan, _ | _, .nan => .nan

/-- `x < y`, which holds of nothing that is not a number. -/
protected def lt : Binary64 → Binary64 → Prop
  | .finite x _, .finite y _ => x < y
  | .finite _ _, .inf neg => neg = false
  | .inf neg, .finite _ _ => neg = true
  | .inf neg, .inf neg' => neg = true ∧ neg' = false
  | .nan, _ | _, .nan => False

instance : LT Binary64 := ⟨Binary64.lt⟩

instance : DecidableLT Binary64
  | .finite x _, .finite y _ => inferInstanceAs (Decidable (x < y))
  | .finite _ _, .inf neg => inferInstanceAs (Decidable (neg = false))
  | .inf neg, .finite _ _ => inferInstanceAs (Decidable (neg = true))
  | .inf neg, .inf neg' => inferInstanceAs (Decidable (neg = true ∧ neg' = false))
  | .nan, .nan | .nan, .inf _ | .nan, .finite _ _ | .inf _, .nan | .finite _ _, .nan =>
    inferInstanceAs (Decidable False)

variable {x y : ℚ} {hx : Representable x} {hy : Representable y}

@[simp] theorem finite_lt_finite : finite x hx < finite y hy ↔ x < y := Iff.rfl

/-- **A difference that is in the format is exact.** -/
theorem finite_sub_finite (h : Representable (x - y)) :
    finite x hx - finite y hy = finite (x - y) h := ofRat_eq h

theorem representable_zero : Representable 0 := ⟨⟨0, 0, by norm_num⟩, by norm_num⟩

theorem representable_one : Representable 1 :=
  ⟨⟨1, 0, by norm_num⟩, by rw [abs_one]; exact one_lt_pow₀ (by norm_num) (by norm_num)⟩

theorem representable_div {n : ℕ} (h : n < 2 ^ 53) : Representable (n / 2 ^ 53) := by
  have hn : (n : ℚ) < 2 ^ 53 := by exact_mod_cast h
  refine ⟨⟨n, -53, ?_, by norm_num, ?_⟩, ?_⟩
  · rw [Nat.abs_cast]
    exact_mod_cast h
  · rw [zpow_neg, div_eq_mul_inv]
    norm_num
  · rw [abs_of_nonneg (by positivity), div_lt_iff₀ (by positivity)]
    calc (n : ℚ) < 2 ^ 53 := hn
      _ ≤ 2 ^ 1024 * 2 ^ 53 := le_mul_of_one_le_left (by positivity) (one_le_pow₀ (by norm_num))

/-- The number a double is; nothing is said of the others. -/
def toRat : Binary64 → ℚ
  | .finite x _ => x
  | .nan | .inf _ => 0

instance : Zero Binary64 := ⟨.finite 0 representable_zero⟩

instance : One Binary64 := ⟨.finite 1 representable_one⟩

end Binary64
