import Mathlib.Algebra.BigOperators.Ring.Finset
import Mathlib.Algebra.BigOperators.Intervals
import Mathlib.Algebra.Order.BigOperators.Group.Finset

/-!
# `Extent` — runs of bytes, and how often they cover one

An extent is an offset and a length. Two questions are asked of a bunch of them: does each lie
inside a range (`Extent.Within`), and how many of them hold a given byte (`Extent.covers`,
which is 0 or 1 and is meant to be summed). "Written exactly `q` times" is a sum of `covers`
that equals `q`, and both the order of the extents and who issued them drop out.

The tiling facts are the two a cyclic fill needs: extents cut at increasing points cover the
range between the first and the last point once (`sum_covers_cuts`), and going `q` times round
a cycle of `n` does everything `q` times (`sum_range_mod`).
-/

set_option autoImplicit false

open Finset

structure Extent where
  off : ℕ
  len : ℕ
  deriving DecidableEq, Repr

namespace Extent

def Holds (e : Extent) (x : ℕ) : Prop := e.off ≤ x ∧ x < e.off + e.len

instance (e : Extent) (x : ℕ) : Decidable (e.Holds x) :=
  inferInstanceAs (Decidable (_ ∧ _))

/-- How often the extent holds a byte: at most once. -/
def covers (x : ℕ) (e : Extent) : ℕ := if e.Holds x then 1 else 0

/-- Every byte of the extent is in `[lo, hi)`. An empty extent is within any range. -/
def Within (e : Extent) (lo hi : ℕ) : Prop := ∀ x, e.Holds x → lo ≤ x ∧ x < hi

theorem covers_eq_zero {e : Extent} {x : ℕ} (h : ¬ e.Holds x) : e.covers x = 0 := if_neg h

theorem within_iff {e : Extent} {lo hi : ℕ} :
    e.Within lo hi ↔ e.len = 0 ∨ lo ≤ e.off ∧ e.off + e.len ≤ hi := by
  constructor
  · intro h
    rcases Nat.eq_zero_or_pos e.len with hz | hpos
    · exact .inl hz
    · obtain ⟨hlo, -⟩ := h e.off ⟨le_rfl, by omega⟩
      obtain ⟨-, hhi⟩ := h (e.off + e.len - 1) ⟨by omega, by omega⟩
      exact .inr ⟨hlo, by omega⟩
  · rintro (hz | ⟨hlo, hhi⟩) x ⟨hx₁, hx₂⟩
    · omega
    · exact ⟨by omega, by omega⟩

instance (e : Extent) (lo hi : ℕ) : Decidable (e.Within lo hi) :=
  decidable_of_iff _ within_iff.symm

def between (a b : ℕ) : Extent := ⟨a, b - a⟩

theorem holds_between {a b x : ℕ} : (between a b).Holds x ↔ a ≤ x ∧ x < b := by
  show a ≤ x ∧ x < a + (b - a) ↔ _
  omega

theorem covers_between {a b x : ℕ} :
    (between a b).covers x = if a ≤ x ∧ x < b then 1 else 0 :=
  if_congr holds_between rfl rfl

/-- **Cutting a range at increasing points tiles it.** -/
theorem sum_covers_cuts {c : ℕ → ℕ} (hmono : ∀ b, c b ≤ c (b + 1)) (n x : ℕ) :
    ∑ b ∈ range n, (between (c b) (c (b + 1))).covers x = (between (c 0) (c n)).covers x := by
  have hle : ∀ m, c 0 ≤ c m := fun m => by
    induction m with
    | zero => exact le_rfl
    | succ m ih => exact ih.trans (hmono m)
  induction n with
  | zero =>
    rw [sum_range_zero, covers_between, if_neg (by omega)]
  | succ n ih =>
    rw [sum_range_succ, ih, covers_between, covers_between, covers_between]
    have h₀ := hle n
    have h₁ := hmono n
    split_ifs <;> omega

theorem covers_append {a b c : ℕ} (hab : a ≤ b) (hbc : b ≤ c) (x : ℕ) :
    (between a b).covers x + (between b c).covers x = (between a c).covers x := by
  rw [covers_between, covers_between, covers_between]
  split_ifs <;> omega

end Extent

/-- **Going round a cycle `q` times** does what each of its places does, `q` times over. -/
theorem sum_range_mod {M : Type*} [AddCommMonoid M] (f : ℕ → M) (n q : ℕ) :
    ∑ k ∈ range (n * q), f (k % n) = q • ∑ b ∈ range n, f b := by
  induction q with
  | zero => simp
  | succ q ih =>
    rw [Nat.mul_succ, sum_range_add, ih, succ_nsmul]
    congr 1
    apply sum_congr rfl
    intro b hb
    rw [Nat.mul_add_mod, Nat.mod_eq_of_lt (mem_range.mp hb)]
