import Mathlib.Data.Set.Function
import Mathlib.Logic.Equiv.Basic
import Mathlib.Order.Interval.Set.Defs

/-!
# `Blocks` — shuffling an array by whole blocks

An array of at least `m * g` numbers begins with `m` blocks of `g` entries. A shuffle exchanges
two blocks at a time, entry by entry and each pair of entries through a third place, and does so
for places that may be the same. What it keeps is `Permuted`: the blocks are where some
permutation of the blocks puts them, each block is in one piece, and what is behind the blocks has
not moved. So an array that held each number at its own place still holds each number once
(`Permuted.bijOn`).
-/

set_option autoImplicit false

namespace Blocks

variable {α : Type*}

def exchange (f : ℕ → α) (a b : ℕ) : ℕ → α :=
  Function.update (Function.update f a (f b)) b (f a)

/-- Exchange the `n` entries from `a` on with those from `b` on, the first ones first. -/
def exchangeRun (f : ℕ → α) (a b : ℕ) : ℕ → ℕ → α
  | 0 => f
  | n + 1 => exchange (exchangeRun f a b n) (a + n) (b + n)

section Exchange

variable {f : ℕ → α} {a b n x : ℕ}

theorem exchange_left : exchange f a b a = f b := by
  unfold exchange
  by_cases hab : a = b
  · subst hab
    rw [Function.update_self]
  · rw [Function.update_of_ne hab, Function.update_self]

theorem exchange_right : exchange f a b b = f a := by
  rw [exchange, Function.update_self]

theorem exchange_of_ne (ha : x ≠ a) (hb : x ≠ b) : exchange f a b x = f x := by
  rw [exchange, Function.update_of_ne hb, Function.update_of_ne ha]

theorem exchangeRun_of_outside (ha : x < a ∨ a + n ≤ x) (hb : x < b ∨ b + n ≤ x) :
    exchangeRun f a b n x = f x := by
  induction n with
  | zero => rfl
  | succ n ih =>
    rw [exchangeRun, exchange_of_ne (by omega) (by omega)]
    exact ih (by omega) (by omega)

/-- **Two runs that do not meet, or are the same, change places.** -/
theorem exchangeRun_apply (h : a = b ∨ a + n ≤ b ∨ b + n ≤ a) {r : ℕ} (hr : r < n) :
    exchangeRun f a b n (a + r) = f (b + r) ∧ exchangeRun f a b n (b + r) = f (a + r) := by
  induction n with
  | zero => omega
  | succ n ih =>
    rw [exchangeRun]
    by_cases hlast : r = n
    · -- the pair that is exchanged last has not been touched before
      subst hlast
      rw [exchange_left, exchange_right, exchangeRun_of_outside (by omega) (by omega),
        exchangeRun_of_outside (by omega) (by omega)]
      exact ⟨rfl, rfl⟩
    · rw [exchange_of_ne (by omega) (by omega), exchange_of_ne (by omega) (by omega)]
      exact ih (by omega) (by omega)

end Exchange

/-- The `m` blocks of `g` entries are where `σ` puts them, and the rest is in its place. -/
structure PermutedBy {m : ℕ} (σ : Equiv.Perm (Fin m)) (g : ℕ) (f : ℕ → ℕ) : Prop where
  block : ∀ (q : Fin m) (r : ℕ), r < g → f (q * g + r) = σ q * g + r
  rest : ∀ x, m * g ≤ x → f x = x

/-- The `m` blocks of `g` entries are where some permutation puts them. -/
def Permuted (m g : ℕ) (f : ℕ → ℕ) : Prop := ∃ σ : Equiv.Perm (Fin m), PermutedBy σ g f

section Permuted

variable {m g : ℕ} {f f' : ℕ → ℕ} {σ σ' : Equiv.Perm (Fin m)}

theorem permuted_id : Permuted m g id :=
  ⟨Equiv.refl _, fun _ _ _ => rfl, fun _ _ => rfl⟩

theorem block_le {q p : ℕ} (h : q < p) : q * g + g ≤ p * g := by
  rw [← Nat.succ_mul]
  exact Nat.mul_le_mul_right g h

theorem blocks_apart (q p : ℕ) : q * g = p * g ∨ q * g + g ≤ p * g ∨ p * g + g ≤ q * g := by
  rcases Nat.lt_trichotomy q p with hlt | rfl | hlt
  · exact .inr (.inl (block_le hlt))
  · exact .inl rfl
  · exact .inr (.inr (block_le hlt))

theorem block_outside {q p r : ℕ} (hr : r < g) (hne : q ≠ p) :
    q * g + r < p * g ∨ p * g + g ≤ q * g + r := by
  rcases Nat.lt_or_gt_of_ne hne with hlt | hlt
  · have := block_le (g := g) hlt
    omega
  · have := block_le (g := g) hlt
    omega

theorem block_lt {q r : ℕ} (hq : q < m) (hr : r < g) : q * g + r < m * g := by
  have := block_le (g := g) hq
  omega

theorem block_split {x : ℕ} (hx : x < m * g) :
    ∃ (q : Fin m) (r : ℕ), r < g ∧ x = q * g + r := by
  have hg : 0 < g := Nat.pos_of_ne_zero fun hz => by
    subst hz
    exact absurd hx (Nat.not_lt_zero x)
  have hq : x / g < m := Nat.div_lt_of_lt_mul (by rwa [Nat.mul_comm] at hx)
  exact ⟨⟨x / g, hq⟩, x % g, Nat.mod_lt x hg, (Nat.div_add_mod' x g).symm⟩

/-- **Exchanging two blocks exchanges them in the permutation.** -/
theorem PermutedBy.exchange (h : PermutedBy σ g f) (q p : Fin m) :
    PermutedBy ((Equiv.swap q p).trans σ) g (exchangeRun f (q * g) (p * g) g) := by
  refine ⟨?_, ?_⟩
  · intro t r hr
    obtain ⟨hleft, hright⟩ := exchangeRun_apply (f := f) (blocks_apart (q : ℕ) (p : ℕ)) hr
    rw [Equiv.trans_apply]
    by_cases htq : t = q
    · subst htq
      rw [hleft, Equiv.swap_apply_left]
      exact h.block p r hr
    · by_cases htp : t = p
      · subst htp
        rw [hright, Equiv.swap_apply_right]
        exact h.block q r hr
      · rw [exchangeRun_of_outside (block_outside hr fun hv => htq (Fin.ext hv))
          (block_outside hr fun hv => htp (Fin.ext hv)), Equiv.swap_apply_of_ne_of_ne htq htp]
        exact h.block t r hr
  · intro x hx
    have hq := block_le (g := g) q.isLt
    have hp := block_le (g := g) p.isLt
    rw [exchangeRun_of_outside (by omega) (by omega)]
    exact h.rest x hx

theorem Permuted.exchange (h : Permuted m g f) (q p : Fin m) :
    Permuted m g (exchangeRun f (q * g) (p * g) g) :=
  let ⟨_, hσ⟩ := h
  ⟨_, hσ.exchange q p⟩

theorem PermutedBy.mapsTo (h : PermutedBy σ g f) {n : ℕ} (hn : m * g ≤ n) :
    Set.MapsTo f (Set.Iio n) (Set.Iio n) := by
  intro x hx
  by_cases hxm : x < m * g
  · obtain ⟨q, r, hr, rfl⟩ := block_split hxm
    rw [h.block q r hr]
    exact Nat.lt_of_lt_of_le (block_lt (σ q).isLt hr) hn
  · rw [h.rest x (Nat.le_of_not_lt hxm)]
    exact hx

/-- Two permutations of the blocks that undo each other do so for the arrays. -/
theorem PermutedBy.leftInverse (h : PermutedBy σ g f) (h' : PermutedBy σ.symm g f') :
    Function.LeftInverse f' f := by
  intro x
  by_cases hxm : x < m * g
  · obtain ⟨q, r, hr, rfl⟩ := block_split hxm
    rw [h.block q r hr, h'.block (σ q) r hr, Equiv.symm_apply_apply]
  · have hxm' := Nat.le_of_not_lt hxm
    rw [h.rest x hxm', h'.rest x hxm']

def arrange (σ : Equiv.Perm (Fin m)) (g x : ℕ) : ℕ :=
  if h : x / g < m then σ ⟨x / g, h⟩ * g + x % g else x

theorem permutedBy_arrange (hg : 0 < g) (σ : Equiv.Perm (Fin m)) :
    PermutedBy σ g (arrange σ g) := by
  refine ⟨?_, ?_⟩
  · intro q r hr
    have hquot : (q * g + r) / g = q := by
      rw [Nat.mul_comm, Nat.mul_add_div hg, Nat.div_eq_of_lt hr, Nat.add_zero]
    have hrem : (q * g + r) % g = r := by
      rw [Nat.mul_comm, Nat.mul_add_mod, Nat.mod_eq_of_lt hr]
    simp only [arrange, hquot, hrem, Fin.is_lt, dif_pos, Fin.eta]
  · intro x hx
    have hquot : m ≤ x / g := (Nat.le_div_iff_mul_le hg).mpr hx
    rw [arrange, dif_neg (Nat.not_lt.mpr hquot)]

/-- **Each number is in the array once**, when its blocks are permuted and their contents left as
they are. A shuffle by blocks is a sequence of exchanges of two blocks, and each of them keeps
this. -/
theorem Permuted.bijOn (h : Permuted m g f) {n : ℕ} (hn : m * g ≤ n) :
    Set.BijOn f (Set.Iio n) (Set.Iio n) := by
  obtain ⟨σ, hσ⟩ := h
  rcases Nat.eq_zero_or_pos g with rfl | hg
  · have hf : f = id := funext fun x => hσ.rest x (Nat.zero_le x)
    rw [hf]
    exact Set.bijOn_id _
  · have hinv := permutedBy_arrange hg σ.symm
    refine Set.InvOn.bijOn ⟨?_, ?_⟩ (hσ.mapsTo hn) (hinv.mapsTo hn)
    · exact (hσ.leftInverse hinv).leftInvOn _
    · exact (hinv.leftInverse hσ).leftInvOn _

end Permuted

end Blocks
