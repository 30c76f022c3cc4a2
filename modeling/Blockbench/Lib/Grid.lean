import Mathlib.Data.Nat.ModEq
import Mathlib.Tactic.Linarith

/-!
# `Grid` — a grid taken through two moduli

Places `h`, `s + h`, `2 * s + h`, … are a grid of step `s`. A program that adds in words of `W`
and then takes the remainder by a range `R` puts the places at `place W R s h k`, and the
question is whether they are still on the grid, i.e. congruent to `h` modulo `s`.

Each place is `k * s + h` less what the two moduli took off, so a place is on the grid when that
is a multiple of the step (`modEq_iff_of_add`). Over all places the answer is `kept_iff`. In a
range of at least one step the word must not wrap unless `s` divides it, and the range must not
turn over unless `s` divides that; the two are necessary because a grid of step `s` has a place
in every stretch of `s` numbers (`exists_step`), so there is one just after a wrap and one just
after a turn. In a range shorter than a step all places must fall on one number.
-/

set_option autoImplicit false

namespace Grid

def place (W R s h k : ℕ) : ℕ := (k * s + h) % W % R

/-- Every place that starts from a multiple of `s` in the word is on the grid. -/
def Kept (W R s h : ℕ) : Prop := ∀ k, k * s < W → place W R s h k ≡ h [MOD s]

/-- No place wraps: the last multiple of the step in the word has room for `h`. -/
def NoWrap (W s h : ℕ) : Prop := (W - 1) / s * s + h < W

def last (W s h : ℕ) : ℕ := (W - 1 - h) / s * s + h

def Fits (W R s h : ℕ) : Prop :=
  if s ≤ R then (s ∣ R ∨ last W s h < R) ∧ (s ∣ W ∨ NoWrap W s h)
  else h % R = h % s ∧ R ∣ s ∧ (R ∣ W ∨ NoWrap W s h)

section Step

variable {W R s h k q t T : ℕ}

/-- A number is on the grid when what was taken off is a multiple of the step. -/
theorem modEq_iff_of_add (he : q + t = k * s + h) : q ≡ h [MOD s] ↔ s ∣ t := by
  have hgrid : k * s + h ≡ h [MOD s] := by
    have hk : k * s ≡ 0 [MOD s] := (Nat.modEq_zero_iff_dvd).mpr (Nat.dvd_mul_left s k)
    simpa only [Nat.zero_add] using hk.add_right h
  constructor
  · intro hq
    have hsum : q + t ≡ q + 0 [MOD s] := by
      rw [he, Nat.add_zero]
      exact hgrid.trans hq.symm
    exact (Nat.modEq_zero_iff_dvd).mp (Nat.ModEq.add_left_cancel' q hsum)
  · intro ht
    have hsum : q + t ≡ q + 0 [MOD s] := Nat.ModEq.add_left q ((Nat.modEq_zero_iff_dvd).mpr ht)
    rw [he, Nat.add_zero] at hsum
    exact hsum.symm.trans hgrid

/-- **A grid has a place in every stretch of one step**, at or before any place beyond it. -/
theorem exists_step {j : ℕ} (hT : h ≤ T) (hj : T ≤ j * s + h) (hs : 0 < s) :
    ∃ k ≤ j, T ≤ k * s + h ∧ k * s + h < T + s := by
  have hex : ∃ k, T ≤ k * s + h := ⟨j, hj⟩
  refine ⟨Nat.find hex, Nat.find_min' hex hj, Nat.find_spec hex, ?_⟩
  cases hk : Nat.find hex with
  | zero => omega
  | succ i =>
    have hbefore : ¬ T ≤ i * s + h := Nat.find_min hex (by omega)
    rw [Nat.succ_mul]
    omega

theorem place_of_lt (hk : k * s + h < W) : place W R s h k = (k * s + h) % R := by
  rw [place, Nat.mod_eq_of_lt hk]

theorem place_of_le (hks : k * s < W) (hh : h < W) (hk : W ≤ k * s + h) :
    place W R s h k = (k * s + h - W) % R := by
  rw [place, Nat.mod_eq_sub_mod hk, Nat.mod_eq_of_lt (by omega : k * s + h - W < W)]

theorem lt_last (hs : 0 < s) (hk : k * s + h < W) : k * s + h ≤ last W s h := by
  have hdiv : k ≤ (W - 1 - h) / s := (Nat.le_div_iff_mul_le hs).mpr (by omega)
  have := Nat.mul_le_mul_right s hdiv
  unfold last
  omega

theorem last_lt (hh : h < W) : last W s h < W := by
  have := Nat.div_mul_le_self (W - 1 - h) s
  unfold last
  omega

theorem lt_of_mul_lt (hs : 0 < s) (hk : k * s < W) : k ≤ (W - 1) / s :=
  (Nat.le_div_iff_mul_le hs).mpr (by omega)

theorem lt_top_add (hs : 0 < s) (hW : 0 < W) : (W - 1) / s * s < W ∧ W ≤ (W - 1) / s * s + s := by
  have hle := Nat.div_mul_le_self (W - 1) s
  have hlt := Nat.lt_div_mul_add hs (a := W - 1)
  omega

end Step

/-! ## A range of at least one step -/

section Wide

variable {W R s h : ℕ}

/-- There is a place within a step after a wrap, so the wrap must take off whole steps. -/
theorem dvd_word (hs : 0 < s) (hsR : s ≤ R) (hh : h < W) (hkept : Kept W R s h)
    (hwrap : ¬ NoWrap W s h) : s ∣ W := by
  obtain ⟨htop, -⟩ := lt_top_add hs (by omega : 0 < W)
  obtain ⟨k, hkle, hge, hlt⟩ := exists_step hh.le (not_lt.mp hwrap) hs
  have hks : k * s < W := lt_of_le_of_lt (Nat.mul_le_mul_right s hkle) htop
  have hplace := hkept k hks
  rw [place_of_le hks hh hge, Nat.mod_eq_of_lt (by omega)] at hplace
  exact (modEq_iff_of_add (by omega : k * s + h - W + W = k * s + h)).mp hplace

/-- There is a place within a step after a turn, so the turn must take off whole steps. When
already `h` is past the first turn, the places after a wrap come to the turn again. -/
theorem dvd_range (hs : 0 < s) (hsR : s ≤ R) (hh : h < W) (hkept : Kept W R s h)
    (hturn : ¬ last W s h < R) : s ∣ R := by
  by_cases hlow : h ≤ R
  · obtain ⟨k, hkle, hge, hlt⟩ := exists_step hlow (not_lt.mp hturn) hs
    have hlast := last_lt (s := s) hh
    have hkW : k * s + h < W := by
      have := Nat.mul_le_mul_right s hkle
      unfold last at hlast
      omega
    have hplace := hkept k (by omega)
    rw [place_of_lt hkW, Nat.mod_eq_sub_mod hge, Nat.mod_eq_of_lt (by omega)] at hplace
    exact (modEq_iff_of_add (by omega : k * s + h - R + R = k * s + h)).mp hplace
  · by_cases hnear : h < R + s
    · have hplace := hkept 0 (by omega)
      rw [place_of_lt (by omega), Nat.zero_mul, Nat.zero_add, Nat.mod_eq_sub_mod (by omega),
        Nat.mod_eq_of_lt (by omega)] at hplace
      exact (modEq_iff_of_add (by omega : h - R + R = 0 * s + h)).mp hplace
    · obtain ⟨htop, hreach⟩ := lt_top_add hs (by omega : 0 < W)
      obtain ⟨k, hkle, hge, hlt⟩ := exists_step (T := W + R) (by omega)
        (by omega : W + R ≤ (W - 1) / s * s + h) hs
      have hks : k * s < W := lt_of_le_of_lt (Nat.mul_le_mul_right s hkle) htop
      have hplace := hkept k hks
      rw [place_of_le hks hh (by omega), Nat.mod_eq_sub_mod (by omega),
        Nat.mod_eq_of_lt (by omega)] at hplace
      have hboth : s ∣ W + R :=
        (modEq_iff_of_add (by omega : k * s + h - W - R + (W + R) = k * s + h)).mp hplace
      have hwrap : ¬ NoWrap W s h := by
        unfold NoWrap
        omega
      exact (Nat.dvd_add_right (dvd_word hs hsR hh hkept hwrap)).mp hboth

theorem mod_modEq {x : ℕ} (hx : x ≡ h [MOD s]) (hR : s ∣ R ∨ x < R) : x % R ≡ h [MOD s] := by
  rcases hR with hdvd | hlt
  · have hmod : x % R ≡ x [MOD s] := Nat.mod_mod_of_dvd x hdvd
    exact hmod.trans hx
  · rw [Nat.mod_eq_of_lt hlt]
    exact hx

theorem kept_of_wide (hs : 0 < s) (hh : h < W) (hR : s ∣ R ∨ last W s h < R)
    (hW : s ∣ W ∨ NoWrap W s h) : Kept W R s h := by
  intro k hks
  by_cases hwrap : k * s + h < W
  · rw [place_of_lt hwrap]
    refine mod_modEq ((modEq_iff_of_add (Nat.add_zero _)).mpr (Nat.dvd_zero s))
      (hR.imp_right fun hlt => ?_)
    exact lt_of_le_of_lt (lt_last hs hwrap) hlt
  · have htop := Nat.mul_le_mul_right s (lt_of_mul_lt hs hks)
    have hdvd : s ∣ W := hW.resolve_right fun hno => by
      unfold NoWrap at hno
      omega
    rw [place_of_le hks hh (not_lt.mp hwrap)]
    have hgrid : k * s + h - W ≡ h [MOD s] :=
      (modEq_iff_of_add (by omega : k * s + h - W + W = k * s + h)).mpr hdvd
    refine mod_modEq hgrid (hR.imp_right fun hlt => ?_)
    have hfirst := lt_last (k := 0) (W := W) (h := h) hs (by omega)
    omega

end Wide

/-! ## A range shorter than a step -/

section Narrow

variable {W R s h : ℕ}

/-- All places are one number, the only one of the range that is on the grid. -/
theorem place_eq {k : ℕ} (hR : 0 < R) (hRs : R < s) (hkept : Kept W R s h) (hks : k * s < W) :
    place W R s h k = h % s := by
  have hlt : place W R s h k < s := (Nat.mod_lt _ hR).trans hRs
  have hmod : place W R s h k % s = h % s := hkept k hks
  rwa [Nat.mod_eq_of_lt hlt] at hmod

theorem dvd_of_mod_eq {x d : ℕ} (h : (x + d) % R = x % R) : R ∣ d := by
  have hsum : x + d ≡ x + 0 [MOD R] := h
  exact (Nat.modEq_zero_iff_dvd).mp (Nat.ModEq.add_left_cancel' x hsum)

theorem narrow_of_kept (hR : 0 < R) (hRs : R < s) (hsW : 3 * s ≤ W) (hh : h < W)
    (hkept : Kept W R s h) : h % R = h % s ∧ R ∣ s ∧ (R ∣ W ∨ NoWrap W s h) := by
  have hs : 0 < s := by omega
  have hzero : h % R = h % s := by
    have := place_eq hR hRs hkept (k := 0) (by omega)
    rwa [place_of_lt (by omega), Nat.zero_mul, Nat.zero_add] at this
  have hdvd : R ∣ s := by
    by_cases hwrap : s + h < W
    · have hone := place_eq hR hRs hkept (k := 1) (by omega)
      rw [place_of_lt (by omega), Nat.one_mul] at hone
      exact dvd_of_mod_eq (x := h) (by rw [Nat.add_comm, hone, hzero])
    · have hone := place_eq hR hRs hkept (k := 1) (by omega)
      have htwo := place_eq hR hRs hkept (k := 2) (by omega)
      rw [place_of_le (by omega) hh (by omega), Nat.one_mul] at hone
      rw [place_of_le (by omega) hh (by omega)] at htwo
      apply dvd_of_mod_eq (x := s + h - W)
      rw [hone, ← htwo]
      congr 1
      omega
  refine ⟨hzero, hdvd, ?_⟩
  by_cases hno : NoWrap W s h
  · exact .inr hno
  · obtain ⟨htop, -⟩ := lt_top_add hs (by omega : 0 < W)
    have hge : W ≤ (W - 1) / s * s + h := not_lt.mp hno
    have hlast := place_eq hR hRs hkept htop
    rw [place_of_le htop hh hge, ← hzero] at hlast
    refine .inl (dvd_of_mod_eq (x := (W - 1) / s * s + h - W) ?_)
    rw [hlast, Nat.sub_add_cancel hge]
    have hgrid : (W - 1) / s * s + h ≡ 0 + h [MOD R] :=
      ((Nat.modEq_zero_iff_dvd).mpr (Dvd.dvd.mul_left hdvd _)).add_right h
    rw [Nat.zero_add] at hgrid
    exact hgrid

theorem kept_of_narrow (hs : 0 < s) (hh : h < W) (hzero : h % R = h % s) (hdvd : R ∣ s)
    (hW : R ∣ W ∨ NoWrap W s h) : Kept W R s h := by
  intro k hks
  have hgrid : k * s + h ≡ h [MOD R] := by
    have hk : k * s ≡ 0 [MOD R] := (Nat.modEq_zero_iff_dvd).mpr (Dvd.dvd.mul_left hdvd _)
    simpa only [Nat.zero_add] using hk.add_right h
  have hplace : place W R s h k = h % R := by
    by_cases hwrap : k * s + h < W
    · rw [place_of_lt hwrap]
      exact hgrid
    · have htop := Nat.mul_le_mul_right s (lt_of_mul_lt hs hks)
      have hword : R ∣ W := hW.resolve_right fun hno => by
        unfold NoWrap at hno
        omega
      rw [place_of_le hks hh (not_lt.mp hwrap)]
      have hback : k * s + h - W + W ≡ k * s + h - W + 0 [MOD R] :=
        Nat.ModEq.add_left _ ((Nat.modEq_zero_iff_dvd).mpr hword)
      rw [Nat.sub_add_cancel (not_lt.mp hwrap), Nat.add_zero] at hback
      exact hback.symm.trans hgrid
  rw [hplace, hzero]
  exact Nat.mod_modEq h s

end Narrow

/-- **When the grid is kept.** The remainder by the range keeps it when the step divides the
range, or when no place comes to the end of the range; and a wrap of the word keeps it when the
step divides the word. The two are not independent, since it is the wrapped place that is
reduced. -/
theorem kept_iff {W R s h : ℕ} (hs : 0 < s) (hsW : 3 * s ≤ W) (hR : 0 < R) (hh : h < W) :
    Kept W R s h ↔ Fits W R s h := by
  unfold Fits
  split
  · rename_i hsR
    constructor
    · intro hkept
      exact ⟨or_iff_not_imp_right.mpr (dvd_range hs hsR hh hkept),
        or_iff_not_imp_right.mpr (dvd_word hs hsR hh hkept)⟩
    · rintro ⟨hrange, hword⟩
      exact kept_of_wide hs hh hrange hword
  · rename_i hRs
    constructor
    · exact narrow_of_kept hR (by omega) hsW hh
    · rintro ⟨hzero, hdvd, hword⟩
      exact kept_of_narrow hs hh hzero hdvd hword

end Grid
