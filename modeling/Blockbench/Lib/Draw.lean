import Mathlib.Algebra.Order.BigOperators.Group.List
import Mathlib.Algebra.Order.Group.Unbundled.Basic
import Mathlib.Order.Interval.Set.Defs

/-!
# `Draw` — walking down a list of weights

A loop that is given a number and a list of weights, and takes the weights off the number until
one is larger than what is left. The last weight is never compared: whatever the others leave
over ends there. `stop` is the place where the walk ends and `upTo` the weight in front of a
place.

The rule is `stop_eq_iff`: with weights that are not negative and a number below their sum, the
walk ends at `k` exactly when the number is in `[upTo k, upTo (k + 1))`. What is left of the
number on the way is the number less what was taken off, so the induction is on the list with
the number generalised; the fall-through at the end is right because the sum bounds the number.
-/

set_option autoImplicit false

namespace Draw

variable {G : Type*} [AddCommGroup G] [LinearOrder G]

def stop : G → List G → G → ℕ
  | _, [], _ => 0
  | w, next :: rest, u => if u < w then 0 else stop next rest (u - w) + 1

def upTo (ws : List G) (k : ℕ) : G := (ws.take k).sum

section UpTo

variable {w : G} {ws : List G} {k : ℕ}

omit [LinearOrder G] in
@[simp] theorem upTo_zero : upTo ws 0 = 0 := by
  rw [upTo, List.take_zero, List.sum_nil]

omit [LinearOrder G] in
@[simp] theorem upTo_cons_succ : upTo (w :: ws) (k + 1) = w + upTo ws k := by
  rw [upTo, List.take_succ_cons, List.sum_cons, upTo]

omit [LinearOrder G] in
theorem upTo_succ (hk : k < ws.length) : upTo ws (k + 1) = upTo ws k + ws[k] := by
  rw [upTo, List.take_add_one, List.getElem?_eq_getElem hk, Option.toList_some, List.sum_append,
    List.sum_singleton, upTo]

variable [IsOrderedAddMonoid G]

theorem upTo_nonneg (hws : ∀ x ∈ ws, 0 ≤ x) : 0 ≤ upTo ws k :=
  List.sum_nonneg fun x hx => hws x (List.mem_of_mem_take hx)

end UpTo

/-- **The walk ends at `k` exactly for the numbers in the interval of `k`.** -/
theorem stop_eq_iff [IsOrderedAddMonoid G] {w u : G} {ws : List G} {k : ℕ}
    (hws : ∀ x ∈ w :: ws, 0 ≤ x) (hu : 0 ≤ u) (hlt : u < (w :: ws).sum)
    (hk : k < (w :: ws).length) :
    stop w ws u = k ↔ upTo (w :: ws) k ≤ u ∧ u < upTo (w :: ws) (k + 1) := by
  induction ws generalizing w u k with
  | nil =>
    -- one place, and it takes everything below the only weight
    obtain rfl : k = 0 := Nat.lt_one_iff.mp hk
    rw [List.sum_singleton] at hlt
    rw [stop, upTo_zero, upTo_cons_succ, upTo_zero, add_zero]
    exact iff_of_true rfl ⟨hu, hlt⟩
  | cons next rest ih =>
    have hrest : ∀ x ∈ next :: rest, 0 ≤ x := fun x hx => hws x (List.mem_cons_of_mem _ hx)
    rw [stop]
    cases k with
    | zero =>
      rw [upTo_zero, upTo_cons_succ, upTo_zero, add_zero]
      split
      · rename_i hin
        exact iff_of_true rfl ⟨hu, hin⟩
      · rename_i hout
        exact iff_of_false (Nat.succ_ne_zero _) fun h => hout h.2
    | succ k =>
      rw [upTo_cons_succ, upTo_cons_succ, add_comm w, add_comm w, ← le_sub_iff_add_le,
        ← sub_lt_iff_lt_add]
      split
      · -- the first weight is not all of the weight in front of a later place
        rename_i hin
        apply iff_of_false (Nat.succ_ne_zero k).symm
        intro h
        have hneg : u - w < 0 := sub_neg.mpr hin
        exact absurd (h.1.trans_lt hneg) (not_lt.mpr (upTo_nonneg hrest))
      · rename_i hout
        have hleft : 0 ≤ u - w := sub_nonneg.mpr (not_lt.mp hout)
        have hsum : u - w < (next :: rest).sum := by
          rw [List.sum_cons] at hlt
          exact sub_left_lt_of_lt_add hlt
        rw [Nat.add_right_cancel_iff]
        exact ih hrest hleft hsum (Nat.lt_of_succ_lt_succ hk)

/-- **Each place has an interval as long as its weight.** The intervals lie one behind the other
from zero on, so for weights that add up to one a number drawn evenly from `[0, 1)` stops at each
place with its weight as the probability. -/
theorem stop_preimage [IsOrderedAddMonoid G] {w : G} {ws : List G} {k : ℕ}
    (hws : ∀ x ∈ w :: ws, 0 ≤ x) (hk : k < (w :: ws).length) :
    {u | 0 ≤ u ∧ u < (w :: ws).sum ∧ stop w ws u = k} =
      Set.Ico (upTo (w :: ws) k) (upTo (w :: ws) k + (w :: ws)[k]) := by
  have hend : upTo (w :: ws) (k + 1) ≤ (w :: ws).sum := by
    have hsplit := (List.sum_take_add_sum_drop (w :: ws) (k + 1)).symm
    have hdrop : 0 ≤ ((w :: ws).drop (k + 1)).sum :=
      List.sum_nonneg fun x hx => hws x (List.mem_of_mem_drop hx)
    rw [hsplit]
    exact le_add_of_nonneg_right hdrop
  ext u
  rw [← upTo_succ hk]
  constructor
  · rintro ⟨hu, hlt, hstop⟩
    exact (stop_eq_iff hws hu hlt hk).mp hstop
  · rintro ⟨hge, hlt⟩
    have hu : 0 ≤ u := (upTo_nonneg hws).trans hge
    exact ⟨hu, hlt.trans_le hend, (stop_eq_iff hws hu (hlt.trans_le hend) hk).mpr ⟨hge, hlt⟩⟩

end Draw
