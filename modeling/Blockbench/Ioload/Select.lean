import Blockbench.Lib.Draw
import Blockbench.Ioload.DoIo

/-!
# `Ioload/Select.lean` — the types are drawn in the requested proportions

`do_io` walks down the list of types with one number of `drand48` and takes each `pct` off it
until one is larger than what is left. In the program the type it ends on is a pointer, so two
equal `-i` options are two types; here that is the position of the type in the list
(`selectIndex`), and `selectBy` gives the type at that position. The rest is the walk of
`Lib/Draw.lean`.

The proportions are a fact about the walk on rationals. The program walks on doubles, where a
difference can be rounded: with `pct=0.1` and `pct=0.8999999999999965` the draw `1 - 2 ^ -48` goes
past both types, though the two shares are more than it. `selectItype_eq_exact` is where that
cannot happen.

The list is the `-i` options in the order they were given (`itlist_in_order`).
-/

set_option autoImplicit false

namespace Blockbench
namespace Ioload

/-! ## The list of types -/

def CmdOpt.itype : CmdOpt → Option (List ItypeOpt)
  | .i options => some options
  | _ => none

/-- The suboptions of one `-i` describe a type; `longlats` is what earlier ones left. -/
def Describes (options : List ItypeOpt) (ip : Itype) : Prop :=
  ∃ longlats a, options.foldlM getitypeopt ⟨defitype, 0, longlats⟩ = some a ∧
    setSleepSize a = ip

/-- The options `args` have appended their types to the list, in order. -/
theorem mainOpt_itlist : ∀ {args : List CmdOpt} {c d : Config},
    args.foldlM mainOpt c = some d → ∃ its,
      List.Forall₂ Describes (args.filterMap CmdOpt.itype) its ∧ d.itlist = c.itlist ++ its
  | [], c, d, h => by
    rw [List.foldlM_nil] at h
    cases h
    exact ⟨[], .nil, (List.append_nil _).symm⟩
  | opt :: args, c, d, h => by
    rw [List.foldlM_cons] at h
    obtain ⟨e, he, hrest⟩ := Option.bind_eq_some_iff.mp h
    obtain ⟨its, hits, hd⟩ := mainOpt_itlist hrest
    cases opt with
    | n | v | l | o =>
      cases he
      exact ⟨its, hits, hd⟩
    | m options =>
      simp only [mainOpt, Option.bind_eq_bind, Option.bind_eq_some_iff, Option.pure_def,
        Option.some.injEq] at he
      obtain ⟨p, -, rfl⟩ := he
      exact ⟨its, hits, hd⟩
    | i options =>
      simp only [mainOpt, getitypeopts, Option.bind_eq_bind, Option.bind_eq_some_iff,
        Option.pure_def, Option.some.injEq] at he
      obtain ⟨a, ha, rfl⟩ := he
      refine ⟨setSleepSize a :: its, .cons ⟨_, a, ha, rfl⟩ hits, ?_⟩
      rw [hd, List.append_assoc]
      rfl
    | unknown => cases he

/-- **The list is the `-i` options in order**, or the default type when there are none. Each `-i`
appends one type, with the `longlat` of the options before it as its default. -/
theorem itlist_in_order {args : List CmdOpt} {c : Config} (h : getopt args = some c) :
    ∃ its, List.Forall₂ Describes (args.filterMap CmdOpt.itype) its ∧
      c.itlist = if its = [] then [defitype] else its := by
  rw [getopt, Option.map_eq_some_iff] at h
  obtain ⟨d, hd, rfl⟩ := h
  obtain ⟨its, hits, hlist⟩ := mainOpt_itlist hd
  have hd' : d.itlist = its := hlist
  refine ⟨its, hits, ?_⟩
  rw [useDefitype, hd']
  split
  · rfl
  · exact hd'

/-! ## The walk down the list -/

section Shares

variable {share : Itype → ℚ}

/-- Where in the list the selection loop ends, with the types' shares and the draw as rationals. -/
def selectIndex (share : Itype → ℚ) (first : Itype) (rest : List Itype) (ioselect : ℚ) : ℕ :=
  Draw.stop (share first) (rest.map share) ioselect

/-- `p_1 + … + p_k`: the share of the first `k` types. -/
def pctUpTo (share : Itype → ℚ) (itlist : List Itype) (k : ℕ) : ℚ :=
  Draw.upTo (itlist.map share) k

theorem selectBy_eq (share : Itype → ℚ) (first : Itype) (rest : List Itype) (u : ℚ) :
    (first :: rest)[selectIndex share first rest u]? = some (selectBy share first rest u) := by
  induction rest generalizing first u with
  | nil => rfl
  | cons next rest ih =>
    rw [selectIndex, selectBy, List.map_cons, Draw.stop]
    split
    · rfl
    · exact ih next _

/-- **The types are drawn in the requested proportions.** With shares that are not negative and
add up to one, a draw in `[0, 1)` ends on type `k` exactly when it is in the interval between
the shares of the types before it and the share including it; so the draws of type `k` are an
interval of length its share.

This is the loop in exact arithmetic. The program's own is `selectItype`, and the two are the same
loop where no difference has to be rounded (`selectItype_eq_exact`). -/
theorem selects_in_proportion {first : Itype} {rest : List Itype}
    (hpct : ∀ ip ∈ first :: rest, 0 ≤ share ip)
    (hsum : ((first :: rest).map share).sum = 1) :
    (∀ u : ℚ, 0 ≤ u → u < 1 → ∀ (k : ℕ) (hk : k < (first :: rest).length),
      (selectIndex share first rest u = k ↔
        pctUpTo share (first :: rest) k ≤ u ∧ u < pctUpTo share (first :: rest) (k + 1)) ∧
      (selectIndex share first rest u = k →
        selectBy share first rest u = (first :: rest)[k])) ∧
    ∀ (k : ℕ) (hk : k < (first :: rest).length),
      {u : ℚ | 0 ≤ u ∧ u < 1 ∧ selectIndex share first rest u = k} =
        Set.Ico (pctUpTo share (first :: rest) k)
          (pctUpTo share (first :: rest) k + share (first :: rest)[k]) := by
  have hws : ∀ x ∈ share first :: rest.map share, 0 ≤ x := by
    intro x hx
    obtain ⟨ip, hip, rfl⟩ := List.mem_map.mp (List.map_cons ▸ hx)
    exact hpct ip hip
  have hlen : ∀ k, k < (first :: rest).length → k < (share first :: rest.map share).length := by
    intro k hk
    rwa [← List.map_cons, List.length_map]
  constructor
  · intro u hu hlt k hk
    refine ⟨Draw.stop_eq_iff hws hu (hsum ▸ hlt) (hlen k hk), fun hstop => ?_⟩
    have hget := selectBy_eq share first rest u
    rw [hstop, List.getElem?_eq_getElem hk] at hget
    exact (Option.some.inj hget).symm
  · intro k hk
    have hk' := hlen k hk
    have hpre := Draw.stop_preimage hws hk'
    have hone : (share first :: rest.map share).sum = 1 := hsum
    have hget : (share first :: rest.map share)[k] = share (first :: rest)[k] :=
      List.getElem_map (l := first :: rest) share
    rw [hone, hget] at hpre
    exact hpre

end Shares

/-! ## Where the program's loop is exact -/

def Itype.share (ip : Itype) : ℚ := ip.pct.toRat

/-- The type's `pct` is a whole number of steps of `2 ^ -53`, as is every double from `1 / 2` to
`1`. -/
def Itype.OnSteps (ip : Itype) : Prop :=
  ∃ n : ℕ, ∃ h : Binary64.Representable ((n : ℚ) / 2 ^ 53), ip.pct = .finite (n / 2 ^ 53) h

/-- **The program's loop is exact where the shares are whole steps.** What is left of the draw
starts as a whole number of steps below `2 ^ 53` and a share is only taken off what is at least as
much, so every difference is such a number again, and none of those is rounded. -/
theorem selectItype_eq_exact {first : Itype} {rest : List Itype}
    (h : ∀ ip ∈ first :: rest, ip.OnSteps) (u : Drand48) :
    selectItype first rest u.double = selectBy Itype.share first rest u.val48 := by
  have hwalk : ∀ (rest : List Itype) (ip : Itype), (∀ jp ∈ ip :: rest, jp.OnSteps) →
      ∀ n : ℕ, n < 2 ^ 53 → ∀ hn : Binary64.Representable ((n : ℚ) / 2 ^ 53),
      selectBy Itype.pct ip rest (.finite (n / 2 ^ 53) hn) =
        selectBy Itype.share ip rest ((n : ℚ) / 2 ^ 53) := by
    intro rest
    induction rest with
    | nil => exact fun _ _ _ _ _ => rfl
    | cons next rest ih =>
      intro ip hall n hlt hn
      obtain ⟨m, hm, hpct⟩ := hall ip List.mem_cons_self
      have hshare : ip.share = (m : ℚ) / 2 ^ 53 := by
        rw [Itype.share, hpct]
        rfl
      rw [selectBy, selectBy, hpct, hshare]
      by_cases hless : (n : ℚ) / 2 ^ 53 < m / 2 ^ 53
      · rw [if_pos hless, if_pos (Binary64.finite_lt_finite.mpr hless)]
      · have hle : m ≤ n := by
          by_contra hgt
          exact hless (div_lt_div_of_pos_right (by exact_mod_cast Nat.lt_of_not_le hgt)
            (by positivity))
        have hdiff : (n : ℚ) / 2 ^ 53 - m / 2 ^ 53 = ((n - m : ℕ) : ℚ) / 2 ^ 53 := by
          rw [Nat.cast_sub hle]
          ring
        have hrep : Binary64.Representable ((n : ℚ) / 2 ^ 53 - m / 2 ^ 53) := by
          rw [hdiff]
          exact Binary64.representable_div (by omega)
        rw [if_neg hless, if_neg (mt Binary64.finite_lt_finite.mp hless),
          Binary64.finite_sub_finite hrep]
        simp only [hdiff]
        exact ih next (fun jp hjp => hall jp (List.mem_cons_of_mem _ hjp)) (n - m) (by omega) _
  have hdraw := hwalk rest first h (32 * (u : ℕ)) (by omega)
  unfold selectItype Drand48.double
  simp only [u.val48_eq]
  exact hdraw _

/-- Three parts in four and one in four, as doubles. -/
def threeQuarters : Binary64 :=
  .finite ((3 * 2 ^ 51 : ℕ) / 2 ^ 53) (Binary64.representable_div (by norm_num))

def oneQuarter : Binary64 :=
  .finite ((2 ^ 51 : ℕ) / 2 ^ 53) (Binary64.representable_div (by norm_num))

/-- Three reads in four I/Os, a type that is never drawn, and one write. -/
theorem selects_three_in_four :
    {u : ℚ | 0 ≤ u ∧ u < 1 ∧ selectIndex Itype.share { defitype with pct := threeQuarters }
        [{ defitype with pct := 0 }, { defitype with optype := .write, pct := oneQuarter }] u = 2} =
      Set.Ico (pctUpTo Itype.share [{ defitype with pct := threeQuarters },
          { defitype with pct := 0 }, { defitype with optype := .write, pct := oneQuarter }] 2)
        (pctUpTo Itype.share [{ defitype with pct := threeQuarters }, { defitype with pct := 0 },
          { defitype with optype := .write, pct := oneQuarter }] 2 + oneQuarter.toRat) := by
  refine (selects_in_proportion ?_ ?_).2 2 (by decide)
  · intro ip hip
    simp only [List.mem_cons, List.not_mem_nil, or_false] at hip
    rcases hip with rfl | rfl | rfl <;>
      simp [Itype.share, threeQuarters, oneQuarter, Binary64.toRat] <;> positivity
  · simp [Itype.share, threeQuarters, oneQuarter, Binary64.toRat]
    norm_num

end Ioload
end Blockbench
