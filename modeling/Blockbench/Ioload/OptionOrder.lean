import Mathlib.Data.List.Nodup
import Blockbench.Ioload.Params

/-!
# `Ioload/OptionOrder.lean` — does the order of the `-m` suboptions matter?

Each suboption assigns a field of its own (`ModOpt.assign`), so the assignments commute. What
does not commute is the check: `minoff` is compared with whatever `maxoff` holds when it is
read, which is the default of 200 GB when `maxoff` comes later. `minoff=300000,maxoff=400000`
is refused and `maxoff=400000,minoff=300000` is not.

That is the only way the order shows (`order_independent_iff`). A range whose ends are in order
is refused somewhere on the way only when its low end is at or above the default `maxoff` and is
read first; and `maxoff` read first is compared with zero, which is below every high end.
-/

set_option autoImplicit false

namespace Blockbench
namespace Ioload

/-! ## One suboption -/

/-- `M_MINOFF` and its like: the place of the name in `modopts`, and -1 for no name of it. -/
def ModOpt.index : ModOpt → ℤ
  | .minoff _ => 0
  | .maxoff _ => 1
  | .warmup _ => 2
  | .interval _ => 3
  | .initthreads _ => 4
  | .maxthreads _ => 5
  | .incrthreads _ => 6
  | .maxlat _ => 7
  | .status _ => 8
  | .maxrate _ => 9
  | .multiplier _ => 10
  | .maxiosize _ => 11
  | .header _ => 12
  | .unknown => -1

def ModOpt.value : ModOpt → Arg
  | .minoff v | .maxoff v | .warmup v | .interval v | .initthreads v | .maxthreads v
  | .incrthreads v | .maxlat v | .status v | .maxrate v | .multiplier v | .maxiosize v
  | .header v => v
  | .unknown => none

/-- The assignment of a suboption read with the value `v`, without its check. -/
def ModOpt.store (v : UInt64) (cp : CmdParams) : ModOpt → CmdParams
  | .minoff _ => { cp with minoff := v <<< 20 }
  | .maxoff _ => { cp with maxoff := v <<< 20 }
  | .multiplier _ => { cp with multiplier := v.toUInt32.toInt32 }
  | .status _ => { cp with status := v.toUInt32 }
  | .header _ => { cp with headersz := v * 1024 }
  | .warmup _ => { cp with warmup := v * nsecToSec }
  | .interval _ => { cp with interval := v * nsecToSec }
  | .initthreads _ => { cp with initthreads := v.toUInt32.toInt32 }
  | .maxthreads _ => { cp with maxthreads := v.toUInt32.toInt32 }
  | .incrthreads _ => { cp with incrthreads := v.toUInt32.toInt32 }
  | .maxlat _ => { cp with maxlatency := v.toUInt32 * 1000 }
  | .maxrate _ => { cp with maxrate := v.toUInt32 }
  | .maxiosize _ => { cp with maxiosize := v.toUInt32.toInt32 }
  | .unknown => cp

def ModOpt.assign (cp : CmdParams) (o : ModOpt) : CmdParams :=
  match o.value with
  | none => cp
  | some v => o.store v cp

/-- The suboption sets an end of the range, and so ends with the check. -/
def ModOpt.Bound (o : ModOpt) : Prop := o.index = 0 ∨ o.index = 1

section One

variable {cp : CmdParams} {o o' : ModOpt} {v v' : UInt64}

theorem assign_eq (hv : o.value = some v) : o.assign cp = o.store v cp := by
  rw [ModOpt.assign, hv]

theorem store_minoff (ho : o.index ≠ 0) : (o.store v cp).minoff = cp.minoff := by
  cases cp
  cases o with
  | minoff => exact (ho rfl).elim
  | _ => rfl

theorem store_maxoff (ho : o.index ≠ 1) : (o.store v cp).maxoff = cp.maxoff := by
  cases cp
  cases o with
  | maxoff => exact (ho rfl).elim
  | _ => rfl

theorem store_comm (h : o.index ≠ o'.index) :
    o'.store v' (o.store v cp) = o.store v (o'.store v' cp) := by
  cases o <;> cases o' <;> first | exact absurd rfl h | rfl

theorem getmodopt_other (hv : o.value = some v) (ho : ¬ o.Bound) :
    getmodopt cp o = some (o.store v cp) := by
  cases o with
  | minoff => exact (ho (.inl rfl)).elim
  | maxoff => exact (ho (.inr rfl)).elim
  | unknown => cases hv
  | warmup | interval | initthreads | maxthreads | incrthreads | maxlat | status | maxrate
  | multiplier | maxiosize | header =>
    cases hv
    rfl

theorem getmodopt_bound (hv : o.value = some v) (ho : o.Bound) :
    getmodopt cp o = checkRange (o.store v cp) := by
  cases o with
  | minoff =>
    cases hv
    show (some v).bind (fun x => checkRange { cp with minoff := x <<< 20 }) = _
    rw [Option.bind_some, ModOpt.store]
  | maxoff =>
    cases hv
    show (some v).bind (fun x => checkRange { cp with maxoff := x <<< 20 }) = _
    rw [Option.bind_some, ModOpt.store]
  | _ => simp [ModOpt.Bound, ModOpt.index] at ho

theorem eq_minoff (hv : o.value = some v) (ho : o.index = 0) : o = .minoff (some v) := by
  cases o with
  | minoff =>
    cases hv
    rfl
  | _ => simp [ModOpt.index] at ho

theorem eq_maxoff (hv : o.value = some v) (ho : o.index = 1) : o = .maxoff (some v) := by
  cases o with
  | maxoff =>
    cases hv
    rfl
  | _ => simp [ModOpt.index] at ho

end One

/-! ## A list of them -/

/-- Suboptions with values, and no name twice. -/
structure WellFormed (opts : List ModOpt) : Prop where
  value : ∀ o ∈ opts, o.value.isSome
  names : (opts.map ModOpt.index).Nodup

/-- What the assignments make of the parameters, checks or no checks. -/
def assignAll (cp : CmdParams) (opts : List ModOpt) : CmdParams := opts.foldl ModOpt.assign cp

section Lists

variable {cp q : CmdParams} {o : ModOpt} {opts opts' : List ModOpt}

theorem WellFormed.tail (h : WellFormed (o :: opts)) : WellFormed opts :=
  ⟨fun o ho => h.value o (List.mem_cons_of_mem _ ho), (List.nodup_cons.mp h.names).2⟩

theorem WellFormed.head (h : WellFormed (o :: opts)) : ∀ o' ∈ opts, o.index ≠ o'.index :=
  fun _ ho' heq => (List.nodup_cons.mp h.names).1 (heq ▸ List.mem_map_of_mem ho')

theorem WellFormed.perm (h : WellFormed opts) (hp : opts'.Perm opts) : WellFormed opts' :=
  ⟨fun o ho => h.value o (hp.mem_iff.mp ho), (hp.map _).nodup_iff.mpr h.names⟩

/-- **The assignments may be made in any order**, as long as no name comes twice: each stores to a
field of its own, and reads nothing but its argument. It is the checks between them that do not
commute. -/
theorem assignAll_perm (h : WellFormed opts) (hp : opts.Perm opts') (cp : CmdParams) :
    assignAll cp opts = assignAll cp opts' := by
  refine hp.foldl_eq' (fun o ho o' ho' _ => ?_) _
  by_cases heq : o.index = o'.index
  · rw [List.inj_on_of_nodup_map h.names ho ho' heq]
  · obtain ⟨v, hv⟩ := Option.isSome_iff_exists.mp (h.value o ho)
    obtain ⟨v', hv'⟩ := Option.isSome_iff_exists.mp (h.value o' ho')
    rw [assign_eq hv, assign_eq hv', assign_eq hv, assign_eq hv']
    exact store_comm heq

theorem assignAll_field {field : CmdParams → UInt64} {opts : List ModOpt}
    (hv : ∀ o ∈ opts, o.value.isSome)
    (hkeep : ∀ o ∈ opts, ∀ v cp, field (o.store v cp) = field cp) (cp : CmdParams) :
    field (assignAll cp opts) = field cp := by
  induction opts generalizing cp with
  | nil => rfl
  | cons o opts ih =>
    obtain ⟨v, hval⟩ := Option.isSome_iff_exists.mp (hv o List.mem_cons_self)
    have hrest : field (assignAll (o.assign cp) opts) = field (o.assign cp) :=
      ih (fun o h => hv o (List.mem_cons_of_mem _ h))
        (fun o h => hkeep o (List.mem_cons_of_mem _ h)) _
    rw [assignAll, List.foldl_cons, ← assignAll, hrest, assign_eq hval,
      hkeep o List.mem_cons_self]

theorem assignAll_minoff (hv : ∀ o ∈ opts, o.value.isSome) (ho : ∀ o ∈ opts, o.index ≠ 0) :
    (assignAll cp opts).minoff = cp.minoff :=
  assignAll_field hv (fun o h _ _ => store_minoff (ho o h)) cp

theorem assignAll_maxoff (hv : ∀ o ∈ opts, o.value.isSome) (ho : ∀ o ∈ opts, o.index ≠ 1) :
    (assignAll cp opts).maxoff = cp.maxoff :=
  assignAll_field hv (fun o h _ _ => store_maxoff (ho o h)) cp

theorem assignAll_cons {o : ModOpt} {v : UInt64} (hv : o.value = some v) :
    assignAll cp (o :: opts) = assignAll (o.store v cp) opts := by
  rw [assignAll, List.foldl_cons, assign_eq hv, assignAll]

theorem eq_assignAll_of_getmodopts (hv : ∀ o ∈ opts, o.value.isSome)
    (h : getmodopts cp opts = some q) : q = assignAll cp opts := by
  induction opts generalizing cp with
  | nil =>
    rw [getmodopts, List.foldlM_nil] at h
    cases h
    rfl
  | cons o opts ih =>
    rw [getmodopts, List.foldlM_cons] at h
    obtain ⟨p, hp, hrest⟩ := Option.bind_eq_some_iff.mp h
    obtain ⟨v, hval⟩ := Option.isSome_iff_exists.mp (hv o List.mem_cons_self)
    have heq : p = o.assign cp := by
      rw [assign_eq hval]
      by_cases ho : o.Bound
      · rw [getmodopt_bound hval ho] at hp
        exact (checkRange_eq_some.mp hp).1.symm
      · rw [getmodopt_other hval ho] at hp
        exact (Option.some.inj hp).symm
    subst heq
    exact ih (fun o h => hv o (List.mem_cons_of_mem _ h)) hrest

def CmdParams.InOrder (cp : CmdParams) : Prop := cp.minoff < cp.maxoff

theorem checkRange_of_inOrder (h : cp.InOrder) : checkRange cp = some cp :=
  if_neg (UInt64.not_le.mpr h)

theorem inOrder_minoff {v : UInt64} {w : Arg} :
    (ModOpt.store v cp (.minoff w)).InOrder ↔ v <<< 20 < cp.maxoff := by
  cases cp
  exact Iff.rfl

theorem inOrder_maxoff {v : UInt64} {w : Arg} :
    (ModOpt.store v cp (.maxoff w)).InOrder ↔ cp.minoff < v <<< 20 := by
  cases cp
  exact Iff.rfl

theorem store_ends (cp : CmdParams) (v : UInt64) (ho : ¬ o.Bound) :
    (o.store v cp).minoff = cp.minoff ∧ (o.store v cp).maxoff = cp.maxoff :=
  ⟨store_minoff fun h => ho (.inl h), store_maxoff fun h => ho (.inr h)⟩

theorem getmodopts_cons {p : CmdParams} (h : getmodopt cp o = some p) (opts : List ModOpt) :
    getmodopts cp (o :: opts) = getmodopts p opts := by
  rw [getmodopts, List.foldlM_cons, h]
  rfl

/-- **What is in order at the end is accepted**, when the end read first is in order with the
value the other has at that moment. The induction is on the list; an end that is not followed
by the other has met the value the check at the end is made with. -/
theorem getmodopts_of_inOrder (hwf : WellFormed opts) (hend : (assignAll cp opts).InOrder)
    (hmin : ∀ a b : UInt64, .minoff (some a) ∈ opts → .maxoff (some b) ∈ opts →
      a <<< 20 < cp.maxoff)
    (hmax : ∀ a b : UInt64, .minoff (some a) ∈ opts → .maxoff (some b) ∈ opts →
      cp.minoff < b <<< 20) :
    getmodopts cp opts = some (assignAll cp opts) := by
  induction opts generalizing cp with
  | nil => rfl
  | cons o opts ih =>
    obtain ⟨v, hval⟩ := Option.isSome_iff_exists.mp (hwf.value o List.mem_cons_self)
    have hvals := hwf.tail.value
    have hnames := hwf.head
    rw [assignAll_cons hval] at hend ⊢
    by_cases hbound : o.Bound
    · -- the names are distinct, so the other end has its value from the start or from the list
      have hok : (o.store v cp).InOrder := by
        rcases hbound with h0 | h1
        · obtain rfl := eq_minoff hval h0
          rw [inOrder_minoff]
          by_cases hb : ∃ b : UInt64, .maxoff (some b) ∈ opts
          · obtain ⟨b, hb⟩ := hb
            exact hmin v b List.mem_cons_self (List.mem_cons_of_mem _ hb)
          · have hno : ∀ o ∈ opts, o.index ≠ 1 := fun o ho h1 => by
              obtain ⟨b, hval'⟩ := Option.isSome_iff_exists.mp (hvals o ho)
              exact hb ⟨b, eq_maxoff hval' h1 ▸ ho⟩
            rw [CmdParams.InOrder, assignAll_minoff hvals fun o ho => (hnames o ho).symm,
              assignAll_maxoff hvals hno] at hend
            exact inOrder_minoff.mp hend
        · obtain rfl := eq_maxoff hval h1
          rw [inOrder_maxoff]
          by_cases ha : ∃ a : UInt64, .minoff (some a) ∈ opts
          · obtain ⟨a, ha⟩ := ha
            exact hmax a v (List.mem_cons_of_mem _ ha) List.mem_cons_self
          · have hno : ∀ o ∈ opts, o.index ≠ 0 := fun o ho h0 => by
              obtain ⟨a, hval'⟩ := Option.isSome_iff_exists.mp (hvals o ho)
              exact ha ⟨a, eq_minoff hval' h0 ▸ ho⟩
            rw [CmdParams.InOrder, assignAll_minoff hvals hno,
              assignAll_maxoff hvals fun o ho => (hnames o ho).symm] at hend
            exact inOrder_maxoff.mp hend
      rw [getmodopts_cons ((getmodopt_bound hval hbound).trans (checkRange_of_inOrder hok))]
      have hnone : ∀ a b : UInt64, .minoff (some a) ∈ opts → .maxoff (some b) ∈ opts → False := by
        intro a b ha hb
        rcases hbound with h0 | h1
        · exact hnames _ ha h0
        · exact hnames _ hb h1
      exact ih hwf.tail hend (fun a b ha hb => (hnone a b ha hb).elim)
        fun a b ha hb => (hnone a b ha hb).elim
    · obtain ⟨hsame, hsame'⟩ := store_ends cp v hbound
      rw [getmodopts_cons (getmodopt_other hval hbound)]
      refine ih hwf.tail hend (fun a b ha hb => ?_) fun a b ha hb => ?_
      · rw [hsame']
        exact hmin a b (List.mem_cons_of_mem _ ha) (List.mem_cons_of_mem _ hb)
      · rw [hsame]
        exact hmax a b (List.mem_cons_of_mem _ ha) (List.mem_cons_of_mem _ hb)

end Lists

/-! ## Every order -/

/-- The `-m` arguments of a command line, one after the other. -/
def getmodargs (cp : CmdParams) (args : List (List ModOpt)) : Option CmdParams :=
  args.foldlM getmodopts cp

theorem getmodargs_eq (cp : CmdParams) (args : List (List ModOpt)) :
    getmodargs cp args = getmodopts cp args.flatten := by
  induction args generalizing cp with
  | nil => rfl
  | cons opts args ih =>
    rw [List.flatten_cons, getmodopts, List.foldlM_append, getmodargs, List.foldlM_cons]
    exact congrArg (Option.bind (getmodopts cp opts)) (funext fun p => ih p)

/-- However the suboptions are ordered and spread over `-m` arguments, from the defaults they
are accepted alike and leave the same parameters. -/
def OrderIndependent (opts : List ModOpt) : Prop :=
  ∀ args args' : List (List ModOpt), args.flatten.Perm opts → args'.flatten.Perm opts →
    getmodargs params args = getmodargs params args'

/-- The range is in order and starts at the default `maxoff` or above it. -/
def StartsLate (opts : List ModOpt) : Prop :=
  ∃ a b : UInt64, .minoff (some a) ∈ opts ∧ .maxoff (some b) ∈ opts ∧
    params.maxoff ≤ a <<< 20 ∧ a <<< 20 < b <<< 20

section Order

variable {cp : CmdParams} {a b : UInt64} {opts : List ModOpt}

theorem exists_perm_cons {o : ModOpt} (h : o ∈ opts) : ∃ rest, opts.Perm (o :: rest) := by
  obtain ⟨l, r, rfl⟩ := List.append_of_mem h
  exact ⟨l ++ r, List.perm_middle⟩

theorem assignAll_ends (cp : CmdParams) (hwf : WellFormed opts) (ha : .minoff (some a) ∈ opts)
    (hb : .maxoff (some b) ∈ opts) :
    (assignAll cp opts).minoff = a <<< 20 ∧ (assignAll cp opts).maxoff = b <<< 20 := by
  constructor
  · obtain ⟨rest, hperm⟩ := exists_perm_cons ha
    have hwf' := hwf.perm hperm.symm
    rw [assignAll_perm hwf hperm, assignAll_cons rfl,
      assignAll_minoff hwf'.tail.value fun o ho => (hwf'.head o ho).symm]
    cases cp
    rfl
  · obtain ⟨rest, hperm⟩ := exists_perm_cons hb
    have hwf' := hwf.perm hperm.symm
    rw [assignAll_perm hwf hperm, assignAll_cons rfl,
      assignAll_maxoff hwf'.tail.value fun o ho => (hwf'.head o ho).symm]
    cases cp
    rfl

theorem getmodopts_eq_checkRange (hwf : WellFormed opts) (hlate : ¬ StartsLate opts) :
    getmodopts params opts = checkRange (assignAll params opts) := by
  by_cases hend : (assignAll params opts).InOrder
  · rw [checkRange_of_inOrder hend]
    have hab : ∀ a b : UInt64, .minoff (some a) ∈ opts → .maxoff (some b) ∈ opts →
        a <<< 20 < b <<< 20 := by
      intro a b ha hb
      obtain ⟨hmin, hmax⟩ := assignAll_ends params hwf ha hb
      rw [CmdParams.InOrder, hmin, hmax] at hend
      exact hend
    refine getmodopts_of_inOrder hwf hend (fun a b ha hb => ?_) fun a b ha hb => ?_
    · exact UInt64.not_le.mp fun hle => hlate ⟨a, b, ha, hb, hle, hab a b ha hb⟩
    · have hzero : params.minoff = 0 := rfl
      rw [hzero]
      exact UInt64.lt_of_le_of_lt UInt64.zero_le (hab a b ha hb)
  · -- what is accepted is in order
    have hnone : checkRange (assignAll params opts) = none := if_pos (UInt64.not_lt.mp hend)
    rw [hnone, Option.eq_none_iff_forall_ne_some]
    intro q hq
    have hranged : q.Ranged :=
      foldlM_keeps (fun _ _ _ => getmodopt_ranged) opts params_ranged hq
    obtain rfl := eq_assignAll_of_getmodopts hwf.value hq
    exact hend (UInt64.lt_iff_toNat_lt.mpr hranged.lt)

/-- A late start is refused when it is read first and accepted when it is read last. -/
theorem startsLate_differs (hwf : WellFormed opts) (h : StartsLate opts) :
    ¬ OrderIndependent opts := by
  obtain ⟨a, b, ha, hb, hlate, hab⟩ := h
  obtain ⟨rest, hperm⟩ := exists_perm_cons ha
  have hb' : .maxoff (some b) ∈ rest := by
    rcases List.mem_cons.mp (hperm.mem_iff.mp hb) with heq | hmem
    · cases heq
    · exact hmem
  obtain ⟨others, hothers⟩ := exists_perm_cons hb'
  have hfirst : opts.Perm (.minoff (some a) :: .maxoff (some b) :: others) :=
    hperm.trans (hothers.cons _)
  have hlast : opts.Perm (.maxoff (some b) :: .minoff (some a) :: others) :=
    hfirst.trans (List.Perm.swap _ _ _)
  intro hind
  have heq := hind [.minoff (some a) :: .maxoff (some b) :: others]
    [.maxoff (some b) :: .minoff (some a) :: others] (by simpa using hfirst.symm)
    (by simpa using hlast.symm)
  rw [getmodargs_eq, getmodargs_eq, List.flatten_singleton, List.flatten_singleton] at heq
  -- `minoff` first meets the default `maxoff`
  have hrefused : getmodopt params (.minoff (some a)) = none := by
    rw [getmodopt_bound rfl (.inl rfl)]
    refine if_pos (UInt64.not_lt.mp fun hin => ?_)
    exact absurd (inOrder_minoff.mp hin) (UInt64.not_lt.mpr hlate)
  -- `maxoff` first meets zero, and `minoff` then meets its real bound
  have hwf' := hwf.perm hlast.symm
  have hzero : params.minoff = 0 := rfl
  have hok : (ModOpt.store b params (.maxoff (some b))).InOrder := by
    rw [inOrder_maxoff, hzero]
    exact UInt64.lt_of_le_of_lt UInt64.zero_le hab
  have hend : (assignAll params (.maxoff (some b) :: .minoff (some a) :: others)).InOrder := by
    obtain ⟨hmin, hmax⟩ := assignAll_ends (a := a) (b := b) params hwf'
      (List.mem_cons_of_mem _ List.mem_cons_self) List.mem_cons_self
    rw [CmdParams.InOrder, hmin, hmax]
    exact hab
  rw [assignAll_cons rfl] at hend
  have hnone : ∀ b' : UInt64, .maxoff (some b') ∈ .minoff (some a) :: others → False :=
    fun b' hmem => hwf'.head _ hmem rfl
  have haccepted := getmodopts_of_inOrder hwf'.tail hend
    (fun _ b' _ hmem => (hnone b' hmem).elim) fun _ b' _ hmem => (hnone b' hmem).elim
  rw [getmodopts_cons ((getmodopt_bound rfl (.inr rfl)).trans (checkRange_of_inOrder hok)),
    haccepted, getmodopts, List.foldlM_cons, hrefused] at heq
  cases heq

/-- **When the order of the `-m` suboptions does not matter**: exactly when the range does not
start at or above the default `maxoff`, or is not in order to begin with.

Orders are all permutations of the suboptions and all ways of spreading them over `-m` arguments;
the names are distinct, since of two with one name the later always wins. A list that is refused
in every order is independent of it too, hence the second case. -/
theorem order_independent_iff (hwf : WellFormed opts) :
    OrderIndependent opts ↔ ¬ StartsLate opts := by
  refine ⟨fun h hlate => startsLate_differs hwf hlate h, fun hlate args args' hargs hargs' => ?_⟩
  have hmem : ∀ {args : List (List ModOpt)}, args.flatten.Perm opts →
      getmodargs params args = checkRange (assignAll params opts) := by
    intro args hp
    have hlate' : ¬ StartsLate args.flatten := fun ⟨a, b, ha, hb, h⟩ =>
      hlate ⟨a, b, hp.mem_iff.mp ha, hp.mem_iff.mp hb, h⟩
    rw [getmodargs_eq, getmodopts_eq_checkRange (hwf.perm hp) hlate',
      assignAll_perm (hwf.perm hp) hp]
  rw [hmem hargs, hmem hargs']

theorem order_independent_small :
    OrderIndependent [.maxoff (some 400), .minoff (some 300), .header (some 0)] := by
  apply (order_independent_iff ⟨by decide, by decide⟩).mpr
  rintro ⟨a, b, ha, -, hlate, -⟩
  have ha' : a = 300 := by simpa using ha
  subst ha'
  exact absurd hlate (by decide)

end Order

/-- `minoff=300000,maxoff=400000` is a range in order; it is refused in this order alone. -/
theorem order_matters : ¬ ∀ opts, WellFormed opts → OrderIndependent opts := by
  intro h
  have hwf : WellFormed [.minoff (some 300000), .maxoff (some 400000)] :=
    ⟨by decide, by decide⟩
  refine startsLate_differs hwf ⟨300000, 400000, ?_, ?_, ?_, ?_⟩ (h _ hwf)
  · exact List.mem_cons_self
  · exact List.mem_cons_of_mem _ List.mem_cons_self
  · decide
  · decide

end Ioload
end Blockbench
