import Mathlib.Data.Nat.Basic
import Mathlib.Tactic.Linarith

/-!
# `Ticker` — a clock that is advanced by the events it is asked about

A ticker numbers the periods of length `P` from the first event on. It keeps the end of the
current period and its number, and each event that comes after that end advances it by one
period. The end is kept modulo `M`, with zero for "not started", and the number stops at `cap`.

An event is `Filed` when its number is that of its period. Since the ticker moves by one period
at a time, it falls behind when an event skips one, and it catches up at every later event;
since the end wraps, it runs ahead once the last period below `M` has begun. `Paced` says
exactly when neither happens (`allFiled_iff`): every event comes at the latest in the period
after the one before it, and no event follows another in the last period, except where the
wrapped end is zero and the ticker starts anew (`Rewound`).

The other use of a ticker is a deadline that is only looked at when it is advanced (`Overdue`).
Its end is never more than one period past the deadline while nothing was overdue, and so an
event later than that is (`overdue_of_late`).
-/

set_option autoImplicit false

structure Ticker where
  next : ℕ
  count : ℕ

namespace Ticker

section Defs

variable (M P cap : ℕ)

def feed (c : Ticker) (t : ℕ) : Ticker :=
  if c.next = 0 then ⟨(t + P) % M, c.count⟩
  else if c.next < t then ⟨(c.next + P) % M, if c.count < cap then c.count + 1 else c.count⟩
  else c

/-- The ticker after some events, the latest first. -/
def after : List ℕ → Ticker
  | [] => ⟨0, 0⟩
  | t :: ts => feed M P cap (after ts) t

/-- The number of the period of `t`, for events from `t₀` on. -/
def period (t₀ t : ℕ) : ℕ := (t - t₀ - 1) / P

def due (t₀ t : ℕ) : ℕ := t₀ + (period P t₀ t + 1) * P

/-- `k` is the number of a period `t` is in, or the last number when `t` is past its period. -/
def Filed (t₀ k t : ℕ) : Prop :=
  t₀ + k * P ≤ t ∧ t ≤ t₀ + (k + 1) * P ∨ k = cap ∧ t₀ + (cap + 1) * P < t

def AllFiled (t₀ : ℕ) : List ℕ → Prop
  | [] => True
  | t :: ts => Filed P cap t₀ (after M P cap (t :: ts)).count t ∧ AllFiled t₀ ts

/-- The end wrapped to zero at `t`, which came after `ts`. -/
def Rewound (t₀ t : ℕ) (ts : List ℕ) : Prop :=
  due P t₀ t = M ∧ ∀ prev ∈ ts.head?, due P t₀ prev < M ∨ t + P = M

/-- The event `t` may follow `prev`, which came after `ts`. -/
def OnTime (t₀ t prev : ℕ) (ts : List ℕ) : Prop :=
  cap ≤ period P t₀ prev ∨
    (period P t₀ t ≤ period P t₀ prev + 1 ∨ cap ≤ period P t₀ prev + 1) ∧
      (due P t₀ prev < M ∨ Rewound M P t₀ prev ts)

def Paced (t₀ : ℕ) : List ℕ → Prop
  | t :: prev :: ts => OnTime M P cap t₀ t prev ts ∧ Paced t₀ (prev :: ts)
  | _ => True

end Defs

/-! ## Periods -/

section Period

variable {P cap t₀ t s k : ℕ}

theorem period_le_iff (hP : 0 < P) : period P t₀ t ≤ k ↔ t ≤ t₀ + (k + 1) * P := by
  have hpos : 0 < (k + 1) * P := Nat.mul_pos (Nat.succ_pos k) hP
  rw [period, ← Nat.lt_succ_iff, Nat.div_lt_iff_lt_mul hP, Nat.succ_eq_add_one]
  omega

theorem le_due (t₀ t : ℕ) (hP : 0 < P) : t ≤ due P t₀ t := (period_le_iff hP).mp le_rfl

theorem due_le (ht : t₀ ≤ t) : due P t₀ t ≤ t + P := by
  have hle := Nat.div_mul_le_self (t - t₀ - 1) P
  rw [due, period, Nat.succ_mul]
  omega

theorem period_mono (P t₀ : ℕ) (hst : s ≤ t) : period P t₀ s ≤ period P t₀ t :=
  Nat.div_le_div_right (by omega)

theorem due_congr (h : period P t₀ s = period P t₀ t) : due P t₀ s = due P t₀ t := by
  rw [due, due, h]

theorem due_succ (h : period P t₀ t = period P t₀ s + 1) : due P t₀ t = due P t₀ s + P := by
  rw [due, due, h, Nat.succ_mul (period P t₀ s + 1), Nat.add_assoc]

theorem period_lt_iff (hP : 0 < P) : period P t₀ s < period P t₀ t ↔ due P t₀ s < t := by
  rw [← not_le, period_le_iff hP, not_le, due]

/-- An event before the end of an earlier one's period is in the same. -/
theorem period_eq_of_le_due (hP : 0 < P) (hst : s ≤ t) (h : t ≤ due P t₀ s) :
    period P t₀ t = period P t₀ s :=
  le_antisymm ((period_le_iff hP).mpr h) (period_mono P t₀ hst)

theorem filed_period (cap : ℕ) (hP : 0 < P) (ht : t₀ ≤ t) :
    Filed P cap t₀ (min (period P t₀ t) cap) t := by
  have hdue := le_due t₀ t hP
  have hstart := due_le (P := P) ht
  rw [due] at hdue hstart
  rw [Nat.succ_mul] at hstart
  rcases Nat.lt_or_ge cap (period P t₀ t) with hlt | hge
  · rw [min_eq_right hlt.le]
    exact .inr ⟨rfl, not_le.mp fun hle => absurd ((period_le_iff hP).mpr hle) (not_le.mpr hlt)⟩
  · rw [min_eq_left hge]
    exact .inl ⟨by omega, hdue⟩

/-- The period after that of `s` files an event past the end of that one when it is its period
or the last number. -/
theorem filed_succ_iff (hP : 0 < P) (hs : period P t₀ s < cap) (h : due P t₀ s < t) :
    Filed P cap t₀ (period P t₀ s + 1) t ↔
      period P t₀ t ≤ period P t₀ s + 1 ∨ cap ≤ period P t₀ s + 1 := by
  rw [due] at h
  rw [Filed, ← period_le_iff hP]
  constructor
  · rintro (⟨-, hle⟩ | ⟨heq, -⟩)
    · exact .inl hle
    · exact .inr heq.ge
  · rintro (hle | hge)
    · exact .inl ⟨h.le, hle⟩
    · have heq : period P t₀ s + 1 = cap := le_antisymm hs hge
      by_cases hle : period P t₀ t ≤ period P t₀ s + 1
      · exact .inl ⟨h.le, hle⟩
      · rw [period_le_iff hP] at hle
        exact .inr ⟨heq, heq ▸ not_le.mp hle⟩

end Period

/-! ## One event -/

section Feed

variable {M P cap x t : ℕ} {c : Ticker}

theorem feed_zero (h : c.next = 0) : c.feed M P cap t = ⟨(t + P) % M, c.count⟩ := if_pos h

theorem feed_late (h : c.next ≠ 0) (hlt : c.next < t) (hcap : c.count < cap) :
    c.feed M P cap t = ⟨(c.next + P) % M, c.count + 1⟩ := by
  rw [feed, if_neg h, if_pos hlt, if_pos hcap]

theorem feed_wait (h : c.next ≠ 0) (hle : t ≤ c.next) : c.feed M P cap t = c := by
  rw [feed, if_neg h, if_neg (not_lt.mpr hle)]

theorem feed_count_cap (h : c.count = cap) : (c.feed M P cap t).count = cap := by
  unfold feed
  split
  · exact h
  · split
    · rw [h, if_neg (lt_irrefl cap)]
    · exact h

theorem mod_wrapped (hle : M ≤ x) (hlt : x < 2 * M) : x % M = x - M := by
  rw [Nat.mod_eq_sub_mod hle, Nat.mod_eq_of_lt (by omega)]

end Feed

/-! ## Filing -/

/-- The ticker after `t`, which came after `ts`: its number is that of the period, and until
the number stops it waits for the end of the period, or that end has wrapped. -/
structure InStep (M P cap t₀ t : ℕ) (ts : List ℕ) (c : Ticker) : Prop where
  count : c.count = min (period P t₀ t) cap
  next : period P t₀ t < cap → due P t₀ t < M ∧ c.next = due P t₀ t ∨
    M ≤ due P t₀ t ∧ c.next < P ∧ (c.next = 0 ↔ Rewound M P t₀ t ts)

section Step

variable {M P cap t₀ t prev x : ℕ} {ts : List ℕ} {c : Ticker}

/-- A ticker whose end was set to that of the period of `t`, wrapped or not. -/
theorem inStep_of_due (hM : 2 * P ≤ M) (hcount : c.count = min (period P t₀ t) cap)
    (hnext : c.next = due P t₀ t % M) (htM : due P t₀ t < M + P)
    (hfresh : ∀ prev ∈ ts.head?, due P t₀ prev < M) : InStep M P cap t₀ t ts c := by
  refine ⟨hcount, fun _ => ?_⟩
  rw [hnext]
  rcases Nat.lt_or_ge (due P t₀ t) M with hlt | hge
  · exact .inl ⟨hlt, Nat.mod_eq_of_lt hlt⟩
  · rw [mod_wrapped hge (by omega)]
    refine .inr ⟨hge, by omega, fun h => ⟨by omega, fun prev hprev => .inl (hfresh prev hprev)⟩,
      fun h => ?_⟩
    rw [h.1, Nat.sub_self]

theorem inStep_first (cap : ℕ) (hM : 2 * P ≤ M) (ht : t₀ < M) :
    InStep M P cap t₀ t₀ [] (feed M P cap ⟨0, 0⟩ t₀) := by
  have hzero : period P t₀ t₀ = 0 := by rw [period, Nat.sub_self, Nat.zero_sub, Nat.zero_div]
  have hdue : due P t₀ t₀ = t₀ + P := by rw [due, hzero, Nat.zero_add, Nat.one_mul]
  rw [feed_zero rfl]
  refine inStep_of_due hM ?_ ?_ ?_ fun prev hprev => by cases hprev
  · rw [hzero, Nat.zero_min]
  · rw [hdue]
  · rw [hdue]
    omega

theorem InStep.feed_known (hP : 0 < P) (hM : 2 * P ≤ M) (hcap : period P t₀ prev < cap)
    (hcount : c.count = period P t₀ prev) (hdue : due P t₀ prev < M)
    (hnext : c.next = due P t₀ prev) (hprev : t₀ ≤ prev) (ht : prev ≤ t) :
    (Filed P cap t₀ (c.feed M P cap t).count t ↔ OnTime M P cap t₀ t prev ts) ∧
      (OnTime M P cap t₀ t prev ts → InStep M P cap t₀ t (prev :: ts) (c.feed M P cap t)) := by
  have hne : c.next ≠ 0 := by
    have hpos : 0 < (period P t₀ prev + 1) * P := Nat.mul_pos (Nat.succ_pos _) hP
    rw [hnext, due]
    omega
  have hontime : OnTime M P cap t₀ t prev ts ↔
      period P t₀ t ≤ period P t₀ prev + 1 ∨ cap ≤ period P t₀ prev + 1 := by
    rw [OnTime, or_iff_right (not_le.mpr hcap)]
    exact and_iff_left (.inl hdue)
  rw [hontime]
  rcases Nat.lt_or_ge (due P t₀ prev) t with hlt | hge
  · have hlater := (period_lt_iff hP).mpr hlt
    rw [feed_late hne (hnext ▸ hlt) (hcount ▸ hcap), hcount, hnext]
    refine ⟨filed_succ_iff hP hcap hlt, fun hon => ?_⟩
    by_cases heq : period P t₀ t = period P t₀ prev + 1
    · refine inStep_of_due hM ?_ ?_ ?_ fun s hs => ?_
      · rw [heq, min_eq_left hcap]
      · rw [due_succ heq]
      · rw [due_succ heq]
        omega
      · cases hs
        exact hdue
    · -- the number has just stopped
      refine ⟨?_, fun hnot => ?_⟩
      · rw [min_eq_right (by omega)]
        show period P t₀ prev + 1 = cap
        omega
      · omega
  · have hsame := period_eq_of_le_due hP ht hge
    rw [feed_wait hne (hnext ▸ hge), hcount, ← hsame]
    refine ⟨iff_of_true ?_ (.inl (Nat.le_succ _)), fun _ => ⟨?_, fun _ => .inl ?_⟩⟩
    · have hfiled := filed_period cap hP (hprev.trans ht)
      rwa [hsame, min_eq_left hcap.le, ← hsame] at hfiled
    · rw [hcount, hsame, min_eq_left hcap.le]
    · rw [due_congr hsame]
      exact ⟨hdue, hnext⟩

theorem InStep.feed_wrapped (hP : 0 < P) (hM : 2 * P ≤ M) (hcap : period P t₀ prev < cap)
    (hcount : c.count = period P t₀ prev) (hdue : M ≤ due P t₀ prev) (hnext : c.next < P)
    (hzero : c.next = 0 ↔ Rewound M P t₀ prev ts) (hprev : t₀ ≤ prev) (ht : prev ≤ t)
    (htM : t < M) :
    (Filed P cap t₀ (c.feed M P cap t).count t ↔ OnTime M P cap t₀ t prev ts) ∧
      (OnTime M P cap t₀ t prev ts → InStep M P cap t₀ t (prev :: ts) (c.feed M P cap t)) := by
  have hsame := period_eq_of_le_due hP ht (htM.le.trans hdue)
  have hdue' := due_congr hsame
  have hstart := due_le (P := P) (hprev.trans ht)
  have hontime : OnTime M P cap t₀ t prev ts ↔ c.next = 0 := by
    rw [OnTime, or_iff_right (not_le.mpr hcap), or_iff_right (not_lt.mpr hdue), hzero]
    exact and_iff_right (.inl (by omega))
  rw [hontime]
  by_cases h0 : c.next = 0
  · -- the ticker starts anew, with the number it had
    rw [feed_zero h0, hcount, ← hsame, mod_wrapped (by omega) (by omega)]
    refine ⟨iff_of_true ?_ h0, fun _ => ⟨?_, fun _ => .inr ⟨by omega, ?_, ?_⟩⟩⟩
    · have hfiled := filed_period cap hP (hprev.trans ht)
      rwa [hsame, min_eq_left hcap.le, ← hsame] at hfiled
    · rw [hsame, min_eq_left hcap.le]
    · show t + P - M < P
      omega
    · have hrew := (hzero.mp h0).1
      simp only [Rewound, List.head?_cons, Option.mem_def, Option.some.injEq, forall_eq']
      omega
  · -- the ticker goes on into a period that does not exist
    rw [feed_late h0 (by omega) (hcount ▸ hcap), hcount]
    refine ⟨iff_of_false ?_ h0, fun h => absurd h h0⟩
    dsimp only
    rintro (⟨hle, -⟩ | ⟨heq, hlt⟩)
    · rw [due] at hdue
      omega
    · rw [due, heq] at hdue
      have hcap_le := Nat.mul_le_mul_right P (Nat.le_succ cap)
      rw [Nat.succ_eq_add_one] at hcap_le
      omega

/-- **One event.** From a ticker in step the next event is filed exactly when it is on time,
and then the ticker is in step again. -/
theorem InStep.feed (hP : 0 < P) (hM : 2 * P ≤ M) (h : InStep M P cap t₀ prev ts c)
    (hprev : t₀ ≤ prev) (ht : prev ≤ t) (htM : t < M) :
    (Filed P cap t₀ (c.feed M P cap t).count t ↔ OnTime M P cap t₀ t prev ts) ∧
      (OnTime M P cap t₀ t prev ts → InStep M P cap t₀ t (prev :: ts) (c.feed M P cap t)) := by
  have hmono := period_mono P t₀ ht
  rcases Nat.lt_or_ge (period P t₀ prev) cap with hcap | hcap
  · have hcount : c.count = period P t₀ prev := by rw [h.count, min_eq_left hcap.le]
    rcases h.next hcap with ⟨hdue, hnext⟩ | ⟨hdue, hnext, hzero⟩
    · exact InStep.feed_known hP hM hcap hcount hdue hnext hprev ht
    · exact InStep.feed_wrapped hP hM hcap hcount hdue hnext hzero hprev ht htM
  · -- the number has stopped
    have hstopped := feed_count_cap (M := M) (P := P) (t := t)
      (h.count.trans (min_eq_right hcap))
    have hfiled := filed_period cap hP (hprev.trans ht)
    rw [min_eq_right (hcap.trans hmono)] at hfiled
    refine ⟨iff_of_true ?_ (.inl hcap), fun _ => ⟨?_, fun hlt => ?_⟩⟩
    · rw [hstopped]
      exact hfiled
    · rw [hstopped, min_eq_right (hcap.trans hmono)]
    · omega

end Step

section Filing

variable {M P cap t₀ t : ℕ} {ts : List ℕ}

theorem first_le {l : List ℕ} (hsorted : l.Pairwise (· ≥ ·)) (hfirst : l.getLast? = some t₀)
    (ht : t ∈ l) : t₀ ≤ t := by
  obtain ⟨ys, rfl⟩ := List.getLast?_eq_some_iff.mp hfirst
  rcases List.mem_append.mp ht with hy | hlast
  · exact (List.pairwise_append.mp hsorted).2.2 t hy t₀ (List.mem_singleton_self t₀)
  · exact (List.mem_singleton.mp hlast).ge

/-- The events are filed as long as they are on time, and that keeps the ticker in step. -/
theorem filed_and_inStep (hP : 0 < P) (hM : 2 * P ≤ M)
    (hsorted : (t :: ts).Pairwise (· ≥ ·)) (hlt : ∀ s ∈ t :: ts, s < M)
    (hfirst : (t :: ts).getLast? = some t₀) :
    (AllFiled M P cap t₀ (t :: ts) ↔ Paced M P cap t₀ (t :: ts)) ∧
      (Paced M P cap t₀ (t :: ts) → InStep M P cap t₀ t ts (after M P cap (t :: ts))) := by
  induction ts generalizing t with
  | nil =>
    obtain rfl : t = t₀ := by simpa using hfirst
    have hstep := inStep_first cap hM (hlt t List.mem_cons_self)
    refine ⟨iff_of_true ⟨?_, trivial⟩ trivial, fun _ => hstep⟩
    have hfiled := filed_period cap hP (le_refl t)
    rw [← hstep.count] at hfiled
    exact hfiled
  | cons prev ts ih =>
    have hsorted' := (List.pairwise_cons.mp hsorted).2
    have hfirst' : (prev :: ts).getLast? = some t₀ := by
      rwa [List.getLast?_cons_cons] at hfirst
    obtain ⟨hiff, hin⟩ := ih hsorted' (fun s hs => hlt s (List.mem_cons_of_mem _ hs)) hfirst'
    have hunfold : AllFiled M P cap t₀ (t :: prev :: ts) ↔
        Filed P cap t₀ (after M P cap (t :: prev :: ts)).count t ∧ Paced M P cap t₀ (prev :: ts) :=
      and_congr_right fun _ => hiff
    by_cases hpaced : Paced M P cap t₀ (prev :: ts)
    · have hle : prev ≤ t := (List.pairwise_cons.mp hsorted).1 prev List.mem_cons_self
      obtain ⟨hfiled, hnext⟩ := (hin hpaced).feed hP hM
        (first_le hsorted' hfirst' List.mem_cons_self) hle (hlt t List.mem_cons_self)
      exact ⟨hunfold.trans (and_congr_left fun _ => hfiled), fun h => hnext h.1⟩
    · exact ⟨hunfold.trans (iff_of_false (fun h => hpaced h.2) fun h => hpaced h.2),
        fun h => absurd h.2 hpaced⟩

/-- **When a ticker files its events**: exactly when they are paced. An event files itself by
moving the end of the period on by one at most, so one that is further ahead leaves the ticker
behind, and one that comes when the end has wrapped below it is taken for the next period whether
it is or not. Only a number that has stopped at `cap` cannot go wrong any more. -/
theorem allFiled_iff (hP : 0 < P) (hM : 2 * P ≤ M) {l : List ℕ}
    (hsorted : l.Pairwise (· ≥ ·)) (hlt : ∀ t ∈ l, t < M) (hfirst : l.getLast? = some t₀) :
    AllFiled M P cap t₀ l ↔ Paced M P cap t₀ l := by
  cases l with
  | nil => exact Iff.rfl
  | cons t ts => exact (filed_and_inStep hP hM hsorted hlt hfirst).1

end Filing

/-! ## A deadline -/

/-- The event `t` advances the ticker and is past the deadline `D`. -/
def Overdue (D : ℕ) (c : Ticker) (t : ℕ) : Prop := c.next ≠ 0 ∧ c.next < t ∧ D < t

instance (D : ℕ) (c : Ticker) (t : ℕ) : Decidable (Overdue D c t) :=
  inferInstanceAs (Decidable (_ ∧ _))

def AnyOverdue (M P cap D : ℕ) : List ℕ → Prop
  | [] => False
  | t :: ts => Overdue D (after M P cap ts) t ∨ AnyOverdue M P cap D ts

section Deadline

variable {M P cap D t₀ t : ℕ} {c : Ticker} {ts l : List ℕ}

theorem feed_next_le (hP : 0 < P) (hfit : D + P < M) (hpos : 0 < c.next) (hle : c.next ≤ D + P)
    (hnot : ¬ Overdue D c t) :
    0 < (c.feed M P cap t).next ∧ (c.feed M P cap t).next ≤ D + P := by
  by_cases hlt : c.next < t
  · have hin : t ≤ D := Nat.le_of_not_lt fun h => hnot ⟨hpos.ne', hlt, h⟩
    have hnext : (c.feed M P cap t).next = (c.next + P) % M := by
      rw [feed, if_neg hpos.ne', if_pos hlt]
    rw [hnext, Nat.mod_eq_of_lt (by omega)]
    omega
  · rw [feed_wait hpos.ne' (Nat.le_of_not_lt hlt)]
    exact ⟨hpos, hle⟩

theorem after_next_le (cap : ℕ) (hP : 0 < P) (hfit : D + P < M) (hne : l ≠ [])
    (hfirst : ∀ t ∈ l.getLast?, t ≤ D) (hnot : ¬ AnyOverdue M P cap D l) :
    0 < (after M P cap l).next ∧ (after M P cap l).next ≤ D + P := by
  induction l with
  | nil => exact absurd rfl hne
  | cons t ts ih =>
    cases ts with
    | nil =>
      have hle : t ≤ D := hfirst t rfl
      have hstart : after M P cap [t] = ⟨(t + P) % M, 0⟩ := feed_zero rfl
      rw [hstart, Nat.mod_eq_of_lt (by omega)]
      show 0 < t + P ∧ t + P ≤ D + P
      omega
    | cons prev ts =>
      obtain ⟨hpos, hle⟩ := ih (List.cons_ne_nil _ _)
        (fun s hs => hfirst s (by rwa [List.getLast?_cons_cons])) fun h => hnot (.inr h)
      exact feed_next_le hP hfit hpos hle fun h => hnot (.inl h)

/-- **An event more than a period past the deadline is overdue**, if none was before it and the
first was in time. -/
theorem overdue_of_late (hP : 0 < P) (hlate : D + P < t) (ht : t < M) (hne : l ≠ [])
    (hfirst : ∀ t ∈ l.getLast?, t ≤ D) (hnot : ¬ AnyOverdue M P cap D l) :
    Overdue D (after M P cap l) t := by
  obtain ⟨hpos, hle⟩ := after_next_le cap hP (hlate.trans ht) hne hfirst hnot
  exact ⟨hpos.ne', by omega, by omega⟩

theorem anyOverdue_of_late (hP : 0 < P) (hlt : ∀ t ∈ l, t < M)
    (hfirst : ∀ t ∈ l.getLast?, t ≤ D) (ht : t ∈ l) (hlate : D + P < t) :
    AnyOverdue M P cap D l := by
  induction l with
  | nil => exact absurd ht List.not_mem_nil
  | cons s ts ih =>
    have hfirst' : ∀ x ∈ ts.getLast?, x ≤ D := by
      cases ts with
      | nil => exact fun x hx => by cases hx
      | cons prev ts => exact fun x hx => hfirst x (by rwa [List.getLast?_cons_cons])
    rcases List.mem_cons.mp ht with rfl | hmem
    · by_cases hany : AnyOverdue M P cap D ts
      · exact .inr hany
      · refine .inl (overdue_of_late hP hlate (hlt t List.mem_cons_self) ?_ hfirst' hany)
        rintro rfl
        have hle : t ≤ D := hfirst t rfl
        omega
    · exact .inr (ih (fun x hx => hlt x (List.mem_cons_of_mem _ hx)) hfirst' hmem)

end Deadline

end Ticker
