import Mathlib.Data.List.Basic
import Mathlib.Order.Basic

/-!
# `Machine` — labelled machines and the rules their runs obey

A `Machine` is a start state and a partial, executable step function: an action either
applies to a state and gives the next one, or it does not apply. Interleavings are lists of
actions, so one definition serves both a hand-written schedule (`exec`, which evaluates) and a
statement about every schedule (`Run`, which is an inductive predicate).

`Run` carries a side condition `ok` on each step, a predicate of the state *before* the step
and of the action. Taking it to be `fun _ _ => True` gives all runs; a narrower `ok` gives
"the runs whose steps all meet a condition", and the two are compared by `Run.mono`.

Three rules are proved here once and used by name downstream:

* `Reachable.invariant` — what holds at the start and is kept by a step holds everywhere;
* `Simulation.run` — a run of one machine is matched step by step by a run of another;
* `Run.length_le` and `finishes` — a measure that every step decreases bounds the length of
  every run, and with progress it gives a run to a final state.
-/

set_option autoImplicit false

/-- A start state and a step function; `none` says that the action does not apply. -/
structure Machine (σ α : Type*) where
  init : σ
  step : α → σ → Option σ

namespace Machine

variable {σ τ α β : Type*}

/-- Run a schedule, given as the list of its actions; `none` if one does not apply. -/
def exec (M : Machine σ α) : List α → σ → Option σ
  | [], s => some s
  | a :: as, s => (M.step a s).bind (M.exec as)

/-- `Run M ok s as t`: the actions `as`, each meeting `ok` where it is taken, lead from `s`
to `t`. -/
inductive Run (M : Machine σ α) (ok : σ → α → Prop) (s : σ) : List α → σ → Prop
  | nil : Run M ok s [] s
  | snoc {t u : σ} {as : List α} {a : α} (h : Run M ok s as t) (hok : ok t a)
      (hs : M.step a t = some u) : Run M ok s (as ++ [a]) u

abbrev always : σ → α → Prop := fun _ _ => True

def Reachable (M : Machine σ α) (ok : σ → α → Prop) (s : σ) : Prop :=
  ∃ as, Run M ok M.init as s

section Rules

variable {M : Machine σ α} {ok ok' : σ → α → Prop}

theorem Run.single {s t : σ} {a : α} (hok : ok s a) (hs : M.step a s = some t) :
    Run M ok s [a] t :=
  Run.snoc Run.nil hok hs

theorem Run.trans {s t u : σ} {as bs : List α} (h₁ : Run M ok s as t)
    (h₂ : Run M ok t bs u) : Run M ok s (as ++ bs) u := by
  induction h₂ with
  | nil => simpa using h₁
  | snoc _ hok hs ih => rw [← List.append_assoc]; exact ih.snoc hok hs

theorem Run.cons {s t u : σ} {a : α} {as : List α} (hok : ok s a)
    (hs : M.step a s = some t) (h : Run M ok t as u) : Run M ok s (a :: as) u :=
  (Run.single hok hs).trans h

theorem Run.mono (hle : ∀ s a, ok s a → ok' s a) {s t : σ} {as : List α}
    (h : Run M ok s as t) : Run M ok' s as t := by
  induction h with
  | nil => exact .nil
  | snoc _ hok hs ih => exact ih.snoc (hle _ _ hok) hs

/-- A run whose actions meet a side condition wherever they are taken meets it. -/
theorem Run.of_actions {s t : σ} {as : List α} (h : Run M ok s as t)
    (hok : ∀ a ∈ as, ∀ s, ok' s a) : Run M ok' s as t := by
  induction h with
  | nil => exact .nil
  | @snoc t u as a _ _ hs ih =>
    refine (ih fun b hb => hok b (List.mem_append_left _ hb)).snoc ?_ hs
    exact hok a (List.mem_append_right _ List.mem_cons_self) t

theorem run_of_exec : ∀ {as : List α} {s t : σ}, M.exec as s = some t →
    Run M always s as t
  | [], s, t, h => by
    rw [exec, Option.some.injEq] at h
    exact h ▸ Run.nil
  | a :: as, s, t, h => by
    rw [exec, Option.bind_eq_some_iff] at h
    obtain ⟨m, hm, hrest⟩ := h
    exact Run.cons trivial hm (run_of_exec hrest)

theorem Reachable.start : M.Reachable ok M.init := ⟨[], .nil⟩

theorem Reachable.run {s t : σ} {as : List α} (hr : M.Reachable ok s)
    (h : Run M ok s as t) : M.Reachable ok t :=
  let ⟨bs, hb⟩ := hr
  ⟨bs ++ as, hb.trans h⟩

theorem Reachable.mono (hle : ∀ s a, ok s a → ok' s a) {s : σ} (h : M.Reachable ok s) :
    M.Reachable ok' s :=
  let ⟨as, hr⟩ := h
  ⟨as, hr.mono hle⟩

theorem Run.keeps {I : σ → Prop}
    (hstep : ∀ s a t, I s → ok s a → M.step a s = some t → I t) {s t : σ} {as : List α}
    (h : Run M ok s as t) (hs : I s) : I t := by
  induction h with
  | nil => exact hs
  | snoc _ hok hst ih => exact hstep _ _ _ ih hok hst

/-- A run all of whose states satisfy an invariant that implies a side condition meets that
side condition. -/
theorem Run.restrict {I : σ → Prop} (hstep : ∀ s a t, I s → ok s a → M.step a s = some t → I t)
    (himp : ∀ s a, I s → ok' s a) {s t : σ} {as : List α} (h : Run M ok s as t) (hs : I s) :
    Run M ok' s as t := by
  induction h with
  | nil => exact .nil
  | snoc hrun _ hst ih => exact ih.snoc (himp _ _ (hrun.keeps hstep hs)) hst

/-- **The invariant rule.** What holds at the start and is kept by every step that meets the side
condition holds of every state that a run whose steps meet it comes to. -/
theorem Reachable.invariant {I : σ → Prop} (h₀ : I M.init)
    (hstep : ∀ s a t, I s → ok s a → M.step a s = some t → I t) {s : σ}
    (h : M.Reachable ok s) : I s :=
  let ⟨_, hr⟩ := h
  hr.keeps hstep h₀

/-! ## Termination -/

theorem Run.length_le {I : σ → Prop} {μ : σ → ℕ}
    (hkeep : ∀ s a t, I s → ok s a → M.step a s = some t → I t)
    (hdec : ∀ s a t, I s → ok s a → M.step a s = some t → μ t < μ s) {s t : σ}
    {as : List α} (h : Run M ok s as t) (hs : I s) : as.length + μ t ≤ μ s := by
  induction h with
  | nil => simp
  | @snoc t u as a hrun hok hst ih =>
    have ht : I t := hrun.keeps hkeep hs
    have hlt := hdec _ _ _ ht hok hst
    rw [List.length_append, List.length_singleton]
    omega

/-- With a decreasing measure and a step out of every state that is not final, every state
runs to a final one. -/
theorem finishes {I F : σ → Prop} {μ : σ → ℕ}
    (hkeep : ∀ s a t, I s → ok s a → M.step a s = some t → I t)
    (hdec : ∀ s a t, I s → ok s a → M.step a s = some t → μ t < μ s)
    (hprog : ∀ s, I s → ¬ F s → ∃ a t, ok s a ∧ M.step a s = some t) (s : σ) (hs : I s) :
    ∃ as t, Run M ok s as t ∧ F t := by
  induction hn : μ s using Nat.strongRecOn generalizing s with
  | ind n ih =>
    by_cases hF : F s
    · exact ⟨[], s, .nil, hF⟩
    · obtain ⟨a, t, hok, hst⟩ := hprog s hs hF
      obtain ⟨as, u, hrun, hu⟩ :=
        ih (μ t) (hn ▸ hdec _ _ _ hs hok hst) t (hkeep _ _ _ hs hok hst) rfl
      exact ⟨a :: as, u, Run.cons hok hst hrun, hu⟩

/-- When every action applies in every state that is not final, the actions of an endless stream
lead to a final one. -/
theorem finishes_of_stream {I F : σ → Prop} {μ : σ → ℕ}
    (hkeep : ∀ s a t, I s → ok s a → M.step a s = some t → I t)
    (hdec : ∀ s a t, I s → ok s a → M.step a s = some t → μ t < μ s)
    (hprog : ∀ s, I s → ¬ F s → ∀ a, ∃ t, ok s a ∧ M.step a s = some t) (f : ℕ → α) (s : σ)
    (hs : I s) : ∃ n t, Run M ok s ((List.range n).map f) t ∧ F t := by
  induction hn : μ s using Nat.strongRecOn generalizing s f with
  | ind n ih =>
    by_cases hF : F s
    · exact ⟨0, s, .nil, hF⟩
    · obtain ⟨t, hok, hst⟩ := hprog s hs hF (f 0)
      obtain ⟨m, u, hrun, hu⟩ := ih (μ t) (hn ▸ hdec _ _ _ hs hok hst) (fun i => f (i + 1)) t
        (hkeep _ _ _ hs hok hst) rfl
      refine ⟨m + 1, u, ?_, hu⟩
      rw [List.range_succ_eq_map, List.map_cons, List.map_map]
      exact Run.cons hok hst hrun

end Rules

/-! ## Simulation -/

/-- `abs` maps the states of `M` to states of `N`: from a state that satisfies `I`, a step of
`M` is one step of `N` or leaves the image where it is. The actions need not correspond by
name: `N`'s is existential. -/
structure Simulation (M : Machine σ α) (N : Machine τ β) (ok : σ → α → Prop)
    (I : σ → Prop) (abs : σ → τ) : Prop where
  keep : ∀ s a t, I s → ok s a → M.step a s = some t → I t
  step : ∀ s a t, I s → ok s a → M.step a s = some t →
    (∃ b, N.step b (abs s) = some (abs t)) ∨ abs t = abs s

/-- A simulated machine's runs are runs of the machine that simulates it. -/
theorem Simulation.run {M : Machine σ α} {N : Machine τ β} {ok : σ → α → Prop}
    {I : σ → Prop} {abs : σ → τ} (h : Simulation M N ok I abs) {s t : σ} {as : List α}
    (hr : Run M ok s as t) (hs : I s) : ∃ bs, Run N always (abs s) bs (abs t) := by
  induction hr with
  | nil => exact ⟨[], .nil⟩
  | @snoc t u as a hrun hok hst ih =>
    obtain ⟨bs, hb⟩ := ih
    rcases h.step _ _ _ (hrun.keeps h.keep hs) hok hst with ⟨b, hstep⟩ | hstutter
    · exact ⟨bs ++ [b], hb.snoc trivial hstep⟩
    · exact ⟨bs, hstutter ▸ hb⟩

end Machine
