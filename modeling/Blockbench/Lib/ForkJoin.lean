import Mathlib.Order.Basic
import Mathlib.Tactic.Common

/-!
# `ForkJoin` — a parent, its children, and two semaphores each

A parent forks `n` children in a loop, waits for each on its `stop`, posts each one's `start`,
and waits for each on the same `stop` again. A child posts `stop` when it is ready, waits on
`start`, runs, and posts `stop` when it has finished.

`stop` is used twice, so what keeps the second post of one child from satisfying the first wait
for it is not in the semaphore but in the counts: how many posts a child has made is a function
of where it is (`Child.posts`), how many waits the parent has done on it is a function of where
the parent is (`Parent.waits`), and the value of the semaphore is the difference. `Linked` says
so for one child and both of its semaphores, one lemma per move says that the move keeps it, and
the rest are the four conclusions a barrier is for:

* `Linked.ready_of_running` — a child runs only after its parent has heard from *every* child;
* `Linked.finished` — a parent that is through with its second round of waits has no child left
  running;
* `Linked.not_ready` and `Linked.not_finished` — a parent that has to wait is waiting for a child
  that still has its post to make.
-/

set_option autoImplicit false

namespace ForkJoin

/-- Where the parent is: in one of its four loops, at child `k`, or between or behind them. -/
inductive Parent
  | forking (k : ℕ)
  | collecting (k : ℕ)
  | between
  | releasing (k : ℕ)
  | joining (k : ℕ)
  | after
  deriving DecidableEq

inductive Child
  | unborn
  | preparing
  | ready
  | running
  | finished
  deriving DecidableEq

@[simp] def Parent.Forked : Parent → ℕ → Prop
  | .forking k, i => i < k
  | _, _ => True

/-- How often the parent has been through the wait on child `i`'s `stop`. -/
@[simp] def Parent.waits : Parent → ℕ → ℕ
  | .forking _, _ => 0
  | .collecting k, i => if i < k then 1 else 0
  | .between, _ | .releasing _, _ => 1
  | .joining k, i => if i < k then 2 else 1
  | .after, _ => 2

/-- How often the parent has posted child `i`'s `start`. -/
@[simp] def Parent.posts : Parent → ℕ → ℕ
  | .forking _, _ | .collecting _, _ | .between, _ => 0
  | .releasing k, i => if i < k then 1 else 0
  | .joining _, _ | .after, _ => 1

@[simp] def Child.posts : Child → ℕ
  | .unborn | .preparing => 0
  | .ready | .running => 1
  | .finished => 2

/-- How often a child has been through the wait on its `start`. -/
@[simp] def Child.waits : Child → ℕ
  | .unborn | .preparing | .ready => 0
  | .running | .finished => 1

/-- Parent and child `i` agree with the values of its two semaphores. -/
structure Linked (p : Parent) (i : ℕ) (c : Child) (start stop : ℕ) : Prop where
  born : c = .unborn ↔ ¬ p.Forked i
  stop_eq : stop + p.waits i = c.posts
  start_eq : start + c.waits = p.posts i

variable {p : Parent} {c : Child} {i k a b a' b' : ℕ}

theorem linked_init : Linked (.forking 0) i .unborn 0 0 := by
  constructor <;> simp

/-! ## The parent's moves -/

theorem Linked.fork (h : Linked (.forking k) i c a b) :
    Linked (.forking (k + 1)) i (if i = k then .preparing else c) a b := by
  obtain ⟨hborn, hstop, hstart⟩ := h
  by_cases hik : i = k
  · subst hik
    have hc : c = .unborn := hborn.mpr (by simp)
    subst hc
    rw [if_pos rfl]
    exact ⟨by simp, hstop, hstart⟩
  · rw [if_neg hik]
    refine ⟨hborn.trans ?_, hstop, hstart⟩
    simp only [Parent.Forked]
    omega

theorem Linked.forked (h : Linked (.forking k) i c a b) (hi : i < k) :
    Linked (.collecting 0) i c a b := by
  obtain ⟨hborn, hstop, hstart⟩ := h
  refine ⟨?_, by simpa using hstop, hstart⟩
  rw [hborn]
  simp [hi]

theorem Linked.collect (h : Linked (.collecting k) i c a b)
    (hb : b' + (if i = k then 1 else 0) = b) : Linked (.collecting (k + 1)) i c a b' := by
  obtain ⟨hborn, hstop, hstart⟩ := h
  refine ⟨hborn, ?_, hstart⟩
  simp only [Parent.waits] at hstop ⊢
  rw [← hstop, ← hb]
  split_ifs <;> omega

theorem Linked.collected (h : Linked (.collecting k) i c a b) (hi : i < k) :
    Linked .between i c a b := by
  obtain ⟨hborn, hstop, hstart⟩ := h
  exact ⟨hborn, by simpa [hi] using hstop, hstart⟩

theorem Linked.startRelease (h : Linked .between i c a b) : Linked (.releasing 0) i c a b :=
  ⟨h.born, h.stop_eq, by simpa using h.start_eq⟩

theorem Linked.release (h : Linked (.releasing k) i c a b)
    (ha : a' = a + (if i = k then 1 else 0)) : Linked (.releasing (k + 1)) i c a' b := by
  obtain ⟨hborn, hstop, hstart⟩ := h
  refine ⟨hborn, hstop, ?_⟩
  simp only [Parent.posts] at hstart ⊢
  rw [ha]
  split_ifs at hstart ⊢ <;> omega

theorem Linked.released (h : Linked (.releasing k) i c a b) (hi : i < k) :
    Linked (.joining 0) i c a b := by
  obtain ⟨hborn, hstop, hstart⟩ := h
  exact ⟨hborn, by simpa using hstop, by simpa [hi] using hstart⟩

theorem Linked.join (h : Linked (.joining k) i c a b)
    (hb : b' + (if i = k then 1 else 0) = b) : Linked (.joining (k + 1)) i c a b' := by
  obtain ⟨hborn, hstop, hstart⟩ := h
  refine ⟨hborn, ?_, hstart⟩
  simp only [Parent.waits] at hstop ⊢
  rw [← hstop, ← hb]
  split_ifs <;> omega

theorem Linked.joined (h : Linked (.joining k) i c a b) (hi : i < k) :
    Linked .after i c a b := by
  obtain ⟨hborn, hstop, hstart⟩ := h
  exact ⟨hborn, by simpa [hi] using hstop, hstart⟩

/-! ## The child's moves -/

theorem Linked.getReady (h : Linked p i .preparing a b) : Linked p i .ready a (b + 1) := by
  obtain ⟨hborn, hstop, hstart⟩ := h
  refine ⟨by simpa using hborn, ?_, hstart⟩
  simp only [Child.posts] at hstop ⊢
  omega

theorem Linked.begin (h : Linked p i .ready (a + 1) b) : Linked p i .running a b := by
  obtain ⟨hborn, hstop, hstart⟩ := h
  refine ⟨by simpa using hborn, hstop, ?_⟩
  simp only [Child.waits] at hstart ⊢
  omega

theorem Linked.finish (h : Linked p i .running a b) : Linked p i .finished a (b + 1) := by
  obtain ⟨hborn, hstop, hstart⟩ := h
  refine ⟨by simpa using hborn, ?_, hstart⟩
  simp only [Child.posts] at hstop ⊢
  omega

/-! ## What the links say -/

@[simp] def Parent.Released : Parent → Prop
  | .releasing _ | .joining _ | .after => True
  | .forking _ | .collecting _ | .between => False

@[simp] def Child.Ready : Child → Prop
  | .ready | .running | .finished => True
  | .unborn | .preparing => False

theorem Linked.released_of_running (h : Linked p i c a b) (hc : c.waits = 1) :
    p.Released := by
  have hstart := h.start_eq
  rw [hc] at hstart
  cases p with
  | forking k | collecting k | between => simp at hstart
  | releasing k | joining k | after => trivial

/-- A parent that has begun to release has heard from each of its children. -/
theorem Linked.ready_of_released (h : Linked p i c a b) (hp : p.Released) : c.Ready := by
  have hstop := h.stop_eq
  cases c with
  | ready | running | finished => trivial
  | unborn | preparing =>
    exfalso
    cases p with
    | forking k | collecting k | between => exact hp
    | releasing k | after => simp at hstop
    | joining k =>
      simp only [Parent.waits, Child.posts] at hstop
      split at hstop <;> omega

/-- **A child runs only after every child of its parent was ready.** The parent releases no child
before it has heard from all of them, and a child does not run before it is released. -/
theorem Linked.ready_of_running {j a₁ b₁ : ℕ} {d : Child} (hi : Linked p i c a b)
    (hj : Linked p j d a₁ b₁) (hc : c.waits = 1) : d.Ready :=
  hj.ready_of_released (hi.released_of_running hc)

/-- **A parent behind its second round of waits has no child left running.** -/
theorem Linked.finished (h : Linked .after i c a b) : c = .finished := by
  have hstop := h.stop_eq
  cases c with
  | finished => rfl
  | unborn | preparing | ready | running => simp at hstop

/-- A wait of the first round that blocks is for a child that is not ready yet. -/
theorem Linked.not_ready (h : Linked (.collecting i) i c a 0) : c = .preparing := by
  obtain ⟨hborn, hstop, -⟩ := h
  cases c with
  | preparing => rfl
  | unborn => simp at hborn
  | ready | running | finished => simp at hstop

/-- A wait of the second round that blocks is for a child that was released and has not
finished; if it has not begun, its `start` is posted. -/
theorem Linked.not_finished (h : Linked (.joining i) i c a 0) :
    c = .running ∨ c = .ready ∧ 0 < a := by
  obtain ⟨-, hstop, hstart⟩ := h
  cases c with
  | running => exact .inl rfl
  | ready => exact .inr ⟨rfl, by simp at hstart; omega⟩
  | unborn | preparing | finished => simp at hstop

end ForkJoin
