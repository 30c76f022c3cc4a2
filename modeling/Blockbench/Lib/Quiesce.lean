import Mathlib.Order.Basic
import Mathlib.Tactic.Common

/-!
# `Quiesce` — a leader, a flag, and workers that park

A leader raises a flag and waits for each of its workers on that worker's `stop`; a worker that
sees the flag posts its `stop` and waits on its `start`. When the leader has heard from all of
them it does what needs the others out of the way, lowers the flag and posts each one's `start`.
The workers are never told to look at the flag, and one of them may leave for good instead of
coming round to it.

What makes the two semaphores enough is that a parked worker has one token: its post of `stop`
is in the semaphore until the leader has waited for it, the leader holds it until it posts
`start`, and it is in `start` until the worker wakes. `Linked` says so for one worker; one lemma a
move says that the move keeps it. The conclusions are

* `Linked.parked_of_held` — while the leader is between its two loops, every worker is parked;
* `Linked.start_le`, `Linked.stop_le` — no semaphore is ever above one, so no wake-up is lost in
  one nor left in it for the next round;
* `Linked.awaited` — a leader that has to wait is waiting for a worker that has yet to see the
  flag or to post, or that has left;
* `Linked.woken` — a parked worker that cannot wake up is one whose token the leader has or will
  take.
-/

set_option autoImplicit false

namespace Quiesce

/-- Where the leader is: at its own work, at worker `k` of one of its two loops, or between
them. -/
inductive Leader
  | free
  | stopping (k : ℕ)
  | still
  | starting (k : ℕ)
  deriving DecidableEq

/-- Where a worker is: at its own work, between seeing the flag and its post, waiting on its
`start`, or gone. -/
inductive Worker
  | running
  | answering
  | parked
  | left
  deriving DecidableEq

@[simp] def Leader.Raised : Leader → Prop
  | .stopping _ | .still => True
  | .free | .starting _ => False

@[simp] def Leader.holds : Leader → ℕ → ℕ
  | .free, _ => 0
  | .stopping k, i => if i < k then 1 else 0
  | .still, _ => 1
  | .starting k, i => if i < k then 0 else 1

@[simp] def Leader.Awaits : Leader → ℕ → Prop
  | .stopping k, i => k ≤ i
  | _, _ => False

@[simp] def Worker.tokens : Worker → ℕ
  | .parked => 1
  | _ => 0

/-- Leader and worker `i` agree with the values of its two semaphores. -/
structure Linked (l : Leader) (i : ℕ) (w : Worker) (start stop : ℕ) : Prop where
  token : stop + l.holds i + start = w.tokens
  answer : w = .answering ∨ 0 < stop → l.Awaits i

variable {l : Leader} {w : Worker} {i k a b a' b' : ℕ}

theorem linked_init : Linked .free i .running 0 0 := by
  constructor <;> simp

/-! ## The leader's moves -/

theorem Linked.raise (h : Linked .free i w a b) : Linked (.stopping 0) i w a b := by
  obtain ⟨htoken, hanswer⟩ := h
  refine ⟨?_, ?_⟩
  · simpa using htoken
  · intro _
    exact Nat.zero_le i

theorem Linked.collect (h : Linked (.stopping k) i w a b)
    (hb : b' + (if i = k then 1 else 0) = b) : Linked (.stopping (k + 1)) i w a b' := by
  obtain ⟨htoken, hanswer⟩ := h
  simp only [Leader.holds, Leader.Awaits] at htoken hanswer
  by_cases hik : i = k
  · subst hik
    rw [if_pos rfl] at hb
    rw [if_neg (Nat.lt_irrefl i)] at htoken
    -- a parked worker has one token, and this was it
    have hw : w = .parked := by
      cases w with
      | parked => rfl
      | running | answering | left =>
        simp only [Worker.tokens] at htoken
        omega
    subst hw
    simp only [Worker.tokens] at htoken
    refine ⟨?_, ?_⟩
    · simp
      omega
    · rintro (hw | hpos)
      · cases hw
      · omega
  · rw [if_neg hik, Nat.add_zero] at hb
    subst hb
    refine ⟨?_, ?_⟩
    · simp only [Leader.holds]
      rw [← htoken]
      split_ifs <;> omega
    · intro hw
      have := hanswer hw
      simp only [Leader.Awaits]
      omega

theorem Linked.pass (h : Linked (.stopping k) i w a b) (hik : i ≠ k) :
    Linked (.stopping (k + 1)) i w a b :=
  h.collect (by simp [hik])

theorem Linked.collected (h : Linked (.stopping k) i w a b) (hi : i < k) :
    Linked .still i w a b := by
  obtain ⟨htoken, hanswer⟩ := h
  refine ⟨?_, ?_⟩
  · simpa [hi] using htoken
  · intro hw
    exact absurd (hanswer hw) (Nat.not_le.mpr hi)

theorem Linked.lower (h : Linked .still i w a b) : Linked (.starting 0) i w a b := by
  obtain ⟨htoken, hanswer⟩ := h
  refine ⟨?_, hanswer⟩
  simpa using htoken

theorem Linked.release (h : Linked (.starting k) i w a b)
    (ha : a' = a + (if i = k then 1 else 0)) : Linked (.starting (k + 1)) i w a' b := by
  obtain ⟨htoken, hanswer⟩ := h
  refine ⟨?_, hanswer⟩
  simp only [Leader.holds] at htoken ⊢
  rw [ha, ← htoken]
  split_ifs <;> omega

theorem Linked.skip (h : Linked (.starting k) i w a b) (hik : i ≠ k) :
    Linked (.starting (k + 1)) i w a b :=
  h.release (by simp [hik])

theorem Linked.released (h : Linked (.starting k) i w a b) (hi : i < k) :
    Linked .free i w a b := by
  obtain ⟨htoken, hanswer⟩ := h
  refine ⟨?_, hanswer⟩
  simpa [hi] using htoken

/-! ## A worker's moves -/

/-- A worker that sees the flag is one the leader has yet to wait for. -/
theorem Linked.see (h : Linked l i .running a b) (hl : l.Raised) :
    Linked l i .answering a b := by
  obtain ⟨htoken, hanswer⟩ := h
  refine ⟨htoken, ?_⟩
  intro _
  cases l with
  | stopping k =>
    simp only [Leader.holds, Worker.tokens] at htoken
    simp only [Leader.Awaits]
    by_contra hlt
    rw [if_pos (Nat.lt_of_not_le hlt)] at htoken
    omega
  | still =>
    simp only [Leader.holds, Worker.tokens] at htoken
    omega
  | free | starting k => exact absurd hl (by simp)

theorem Linked.park (h : Linked l i .answering a b) : Linked l i .parked a (b + 1) := by
  obtain ⟨htoken, hanswer⟩ := h
  refine ⟨?_, ?_⟩
  · simp only [Worker.tokens] at htoken ⊢
    omega
  · intro _
    exact hanswer (.inl rfl)

theorem Linked.wake (h : Linked l i .parked (a + 1) b) : Linked l i .running a b := by
  obtain ⟨htoken, hanswer⟩ := h
  simp only [Worker.tokens] at htoken
  refine ⟨?_, ?_⟩
  · simp only [Worker.tokens]
    omega
  · rintro (hw | hpos)
    · cases hw
    · exact hanswer (.inr hpos)

theorem Linked.leave (h : Linked l i .running a b) : Linked l i .left a b := by
  obtain ⟨htoken, hanswer⟩ := h
  refine ⟨htoken, ?_⟩
  rintro (hw | hpos)
  · cases hw
  · exact hanswer (.inr hpos)

/-! ## What the protocol is for -/

/-- **The quiet period**: a worker whose token the leader holds is parked, and cannot wake. Its
one token is either with itself, in its `iostop`, or with the leader, and a worker that has left
it at the leader's has nothing to do but to wait. -/
theorem Linked.parked_of_held (h : Linked l i w a b) (hl : 0 < l.holds i) :
    w = .parked ∧ a = 0 ∧ b = 0 := by
  have htoken := h.token
  cases w with
  | parked =>
    simp only [Worker.tokens] at htoken
    exact ⟨rfl, by omega, by omega⟩
  | running | answering | left =>
    simp only [Worker.tokens] at htoken
    omega

theorem Linked.start_le (h : Linked l i w a b) : a ≤ 1 := by
  have htoken := h.token
  cases w <;> simp only [Worker.tokens] at htoken <;> omega

theorem Linked.stop_le (h : Linked l i w a b) : b ≤ 1 := by
  have htoken := h.token
  cases w <;> simp only [Worker.tokens] at htoken <;> omega

/-- **The leader waits for a worker that can still answer**, or that never will. A parked one has
a wake-up due to it: it is still on its way out of the round before. -/
theorem Linked.awaited (h : Linked (.stopping k) k w a 0) : w ≠ .parked ∨ a = 1 := by
  have htoken := h.token
  rw [Leader.holds, if_neg (Nat.lt_irrefl k)] at htoken
  cases w with
  | parked =>
    rw [Worker.tokens] at htoken
    exact .inr (by omega)
  | running | answering | left => exact .inl nofun

/-- **No wake-up is lost**: a parked worker with nothing in its `start` is one whose token the
leader has, or has yet to take. -/
theorem Linked.woken (h : Linked l i .parked 0 b) : 0 < l.holds i ∨ l.Awaits i := by
  have htoken := h.token
  simp only [Worker.tokens] at htoken
  rcases Nat.eq_zero_or_pos (l.holds i) with hz | hpos
  · exact .inr (h.answer (.inr (by omega)))
  · exact .inl hpos

end Quiesce
