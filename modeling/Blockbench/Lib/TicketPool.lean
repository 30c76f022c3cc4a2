import Mathlib.Algebra.BigOperators.Ring.Finset
import Mathlib.Algebra.BigOperators.Intervals
import Mathlib.Algebra.Order.BigOperators.Group.Finset
import Blockbench.Lib.Machine

/-!
# `TicketPool` — workers that draw tickets from a shared counter

The protocol behind "each thread atomically increments a shared counter and works on the
number it got": a worker draws `next`, and if the number is below `total` it carries out the
jobs of that ticket one by one, otherwise it leaves. Closing a job may *stop* the pool, which
adds `total` to the counter, so that from then on every draw is too large.

The counter here is a natural number: this is the abstract protocol, with no word size. What a
bounded counter needs in order to follow it is an upper bound on `next` over every schedule.

The three results used downstream:

* `Inv.next_le` and `Inv.stops_le` — the counter never exceeds `total + n + w * n * total` for
  `n` workers with at most `w` jobs a ticket;
* `conserved_finished` — whatever is summed over jobs, carried out plus still pending is the sum
  over the tickets drawn, so a pool that finished without a stop did each ticket exactly once;
* `run_after_stop` — after a stop only tickets already in hand are worked on.
-/

set_option autoImplicit false

namespace TicketPool

open Finset

variable {ι β : Type*}

/-! ## The machine -/

/-- Where a worker is: at the head of its loop, between two jobs of a ticket, between carrying
a job out and closing it, or out of the loop. -/
inductive Worker (β : Type*)
  | idle
  | busy (k : ℕ) (todo : List β)
  | closing (k : ℕ) (b : β) (todo : List β)
  | done

/-- `claimed`, `stops` and `log` are bookkeeping: the tickets drawn so far, how often each
worker stopped the pool, and the jobs carried out, newest first. -/
structure Pool (ι β : Type*) where
  next : ℕ
  claimed : ℕ
  worker : ι → Worker β
  stops : ι → ℕ
  log : List (ℕ × β)

inductive Act (ι : Type*)
  | claim (i : ι)
  | issue (i : ι)
  | close (i : ι) (stop : Bool)
  | again (i : ι)

variable [DecidableEq ι]

def pool (total : ℕ) (work : ℕ → List β) : Machine (Pool ι β) (Act ι) where
  init := ⟨0, 0, fun _ => .idle, fun _ => 0, []⟩
  step
    | .claim i, s =>
      match s.worker i with
      | .idle =>
        if s.next < total then
          some { s with
            next := s.next + 1
            claimed := s.claimed + 1
            worker := Function.update s.worker i (.busy s.next (work s.next)) }
        else
          some { s with next := s.next + 1, worker := Function.update s.worker i .done }
      | _ => none
    | .issue i, s =>
      match s.worker i with
      | .busy k (b :: todo) =>
        some { s with
          worker := Function.update s.worker i (.closing k b todo)
          log := (k, b) :: s.log }
      | _ => none
    | .close i stop, s =>
      match s.worker i with
      | .closing k _ todo =>
        some { s with
          next := if stop then s.next + total else s.next
          worker := Function.update s.worker i (.busy k todo)
          stops := if stop then Function.update s.stops i (s.stops i + 1) else s.stops }
      | _ => none
    | .again i, s =>
      match s.worker i with
      | .busy _ [] => some { s with worker := Function.update s.worker i .idle }
      | _ => none

variable {total : ℕ} {work : ℕ → List β}

/-- The moves of the machine as a relation, one constructor per branch of `pool`. -/
inductive Move (total : ℕ) (work : ℕ → List β) (s : Pool ι β) : Pool ι β → Prop
  | claim (i : ι) (hw : s.worker i = .idle) (hlt : s.next < total) :
      Move total work s { s with
        next := s.next + 1
        claimed := s.claimed + 1
        worker := Function.update s.worker i (.busy s.next (work s.next)) }
  | leave (i : ι) (hw : s.worker i = .idle) (hge : total ≤ s.next) :
      Move total work s { s with
        next := s.next + 1, worker := Function.update s.worker i .done }
  | issue (i : ι) (k : ℕ) (b : β) (todo : List β) (hw : s.worker i = .busy k (b :: todo)) :
      Move total work s { s with
        worker := Function.update s.worker i (.closing k b todo)
        log := (k, b) :: s.log }
  | close (i : ι) (k : ℕ) (b : β) (todo : List β) (hw : s.worker i = .closing k b todo) :
      Move total work s { s with worker := Function.update s.worker i (.busy k todo) }
  | stop (i : ι) (k : ℕ) (b : β) (todo : List β) (hw : s.worker i = .closing k b todo) :
      Move total work s { s with
        next := s.next + total
        worker := Function.update s.worker i (.busy k todo)
        stops := Function.update s.stops i (s.stops i + 1) }
  | again (i : ι) (k : ℕ) (hw : s.worker i = .busy k []) :
      Move total work s { s with worker := Function.update s.worker i .idle }

/-- **Inversion**: everything a step of the machine can do. The invariants of the pool are case
analyses of `Move`, and no proof looks at the step function again. -/
theorem move_of_step {a : Act ι} {s t : Pool ι β} (h : (pool total work).step a s = some t) :
    Move total work s t := by
  cases a with
  | claim i =>
    simp only [pool] at h
    split at h
    · rename_i hw
      split at h
      · rename_i hlt
        cases h
        exact .claim i hw hlt
      · rename_i hlt
        cases h
        exact .leave i hw (Nat.le_of_not_lt hlt)
    · cases h
  | issue i =>
    simp only [pool] at h
    split at h
    · rename_i k b todo hw
      cases h
      exact .issue i k b todo hw
    · cases h
  | close i stop =>
    simp only [pool] at h
    split at h
    · rename_i k b todo hw
      cases stop
      · cases h
        exact .close i k b todo hw
      · cases h
        exact .stop i k b todo hw
    · cases h
  | again i =>
    simp only [pool] at h
    split at h
    · rename_i k hw
      cases h
      exact .again i k hw
    · cases h

/-! The same moves forwards, for a machine that has to be matched step by step. -/

theorem step_claim {s : Pool ι β} {i : ι} (hw : s.worker i = .idle) (hlt : s.next < total) :
    (pool total work).step (.claim i) s = some { s with
      next := s.next + 1
      claimed := s.claimed + 1
      worker := Function.update s.worker i (.busy s.next (work s.next)) } := by
  simp only [pool, hw, if_pos hlt]

theorem step_leave {s : Pool ι β} {i : ι} (hw : s.worker i = .idle) (hge : total ≤ s.next) :
    (pool total work).step (.claim i) s = some { s with
      next := s.next + 1, worker := Function.update s.worker i .done } := by
  simp only [pool, hw, if_neg (Nat.not_lt.mpr hge)]

theorem step_issue {s : Pool ι β} {i : ι} {k : ℕ} {b : β} {todo : List β}
    (hw : s.worker i = .busy k (b :: todo)) :
    (pool total work).step (.issue i) s = some { s with
      worker := Function.update s.worker i (.closing k b todo)
      log := (k, b) :: s.log } := by
  simp only [pool, hw]

theorem step_close {s : Pool ι β} {i : ι} {k : ℕ} {b : β} {todo : List β}
    (hw : s.worker i = .closing k b todo) (stop : Bool) :
    (pool total work).step (.close i stop) s = some { s with
      next := if stop then s.next + total else s.next
      worker := Function.update s.worker i (.busy k todo)
      stops := if stop then Function.update s.stops i (s.stops i + 1) else s.stops } := by
  simp only [pool, hw]

theorem step_again {s : Pool ι β} {i : ι} {k : ℕ} (hw : s.worker i = .busy k []) :
    (pool total work).step (.again i) s =
      some { s with worker := Function.update s.worker i .idle } := by
  simp only [pool, hw]

/-! ## What a worker still has to do -/

/-- The jobs of a worker's ticket not yet carried out. -/
@[simp] def Worker.pending : Worker β → List β
  | .busy _ todo | .closing _ _ todo => todo
  | .idle | .done => []

/-- How many more jobs of its ticket a worker can close. -/
@[simp] def Worker.owed : Worker β → ℕ
  | .busy _ todo => todo.length
  | .closing _ _ todo => todo.length + 1
  | .idle | .done => 0

@[simp] def Worker.hand : Worker β → Option ℕ
  | .busy k _ | .closing k _ _ => some k
  | .idle | .done => none

@[simp] def Worker.left : Worker β → ℕ
  | .done => 1
  | _ => 0

/-- The sum over the workers after worker `i` changes: its new share and the others'. -/
theorem sum_update_eq [Fintype ι] {γ M : Type*} [AddCommMonoid M] (f : γ → M) (w : ι → γ)
    (i : ι) (v : γ) :
    ∑ j, f (Function.update w i v j) = f v + ∑ j ∈ univ.erase i, f (w j) := by
  rw [← add_sum_erase _ _ (mem_univ i), Function.update_self]
  congr 1
  exact sum_congr rfl fun j hj => by rw [Function.update_of_ne (ne_of_mem_erase hj)]

theorem sum_eq_add_erase [Fintype ι] {γ M : Type*} [AddCommMonoid M] (f : γ → M) (w : ι → γ)
    (i : ι) : ∑ j, f (w j) = f (w i) + ∑ j ∈ univ.erase i, f (w j) :=
  (add_sum_erase _ (fun j => f (w j)) (mem_univ i)).symm

/-! ## The counting invariant -/

variable [Fintype ι]

/-- The counter is what was drawn, plus one for every worker that left, plus `total` for every
stop; and a worker's stops never outnumber the jobs of the one ticket it can be on by then. -/
structure Inv (total w : ℕ) (s : Pool ι β) : Prop where
  count : s.next = s.claimed + ∑ i, (s.worker i).left + total * ∑ i, s.stops i
  claimed_le : s.claimed ≤ total
  budget : ∀ i, s.stops i + (s.worker i).owed ≤ w
  left_ge : ∀ i, s.worker i = .done → total ≤ s.next
  left_all : ∀ i, s.worker i = .done → ∑ j, s.stops j = 0 → s.claimed = total

variable {w : ℕ}

theorem inv_init : Inv total w (pool (ι := ι) total work).init where
  count := by simp [pool]
  claimed_le := Nat.zero_le _
  budget i := by simp [pool]
  left_ge i h := by simp [pool] at h
  left_all i h := by simp [pool] at h

omit [DecidableEq ι] in
/-- While a draw can still succeed nobody has stopped the pool and nobody has left it. -/
theorem Inv.fresh {s : Pool ι β} (h : Inv total w s) (hlt : s.next < total) :
    ∑ i, s.stops i = 0 ∧ ∑ i, (s.worker i).left = 0 ∧ s.next = s.claimed := by
  have hstops : ∑ i, s.stops i = 0 := by
    by_contra hne
    have hle : total * 1 ≤ total * ∑ i, s.stops i := Nat.mul_le_mul_left _ (by omega)
    have hcount := h.count
    omega
  have hleft : ∑ i, (s.worker i).left = 0 := by
    apply sum_eq_zero
    intro i _
    cases hw : s.worker i with
    | done => exact absurd (h.left_ge i hw) (by omega)
    | idle | busy _ _ | closing _ _ _ => rfl
  refine ⟨hstops, hleft, ?_⟩
  have hcount := h.count
  rw [hstops, hleft] at hcount
  omega

/-- A worker that was in its loop and stays in it, owing no more jobs than before, keeps the
invariant: the counter, the draws and the stops are untouched. -/
theorem Inv.setWorker {s : Pool ι β} (h : Inv total w s) {i : ι} {v : Worker β}
    (hw : (s.worker i).left = 0) (hv : v.left = 0) (howed : v.owed ≤ (s.worker i).owed)
    (log : List (ℕ × β)) :
    Inv total w { s with worker := Function.update s.worker i v, log := log } := by
  have hsum : ∑ j, (Function.update s.worker i v j).left = ∑ j, (s.worker j).left := by
    rw [sum_update_eq, sum_eq_add_erase Worker.left s.worker i, hw, hv]
  have hdone : ∀ j, Function.update s.worker i v j = .done → s.worker j = .done := by
    intro j hj
    by_cases hji : j = i
    · subst hji
      rw [Function.update_self] at hj
      rw [hj] at hv
      simp at hv
    · rwa [Function.update_of_ne hji] at hj
  refine ⟨?_, h.claimed_le, fun j => ?_, fun j hj => h.left_ge j (hdone j hj),
    fun j hj => h.left_all j (hdone j hj)⟩
  · show s.next = s.claimed + ∑ j, (Function.update s.worker i v j).left + _
    rw [hsum]
    exact h.count
  · have hb := h.budget j
    by_cases hji : j = i
    · subst hji
      simp only [Function.update_self]
      omega
    · simpa [Function.update_of_ne hji] using hb

/-- Adding one to a single worker's count of stops adds one to the sum. -/
theorem sum_stops_succ (f : ι → ℕ) (i : ι) :
    ∑ j, Function.update f i (f i + 1) j = (∑ j, f j) + 1 := by
  have hnew := sum_update_eq (id : ℕ → ℕ) f i (f i + 1)
  have hold := sum_eq_add_erase (id : ℕ → ℕ) f i
  simp only [id_eq] at hnew hold
  omega

theorem Inv.step (hwork : ∀ k, (work k).length ≤ w) {s t : Pool ι β} (h : Inv total w s)
    (hm : Move total work s t) : Inv total w t := by
  cases hm with
  | claim i hw hlt =>
    obtain ⟨hstops, hleft, hnext⟩ := h.fresh hlt
    have hsum := sum_update_eq Worker.left s.worker i (.busy s.next (work s.next))
    have hold := sum_eq_add_erase Worker.left s.worker i
    rw [hw, hleft] at hold
    have hnotdone : ∀ j, Function.update s.worker i (.busy s.next (work s.next)) j ≠ .done := by
      intro j hj
      by_cases hji : j = i
      · subst hji
        simp at hj
      · rw [Function.update_of_ne hji] at hj
        exact absurd (h.left_ge j hj) (by omega)
    refine ⟨?_, ?_, fun j => ?_, fun j hj => absurd hj (hnotdone j),
      fun j hj => absurd hj (hnotdone j)⟩
    · simp only [Worker.left] at hsum hold ⊢
      rw [hstops, hsum]
      omega
    · show s.claimed + 1 ≤ total
      omega
    · have hz : s.stops j = 0 := (sum_eq_zero_iff.mp hstops) j (mem_univ j)
      by_cases hji : j = i
      · subst hji
        simpa [hz] using hwork s.next
      · simpa [Function.update_of_ne hji] using h.budget j
  | leave i hw hge =>
    have hsum := sum_update_eq Worker.left s.worker i .done
    have hold := sum_eq_add_erase Worker.left s.worker i
    rw [hw] at hold
    simp only [Worker.left] at hsum hold
    refine ⟨?_, h.claimed_le, fun j => ?_, fun j _ => Nat.le_succ_of_le hge, fun j _ hz => ?_⟩
    · have hcount := h.count
      simp only [Worker.left] at hcount ⊢
      rw [hsum]
      omega
    · have hb := h.budget j
      by_cases hji : j = i
      · subst hji
        simp only [Function.update_self, Worker.owed]
        omega
      · simpa [Function.update_of_ne hji] using hb
    · -- the first to leave found every ticket drawn; the later ones inherit it
      by_cases hd : ∃ l, s.worker l = .done
      · obtain ⟨l, hl⟩ := hd
        exact h.left_all l hl hz
      · have hleft : ∑ l, (s.worker l).left = 0 := by
          apply sum_eq_zero
          intro l _
          cases hwl : s.worker l with
          | done => exact absurd ⟨l, hwl⟩ hd
          | idle | busy _ _ | closing _ _ _ => rfl
        have hcount := h.count
        have hcl := h.claimed_le
        have hz' : ∑ j, s.stops j = 0 := hz
        rw [hleft, hz'] at hcount
        show s.claimed = total
        omega
  | issue i k b todo hw => exact h.setWorker (by simp [hw]) rfl (by simp [hw]) _
  | close i k b todo hw => exact h.setWorker (by simp [hw]) rfl (by simp [hw]) s.log
  | stop i k b todo hw =>
    have hc := h.setWorker (i := i) (v := .busy k todo) (by simp [hw]) rfl (by simp [hw]) s.log
    refine ⟨?_, hc.claimed_le, fun j => ?_, fun j _ => Nat.le_add_left _ _, fun j _ hz => ?_⟩
    · have hcount := hc.count
      show s.next + total = s.claimed + _ + total * ∑ j, Function.update s.stops i _ j
      rw [sum_stops_succ, Nat.mul_add, Nat.mul_one, ← Nat.add_assoc]
      exact congrArg (· + total) hcount
    · have hb := h.budget j
      by_cases hji : j = i
      · subst hji
        simp only [hw, Worker.owed] at hb
        simp only [Function.update_self, Worker.owed]
        omega
      · simpa [Function.update_of_ne hji] using hb
    · have hz' : ∑ j, Function.update s.stops i (s.stops i + 1) j = 0 := hz
      rw [sum_stops_succ] at hz'
      omega
  | again i k hw => exact h.setWorker (by simp [hw]) rfl (by simp [hw]) s.log

/-! ## Consequences of the count -/

omit [DecidableEq ι] in
theorem Inv.next_le {s : Pool ι β} (h : Inv total w s) :
    s.next ≤ total + Fintype.card ι + total * ∑ i, s.stops i := by
  have hleft : ∑ i, (s.worker i).left ≤ Fintype.card ι := by
    calc ∑ i, (s.worker i).left ≤ ∑ _i : ι, 1 :=
          sum_le_sum fun i _ => by cases s.worker i <;> simp
      _ = Fintype.card ι := by rw [sum_const, card_univ, nsmul_one, Nat.cast_id]
  have hcount := h.count
  have hcl := h.claimed_le
  omega

omit [DecidableEq ι] in
/-- `n` workers with at most `w` jobs a ticket stop the pool at most `w * n` times, whatever the
schedule. -/
theorem Inv.stops_le {s : Pool ι β} (h : Inv total w s) :
    ∑ i, s.stops i ≤ w * Fintype.card ι :=
  calc ∑ i, s.stops i ≤ ∑ _i : ι, w :=
        sum_le_sum fun i _ => le_trans (Nat.le_add_right _ _) (h.budget i)
    _ = w * Fintype.card ι := by
        rw [sum_const, card_univ, nsmul_eq_mul, Nat.cast_id, Nat.mul_comm]

omit [DecidableEq ι] in
theorem Inv.stopped {s : Pool ι β} (h : Inv total w s) {i : ι} (hi : 0 < s.stops i) :
    total ≤ s.next := by
  by_contra hlt
  obtain ⟨hstops, -, -⟩ := h.fresh (Nat.lt_of_not_le hlt)
  have := (sum_eq_zero_iff.mp hstops) i (mem_univ i)
  omega

/-! ## Conservation -/

variable {M : Type*} [AddCommMonoid M]

def weigh (g : β → M) (l : List β) : M := (l.map g).sum

@[simp] theorem weigh_nil (g : β → M) : weigh g [] = 0 := rfl

@[simp] theorem weigh_cons (g : β → M) (b : β) (l : List β) :
    weigh g (b :: l) = g b + weigh g l := by simp [weigh]

/-- Carried out plus pending is what the tickets drawn so far hold. -/
def Conserved (work : ℕ → List β) (g : β → M) (s : Pool ι β) : Prop :=
  weigh g (s.log.map Prod.snd) + ∑ i, weigh g (s.worker i).pending
    = ∑ k ∈ range s.claimed, weigh g (work k)

theorem conserved_init (g : β → M) :
    Conserved work g (pool (ι := ι) total work).init := by
  simp [Conserved, pool]

/-- Changing one worker changes the pending weight by what that worker holds. -/
theorem Conserved.setWorker {g : β → M} {s : Pool ι β} (h : Conserved work g s) {i : ι}
    {v : Worker β} (hv : weigh g v.pending = weigh g (s.worker i).pending) :
    weigh g (s.log.map Prod.snd) + ∑ j, weigh g (Function.update s.worker i v j).pending
      = ∑ k ∈ range s.claimed, weigh g (work k) := by
  rw [sum_update_eq (fun x : Worker β => weigh g x.pending), hv,
    ← sum_eq_add_erase (fun x : Worker β => weigh g x.pending)]
  exact h

theorem Conserved.step {g : β → M} {s t : Pool ι β} (hi : Inv total w s)
    (h : Conserved work g s) (hm : Move total work s t) : Conserved work g t := by
  cases hm with
  | claim i hw hlt =>
    obtain ⟨-, -, hnext⟩ := hi.fresh hlt
    have hp : weigh g (s.worker i).pending = 0 := by rw [hw]; rfl
    have h' := h
    unfold Conserved at h'
    rw [sum_eq_add_erase (fun x : Worker β => weigh g x.pending) s.worker i, hp, zero_add] at h'
    show weigh g (s.log.map Prod.snd) + ∑ j, weigh g (Function.update s.worker i _ j).pending
      = ∑ k ∈ range (s.claimed + 1), weigh g (work k)
    rw [sum_update_eq (fun x : Worker β => weigh g x.pending), sum_range_succ, ← h', hnext]
    show _ + (weigh g (work s.claimed) + _) = _
    ac_rfl
  | leave i hw hge => exact h.setWorker (by rw [hw]; rfl)
  | issue i k b todo hw =>
    have hp : weigh g (s.worker i).pending = g b + weigh g todo := by
      rw [hw]
      exact weigh_cons g b todo
    have h' := h
    unfold Conserved at h'
    rw [sum_eq_add_erase (fun x : Worker β => weigh g x.pending) s.worker i, hp] at h'
    show weigh g (((k, b) :: s.log).map Prod.snd)
      + ∑ j, weigh g (Function.update s.worker i _ j).pending = _
    rw [sum_update_eq (fun x : Worker β => weigh g x.pending), List.map_cons, weigh_cons]
    refine Eq.trans ?_ h'
    show _ + (weigh g todo + _) = _
    ac_rfl
  | close i k b todo hw => exact h.setWorker (by rw [hw]; rfl)
  | stop i k b todo hw => exact h.setWorker (by rw [hw]; rfl)
  | again i k hw => exact h.setWorker (by rw [hw]; rfl)

omit [DecidableEq ι] in
/-- **Each ticket exactly once**: when every worker has left and nobody stopped the pool, the
jobs carried out weigh what the tickets below `total` hold. -/
theorem conserved_finished [Nonempty ι] {g : β → M} {s : Pool ι β} (hi : Inv total w s)
    (h : Conserved work g s) (hdone : ∀ i, s.worker i = .done) (hstops : ∀ i, s.stops i = 0) :
    weigh g (s.log.map Prod.snd) = ∑ k ∈ range total, weigh g (work k) := by
  obtain ⟨i⟩ := ‹Nonempty ι›
  have hall : s.claimed = total := hi.left_all i (hdone i) (sum_eq_zero fun j _ => hstops j)
  have hpend : ∑ j, weigh g (s.worker j).pending = 0 :=
    sum_eq_zero fun j _ => by rw [hdone j]; rfl
  rw [← hall, ← h, hpend, add_zero]

theorem conserved_of_run (hwork : ∀ k, (work k).length ≤ w) {g : β → M} {s : Pool ι β}
    {as : List (Act ι)}
    (hr : Machine.Run (pool total work) Machine.always (pool total work).init as s) :
    Conserved work g s :=
  (hr.keeps (I := fun s => Inv total w s ∧ Conserved work g s)
    (fun _ _ _ h _ hst => ⟨h.1.step hwork (move_of_step hst), h.2.step h.1 (move_of_step hst)⟩)
    ⟨inv_init, conserved_init g⟩).2

/-! ## Termination -/

/-- Steps a worker still has in hand before it is back at the head of its loop, or out. -/
@[simp] def Worker.steps : Worker β → ℕ
  | .idle => 1
  | .busy _ todo => 2 * todo.length + 2
  | .closing _ _ todo => 2 * todo.length + 3
  | .done => 0

def remaining (total w : ℕ) (s : Pool ι β) : ℕ :=
  (total - s.claimed) * (2 * w + 3) + ∑ i, (s.worker i).steps

theorem remaining_lt (hwork : ∀ k, (work k).length ≤ w) {s t : Pool ι β} (h : Inv total w s)
    (hm : Move total work s t) : remaining total w t < remaining total w s := by
  have hset : ∀ (i : ι) (v : Worker β), v.steps < (s.worker i).steps →
      ∑ j, (Function.update s.worker i v j).steps < ∑ j, (s.worker j).steps := by
    intro i v hlt
    rw [sum_update_eq Worker.steps, sum_eq_add_erase Worker.steps s.worker i]
    omega
  cases hm with
  | claim i hw hlt =>
    obtain ⟨-, -, hnext⟩ := h.fresh hlt
    have hlen := hwork s.next
    have hone : (total - s.claimed) * (2 * w + 3)
        = (total - (s.claimed + 1)) * (2 * w + 3) + (2 * w + 3) := by
      rw [← Nat.succ_mul]
      congr 1
      omega
    have hold := sum_eq_add_erase Worker.steps s.worker i
    rw [hw] at hold
    show (total - (s.claimed + 1)) * (2 * w + 3) + ∑ j, (Function.update s.worker i _ j).steps
      < (total - s.claimed) * (2 * w + 3) + ∑ j, (s.worker j).steps
    rw [sum_update_eq Worker.steps]
    simp only [Worker.steps] at hold ⊢
    omega
  | leave i hw hge => exact Nat.add_lt_add_left (hset i _ (by simp [hw])) _
  | issue i k b todo hw => exact Nat.add_lt_add_left (hset i _ (by simp [hw]; omega)) _
  | close i k b todo hw => exact Nat.add_lt_add_left (hset i _ (by simp [hw])) _
  | stop i k b todo hw => exact Nat.add_lt_add_left (hset i _ (by simp [hw])) _
  | again i k hw => exact Nat.add_lt_add_left (hset i _ (by simp [hw])) _

/-! ## After a stop -/

omit [Fintype ι] in
/-- **After a stop only tickets in hand are worked on.** From a state whose counter has reached
`total`, no step draws a ticket below it again, and every job carried out later belongs to a
ticket some worker was holding. -/
theorem run_after_stop {s t : Pool ι β} {as : List (Act ι)}
    (hr : Machine.Run (pool total work) Machine.always s as t) (hs : total ≤ s.next) :
    total ≤ t.next ∧ t.claimed = s.claimed ∧
      (∀ i k, (t.worker i).hand = some k → (s.worker i).hand = some k) ∧
      ∃ new, t.log = new ++ s.log ∧ ∀ e ∈ new, ∃ i, (s.worker i).hand = some e.1 := by
  induction hr with
  | nil => exact ⟨hs, rfl, fun _ _ h => h, [], rfl, by simp⟩
  | @snoc t u as a _ _ hst ih =>
    obtain ⟨hge, hclaimed, hhand, new, hlog, hnew⟩ := ih
    have hset : ∀ (i : ι) (v : Worker β), (∀ k, v.hand = some k → (t.worker i).hand = some k) →
        ∀ j k, (Function.update t.worker i v j).hand = some k → (s.worker j).hand = some k := by
      intro i v hv j k hj
      by_cases hji : j = i
      · subst hji
        rw [Function.update_self] at hj
        exact hhand j k (hv k hj)
      · rw [Function.update_of_ne hji] at hj
        exact hhand j k hj
    cases move_of_step hst with
    | claim i hw hlt => exact absurd hlt (by omega)
    | leave i hw _ =>
      exact ⟨Nat.le_succ_of_le hge, hclaimed, hset i _ (by simp), new, hlog, hnew⟩
    | issue i k b todo hw =>
      have hk : (t.worker i).hand = some k := by rw [hw]; rfl
      refine ⟨hge, hclaimed, hset i _ (by simp [hw]), (k, b) :: new, by simp [hlog], ?_⟩
      intro e he
      rcases List.mem_cons.mp he with rfl | he
      · exact ⟨i, hhand i k hk⟩
      · exact hnew e he
    | close i k b todo hw => exact ⟨hge, hclaimed, hset i _ (by simp [hw]), new, hlog, hnew⟩
    | stop i k b todo hw =>
      exact ⟨Nat.le_add_right_of_le hge, hclaimed, hset i _ (by simp [hw]), new, hlog, hnew⟩
    | again i k hw => exact ⟨hge, hclaimed, hset i _ (by simp), new, hlog, hnew⟩

end TicketPool
