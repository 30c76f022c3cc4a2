import Blockbench.Ioload.Rounds

/-!
# `Ioload/RoundsSound.lean` — what the rounds guarantee

The invariant is `Rounds`: every worker's token is where `main`'s program point says, and the
shared count is this round's from its start to its summary. It needs one thing of the counter,
that no round is started with zero threads (`startsNonzero`): the workers take a zero count for
the end of the test. `rounds_sound` is then about every run that meets this.

The options rule it out when the counter cannot wrap (`startsNonzero_of_small`). When it can, it
may come to zero, and `main` waits for workers that have gone (`rounds_stuck`).
-/

set_option autoImplicit false

namespace Blockbench
namespace Ioload

open Machine

variable {N : ℕ} {cp : CmdParams} {s t : RoundState N}

/-- What the shared count and the loop counter are, at each point of `main`. -/
def CountOk : MainPc → Int32 → Int32 → Prop
  | .create _, threads, _ | .waitReady _, threads, _ | .test, threads, _ => threads ≠ 0
  | .setThreads, threads, i => threads ≠ 0 ∧ i ≠ 0
  | .postStart _, threads, i | .reporting, threads, i | .waitStop _, threads, i
  | .summary, threads, i => threads = i ∧ i ≠ 0
  | .setZero, _, _ | .postEnd _, _, _ | .exited, _, _ => True

structure Rounds (cp : CmdParams) (s : RoundState N) : Prop where
  held : ∀ j, Held (threadid cp j) s.i (s.main.phase j) (s.worker j)
  count : CountOk s.main s.threads s.i

/-- `main` does not start a round with zero threads. -/
def startsNonzero (cp : CmdParams) (s : RoundState N) : RoundStep N → Prop
  | .main => s.main = .test → s.i ≤ cp.maxthreads → s.i ≠ 0
  | _ => True

theorem rounds_init {nfiles : ℕ} : Rounds cp (rounds nfiles cp).init where
  held _ := .unborn
  count := by
    show (1 : Int32) ≠ 0
    decide

/-! ## The steps keep the invariant -/

/-- A step of `main` that moves worker `k` on to its next phase and leaves the others in
theirs. -/
theorem held_next {k : ℕ} (hk : k < N) {pc pc' : MainPc} {ph ph' : Phase} {i : Int32}
    {w : Worker} (h : ∀ j, Held (threadid cp j) i (pc.phase j) (s.worker j))
    (hph : pc.phase k = ph) (hph' : pc'.phase k = ph')
    (hother : ∀ j : ℕ, j ≠ k → pc'.phase j = pc.phase j)
    (hmove : Held (threadid cp (⟨k, hk⟩ : Fin N)) i ph (s.worker ⟨k, hk⟩) →
      Held (threadid cp (⟨k, hk⟩ : Fin N)) i ph' w) (j : Fin N) :
    Held (threadid cp j) i (pc'.phase j) (s.set ⟨k, hk⟩ w j) := by
  by_cases hj : j = ⟨k, hk⟩
  · subst hj
    rw [RoundState.set, Function.update_self]
    show Held _ _ (pc'.phase k) _
    rw [hph']
    exact hmove (hph ▸ h ⟨k, hk⟩)
  · have hne : (j : ℕ) ≠ k := fun heq => hj (Fin.ext heq)
    rw [RoundState.set, Function.update_of_ne hj, hother j hne]
    exact h j

/-- The phases of two neighbouring points of a loop differ at one worker only. -/
theorem lt_succ_iff_of_ne {j k : ℕ} (h : j ≠ k) : j < k + 1 ↔ j < k := by omega

theorem Rounds.mainMoves (h : Rounds cp s) (hok : startsNonzero cp s .main)
    (hst : mainStep cp s = some t) : Rounds cp t := by
  have hheld := h.held
  have hcount := h.count
  cases mainMove_of_step hst with
  | @create k hpc hk =>
    simp only [hpc] at hheld hcount
    refine ⟨held_next hk hheld (if_neg (lt_irrefl k)) (if_pos k.lt_succ_self) (fun j hj => ?_)
      fun hw => hw.create, hcount⟩
    simp only [MainPc.phase, lt_succ_iff_of_ne hj]
  | @created k hpc hk =>
    simp only [hpc] at hheld hcount
    refine ⟨fun j => ?_, hcount⟩
    have hj : (j : ℕ) < k := by omega
    simpa [MainPc.phase, hj] using hheld j
  | @collect k w hpc hk hw =>
    simp only [hpc] at hheld hcount
    refine ⟨held_next hk hheld (if_neg (lt_irrefl k)) (if_pos k.lt_succ_self) (fun j hj => ?_)
      fun hready => hready.collectReady hw, hcount⟩
    simp only [MainPc.phase, lt_succ_iff_of_ne hj]
  | @collected k hpc hk =>
    simp only [hpc] at hheld hcount
    refine ⟨fun j => ?_, hcount⟩
    have hj : (j : ℕ) < k := by omega
    have hrest := hheld j
    simp only [MainPc.phase, hj, if_true] at hrest
    exact hrest.recount
  | test hpc =>
    simp only [hpc] at hheld hcount
    by_cases hle : s.i ≤ cp.maxthreads
    · rw [if_pos hle]
      exact ⟨hheld, hcount, hok hpc hle⟩
    · rw [if_neg hle]
      exact ⟨fun j => .ended _, trivial⟩
  | setThreads hpc =>
    simp only [hpc] at hheld hcount
    exact ⟨fun j => (hheld j).forget, rfl, hcount.2⟩
  | @release k hpc hk =>
    simp only [hpc] at hheld hcount
    refine ⟨held_next hk hheld (if_neg (lt_irrefl k)) (if_pos k.lt_succ_self) (fun j hj => ?_)
      fun hw => hw.release, hcount⟩
    simp only [MainPc.phase, lt_succ_iff_of_ne hj]
  | @released k hpc hk =>
    simp only [hpc] at hheld hcount
    refine ⟨fun j => ?_, hcount⟩
    have hj : (j : ℕ) < k := by omega
    simpa [MainPc.phase, hj] using hheld j
  | reported hpc =>
    simp only [hpc] at hheld hcount
    exact ⟨hheld, hcount⟩
  | @join k w hpc hk hw =>
    simp only [hpc] at hheld hcount
    refine ⟨held_next hk hheld (if_neg (lt_irrefl k)) (if_pos k.lt_succ_self) (fun j hj => ?_)
      fun hout => hout.collectStop hw, hcount⟩
    simp only [MainPc.phase, lt_succ_iff_of_ne hj]
  | @joined k hpc hk =>
    simp only [hpc] at hheld hcount
    refine ⟨fun j => ?_, hcount⟩
    have hj : (j : ℕ) < k := by omega
    simpa [MainPc.phase, hj] using hheld j
  | summary hpc =>
    -- the count stays what it was, and it was not zero
    simp only [hpc] at hheld hcount
    refine ⟨fun j => (hheld j).rest, ?_⟩
    show s.threads ≠ 0
    rw [hcount.1]
    exact hcount.2
  | setZero | wake | ended => exact ⟨fun j => .ended _, trivial⟩

theorem Rounds.threads_ne (h : Rounds cp s) {j : ℕ} (hph : s.main.phase j ≠ .ended) :
    s.threads ≠ 0 := by
  have hcount := h.count
  cases hpc : s.main with
  | create k | waitReady k | test =>
    rw [hpc] at hcount
    exact hcount
  | setThreads =>
    rw [hpc] at hcount
    exact hcount.1
  | postStart k | reporting | waitStop k | summary =>
    rw [hpc] at hcount
    rw [hcount.1]
    exact hcount.2
  | setZero | postEnd k | exited =>
    rw [hpc] at hph
    exact absurd rfl hph

theorem Rounds.threads_eq (h : Rounds cp s) {j : ℕ} (hph : s.main.phase j = .out) :
    s.threads = s.i := by
  have hcount := h.count
  cases hpc : s.main with
  | create k | waitReady k | test | setThreads | summary | setZero | postEnd k | exited =>
    rw [hpc] at hph
    simp only [MainPc.phase] at hph
    try split at hph
    all_goals cases hph
  | postStart k | reporting | waitStop k =>
    rw [hpc] at hcount
    exact hcount.1

theorem Rounds.workerMoves (h : Rounds cp s) {j : Fin N} {w : Worker}
    (hst : workerStep s.threads (threadid cp j) (s.worker j) = some w) :
    Rounds cp { s with worker := s.set j w } := by
  refine ⟨fun k => ?_, h.count⟩
  show Held _ s.i (s.main.phase k) (s.set j w k)
  by_cases hkj : k = j
  · subst hkj
    rw [RoundState.set, Function.update_self]
    exact (h.held k).step h.threads_ne h.threads_eq hst
  · rw [RoundState.set, Function.update_of_ne hkj]
    exact h.held k

/-- **Every step keeps the invariant.** -/
theorem Rounds.step (h : Rounds cp s) {a : RoundStep N} (hok : startsNonzero cp s a)
    (hst : roundsStep cp a s = some t) : Rounds cp t := by
  unfold roundsStep at hst
  split at hst
  · cases hst
  cases a with
  | main => exact h.mainMoves hok hst
  | worker j =>
    obtain ⟨w, hw, rfl⟩ := Option.map_eq_some_iff.mp hst
    exact h.workerMoves hw
  | io j | status =>
    dsimp only at hst
    split at hst <;> cases hst
    exact h
  | fail j | halt =>
    dsimp only at hst
    split at hst <;> cases hst
    exact ⟨fun j => .ended _, trivial⟩

theorem rounds_of_reachable {nfiles : ℕ} {s : RoundState (nworkers nfiles cp)}
    (h : (rounds nfiles cp).Reachable (startsNonzero cp) s) : Rounds cp s :=
  h.invariant rounds_init fun _ _ _ hs hok hst => hs.step hok hst

/-! ## A worker that `main` waits for -/

def WorkerPc.left : WorkerPc → ℕ
  | .loopTest => 5
  | .waitStart => 4
  | .compare => 3
  | .doIo => 2
  | .postStop | .begin => 1
  | .unborn | .gone => 0

/-- A worker that has the token and has not posted can go on, and comes nearer to its post. -/
theorem Held.progress {tid : ℕ} {i threads : Int32} {ph : Phase} {w : Worker}
    (h : Held tid i ph w) (hph : ph = .starting ∨ ph = .out) (hstop : w.stop = 0)
    (hne : threads ≠ 0) :
    ∃ w', workerStep threads tid w = some w' ∧ (0 < w'.stop ∨ w'.pc.left < w.pc.left) := by
  cases h with
  | starting => exact ⟨_, rfl, .inl (Nat.succ_pos _)⟩
  | released hidle =>
    rcases hidle with rfl | rfl
    · refine ⟨_, rfl, .inr ?_⟩
      simp [hne, WorkerPc.left]
    · exact ⟨_, rfl, .inr (by simp [WorkerPc.left])⟩
  | compare =>
    simp only [workerStep]
    split
    · exact ⟨_, rfl, .inr (by simp [WorkerPc.left])⟩
    · exact ⟨_, rfl, .inr (by simp [WorkerPc.left])⟩
  | doIo => exact ⟨_, rfl, .inr (by simp [WorkerPc.left])⟩
  | postStop => exact ⟨_, rfl, .inl (Nat.succ_pos _)⟩
  | ready | stopped => cases hstop
  | unborn | resting | waiting | joined | ended =>
    rcases hph with hph | hph <;> cases hph

def MainPc.Awaits (pc : MainPc) (k : ℕ) : Prop := pc = .waitReady k ∨ pc = .waitStop k

theorem MainPc.Awaits.phase {pc : MainPc} {k : ℕ} (h : pc.Awaits k) :
    pc.phase k = .starting ∨ pc.phase k = .out := by
  rcases h with rfl | rfl
  · exact .inl (by simp [MainPc.phase])
  · exact .inr (by simp [MainPc.phase])

theorem MainPc.Awaits.unique {pc : MainPc} {j k : ℕ} (hj : pc.Awaits j) (hk : pc.Awaits k) :
    j = k := by
  rcases hj with rfl | rfl
  · rcases hk with hk | hk
    · exact MainPc.waitReady.inj hk
    · cases hk
  · rcases hk with hk | hk
    · cases hk
    · exact MainPc.waitStop.inj hk

theorem MainPc.Awaits.ne_exited {pc : MainPc} {k : ℕ} (h : pc.Awaits k) : pc ≠ .exited := by
  rcases h with rfl | rfl <;> nofun

/-- The steps that belong to worker `k`, until it has posted. -/
def ownStep (k : Fin N) (s : RoundState N) (a : RoundStep N) : Prop :=
  a = .worker k ∧ (s.worker k).stop = 0

/-- **The worker `main` waits for gets to its post by its own steps.** -/
theorem Rounds.posts {nfiles : ℕ} {s : RoundState (nworkers nfiles cp)} (h : Rounds cp s)
    {k : Fin (nworkers nfiles cp)} (hawait : s.main.Awaits k) :
    ∃ as t, Run (rounds nfiles cp) (ownStep k) s as t ∧ t.main = s.main ∧
      0 < (t.worker k).stop := by
  -- the way there is measured by `left`, which is done with when the post is made
  have hstep : ∀ u, Rounds cp u ∧ u.main = s.main → (u.worker k).stop = 0 →
      ∃ w, workerStep u.threads (threadid cp k) (u.worker k) = some w ∧
        (rounds nfiles cp).step (.worker k) u = some { u with worker := u.set k w } ∧
        (0 < w.stop ∨ w.pc.left < (u.worker k).pc.left) := by
    rintro u ⟨hu, hmain⟩ hstop
    have hph := (hmain ▸ hawait).phase
    have hne := hu.threads_ne (j := k) (by rcases hph with h | h <;> rw [h] <;> nofun)
    obtain ⟨w, hw, hleft⟩ := (hu.held k).progress hph hstop hne
    refine ⟨w, hw, ?_, hleft⟩
    show roundsStep cp (.worker k) u = _
    rw [roundsStep, if_neg (hmain ▸ hawait.ne_exited)]
    rw [hw]
    rfl
  have hnext : ∀ u a v, Rounds cp u ∧ u.main = s.main → ownStep k u a →
      (rounds nfiles cp).step a u = some v →
      (Rounds cp v ∧ v.main = s.main) ∧
        (0 < (v.worker k).stop ∨ (v.worker k).pc.left < (u.worker k).pc.left) := by
    rintro u _ v hu ⟨rfl, hstop⟩ hst
    obtain ⟨w, hw, heq, hleft⟩ := hstep u hu hstop
    obtain rfl : { u with worker := u.set k w } = v := Option.some.inj (heq.symm.trans hst)
    refine ⟨⟨hu.1.workerMoves hw, hu.2⟩, ?_⟩
    simpa [RoundState.set] using hleft
  have hfin : ∃ as t, Run (rounds nfiles cp) (ownStep k) s as t ∧ 0 < (t.worker k).stop :=
    Machine.finishes (I := fun u => Rounds cp u ∧ u.main = s.main)
      (μ := fun u => if 0 < (u.worker k).stop then 0 else (u.worker k).pc.left + 1)
      (fun u a v hu ha hst => (hnext u a v hu ha hst).1)
      (fun u a v hu ha hst => by
        have hpos := (hnext u a v hu ha hst).2
        have hzero := ha.2
        split <;> split <;> omega)
      (fun u hu hF => by
        obtain ⟨w, -, heq, -⟩ := hstep u hu (by omega)
        exact ⟨.worker k, _, ⟨rfl, by omega⟩, heq⟩)
      s ⟨h, rfl⟩
  obtain ⟨as, t, hrun, hpost⟩ := hfin
  have hmain := hrun.keeps (fun u a v hu ha hst => (hnext u a v hu ha hst).1) ⟨h, rfl⟩
  exact ⟨as, t, hrun, hmain.2, hpost⟩

/-! ## The rounds -/

/-- `main` has not left its loop over the numbers of threads. -/
def MainPc.InLoop : MainPc → Prop
  | .setZero | .postEnd _ | .exited => False
  | _ => True

/-- The steps that are neither another I/O nor another status report nor an exit. -/
def advances : RoundStep N → Prop
  | .main | .worker _ => True
  | .io _ | .fail _ | .status | .halt => False

theorem collect_isSome {w : Worker} (h : 0 < w.stop) : ∃ w', w.collect = some w' :=
  ⟨_, if_pos h⟩

/-- `main` itself can go on, unless it waits for a post that has not been made. -/
theorem mainStep_isSome (hloop : s.main.InLoop)
    (hpost : ∀ k : Fin N, s.main.Awaits k → 0 < (s.worker k).stop) :
    ∃ t, roundsStep cp .main s = some t := by
  have hlive : s.main ≠ .exited := by
    intro heq
    rw [heq] at hloop
    exact hloop
  rw [roundsStep, if_neg hlive]
  unfold mainStep
  cases hpc : s.main with
  | create k | postStart k =>
    dsimp only
    split <;> exact ⟨_, rfl⟩
  | waitReady k | waitStop k =>
    dsimp only
    split
    · rename_i hk
      have hawait : s.main.Awaits (⟨k, hk⟩ : Fin N) := by
        rw [hpc]
        first | exact .inl rfl | exact .inr rfl
      obtain ⟨w, hw⟩ := collect_isSome (hpost ⟨k, hk⟩ hawait)
      rw [hw]
      exact ⟨_, rfl⟩
    · exact ⟨_, rfl⟩
  | test | setThreads | reporting | summary => exact ⟨_, rfl⟩
  | setZero | postEnd k | exited =>
    rw [hpc] at hloop
    exact hloop.elim

/-- **No state of the loop is stuck.** When `main` waits, the worker it waits for has the token of
this round or has yet to take it, and nothing but its own I/Os is in front of its post. -/
theorem Rounds.progress (h : Rounds cp s) (hloop : s.main.InLoop) :
    ∃ a t, advances a ∧ roundsStep cp a s = some t := by
  by_cases hblocked : ∃ k : Fin N, s.main.Awaits k ∧ (s.worker k).stop = 0
  · obtain ⟨k, hawait, hstop⟩ := hblocked
    have hph := hawait.phase
    have hne := h.threads_ne (j := k) (by rcases hph with hp | hp <;> rw [hp] <;> nofun)
    obtain ⟨w, hw, -⟩ := (h.held k).progress hph hstop hne
    refine ⟨.worker k, { s with worker := s.set k w }, trivial, ?_⟩
    rw [roundsStep, if_neg hawait.ne_exited, hw]
    rfl
  · have hmain : ∃ t, roundsStep cp .main s = some t := mainStep_isSome hloop fun k hawait =>
      Nat.pos_of_ne_zero fun hz => hblocked ⟨k, hawait, hz⟩
    obtain ⟨t, ht⟩ := hmain
    exact ⟨.main, t, trivial, ht⟩

/-- **The round protocol is sound**, in every run that starts no round with zero threads. When
`main` writes the summary of a round of `i` threads, no worker is inside `do_io`; each has made
its comparison with this round's `i`, and has run `do_io` once if its `threadid` is below `i` and
not at all otherwise. Until `main` leaves the loop some thread can go on; and a worker that `main`
waits for needs only its own steps to make the post that lets `main` go on.

The condition is about the loop counter, an `int` that wraps: a worker that finds
`current->threads` at zero takes it for the end of the test and leaves its loop, and `main` would
wait for its post in the next round. Options that keep the counter from wrapping start no such
round (`startsNonzero_of_small`). -/
theorem rounds_sound {nfiles : ℕ} {s : RoundState (nworkers nfiles cp)}
    (h : (rounds nfiles cp).Reachable (startsNonzero cp) s) :
    (s.main = .summary → ∀ j, (s.worker j).pc ≠ .doIo) ∧
    (s.main = .summary → ∀ j, (s.worker j).seen = some s.i ∧
      (s.worker j).ran = if (threadid cp j : ℤ) < s.i.toInt then 1 else 0) ∧
    (s.main.InLoop → ∃ a t, advances a ∧ (rounds nfiles cp).step a s = some t) ∧
    ∀ k : Fin (nworkers nfiles cp), s.main.Awaits k →
      ∃ as t u, Run (rounds nfiles cp) (fun _ a => a = .worker k) s as t ∧
        (rounds nfiles cp).step .main t = some u := by
  have hr := rounds_of_reachable h
  have hjoined : s.main = .summary → ∀ j, Held (threadid cp j) s.i .joined (s.worker j) := by
    intro hmain j
    have hj := hr.held j
    rwa [hmain] at hj
  refine ⟨fun hmain j hpc => ?_, fun hmain j => ?_, hr.progress, fun k hawait => ?_⟩
  · have hj := hjoined hmain j
    generalize s.worker j = w at hj hpc
    cases hj with
    | joined hidle => rcases hidle with rfl | rfl <;> cases hpc
  · have hj := hjoined hmain j
    generalize s.worker j = w at hj
    cases hj with
    | joined hidle => exact ⟨rfl, rfl⟩
  · obtain ⟨as, t, hrun, hmain, hpost⟩ := hr.posts hawait
    have hloop : t.main.InLoop := by
      rw [hmain]
      rcases hawait with hpc | hpc <;> rw [hpc] <;> trivial
    have honly : ∀ j : Fin (nworkers nfiles cp), t.main.Awaits j → 0 < (t.worker j).stop := by
      intro j hj
      rw [hmain] at hj
      rwa [Fin.ext (hj.unique hawait)]
    have hnext : ∃ u, roundsStep cp .main t = some u := mainStep_isSome hloop honly
    obtain ⟨u, hu⟩ := hnext
    exact ⟨as, t, u, hrun.mono fun _ _ ha => ha.1, hu⟩

/-! ### Two workers -/

def twoStart (a b : Fin N) : List (RoundStep N) :=
  [.main, .main, .main, .worker a, .worker b, .main, .main, .main]

/-- A round up to `main`'s first wait; the workers test their loop after the count is set. -/
def twoRelease (a b : Fin N) : List (RoundStep N) :=
  [.main, .main, .worker a, .worker b, .main, .main, .main, .main]

/-- The rest of the round, in which a worker takes `na` or `nb` steps to its post. -/
def twoJoin (a b : Fin N) (na nb : ℕ) : List (RoundStep N) :=
  List.replicate na (.worker a) ++ List.replicate nb (.worker b) ++ [.main, .main, .main]

def oneOfTwo : CmdParams := { params with initthreads := 1, maxthreads := 2, incrthreads := 1 }

/-- A counter that goes from 2 over `-2147483647` to 0. -/
def wrapping : CmdParams :=
  { params with initthreads := 2, maxthreads := 2, incrthreads := 2147483647 }

/-- **A counter that comes to zero leaves `main` waiting for ever**: with `initthreads=2`,
`maxthreads=2` and `incrthreads=2147483647` the second sum wraps to zero, the workers take the
zero for the end, and `main` waits for a worker that is gone. -/
theorem rounds_stuck :
    ∃ s, (rounds 1 wrapping).Reachable always s ∧ s.main = .waitStop 0 ∧
      (s.worker ⟨0, by decide⟩).pc = .gone ∧ (s.worker ⟨0, by decide⟩).stop = 0 ∧
      ((rounds 1 wrapping).step .main s).isNone ∧
      ∀ j, ((rounds 1 wrapping).step (.worker j) s).isNone := by
  obtain ⟨s, hexec, h⟩ : ∃ s, (rounds 1 wrapping).exec
      (twoStart ⟨0, by decide⟩ ⟨1, by decide⟩ ++
        (twoRelease ⟨0, by decide⟩ ⟨1, by decide⟩ ++
          twoJoin ⟨0, by decide⟩ ⟨1, by decide⟩ 4 4 ++ [.main]) ++
        (twoRelease ⟨0, by decide⟩ ⟨1, by decide⟩ ++
          twoJoin ⟨0, by decide⟩ ⟨1, by decide⟩ 3 3 ++ [.main]) ++
        twoRelease ⟨0, by decide⟩ ⟨1, by decide⟩) (rounds 1 wrapping).init = some s ∧
      (s.main = .waitStop 0 ∧ (s.worker ⟨0, by decide⟩).pc = .gone ∧
      (s.worker ⟨0, by decide⟩).stop = 0 ∧
      ((rounds 1 wrapping).step .main s).isNone ∧
      ∀ j, ((rounds 1 wrapping).step (.worker j) s).isNone) := ⟨_, rfl, by decide⟩
  exact ⟨s, ⟨_, run_of_exec hexec⟩, h⟩

/-! ## When the counter does not wrap -/

/-- The counter while `main` is in its loop: at least one, and in a round at most
`maxthreads`. -/
def Counting (cp : CmdParams) (s : RoundState N) : Prop :=
  match s.main with
  | .test => 1 ≤ s.i.toInt
  | .setThreads | .postStart _ | .reporting | .waitStop _ | .summary =>
    1 ≤ s.i.toInt ∧ s.i.toInt ≤ cp.maxthreads.toInt
  | _ => True

theorem Counting.step (hinit : 1 ≤ cp.initthreads.toInt) (hincr : 1 ≤ cp.incrthreads.toInt)
    (hmax : cp.maxthreads.toInt + cp.incrthreads.toInt < 2 ^ 31) (h : Counting cp s)
    {a : RoundStep N} (hst : roundsStep cp a s = some t) : Counting cp t := by
  unfold roundsStep at hst
  split at hst
  · cases hst
  cases a with
  | worker j =>
    obtain ⟨w, -, rfl⟩ := Option.map_eq_some_iff.mp hst
    exact h
  | io j | status =>
    dsimp only at hst
    split at hst <;> cases hst
    exact h
  | fail j | halt =>
    dsimp only at hst
    split at hst <;> cases hst
    trivial
  | main =>
    unfold Counting at h
    cases mainMove_of_step hst with
    | create | created | collect | setZero | wake | ended => trivial
    | collected => exact hinit
    | test hpc =>
      rw [hpc] at h
      by_cases hle : s.i ≤ cp.maxthreads
      · rw [if_pos hle]
        exact ⟨h, Int32.le_iff_toInt_le.mp hle⟩
      · rw [if_neg hle]
        trivial
    | setThreads hpc | release hpc | released hpc | reported hpc | join hpc | joined hpc =>
      rw [hpc] at h
      exact h
    | summary hpc =>
      rw [hpc] at h
      have hsum : (s.i + cp.incrthreads).toInt = s.i.toInt + cp.incrthreads.toInt := by
        rw [Int32.toInt_add]
        exact Int.bmod_eq_of_le (by omega) (by omega)
      show 1 ≤ (s.i + cp.incrthreads).toInt
      rw [hsum]
      omega

/-- **Options that keep the counter from wrapping start no round with zero threads.** -/
theorem startsNonzero_of_small {nfiles : ℕ} (hinit : 1 ≤ cp.initthreads.toInt)
    (hincr : 1 ≤ cp.incrthreads.toInt)
    (hmax : cp.maxthreads.toInt + cp.incrthreads.toInt < 2 ^ 31)
    {s : RoundState (nworkers nfiles cp)} (h : (rounds nfiles cp).Reachable always s) :
    (rounds nfiles cp).Reachable (startsNonzero cp) s := by
  obtain ⟨as, hrun⟩ := h
  refine ⟨as, hrun.restrict (I := Counting cp)
    (fun u a v hu _ hst => hu.step hinit hincr hmax hst) (fun u a hu => ?_) trivial⟩
  cases a with
  | main =>
    intro hpc _ hz
    unfold Counting at hu
    rw [hpc, hz] at hu
    have hone : ¬ (1 : ℤ) ≤ (0 : Int32).toInt := by decide
    exact hone hu
  | worker j | io j | fail j | status | halt => trivial

/-- The first round of two workers: the first takes part, the second does not. -/
theorem rounds_sound_first :
    ∃ s, (rounds 1 oneOfTwo).Reachable (startsNonzero oneOfTwo) s ∧ s.main = .summary ∧
      (s.worker ⟨0, by decide⟩).ran = 1 ∧ (s.worker ⟨1, by decide⟩).ran = 0 := by
  obtain ⟨s, hexec, hmain, hi⟩ : ∃ s, (rounds 1 oneOfTwo).exec
      (twoStart ⟨0, by decide⟩ ⟨1, by decide⟩ ++ twoRelease ⟨0, by decide⟩ ⟨1, by decide⟩ ++
        twoJoin ⟨0, by decide⟩ ⟨1, by decide⟩ 4 3) (rounds 1 oneOfTwo).init = some s ∧
      s.main = .summary ∧ s.i = 1 := ⟨_, rfl, by decide⟩
  have hs := startsNonzero_of_small (by decide) (by decide) (by decide) ⟨_, run_of_exec hexec⟩
  have hround := (rounds_sound hs).2.1 hmain
  refine ⟨s, hs, hmain, ?_, ?_⟩
  · rw [(hround _).2, hi]
    decide
  · rw [(hround _).2, hi]
    decide

end Ioload
end Blockbench
