import Blockbench.Lib.Machine
import Blockbench.Ioload.Init

/-!
# `Ioload/Rounds.lean` — the rounds of `runtest`

`main` runs one round for each number of threads, and its workers — `maxthreads` for each file,
all of them in every round — go round a loop of their own. The two sides meet in the semaphores
`start` and `stop` of each worker and in `current->threads`, which `main` rewrites between the
rounds and a worker reads twice a turn, without a lock: in the test of its loop, and in the
comparison that decides whether it takes part.

What keeps this together is that one token goes round for each worker. It is in `start` when
`main` has released the worker, with the worker from its wait to its post, in `stop` until
`main` collects it, and with `main` the rest of the time. `Held` is the table of these states:
where `main` is says which rows are possible (`MainPc.phase`). A worker can read
`current->threads` in its comparison only while it holds the token, which is when `main` has
set it for the round; and the test of the loop, which it may make at any time, only asks
whether it is zero.

The loop counter is an `int` and `i += incrthreads` is not checked: it can wrap. The model wraps
it. `ran` and `seen` are not the program's: they record how often a worker has entered `do_io`
in this round, and what its comparison read.
-/

set_option autoImplicit false

namespace Blockbench
namespace Ioload

/-! ## The program points -/

/-- `runtest`, at worker `k` of a loop over all files and their threads, or at a statement
between the loops. `summary` is the call `output(…, 0)`. -/
inductive MainPc
  | create (k : ℕ)
  | waitReady (k : ℕ)
  | test
  | setThreads
  | postStart (k : ℕ)
  | reporting
  | waitStop (k : ℕ)
  | summary
  | setZero
  | postEnd (k : ℕ)
  | exited
  deriving DecidableEq

/-- `io_thread`. -/
inductive WorkerPc
  | unborn
  | begin
  | loopTest
  | waitStart
  | compare
  | doIo
  | postStop
  | gone
  deriving DecidableEq

structure Worker where
  pc : WorkerPc
  start : ℕ
  stop : ℕ
  ran : ℕ
  seen : Option Int32
  deriving DecidableEq

/-- `threads` is `current->threads`, `i` the counter of `main`'s loop. -/
structure RoundState (N : ℕ) where
  main : MainPc
  i : Int32
  threads : Int32
  worker : Fin N → Worker

/-- `main` and the workers take their next steps; `io` is another I/O inside `do_io`, `fail`
one that ends the program; `status` is another `output(…, 1)`, and `halt` is `exit(3)` in
`output(…, 0)`. -/
inductive RoundStep (N : ℕ)
  | main
  | worker (j : Fin N)
  | io (j : Fin N)
  | fail (j : Fin N)
  | status
  | halt

/-! ## The steps -/

/-- `iob_sema_wait(&itp->stop)`: it blocks at zero. -/
def Worker.collect (w : Worker) : Option Worker :=
  if 0 < w.stop then some { w with stop := w.stop - 1 } else none

/-- `iob_sema_post(&itp->start)`. -/
def Worker.release (w : Worker) : Worker := { w with start := w.start + 1 }

/-- What a worker has done this round is forgotten at the start of the next. -/
def Worker.forget (w : Worker) : Worker := { w with ran := 0, seen := none }

/-- `io_thread`. -/
def workerStep (threads : Int32) (threadid : ℕ) (w : Worker) : Option Worker :=
  match w.pc with
  | .unborn => none
  | .begin => some { w with pc := .loopTest, stop := w.stop + 1 }
  | .loopTest => some { w with pc := if threads ≠ 0 then .waitStart else .gone }
  | .waitStart => if 0 < w.start then some { w with pc := .compare, start := w.start - 1 } else none
  | .compare =>
    if (threadid : ℤ) < threads.toInt then
      some { w with pc := .doIo, ran := w.ran + 1, seen := some threads }
    else some { w with pc := .postStop, seen := some threads }
  | .doIo => some { w with pc := .postStop }
  | .postStop => some { w with pc := .loopTest, stop := w.stop + 1 }
  | .gone => none

variable {N : ℕ}

def RoundState.set (s : RoundState N) (j : Fin N) (w : Worker) : Fin N → Worker :=
  Function.update s.worker j w

/-- `runtest`. -/
def mainStep (cp : CmdParams) (s : RoundState N) : Option (RoundState N) :=
  match s.main with
  | .create k =>
    if h : k < N then
      some { s with
        main := .create (k + 1)
        worker := s.set ⟨k, h⟩ { s.worker ⟨k, h⟩ with pc := .begin } }
    else some { s with main := .waitReady 0 }
  | .waitReady k =>
    if h : k < N then do
      let w ← (s.worker ⟨k, h⟩).collect
      return { s with main := .waitReady (k + 1), worker := s.set ⟨k, h⟩ w }
    else some { s with main := .test, i := cp.initthreads }
  | .test => some { s with main := if s.i ≤ cp.maxthreads then .setThreads else .setZero }
  | .setThreads =>
    some { s with
      main := .postStart 0
      threads := s.i
      worker := fun j => (s.worker j).forget }
  | .postStart k =>
    if h : k < N then
      some { s with
        main := .postStart (k + 1)
        worker := s.set ⟨k, h⟩ (s.worker ⟨k, h⟩).release }
    else some { s with main := .reporting }
  | .reporting => some { s with main := .waitStop 0 }
  | .waitStop k =>
    if h : k < N then do
      let w ← (s.worker ⟨k, h⟩).collect
      return { s with main := .waitStop (k + 1), worker := s.set ⟨k, h⟩ w }
    else some { s with main := .summary }
  | .summary => some { s with main := .test, i := s.i + cp.incrthreads }
  | .setZero => some { s with main := .postEnd 0, threads := 0 }
  | .postEnd k =>
    if h : k < N then
      some { s with
        main := .postEnd (k + 1)
        worker := s.set ⟨k, h⟩ (s.worker ⟨k, h⟩).release }
    else some { s with main := .exited }
  | .exited => none

/-- The `threadid` of a worker: its number among the `maxthreads` of its file. -/
def threadid (cp : CmdParams) (j : Fin N) : ℕ := j % cp.maxthreads.toInt.toNat

/-- The program with `N` workers. When it has exited nothing runs any more. -/
def roundsStep (cp : CmdParams) (a : RoundStep N) (s : RoundState N) : Option (RoundState N) :=
  if s.main = .exited then none
  else match a with
    | .main => mainStep cp s
    | .worker j =>
      (workerStep s.threads (threadid cp j) (s.worker j)).map fun w =>
        { s with worker := s.set j w }
    | .io j => if (s.worker j).pc = .doIo then some s else none
    | .fail j => if (s.worker j).pc = .doIo then some { s with main := .exited } else none
    | .status => if s.main = .reporting then some s else none
    | .halt => if s.main = .summary then some { s with main := .exited } else none

abbrev nworkers (nfiles : ℕ) (cp : CmdParams) : ℕ := nfiles * cp.maxthreads.toInt.toNat

def rounds (nfiles : ℕ) (cp : CmdParams) :
    Machine (RoundState (nworkers nfiles cp)) (RoundStep (nworkers nfiles cp)) where
  init :=
    { main := .create 0
      i := 0
      threads := 1
      worker := fun _ => ⟨.unborn, 0, 0, 0, none⟩ }
  step := roundsStep cp

/-- The branches of `runtest`, with what each one found. -/
inductive MainMove (cp : CmdParams) (s : RoundState N) : RoundState N → Prop
  | create {k : ℕ} (hpc : s.main = .create k) (hk : k < N) :
      MainMove cp s { s with
        main := .create (k + 1)
        worker := s.set ⟨k, hk⟩ { s.worker ⟨k, hk⟩ with pc := .begin } }
  | created {k : ℕ} (hpc : s.main = .create k) (hk : ¬ k < N) :
      MainMove cp s { s with main := .waitReady 0 }
  | collect {k : ℕ} {w : Worker} (hpc : s.main = .waitReady k) (hk : k < N)
      (hw : (s.worker ⟨k, hk⟩).collect = some w) :
      MainMove cp s { s with main := .waitReady (k + 1), worker := s.set ⟨k, hk⟩ w }
  | collected {k : ℕ} (hpc : s.main = .waitReady k) (hk : ¬ k < N) :
      MainMove cp s { s with main := .test, i := cp.initthreads }
  | test (hpc : s.main = .test) :
      MainMove cp s { s with main := if s.i ≤ cp.maxthreads then .setThreads else .setZero }
  | setThreads (hpc : s.main = .setThreads) :
      MainMove cp s { s with
        main := .postStart 0
        threads := s.i
        worker := fun j => (s.worker j).forget }
  | release {k : ℕ} (hpc : s.main = .postStart k) (hk : k < N) :
      MainMove cp s { s with
        main := .postStart (k + 1)
        worker := s.set ⟨k, hk⟩ (s.worker ⟨k, hk⟩).release }
  | released {k : ℕ} (hpc : s.main = .postStart k) (hk : ¬ k < N) :
      MainMove cp s { s with main := .reporting }
  | reported (hpc : s.main = .reporting) : MainMove cp s { s with main := .waitStop 0 }
  | join {k : ℕ} {w : Worker} (hpc : s.main = .waitStop k) (hk : k < N)
      (hw : (s.worker ⟨k, hk⟩).collect = some w) :
      MainMove cp s { s with main := .waitStop (k + 1), worker := s.set ⟨k, hk⟩ w }
  | joined {k : ℕ} (hpc : s.main = .waitStop k) (hk : ¬ k < N) :
      MainMove cp s { s with main := .summary }
  | summary (hpc : s.main = .summary) :
      MainMove cp s { s with main := .test, i := s.i + cp.incrthreads }
  | setZero (hpc : s.main = .setZero) :
      MainMove cp s { s with main := .postEnd 0, threads := 0 }
  | wake {k : ℕ} (hpc : s.main = .postEnd k) (hk : k < N) :
      MainMove cp s { s with
        main := .postEnd (k + 1)
        worker := s.set ⟨k, hk⟩ (s.worker ⟨k, hk⟩).release }
  | ended {k : ℕ} (hpc : s.main = .postEnd k) (hk : ¬ k < N) :
      MainMove cp s { s with main := .exited }

theorem mainMove_of_step {cp : CmdParams} {s t : RoundState N} (hst : mainStep cp s = some t) :
    MainMove cp s t := by
  unfold mainStep at hst
  split at hst
  · rename_i k hpc
    split at hst
    · rename_i hk
      cases hst
      exact .create hpc hk
    · rename_i hk
      cases hst
      exact .created hpc hk
  · rename_i k hpc
    split at hst
    · rename_i hk
      obtain ⟨w, hw, hst⟩ := Option.bind_eq_some_iff.mp hst
      cases hst
      exact .collect hpc hk hw
    · rename_i hk
      cases hst
      exact .collected hpc hk
  · rename_i hpc
    cases hst
    exact .test hpc
  · rename_i hpc
    cases hst
    exact .setThreads hpc
  · rename_i k hpc
    split at hst
    · rename_i hk
      cases hst
      exact .release hpc hk
    · rename_i hk
      cases hst
      exact .released hpc hk
  · rename_i hpc
    cases hst
    exact .reported hpc
  · rename_i k hpc
    split at hst
    · rename_i hk
      obtain ⟨w, hw, hst⟩ := Option.bind_eq_some_iff.mp hst
      cases hst
      exact .join hpc hk hw
    · rename_i hk
      cases hst
      exact .joined hpc hk
  · rename_i hpc
    cases hst
    exact .summary hpc
  · rename_i hpc
    cases hst
    exact .setZero hpc
  · rename_i k hpc
    split at hst
    · rename_i hk
      cases hst
      exact .wake hpc hk
    · rename_i hk
      cases hst
      exact .ended hpc hk
  · cases hst

/-! ## The token -/

inductive Phase
  | unborn
  | starting
  | resting
  | waiting
  | out
  | joined
  | ended
  deriving DecidableEq

/-- Where `main` is says how far it is with worker `j`. -/
def MainPc.phase : MainPc → ℕ → Phase
  | .create k, j => if j < k then .starting else .unborn
  | .waitReady k, j => if j < k then .resting else .starting
  | .test, _ | .setThreads, _ => .resting
  | .postStart k, j => if j < k then .out else .waiting
  | .reporting, _ => .out
  | .waitStop k, j => if j < k then .joined else .out
  | .summary, _ => .joined
  | .setZero, _ | .postEnd _, _ | .exited, _ => .ended

def WorkerPc.Idle (pc : WorkerPc) : Prop := pc = .loopTest ∨ pc = .waitStart

/-- How often a worker runs `do_io` in a round of `i` threads. -/
def due (threadid : ℕ) (i : Int32) : ℕ := if (threadid : ℤ) < i.toInt then 1 else 0

/-- Where the token of a worker can be, in each phase of `main`. -/
inductive Held (threadid : ℕ) (i : Int32) : Phase → Worker → Prop
  | unborn {r o} : Held threadid i .unborn ⟨.unborn, 0, 0, r, o⟩
  | starting {r o} : Held threadid i .starting ⟨.begin, 0, 0, r, o⟩
  | ready {pc r o} (h : pc.Idle) : Held threadid i .starting ⟨pc, 0, 1, r, o⟩
  | resting {pc r o} (h : pc.Idle) : Held threadid i .resting ⟨pc, 0, 0, r, o⟩
  | waiting {pc} (h : pc.Idle) : Held threadid i .waiting ⟨pc, 0, 0, 0, none⟩
  | released {pc} (h : pc.Idle) : Held threadid i .out ⟨pc, 1, 0, 0, none⟩
  | compare : Held threadid i .out ⟨.compare, 0, 0, 0, none⟩
  | doIo (h : (threadid : ℤ) < i.toInt) : Held threadid i .out ⟨.doIo, 0, 0, 1, some i⟩
  | postStop : Held threadid i .out ⟨.postStop, 0, 0, due threadid i, some i⟩
  | stopped {pc} (h : pc.Idle) : Held threadid i .out ⟨pc, 0, 1, due threadid i, some i⟩
  | joined {pc} (h : pc.Idle) : Held threadid i .joined ⟨pc, 0, 0, due threadid i, some i⟩
  | ended (w) : Held threadid i .ended w

section Moves

variable {tid : ℕ} {i i' threads : Int32} {ph : Phase} {w w' : Worker}

/-! ### `main`'s moves -/

theorem Held.create (h : Held tid i .unborn w) :
    Held tid i .starting { w with pc := .begin } := by
  cases h
  exact .starting

theorem Held.collectReady (h : Held tid i .starting w) (hw : w.collect = some w') :
    Held tid i .resting w' := by
  cases h with
  | starting => cases hw
  | ready hidle =>
    cases hw
    exact .resting hidle

theorem Held.forget (h : Held tid i .resting w) : Held tid i' .waiting w.forget := by
  cases h with
  | resting hidle => exact .waiting hidle

theorem Held.release (h : Held tid i .waiting w) : Held tid i .out w.release := by
  cases h with
  | waiting hidle => exact .released hidle

theorem Held.collectStop (h : Held tid i .out w) (hw : w.collect = some w') :
    Held tid i .joined w' := by
  cases h with
  | released | compare | doIo | postStop => cases hw
  | stopped hidle =>
    cases hw
    exact .joined hidle

theorem Held.rest (h : Held tid i .joined w) : Held tid i' .resting w := by
  cases h with
  | joined hidle => exact .resting hidle

theorem Held.recount (h : Held tid i .resting w) : Held tid i' .resting w := by
  cases h with
  | resting hidle => exact .resting hidle

/-! ### The worker's moves -/

/-- Between its post and its wait a worker can only pass the test of its loop, or take the
token. -/
theorem idle_step {pc : WorkerPc} {a b r : ℕ} {o : Option Int32} (hidle : pc.Idle)
    (hne : threads ≠ 0) (hst : workerStep threads tid ⟨pc, a, b, r, o⟩ = some w') :
    w' = ⟨.waitStart, a, b, r, o⟩ ∨ 0 < a ∧ w' = ⟨.compare, a - 1, b, r, o⟩ := by
  rcases hidle with rfl | rfl
  · simp only [workerStep, if_pos hne, Option.some.injEq] at hst
    exact .inl hst.symm
  · simp only [workerStep] at hst
    split at hst
    · cases hst
      exact .inr ⟨‹_›, rfl⟩
    · cases hst

/-- **A worker's step keeps its token**, if the shared count is not zero and, while the token
is out, is this round's. -/
theorem Held.step (h : Held tid i ph w) (hne : ph ≠ .ended → threads ≠ 0)
    (hout : ph = .out → threads = i) (hst : workerStep threads tid w = some w') :
    Held tid i ph w' := by
  have hwait : WorkerPc.waitStart.Idle := .inr rfl
  have htest : WorkerPc.loopTest.Idle := .inl rfl
  cases h with
  | unborn => cases hst
  | starting =>
    cases hst
    exact .ready htest
  | ready hidle =>
    rcases idle_step hidle (hne nofun) hst with rfl | ⟨hpos, -⟩
    · exact .ready hwait
    · exact absurd hpos (lt_irrefl 0)
  | resting hidle =>
    rcases idle_step hidle (hne nofun) hst with rfl | ⟨hpos, -⟩
    · exact .resting hwait
    · exact absurd hpos (lt_irrefl 0)
  | waiting hidle =>
    rcases idle_step hidle (hne nofun) hst with rfl | ⟨hpos, -⟩
    · exact .waiting hwait
    · exact absurd hpos (lt_irrefl 0)
  | released hidle =>
    rcases idle_step hidle (hne nofun) hst with rfl | ⟨-, rfl⟩
    · exact .released hwait
    · exact .compare
  | compare =>
    -- the comparison reads the count of this round
    obtain rfl := hout rfl
    simp only [workerStep] at hst
    split at hst
    · cases hst
      exact .doIo ‹_›
    · rename_i hnot
      cases hst
      have hdue : due tid threads = 0 := if_neg hnot
      have hpost : Held tid threads .out ⟨.postStop, 0, 0, due tid threads, some threads⟩ :=
        .postStop
      rwa [hdue] at hpost
  | doIo hlt =>
    cases hst
    have hdue : due tid i = 1 := if_pos hlt
    have hpost : Held tid i .out ⟨.postStop, 0, 0, due tid i, some i⟩ := .postStop
    rwa [hdue] at hpost
  | postStop =>
    cases hst
    exact .stopped htest
  | stopped hidle =>
    rcases idle_step hidle (hne nofun) hst with rfl | ⟨hpos, -⟩
    · exact .stopped hwait
    · exact absurd hpos (lt_irrefl 0)
  | joined hidle =>
    rcases idle_step hidle (hne nofun) hst with rfl | ⟨hpos, -⟩
    · exact .joined hwait
    · exact absurd hpos (lt_irrefl 0)
  | ended => exact .ended _

end Moves

end Ioload
end Blockbench
