import Mathlib.Algebra.Ring.Basic
import Blockbench.Ioload.Params
import Blockbench.Ioload.Totals

/-!
# `Ioload/CpuTime.lean` — the CPU time of a report

A report prints the system and the user time since its interval began. `output` is given the
usage at the start of the round, and for a status report it takes instead the usage at the last
status report, which it keeps itself (`last`), unless it has never been called (`fpout`). The
interval of the throughputs is `runtest`'s: from the start of the round for the first status
report of it, and from the status report before for the others.

The summary of a round clears the counters of the last status report but not `last`. So from the
second round on the first status report counts from the last status report of an earlier
round, or from the start of the program when there was none, and it is right only if no CPU time
has passed between that and the start of the round (`cpu_time_iff`).

Clock and usage are inputs, and so is whether a summary halts the test, which is
`Ioload/Output.lean`'s. `began`, `first` and `reports` are not the program's.
-/

set_option autoImplicit false

namespace Blockbench
namespace Ioload

open Machine CInt

structure Timeval where
  tvSec : Int64
  tvUsec : Int64
  deriving DecidableEq, Repr

/-- `struct rusage`, as far as `output_times` reads it. -/
structure Rusage where
  stime : Timeval
  utime : Timeval
  deriving DecidableEq, Repr

def Rusage.zero : Rusage := ⟨⟨0, 0⟩, ⟨0, 0⟩⟩

/-- `us` of `output_times`, from `brp` to `rup`. -/
def cpuUs (b r : Timeval) : UInt64 :=
  ((r.tvSec - b.tvSec) * 1000000 + r.tvUsec - b.tvUsec).toUInt64

/-- A report: the times it prints, the usage it sampled, and the usage when its interval
began. -/
structure CpuReport where
  status : Bool
  system : UInt64
  user : UInt64
  began : Rusage
  ru : Rusage
  deriving DecidableEq

/-- It covers its interval. -/
def CpuReport.Right (r : CpuReport) : Prop :=
  r.system = cpuUs r.began.stime r.ru.stime ∧ r.user = cpuUs r.began.utime r.ru.utime

/-- The variables of `runtest` and the statics of `output`. -/
structure CpuState where
  phase : RunPhase
  i : Int32
  before : Rusage
  curtime : UInt64
  endinterval : UInt64
  fpout : Bool
  last : Rusage
  began : Rusage
  first : Bool
  reports : List CpuReport

/-- The start of a round, a status report and a summary, with the clock and the usage. -/
inductive CpuStep
  | round (before : Rusage) (now : UInt64)
  | status (now : UInt64) (ru : Rusage)
  | summary (ru : Rusage) (halt : Bool)

def cpuReport (brp ru : Rusage) (status : Bool) (s : CpuState) : CpuReport :=
  let brp := if s.fpout && status then s.last else brp
  { status := status
    system := cpuUs brp.stime ru.stime
    user := cpuUs brp.utime ru.utime
    began := s.began
    ru := ru }

def outputCpu (brp ru : Rusage) (status : Bool) (s : CpuState) : CpuState :=
  { s with
    fpout := true
    last := if status then ru else s.last
    reports := cpuReport brp ru status s :: s.reports }

/-- The tests of the loop over the status reports. -/
def moreStatus (cp : CmdParams) (s : CpuState) : Bool :=
  cp.status ≠ 0 && s.curtime + (cp.status.toUInt64 + 2) * nsecToSec < s.endinterval

/-- `runtest`, from the first round on. -/
def cpuTimes (cp : CmdParams) : Machine CpuState CpuStep where
  init :=
    { phase := .idle
      i := cp.initthreads
      before := .zero
      curtime := 0
      endinterval := 0
      fpout := false
      last := .zero
      began := .zero
      first := true
      reports := [] }
  step
    | .round before now, s =>
      if s.phase = .idle ∧ s.i ≤ cp.maxthreads then
        some { s with
          phase := .running
          before := before
          curtime := now
          endinterval := now + cp.warmup + cp.interval
          began := before
          first := true }
      else none
    | .status now ru, s =>
      if s.phase = .running ∧ moreStatus cp s then
        some { outputCpu s.before ru true s with curtime := now, began := ru, first := false }
      else none
    | .summary ru halt, s =>
      if s.phase = .running ∧ ¬ moreStatus cp s then
        -- the summary is of the whole round
        let s := outputCpu s.before ru false { s with began := s.before }
        if halt then some { s with phase := .exited }
        else some { s with phase := .idle, i := s.i + cp.incrthreads }
      else none

/-! ## When a report is right -/

def Timeval.micros (t : Timeval) : Int64 := t.tvSec * 1000000 + t.tvUsec

def Rusage.Same (a b : Rusage) : Prop :=
  a.stime.micros = b.stime.micros ∧ a.utime.micros = b.utime.micros

/-- The first status report of a round is the first report of all, or it finds in `last` the CPU
time at the start of the round. -/
def freshBase (s : CpuState) : CpuStep → Prop
  | .status _ _ => s.first = true → s.fpout = true → s.last.Same s.before
  | _ => True

/-- In a round, `began` is the sample of the round before the first status report and `last`
after it. -/
structure CpuState.Base (s : CpuState) : Prop where
  first : s.phase = .running → s.first = true → s.began = s.before
  later : s.phase = .running → s.first = false → s.fpout = true ∧ s.began = s.last

section Reports

variable {cp : CmdParams} {s t : CpuState} {a : CpuStep} {as : List CpuStep} {ru : Rusage}

theorem cpuUs_eq (b r : Timeval) : cpuUs b r = (r.micros - b.micros).toUInt64 := by
  have hdiff : (r.tvSec - b.tvSec) * 1000000 + r.tvUsec - b.tvUsec = r.micros - b.micros := by
    unfold Timeval.micros
    grind
  rw [cpuUs, hdiff]

/-- Two bases print the same time exactly when they are the same time. -/
theorem cpuUs_inj {b b' r : Timeval} : cpuUs b r = cpuUs b' r ↔ b.micros = b'.micros := by
  rw [cpuUs_eq, cpuUs_eq]
  constructor
  · intro h
    have hdiff : r.micros - b.micros = r.micros - b'.micros := by
      rw [← Int64.toInt64_toUInt64 (r.micros - b.micros), h, Int64.toInt64_toUInt64]
    grind
  · intro h
    rw [h]

theorem Rusage.Same.refl (a : Rusage) : a.Same a := ⟨rfl, rfl⟩

/-- A report is right exactly when its base is the usage at the start of its interval. -/
theorem right_iff {brp : Rusage} {status : Bool} : (cpuReport brp ru status s).Right ↔
    (if s.fpout && status then s.last else brp).Same s.began := by
  unfold CpuReport.Right cpuReport Rusage.Same
  dsimp only
  rw [cpuUs_inj, cpuUs_inj]

/-- **A status report is right exactly when `freshBase` says so.** Two bases print the same time
only when they are the same time, as the microseconds of a `timeval` tell it from every other one
(`cpuUs_inj`). -/
theorem status_right_iff (h : s.Base) (hrun : s.phase = .running) (now : UInt64) :
    (cpuReport s.before ru true s).Right ↔ freshBase s (.status now ru) := by
  rw [right_iff, Bool.and_true]
  unfold freshBase
  by_cases hfirst : s.first = true
  · rw [h.first hrun hfirst]
    by_cases hout : s.fpout = true
    · simp [hfirst, hout]
    · simp [hout, Rusage.Same.refl]
  · obtain ⟨hout, hlast⟩ := h.later hrun (Bool.eq_false_iff.mpr hfirst)
    simp [hfirst, hout, hlast, Rusage.Same.refl]

/-! ## Runs -/

def CpuState.StatusRight (s : CpuState) : Prop := ∀ r ∈ s.reports, r.status = true → r.Right

/-- **What a step adds**: the reports are right after it if they were before it and the step meets
the condition. -/
theorem step_right_iff (h : s.Base) (hst : (cpuTimes cp).step a s = some t) :
    t.StatusRight ↔ s.StatusRight ∧ freshBase s a := by
  have hcons : ∀ r : CpuReport, (∀ r' ∈ r :: s.reports, r'.status = true → r'.Right) ↔
      (r.status = true → r.Right) ∧ s.StatusRight := by
    intro r
    rw [List.forall_mem_cons]
    rfl
  cases a with
  | round before now =>
    obtain ⟨-, rfl⟩ := Option.ite_some_none_eq_some.mp hst
    exact (and_iff_left trivial).symm
  | status now ru =>
    obtain ⟨⟨hrun, -⟩, rfl⟩ := Option.ite_some_none_eq_some.mp hst
    refine (hcons _).trans ?_
    rw [and_comm, ← status_right_iff h hrun now]
    exact and_congr_right fun _ => forall_prop_of_true rfl
  | summary ru halt =>
    have hreports : t.reports = cpuReport s.before ru false { s with began := s.before } ::
        s.reports := by
      unfold cpuTimes at hst
      dsimp only at hst
      split at hst
      case isTrue =>
        split at hst
        all_goals
          cases hst
          rfl
      case isFalse => cases hst
    unfold CpuState.StatusRight
    rw [hreports]
    refine (hcons _).trans ?_
    rw [and_comm]
    exact and_congr_right fun _ => iff_of_true nofun trivial

theorem base_of_step (hst : (cpuTimes cp).step a s = some t) : t.Base := by
  cases a with
  | round before now =>
    obtain ⟨-, rfl⟩ := Option.ite_some_none_eq_some.mp hst
    exact ⟨fun _ _ => rfl, fun _ hfirst => absurd hfirst.symm Bool.false_ne_true⟩
  | status now ru =>
    obtain ⟨-, rfl⟩ := Option.ite_some_none_eq_some.mp hst
    exact ⟨fun _ hfirst => absurd hfirst Bool.false_ne_true, fun _ _ => ⟨rfl, rfl⟩⟩
  | summary ru halt =>
    have hphase : t.phase ≠ .running := by
      unfold cpuTimes at hst
      dsimp only at hst
      split at hst
      case isTrue =>
        split at hst
        all_goals
          cases hst
          exact nofun
      case isFalse => cases hst
    exact ⟨fun hrun => absurd hrun hphase, fun hrun => absurd hrun hphase⟩

theorem cpuTimes_base : (cpuTimes cp).init.Base :=
  have hidle : RunPhase.idle ≠ .running := nofun
  ⟨fun hrun => absurd hrun hidle, fun hrun => absurd hrun hidle⟩

theorem right_of_fresh (h : Run (cpuTimes cp) freshBase (cpuTimes cp).init as s) :
    s.StatusRight := by
  have hall := h.keeps (I := fun s => s.Base ∧ s.StatusRight)
    (fun s a t ⟨hbase, hright⟩ hok hst =>
      ⟨base_of_step hst, (step_right_iff hbase hst).mpr ⟨hright, hok⟩⟩)
    ⟨cpuTimes_base, fun r hr => absurd hr List.not_mem_nil⟩
  exact hall.2

theorem fresh_of_right (h : Run (cpuTimes cp) always (cpuTimes cp).init as s)
    (hright : s.StatusRight) : Run (cpuTimes cp) freshBase (cpuTimes cp).init as s := by
  induction h with
  | nil => exact .nil
  | snoc hrun _ hst ih =>
    have hbase := hrun.keeps (fun _ _ _ _ _ hst => base_of_step hst) cpuTimes_base
    obtain ⟨hbefore, hok⟩ := (step_right_iff hbase hst).mp hright
    exact (ih hbefore).snoc hok hst

end Reports

/-- **When the CPU times of a run cover their intervals**: exactly when the first status report of
each round is the first report of all, or finds in `last` the CPU time at the start of the round.

The other reports are right by themselves. A later status report of a round starts from the one
before it, which is what `last` holds, and a summary starts from the usage it is passed. Only the
first status report of a round reads a `last` that was stored in another round. -/
theorem cpu_time_iff {cp : CmdParams} {as : List CpuStep} {s : CpuState}
    (h : Run (cpuTimes cp) always (cpuTimes cp).init as s) :
    (∀ r ∈ s.reports, r.status = true → r.Right) ↔
      Run (cpuTimes cp) freshBase (cpuTimes cp).init as s :=
  ⟨fresh_of_right h, right_of_fresh⟩

/-- One status report for each round of four seconds, with one and two threads. -/
def shortRounds : CmdParams :=
  { params with
    warmup := 0
    interval := 4 * nsecToSec
    status := 1
    initthreads := 1
    maxthreads := 2
    incrthreads := 1 }

/-- A usage of so many milliseconds of system and of user time. -/
def usage (system user : Int64) : Rusage := ⟨⟨0, system * 1000⟩, ⟨0, user * 1000⟩⟩

/-- The first round of it, with a status report after a second. -/
def roundOne : List CpuStep :=
  [.round (usage 1 2) 1000000000, .status 2000000000 (usage 11 22), .summary (usage 41 82) false]

/-- The second round up to its status report. -/
def roundTwo : List CpuStep :=
  [.round (usage 41 82) 6000000000, .status 7000000000 (usage 51 102)]

def afterOne : CpuState where
  phase := .idle
  i := 2
  before := usage 1 2
  curtime := 2000000000
  endinterval := 5000000000
  fpout := true
  last := usage 11 22
  began := usage 1 2
  first := false
  reports := [⟨false, 40000, 80000, usage 1 2, usage 41 82⟩,
    ⟨true, 10000, 20000, usage 1 2, usage 11 22⟩]

def afterTwo : CpuState where
  phase := .running
  i := 2
  before := usage 41 82
  curtime := 7000000000
  endinterval := 10000000000
  fpout := true
  last := usage 51 102
  began := usage 51 102
  first := false
  reports := ⟨true, 40000, 80000, usage 41 82, usage 51 102⟩ :: afterOne.reports

theorem exec_roundOne :
    (cpuTimes shortRounds).exec roundOne (cpuTimes shortRounds).init = some afterOne := by
  rfl

theorem exec_roundTwo : (cpuTimes shortRounds).exec roundTwo afterOne = some afterTwo := by
  rfl

theorem cpu_time_first : Run (cpuTimes shortRounds) freshBase (cpuTimes shortRounds).init
    roundOne afterOne := by
  refine (cpu_time_iff (run_of_exec exec_roundOne)).mp ?_
  intro r hr hstatus
  obtain rfl | hr := List.mem_cons.mp hr
  · cases hstatus
  · obtain rfl := List.mem_singleton.mp hr
    exact ⟨rfl, rfl⟩

/-- The status report of the second round prints the 40 and 80 ms since that of the first. -/
theorem cpu_time_stale : ¬ ∀ (cp : CmdParams) (as : List CpuStep) (s : CpuState),
    Run (cpuTimes cp) always (cpuTimes cp).init as s →
    ∀ r ∈ s.reports, r.status = true → r.Right := by
  intro h
  have hrun := (run_of_exec exec_roundOne).trans (run_of_exec exec_roundTwo)
  obtain ⟨hsystem, -⟩ := h _ _ _ hrun _ List.mem_cons_self rfl
  exact absurd hsystem (by decide)

end Ioload
end Blockbench
