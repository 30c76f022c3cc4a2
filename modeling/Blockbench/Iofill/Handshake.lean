import Blockbench.Iofill.Barrier
import Blockbench.Iofill.Fill
import Blockbench.Iofill.WriteInject

/-!
# `Iofill/Handshake.lean` — `io_stop` and `io_restart`

`Iofill/Fill.lean` has the loop of `io_thread` without the body of `do_write_inject`. Here it is
with it: the look at the clock at the top of the loop, the look at `iowait` behind it with the
post and the wait that follow, and the burst of `Iofill/WriteInject.lean` between `io_stop` and
`io_restart`. The rest of the loop is `fill`'s own step, so the state holds a `FillState` and, for
each thread, its `Place` in what is added.

`iostart` and `iostop` are never initialised; `iob_malloc` has zeroed them.

The clock, the draws and what a system call did are inputs, as in `fill`.
-/

set_option autoImplicit false

namespace Blockbench
namespace Iofill

open CInt

/-! ## The machine -/

/-- The two calls of `do_write_inject`, with what the loop goes on with behind the call. -/
inductive Site
  | timer
  | number (ftotBno rand nextbno : UInt64)
  deriving DecidableEq

/-- Where a thread is. In `loop` it is where `fill` says it is; `stop` and `restart` are the loops
of `io_stop` and `io_restart`, at thread `k`. -/
inductive Place
  | top
  | check
  | answer
  | parked
  | loop
  | stop (site : Site) (flush : Bool) (k : ℕ)
  | inject (site : Site) (todo : List InjectOp)
  | injectIo (site : Site) (todo : List InjectOp)
  | restart (site : Site) (k : ℕ)
  deriving DecidableEq

/-- `injected` is bookkeeping: what the bursts have passed to `io_start`, newest first. -/
structure InjectState (T : ℕ) where
  fill : FillState T
  place : Fin T → Place
  next : Fin T → UInt64
  nextflush : Fin T → UInt64
  seg : Fin T → Segments
  iowait : Bool
  iostart : Fin T → ℕ
  iostop : Fin T → ℕ
  injected : List InjectOp

inductive InjectAct (T : ℕ)
  | top (i : Fin T) (curtime : UInt64)
  | check (i : Fin T)
  | answer (i : Fin T)
  | wake (i : Fin T)
  | loop (a : Act T)
  | ioStop (i : Fin T) (draws : BurstDraws)
  | request (i : Fin T) (rand : UInt64)
  | recovered (i : Fin T)
  | finish (i : Fin T) (r : IoResult)
  | ioRestart (i : Fin T)

variable {T : ℕ}

def Act.thread : Act T → Fin T
  | .inject i | .claim i _ _ | .issue i _ | .finish i _ | .bottom i => i

/-- `ithreadinit` leaves the flushes to thread 0. -/
def injectParams (ip : InjectParams) (threadid : ℕ) : InjectParams :=
  if threadid ≠ 0 then { ip with flush := .off } else ip

/-- `rp->detail` for a request of a burst; `rand` is what a recovery read draws. -/
def injectRequest (ip : InjectParams) (itp : IoThread) (pflushnum : Int32) (rand : UInt64)
    (d : Iodet) : InjectOp → Iodet
  | .write _ ionum offset =>
    { d with
      ionum := ionum.toUInt32, type := .write, size := ip.writesize.toUInt32, offset := offset
      dtype := .uncompressible }
  | .flush ionum writenum =>
    { d with ionum := ionum.toUInt32, type := .flush, size := 0, offset := u64OfI32 writenum }
  | .recover =>
    { d with
      ionum := pflushnum.toUInt32, type := .postflush, size := itp.params.size.toUInt32
      offset := itp.params.minoff + rand * u64OfI32 ip.flushalign % itp.rangeoff }
  | .recoverStart => d

/-- Go on behind the call of `do_write_inject`. -/
def Site.resume (site : Site) (l : LoopState) : LoopState :=
  match site with
  | .timer => { l with pc := .claim }
  | .number ftotBno rand nextbno =>
    let p := l.itp.params
    let bno := selectBno p ftotBno rand nextbno
    { l with
      injbno := l.injbno + 1
      pc := if bno = 0 ∧ p.headersz ≠ 0 then .header ftotBno bno else .block ftotBno bno }

def Site.next : Site → Place
  | .timer => .check
  | .number _ _ _ => .loop

def InjectState.go (s : InjectState T) (i : Fin T) (pl : Place) : InjectState T :=
  { s with place := Function.update s.place i pl }

/-- Call `do_write_inject`; `io_stop` begins by setting `iowait`. -/
def InjectState.enter (s : InjectState T) (i : Fin T) (site : Site) (flush : Bool) :
    InjectState T :=
  { s.go i (.stop site flush 0) with iowait := true }

def injectFinish (totalio endtime : UInt64) (i : Fin T) (r : IoResult) (f : FillState T) :
    FillState T :=
  match ioFinish endtime (f.thread i).itp (f.thread i).detail r with
  | .exit => { f with exited := true }
  | .ret itp idp stop _ =>
    { f.set i { f.thread i with itp := itp, detail := idp } with
      threadBno := if stop then f.threadBno + totalio else f.threadBno
      stops := if stop then Function.update f.stops i (f.stops i + 1) else f.stops }

/-- The clock at the top of the loop. -/
def topStep (ip : InjectParams) (i : Fin T) (curtime : UInt64) (s : InjectState T) :
    InjectState T :=
  if s.next i ≤ curtime ∧ (s.fill.thread i).itp.params.writeinject ≠ 0 then
    let flush := decide (s.nextflush i < curtime)
    { s.enter i .timer flush with
      fill := s.fill.set i { s.fill.thread i with pc := .inject }
      next := Function.update s.next i (curtime + ip.injectinterval)
      nextflush :=
        if flush then Function.update s.nextflush i (curtime + ip.flushinterval)
        else s.nextflush }
  else s.go i .check

/-- What follows a step of the fill that leads to `f`. -/
def loopStep (s : InjectState T) (f : FillState T) : Act T → InjectState T
  | .claim i rand nextbno =>
    if (f.thread i).pc = .inject then
      { s.enter i (.number s.fill.threadBno rand nextbno) true with fill := f }
    else { s with fill := f }
  | .bottom i => { s.go i .top with fill := f }
  | _ => { s with fill := f }

/-- `io_stop`, and the choice of the burst behind it. -/
def ioStop (ip : InjectParams) (i : Fin T) (draws : BurstDraws) (s : InjectState T) :
    Option (InjectState T) :=
  match s.place i with
  | .stop site flush k =>
    if h : k < T then
      if k = i then some (s.go i (.stop site flush (k + 1)))
      else do
        return { s.go i (.stop site flush (k + 1)) with iostop := ← semaWait s.iostop ⟨k, h⟩ }
    else
      let b := doWriteInject (s.fill.thread i).itp.params (injectParams ip i) flush draws (s.seg i)
      some { s.go i (.inject site b.ops) with seg := Function.update s.seg i b.seg }
  | _ => none

/-- The next request of the burst. A recovery read is followed by another one. -/
def requestStep (ip : InjectParams) (i : Fin T) (rand : UInt64) (s : InjectState T) :
    Option (InjectState T) :=
  let l := s.fill.thread i
  let pass (op : InjectOp) := s.fill.set i
    { l with detail := injectRequest ip l.itp (s.seg i).pflushnum rand l.detail op }
  match s.place i with
  | .inject site (.recoverStart :: todo) =>
    some { s.go i (.inject site todo) with
      fill := s.fill.set i { l with itp := { l.itp with recovered := 0, recRunlen := 0 } } }
  | .inject site (.recover :: todo) =>
    if l.itp.recovered = 0 then
      some { s.go i (.injectIo site (.recover :: todo)) with
        fill := pass .recover
        seg := Function.update s.seg i
          { s.seg i with pflushnum := (s.seg i).pflushnum + 1 } }
    else none
  | .inject site (op :: todo) =>
    some { s.go i (.injectIo site todo) with fill := pass op, injected := op :: s.injected }
  | _ => none

/-- `io_restart`, and the return from `do_write_inject`. -/
def ioRestart (i : Fin T) (s : InjectState T) : Option (InjectState T) :=
  match s.place i with
  | .inject site [] => some { s.go i (.restart site 0) with iowait := false }
  | .restart site k =>
    if h : k < T then
      if k = i then some (s.go i (.restart site (k + 1)))
      else some { s.go i (.restart site (k + 1)) with iostart := semaPost s.iostart ⟨k, h⟩ }
    else some { s.go i site.next with fill := s.fill.set i (site.resume (s.fill.thread i)) }
  | _ => none

def injectStep (cp : CmdParams) (ip : InjectParams) (endtime : UInt64) :
    InjectAct T → InjectState T → Option (InjectState T)
  | .top i curtime, s => if s.place i = .top then some (topStep ip i curtime s) else none
  | .check i, s =>
    if s.place i = .check then some (s.go i (if s.iowait then .answer else .loop)) else none
  | .answer i, s =>
    if s.place i = .answer then some { s.go i .parked with iostop := semaPost s.iostop i }
    else none
  | .wake i, s =>
    if s.place i = .parked then do
      return { s.go i .loop with iostart := ← semaWait s.iostart i }
    else none
  | .loop (.inject _), _ => none
  | .loop a, s =>
    if s.place a.thread = .loop then
      ((fill cp endtime T).step a s.fill).map fun f => loopStep s f a
    else none
  | .ioStop i draws, s => ioStop ip i draws s
  | .request i rand, s => requestStep ip i rand s
  | .recovered i, s =>
    match s.place i with
    | .inject site (.recover :: todo) => some (s.go i (.inject site todo))
    | _ => none
  | .finish i r, s =>
    match s.place i with
    | .injectIo site todo =>
      some { s.go i (.inject site todo) with
        fill := injectFinish (fthreadinit cp).totalio endtime i r s.fill }
    | _ => none
  | .ioRestart i, s => ioRestart i s

/-- The `T` threads behind `iob_sema_wait(&itp->start)`, which they pass at the times
`starttime`; `draws` are those of `ithreadinit`. -/
def injectInit (cp : CmdParams) (ip : InjectParams) (starttime : Fin T → UInt64)
    (draws : Fin T → ℕ → ℕ × ℕ) : InjectState T where
  fill := fillInit cp T
  place _ := .top
  next i := starttime i + ip.injectinterval
  nextflush i := starttime i + ip.flushinterval
  seg i := segInit (threadParams cp i) ip (draws i)
  iowait := false
  iostart _ := 0
  iostop _ := 0
  injected := []

/-- The fill of one file with the write injection in it. -/
def inject (cp : CmdParams) (ip : InjectParams) (endtime : UInt64) (starttime : Fin T → UInt64)
    (draws : Fin T → ℕ → ℕ × ℕ) : Machine (InjectState T) (InjectAct T) where
  init := injectInit cp ip starttime draws
  step a s := if s.fill.exited then none else injectStep cp ip endtime a s

/-! ## What a step can do -/

/-- The branches of `injectStep`, with the thread that takes it and what it found. -/
inductive InjectMove (cp : CmdParams) (ip : InjectParams) (endtime : UInt64)
    (s : InjectState T) : Fin T → InjectState T → Prop
  | due {i : Fin T} {next nextflush : Fin T → UInt64} {flush : Bool} (hplace : s.place i = .top)
      (hon : (s.fill.thread i).itp.params.writeinject ≠ 0) :
      InjectMove cp ip endtime s i { s.enter i .timer flush with
        fill := s.fill.set i { s.fill.thread i with pc := .inject }
        next := next
        nextflush := nextflush }
  | early {i : Fin T} (hplace : s.place i = .top) : InjectMove cp ip endtime s i (s.go i .check)
  | see {i : Fin T} (hplace : s.place i = .check) (hwait : s.iowait = true) :
      InjectMove cp ip endtime s i (s.go i .answer)
  | pass {i : Fin T} (hplace : s.place i = .check) : InjectMove cp ip endtime s i (s.go i .loop)
  | answer {i : Fin T} (hplace : s.place i = .answer) :
      InjectMove cp ip endtime s i { s.go i .parked with iostop := semaPost s.iostop i }
  | wake {i : Fin T} {sem : Fin T → ℕ} (hplace : s.place i = .parked)
      (hsem : semaWait s.iostart i = some sem) :
      InjectMove cp ip endtime s i { s.go i .loop with iostart := sem }
  | fill {a : Act T} {f : FillState T} (hplace : s.place a.thread = .loop)
      (hstep : (fill cp endtime T).step a s.fill = some f)
      (hpc : (f.thread a.thread).pc ≠ .inject) :
      InjectMove cp ip endtime s a.thread { s with fill := f }
  | bottom {i : Fin T} {f : FillState T} (hplace : s.place i = .loop)
      (hstep : (fill cp endtime T).step (.bottom i) s.fill = some f) :
      InjectMove cp ip endtime s i { s.go i .top with fill := f }
  | number {i : Fin T} {rand nextbno : UInt64} {f : FillState T} (hplace : s.place i = .loop)
      (hstep : (fill cp endtime T).step (.claim i rand nextbno) s.fill = some f)
      (hpc : (f.thread i).pc = .inject) :
      InjectMove cp ip endtime s i
        { s.enter i (.number s.fill.threadBno rand nextbno) true with fill := f }
  | skipStop {i : Fin T} {site : Site} {flush : Bool} (hplace : s.place i = .stop site flush i) :
      InjectMove cp ip endtime s i (s.go i (.stop site flush (i + 1)))
  | collect {i : Fin T} {site : Site} {flush : Bool} {k : ℕ} {sem : Fin T → ℕ}
      (hplace : s.place i = .stop site flush k) (hk : k < T) (hne : k ≠ i)
      (hsem : semaWait s.iostop ⟨k, hk⟩ = some sem) :
      InjectMove cp ip endtime s i { s.go i (.stop site flush (k + 1)) with iostop := sem }
  | stopped {i : Fin T} {site : Site} {flush : Bool} {k : ℕ} {draws : BurstDraws} {b : Burst}
      (hplace : s.place i = .stop site flush k) (hk : ¬ k < T)
      (hb : b = doWriteInject (s.fill.thread i).itp.params (injectParams ip i) flush draws
        (s.seg i)) :
      InjectMove cp ip endtime s i
        { s.go i (.inject site b.ops) with seg := Function.update s.seg i b.seg }
  | recoverStart {i : Fin T} {site : Site} {todo : List InjectOp} {itp : IoThread}
      (hplace : s.place i = .inject site (.recoverStart :: todo))
      (hitp : itp.params = (s.fill.thread i).itp.params) :
      InjectMove cp ip endtime s i { s.go i (.inject site todo) with
        fill := s.fill.set i { s.fill.thread i with itp := itp } }
  | recover {i : Fin T} {site : Site} {todo : List InjectOp} {d : Iodet} {g : Segments}
      (hplace : s.place i = .inject site (.recover :: todo))
      (hg : g = { s.seg i with pflushnum := (s.seg i).pflushnum + 1 }) :
      InjectMove cp ip endtime s i { s.go i (.injectIo site (.recover :: todo)) with
        fill := s.fill.set i { s.fill.thread i with detail := d }
        seg := Function.update s.seg i g }
  | request {i : Fin T} {site : Site} {op : InjectOp} {todo : List InjectOp} {d : Iodet}
      (hplace : s.place i = .inject site (op :: todo)) :
      InjectMove cp ip endtime s i { s.go i (.injectIo site todo) with
        fill := s.fill.set i { s.fill.thread i with detail := d }
        injected := op :: s.injected }
  | recovered {i : Fin T} {site : Site} {todo : List InjectOp}
      (hplace : s.place i = .inject site (.recover :: todo)) :
      InjectMove cp ip endtime s i (s.go i (.inject site todo))
  | finish {i : Fin T} {site : Site} {todo : List InjectOp} {r : IoResult}
      (hplace : s.place i = .injectIo site todo) :
      InjectMove cp ip endtime s i { s.go i (.inject site todo) with
        fill := injectFinish (fthreadinit cp).totalio endtime i r s.fill }
  | startRestart {i : Fin T} {site : Site} (hplace : s.place i = .inject site []) :
      InjectMove cp ip endtime s i { s.go i (.restart site 0) with iowait := false }
  | skipRestart {i : Fin T} {site : Site} (hplace : s.place i = .restart site i) :
      InjectMove cp ip endtime s i (s.go i (.restart site (i + 1)))
  | release {i : Fin T} {site : Site} {k : ℕ} (hplace : s.place i = .restart site k) (hk : k < T)
      (hne : k ≠ i) :
      InjectMove cp ip endtime s i
        { s.go i (.restart site (k + 1)) with iostart := semaPost s.iostart ⟨k, hk⟩ }
  | returned {i : Fin T} {site : Site} {k : ℕ} (hplace : s.place i = .restart site k)
      (hk : ¬ k < T) :
      InjectMove cp ip endtime s i { s.go i site.next with
        fill := s.fill.set i (site.resume (s.fill.thread i)) }

section Moves

variable {cp : CmdParams} {ip : InjectParams} {endtime : UInt64} {starttime : Fin T → UInt64}
  {draws : Fin T → ℕ → ℕ × ℕ} {s t : InjectState T}

/-- A step of the fill's own, or the call of `do_write_inject` that comes with it. -/
theorem injectMove_loop {a : Act T} (h : injectStep cp ip endtime (.loop a) s = some t) :
    InjectMove cp ip endtime s a.thread t := by
  cases a with
  | inject i => cases h
  | claim i rand nextbno =>
    simp only [injectStep] at h
    split at h
    · rename_i hplace
      obtain ⟨f, hstep, rfl⟩ := Option.map_eq_some_iff.mp h
      unfold loopStep
      dsimp only
      split
      · rename_i hpc
        exact .number hplace hstep hpc
      · rename_i hpc
        exact .fill hplace hstep hpc
    · cases h
  | issue i u =>
    simp only [injectStep] at h
    split at h
    · rename_i hplace
      obtain ⟨f, hstep, rfl⟩ := Option.map_eq_some_iff.mp h
      refine .fill hplace hstep ?_
      cases (fillMove_of_step hstep).2 with
      | issue hl =>
        simp only [FillState.set_thread, Act.thread, Function.update_self]
        unfold issued at hl
        split at hl <;> cases hl <;> simp
    · cases h
  | finish i r =>
    simp only [injectStep] at h
    split at h
    · rename_i hplace
      obtain ⟨f, hstep, rfl⟩ := Option.map_eq_some_iff.mp h
      refine .fill hplace hstep ?_
      cases (fillMove_of_step hstep).2 with
      | exit hret hfin =>
        intro hpc
        rw [show (s.fill.thread i).pc = .inject from hpc] at hret
        cases hret
      | finish hret hfin =>
        simp only [FillState.set_thread, Act.thread, Function.update_self]
        exact (returned_spec cp hret).1
    · cases h
  | bottom i =>
    simp only [injectStep] at h
    split at h
    · rename_i hplace
      obtain ⟨f, hstep, rfl⟩ := Option.map_eq_some_iff.mp h
      exact .bottom hplace hstep
    · cases h

theorem injectMove_ioStop {i : Fin T} {d : BurstDraws} (h : ioStop ip i d s = some t) :
    InjectMove cp ip endtime s i t := by
  unfold ioStop at h
  split at h
  · rename_i site flush k hplace
    split at h
    · rename_i hk
      split at h
      · rename_i hki
        cases h
        subst hki
        exact .skipStop hplace
      · rename_i hki
        obtain ⟨sem, hsem, h⟩ := Option.bind_eq_some_iff.mp h
        cases h
        exact .collect hplace hk hki hsem
    · rename_i hk
      cases h
      exact .stopped hplace hk rfl
  · cases h

theorem injectMove_request {i : Fin T} {rand : UInt64} (h : requestStep ip i rand s = some t) :
    InjectMove cp ip endtime s i t := by
  unfold requestStep at h
  dsimp only at h
  split at h
  · rename_i site todo hplace
    cases h
    exact .recoverStart hplace rfl
  · rename_i site todo hplace
    split at h
    · cases h
      exact .recover hplace rfl
    · cases h
  · rename_i site op todo _ _ hplace
    cases h
    exact .request hplace
  · cases h

theorem injectMove_ioRestart {i : Fin T} (h : ioRestart i s = some t) :
    InjectMove cp ip endtime s i t := by
  unfold ioRestart at h
  split at h
  · rename_i site hplace
    cases h
    exact .startRestart hplace
  · rename_i site k hplace
    split at h
    · rename_i hk
      split at h
      · rename_i hki
        cases h
        subst hki
        exact .skipRestart hplace
      · rename_i hki
        cases h
        exact .release hplace hk hki
    · rename_i hk
      cases h
      exact .returned hplace hk
  · cases h

/-- **Inversion**: a program that has not exited takes one of the branches. -/
theorem injectMove_of_step {a : InjectAct T}
    (h : (inject cp ip endtime starttime draws).step a s = some t) :
    s.fill.exited = false ∧ ∃ i, InjectMove cp ip endtime s i t := by
  simp only [inject] at h
  split at h
  · cases h
  rename_i hlive
  refine ⟨Bool.eq_false_iff.mpr hlive, ?_⟩
  cases a with
  | top i curtime =>
    simp only [injectStep] at h
    split at h
    · rename_i hplace
      cases h
      unfold topStep
      split
      · rename_i hdue
        exact ⟨i, .due hplace hdue.2⟩
      · exact ⟨i, .early hplace⟩
    · cases h
  | check i =>
    simp only [injectStep] at h
    split at h
    · rename_i hplace
      cases h
      cases hwait : s.iowait with
      | true => exact ⟨i, .see hplace hwait⟩
      | false => exact ⟨i, .pass hplace⟩
    · cases h
  | answer i =>
    simp only [injectStep] at h
    split at h
    · rename_i hplace
      cases h
      exact ⟨i, .answer hplace⟩
    · cases h
  | wake i =>
    simp only [injectStep] at h
    split at h
    · rename_i hplace
      obtain ⟨sem, hsem, h⟩ := Option.bind_eq_some_iff.mp h
      cases h
      exact ⟨i, .wake hplace hsem⟩
    · cases h
  | loop a => exact ⟨_, injectMove_loop h⟩
  | ioStop i d => exact ⟨i, injectMove_ioStop h⟩
  | request i rand => exact ⟨i, injectMove_request h⟩
  | recovered i =>
    simp only [injectStep] at h
    split at h
    · rename_i site todo hplace
      cases h
      exact ⟨i, .recovered hplace⟩
    · cases h
  | finish i r =>
    simp only [injectStep] at h
    split at h
    · rename_i site todo hplace
      cases h
      exact ⟨i, .finish hplace⟩
    · cases h
  | ioRestart i => exact ⟨i, injectMove_ioRestart h⟩

end Moves

end Iofill
end Blockbench
