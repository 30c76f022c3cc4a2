import Blockbench.Ioload.Sleep

/-!
# `Ioload/Pace.lean` — the limit on the rate

With `maxrate` a thread keeps a time `nextio`. After each pass of its loop it sleeps until then,
unless it is that late already, and then moves `nextio` on by a random amount, which is `iotime`
on average. So there is no least distance between two passes: a thread that has fallen behind
goes on without a pause until it has caught up, and a draw of zero leaves `nextio` where it is.
What there is, is a schedule: a pass is not begun before `nextio` as it was at the end of the
last, and that is the start of the call, `iotime`, and the draws but one (`starts_on_schedule`).

`clock` is what is relied on: `iob_gettime` does not go back, and `nanosleep` does not return
before its time. `Paced.now` is what a reading of the clock must show at least.
-/

set_option autoImplicit false

namespace Blockbench
namespace Ioload

open CInt Machine

/-- `tm` at the end of a pass, when there is a sleep. -/
def paceTime (s : DoIo) : Option Timespec :=
  if s.endTime < s.nextio then
    let slptime := s.nextio - s.endTime
    some { tvSec := (slptime / 1000000000).toNat, tvNsec := (slptime % 1000000000).toNat }
  else none

def Timespec.nsec (tm : Timespec) : ℕ := tm.tvSec * 10 ^ 9 + tm.tvNsec

/-- A call of `do_io`, and what the clock shows at least. -/
structure Paced where
  io : DoIo
  now : ℕ

def Paced.later (s : Paced) : Act → ℕ
  | .io _ r => r.endTime.toNat
  | .pace _ => s.now + (paceTime s.io).elim 0 Timespec.nsec
  | _ => s.now

def paced (ignErrors : Bool) (finish : UInt64) (itp : IoThread) (now start endTime : UInt64) :
    Machine Paced Act where
  init := { io := doIoInit itp now start endTime, now := now.toNat }
  step a s := (doIoStep ignErrors finish itp a s.io).map fun io => { io := io, now := s.later a }

def clock (s : Paced) : Act → Prop
  | .io _ r => s.now ≤ r.start.toNat ∧ r.start.toNat ≤ r.endTime.toNat
  | _ => True

/-- What a draw of `mrand48` moves `nextio` on by. -/
def pause (iotime : UInt64) (mrand : UInt32) : ℕ := mrand.toNat % (iotime.toNat * 2 + 1)

/-- The pauses of a run, one for each pass that is over. -/
def pauses (iotime : UInt64) : List Act → List ℕ
  | [] => []
  | .pace mrand :: as => pause iotime mrand :: pauses iotime as
  | _ :: as => pauses iotime as

/-- The starts of the I/Os of a run, each with the pauses before it; `ps` are those of earlier. -/
def startsAfter (iotime : UInt64) (ps : List ℕ) : List Act → List (List ℕ × UInt64)
  | [] => []
  | .io _ r :: as => (ps, r.start) :: startsAfter iotime ps as
  | .pace mrand :: as => startsAfter iotime (ps ++ [pause iotime mrand]) as
  | _ :: as => startsAfter iotime ps as

def iotimeOf (maxrate : UInt32) : UInt64 := nsecToSec / maxrate.toUInt64

/-- The schedule: where `nextio` is after some pauses. -/
def scheduled (began iotime : UInt64) (ps : List ℕ) : ℕ := began.toNat + iotime.toNat + ps.sum

structure OnSchedule (began iotime : UInt64) (as : List Act) (s : Paced) : Prop where
  rate : s.io.iotime = iotime
  nextio : s.io.nextio.toNat = scheduled began iotime (pauses iotime as)
  ended : s.io.endTime.toNat ≤ s.now
  waited : pauses iotime as ≠ [] → scheduled began iotime (pauses iotime as).dropLast ≤ s.now
  starts : ∀ e ∈ startsAfter iotime [] as, e.1 ≠ [] →
    scheduled began iotime e.1.dropLast ≤ e.2.toNat

section Lists

variable {iotime : UInt64} {as bs : List Act}

@[simp] theorem pauses_append (iotime : UInt64) (as bs : List Act) :
    pauses iotime (as ++ bs) = pauses iotime as ++ pauses iotime bs := by
  induction as with
  | nil => rfl
  | cons a as ih => cases a <;> simp [pauses, ih]

@[simp] theorem startsAfter_append (iotime : UInt64) (ps : List ℕ) (as bs : List Act) :
    startsAfter iotime ps (as ++ bs) =
      startsAfter iotime ps as ++ startsAfter iotime (ps ++ pauses iotime as) bs := by
  induction as generalizing ps with
  | nil => simp [startsAfter, pauses]
  | cons a as ih => cases a <;> simp [startsAfter, pauses, ih]

@[simp] theorem scheduled_append (began iotime : UInt64) (ps qs : List ℕ) :
    scheduled began iotime (ps ++ qs) = scheduled began iotime ps + qs.sum := by
  unfold scheduled
  rw [List.sum_append, ← Nat.add_assoc]

theorem toNat_iotimeOf_le (maxrate : UInt32) : (iotimeOf maxrate).toNat ≤ 10 ^ 9 := by
  unfold iotimeOf
  rw [UInt64.toNat_div]
  exact Nat.div_le_self _ _

theorem toNat_pause (maxrate mrand : UInt32) :
    (mrand.toUInt64 % (iotimeOf maxrate * 2 + 1)).toNat = pause (iotimeOf maxrate) mrand := by
  have hle := toNat_iotimeOf_le maxrate
  have hone : (1 : UInt64).toNat = 1 := rfl
  have htwice : (iotimeOf maxrate * 2).toNat = (iotimeOf maxrate).toNat * 2 :=
    toNat_mul_of_lt (by show _ * 2 < 2 ^ 64; omega)
  have hsum : (iotimeOf maxrate * 2 + 1).toNat = (iotimeOf maxrate).toNat * 2 + 1 := by
    rw [toNat_add_of_lt (by rw [htwice, hone]; omega), htwice, hone]
  rw [UInt64.toNat_mod, UInt32.toNat_toUInt64, hsum, pause]

theorem paceTime_some {s : DoIo} {tm : Timespec} (h : paceTime s = some tm) :
    tm.tvNsec < 10 ^ 9 ∧ s.endTime.toNat + tm.nsec = s.nextio.toNat := by
  unfold paceTime at h
  split at h
  case isFalse => cases h
  rename_i hlt
  cases h
  have hle := UInt64.le_of_lt hlt
  have hnat := UInt64.lt_iff_toNat_lt.mp hlt
  have hbillion : (1000000000 : UInt64).toNat = 10 ^ 9 := rfl
  unfold Timespec.nsec
  dsimp only
  rw [UInt64.toNat_div, UInt64.toNat_mod, UInt64.toNat_sub_of_le _ _ hle, hbillion]
  have hsplit := Nat.div_add_mod (s.nextio.toNat - s.endTime.toNat) (10 ^ 9)
  have hrest := Nat.mod_lt (s.nextio.toNat - s.endTime.toNat) (show 10 ^ 9 > 0 by norm_num)
  constructor
  · exact hrest
  · omega

theorem paceTime_eq_none {s : DoIo} :
    paceTime s = none ↔ s.nextio.toNat ≤ s.endTime.toNat := by
  unfold paceTime
  split
  · rename_i hlt
    have hnat := UInt64.lt_iff_toNat_lt.mp hlt
    simp only [reduceCtorEq, false_iff]
    omega
  · rename_i hnot
    rw [UInt64.lt_iff_toNat_lt] at hnot
    simp only [true_iff]
    omega

end Lists

section Runs

variable {ignErrors : Bool} {finish now start endTime : UInt64} {itp : IoThread}
  {as : List Act} {s t : Paced} {a : Act}

theorem OnSchedule.other {began iotime : UInt64} (h : OnSchedule began iotime as s)
    (hpauses : pauses iotime [a] = []) (hstarts : ∀ ps, startsAfter iotime ps [a] = [])
    (hlater : s.later a = s.now) {io : DoIo} (hiotime : io.iotime = s.io.iotime)
    (hnextio : io.nextio = s.io.nextio) (hended : io.endTime = s.io.endTime) :
    OnSchedule began iotime (as ++ [a]) { io := io, now := s.later a } where
  rate := hiotime.trans h.rate
  nextio := by
    rw [pauses_append, hpauses, List.append_nil, hnextio]
    exact h.nextio
  ended := by
    rw [hended, hlater]
    exact h.ended
  waited := by
    rw [pauses_append, hpauses, List.append_nil, hlater]
    exact h.waited
  starts := by
    rw [startsAfter_append, hstarts, List.append_nil]
    exact h.starts

/-- An I/O starts when the clock has come to where the schedule was a pass ago. -/
theorem OnSchedule.io {began iotime : UInt64} {mrand : UInt32} {r : IoResult}
    (h : OnSchedule began iotime as s) (hclock : clock s (.io mrand r)) {io : DoIo}
    (hiotime : io.iotime = s.io.iotime) (hnextio : io.nextio = s.io.nextio)
    (hended : io.endTime = r.endTime ∨ io.endTime = s.io.endTime) :
    OnSchedule began iotime (as ++ [.io mrand r]) { io := io, now := s.later (.io mrand r) } := by
  obtain ⟨hstart, hend⟩ := hclock
  have hnow : s.now ≤ r.endTime.toNat := hstart.trans hend
  refine ⟨hiotime.trans h.rate, ?_, ?_, ?_, ?_⟩
  · simpa [pauses, hnextio] using h.nextio
  · obtain heq | heq := hended
    · rw [heq]
      exact le_rfl
    · rw [heq]
      exact h.ended.trans hnow
  · intro hps
    simp only [pauses_append, pauses, List.append_nil] at hps ⊢
    exact (h.waited hps).trans hnow
  · intro e he hps
    simp only [startsAfter_append, startsAfter, List.nil_append, List.mem_append,
      List.mem_singleton] at he
    obtain he | rfl := he
    · exact h.starts e he hps
    · exact (h.waited hps).trans hstart

/-- **The end of a pass**: after the sleep the clock has come to `nextio`, and `nextio` goes on. -/
theorem OnSchedule.pace {began : UInt64} {maxrate mrand : UInt32}
    (h : OnSchedule began (iotimeOf maxrate) as s)
    (hfit : scheduled began (iotimeOf maxrate)
      (pauses (iotimeOf maxrate) (as ++ [.pace mrand])) < 2 ^ 64) {io : DoIo}
    (hiotime : io.iotime = s.io.iotime) (hended : io.endTime = s.io.endTime)
    (hnextio : io.nextio = s.io.nextio + mrand.toUInt64 % (s.io.iotime * 2 + 1)) :
    OnSchedule began (iotimeOf maxrate) (as ++ [.pace mrand])
      { io := io, now := s.later (.pace mrand) } := by
  have hlater : s.now ≤ s.later (.pace mrand) ∧ s.io.nextio.toNat ≤ s.later (.pace mrand) := by
    have hnow := h.ended
    unfold Paced.later
    cases hsleep : paceTime s.io with
    | none =>
      have hlate := paceTime_eq_none.mp hsleep
      simp only [Option.elim]
      omega
    | some tm =>
      obtain ⟨-, hleft⟩ := paceTime_some hsleep
      simp only [Option.elim]
      omega
  obtain ⟨hnow, hslept⟩ := hlater
  have hpauses : pauses (iotimeOf maxrate) (as ++ [.pace mrand]) =
      pauses (iotimeOf maxrate) as ++ [pause (iotimeOf maxrate) mrand] := by simp [pauses]
  rw [hpauses] at hfit
  refine ⟨hiotime.trans h.rate, ?_, ?_, ?_, ?_⟩
  · have hnext := h.nextio
    simp only [scheduled_append, List.sum_singleton] at hfit
    rw [hpauses, hnextio, h.rate, UInt64.toNat_add, toNat_pause, hnext, scheduled_append,
      List.sum_singleton, Nat.mod_eq_of_lt hfit]
  · rw [hended]
    exact h.ended.trans hnow
  · intro _
    rw [hpauses, List.dropLast_concat, ← h.nextio]
    exact hslept
  · have hstarts : startsAfter (iotimeOf maxrate) [] (as ++ [.pace mrand]) =
        startsAfter (iotimeOf maxrate) [] as := by simp [startsAfter]
    rw [hstarts]
    exact h.starts

theorem onSchedule_step (h : OnSchedule now (iotimeOf itp.params.maxrate) as s)
    (hclock : clock s a) (hst : (paced ignErrors finish itp now start endTime).step a s = some t)
    (hfit : scheduled now (iotimeOf itp.params.maxrate)
      (pauses (iotimeOf itp.params.maxrate) (as ++ [a])) < 2 ^ 64) :
    OnSchedule now (iotimeOf itp.params.maxrate) (as ++ [a]) t := by
  obtain ⟨io, hio, rfl⟩ := Option.map_eq_some_iff.mp hst
  cases @doIoMove_of_step ignErrors finish now start endTime itp s.io io a hio with
  | late | drawn | noRange | spent | again | written =>
    exact h.other rfl (fun _ => rfl) rfl rfl rfl rfl
  | noSleep | failed => exact h.io hclock rfl rfl (.inr rfl)
  | piece => exact h.io hclock rfl rfl (.inl rfl)
  | pace => exact h.pace hfit rfl rfl rfl

theorem onSchedule_of_run (hrate : itp.params.maxrate ≠ 0) (hend : endTime.toNat ≤ now.toNat)
    (hr : Run (paced ignErrors finish itp now start endTime) clock
      (paced ignErrors finish itp now start endTime).init as s)
    (hfit : scheduled now (iotimeOf itp.params.maxrate)
      (pauses (iotimeOf itp.params.maxrate) as) < 2 ^ 64) :
    OnSchedule now (iotimeOf itp.params.maxrate) as s := by
  induction hr with
  | nil =>
    have hiotime : (doIoInit itp now start endTime).iotime = iotimeOf itp.params.maxrate :=
      if_pos hrate
    have hnextio : (doIoInit itp now start endTime).nextio =
        now + iotimeOf itp.params.maxrate := by
      unfold doIoInit
      simp only [if_pos hrate, iotimeOf]
    refine ⟨hiotime, ?_, hend, ?_, ?_⟩
    · show (doIoInit itp now start endTime).nextio.toNat = _
      rw [hnextio, UInt64.toNat_add, Nat.mod_eq_of_lt]
      · rfl
      · exact hfit
    · intro hps
      exact absurd rfl hps
    · intro e he
      exact absurd he List.not_mem_nil
  | snoc hrun hclock hst ih =>
    have hbefore := hfit
    rw [pauses_append, scheduled_append] at hbefore
    exact onSchedule_step (ih (by omega)) hclock hst hfit

/-- **Every I/O keeps to the schedule.** With a rate set, in every run of a call under a clock
that does not go back, an I/O with passes before it is not started before the beginning, `iotime`
and the draws of all those passes but the last; and what is slept at the end of a pass is just
what is left until the draws of the passes before, so nothing exactly when that time has come.

`nextio` is a sum of draws that no clock bounds, so it has to be assumed that it is a time of the
clock (`hfit`), as that the times of the last call lie before the start of this one. The last draw
does not count because it is added behind the sleep. -/
theorem starts_on_schedule (hrate : itp.params.maxrate ≠ 0) (hend : endTime.toNat ≤ now.toNat)
    (hr : Run (paced ignErrors finish itp now start endTime) clock
      (paced ignErrors finish itp now start endTime).init as s)
    (hfit : scheduled now (iotimeOf itp.params.maxrate)
      (pauses (iotimeOf itp.params.maxrate) as) < 2 ^ 64) :
    (∀ e ∈ startsAfter (iotimeOf itp.params.maxrate) [] as, e.1 ≠ [] →
      scheduled now (iotimeOf itp.params.maxrate) e.1.dropLast ≤ e.2.toNat) ∧
    (∀ tm, paceTime s.io = some tm → tm.tvNsec < 10 ^ 9 ∧ s.io.endTime.toNat + tm.nsec =
      scheduled now (iotimeOf itp.params.maxrate) (pauses (iotimeOf itp.params.maxrate) as)) ∧
    (paceTime s.io = none ↔
      scheduled now (iotimeOf itp.params.maxrate) (pauses (iotimeOf itp.params.maxrate) as) ≤
        s.io.endTime.toNat) := by
  have h := onSchedule_of_run hrate hend hr hfit
  refine ⟨h.starts, ?_, ?_⟩
  · intro tm hsleep
    rw [← h.nextio]
    exact paceTime_some hsleep
  · rw [← h.nextio]
    exact paceTime_eq_none

/-- `-m maxrate=1000` and READs of 4096 bytes. -/
def pacedThread : IoThread :=
  ithreadinit 0 { params with maxrate := 1000, maxoff := 1048576 } [defitype] 4096

theorem draws_pos : 0 < 2 ^ 48 := by decide

/-- A pass with one READ, a sleep, and the READ of the next. -/
def secondRead : List Act :=
  [.top ⟨0, draws_pos⟩ 0, .io 0 ⟨1000, 1500, false, 0, 0⟩, .spent, .repwrite ⟨0, draws_pos⟩,
    .pace 500000, .top ⟨0, draws_pos⟩ 0, .io 0 ⟨1001500, 1002000, false, 0, 0⟩]

theorem starts_on_schedule_second : ∃ s,
    Run (paced false 5000000 pacedThread 1000 0 0) clock
      (paced false 5000000 pacedThread 1000 0 0).init secondRead s ∧
    ∀ e ∈ startsAfter 1000000 [] secondRead, e.1 ≠ [] →
      scheduled 1000 1000000 e.1.dropLast ≤ e.2.toNat := by
  have hrun : ∃ s, Run (paced false 5000000 pacedThread 1000 0 0) clock
      (paced false 5000000 pacedThread 1000 0 0).init secondRead s :=
    ⟨_, Run.cons trivial rfl <| Run.cons ⟨by decide, by decide⟩ rfl <| Run.cons trivial rfl <|
      Run.cons trivial rfl <| Run.cons trivial rfl <| Run.cons trivial rfl <|
      Run.single ⟨by decide, by decide⟩ rfl⟩
  obtain ⟨s, hr⟩ := hrun
  exact ⟨s, hr, (starts_on_schedule (by decide) (by decide) hr (by decide)).1⟩

/-! ## Without a rate -/

/-- **Without a rate nobody waits.** -/
theorem never_paced (hrate : itp.params.maxrate = 0) {io : DoIo}
    (hr : (doIo ignErrors finish itp now start endTime).Reachable always io) :
    paceTime io = none := by
  have hzero : io.iotime = 0 ∧ io.nextio = 0 := by
    refine hr.invariant (I := fun io => io.iotime = 0 ∧ io.nextio = 0) ?_ ?_
    · simp [doIo, doIoInit, hrate]
    · intro s a t hs _ hst
      cases doIoMove_of_step hst with
      | late | drawn | noRange | spent | again | written | noSleep | failed | piece => exact hs
      | pace =>
        refine ⟨hs.1, ?_⟩
        rw [hs.1, hs.2]
        simp
  unfold paceTime
  rw [hzero.2, if_neg (by simp)]

end Runs

end Ioload
end Blockbench
