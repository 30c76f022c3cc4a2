import Blockbench.Lib.Ticker
import Blockbench.Iofill.Fill
import Blockbench.Iofill.Totals

/-!
# `Iofill/Clock.lean` — the per-second clock of an I/O thread

`nextsec` and `nseconds` are a `Ticker` with periods of a second, 64 bits and `NSEC - 1` as the
last number (`tick_clock`); the starts of the thread's I/Os are its events. Two things hang on
it.

The deadline is only looked at when the clock is advanced. Since the clock is never more than a
second past the deadline before that, the first I/O that starts more than a second late asks for
the stop, whatever gaps there were (`deadline_honoured`, over the runs of `fill`).

The table of seconds counts an I/O under the number the clock stands at. The clock goes on by
one second at an I/O, however long ago the last one was, so after a gap of more than a second
the I/Os are filed too early until it has caught up (`seconds_filed_iff`, over the runs of
`completions`).
-/

set_option autoImplicit false

namespace Blockbench
namespace Iofill

open CInt

/-! ## The clock is a ticker -/

def IoThread.clock (tp : IoThread) : Ticker := ⟨tp.nextsec.toNat, tp.nseconds⟩

/-- The clock after I/Os that started at the given times, the latest first. -/
abbrev clockAfter (starts : List ℕ) : Ticker :=
  Ticker.after (2 ^ 64) nsecToSec.toNat (nsec - 1) starts

section Tick

variable {endtime : UInt64} {tp tp' : IoThread} {idp idp' : Iodet} {r : IoResult}
  {stop long : Bool}

theorem tick_clock (endtime : UInt64) (tp : IoThread) (start : UInt64) :
    (tick endtime tp start).1.clock =
        tp.clock.feed (2 ^ 64) nsecToSec.toNat (nsec - 1) start.toNat ∧
      ((tick endtime tp start).2 = true ↔
        Ticker.Overdue endtime.toNat tp.clock start.toNat) := by
  have hnext : ∀ a n, (tp.setClock (a + nsecToSec) n).clock =
      ⟨(a.toNat + nsecToSec.toNat) % 2 ^ 64, n⟩ := by
    intro a n
    rw [← UInt64.toNat_add]
    rfl
  unfold tick Ticker.Overdue Ticker.feed
  by_cases hzero : tp.nextsec = 0
  · have hz : tp.clock.next = 0 := eq_zero_iff.mp hzero
    rw [if_pos hzero, if_pos hz, hnext]
    exact ⟨rfl, iff_of_false Bool.false_ne_true fun h => h.1 hz⟩
  · have hz : tp.clock.next ≠ 0 := fun h => hzero (eq_zero_iff.mpr h)
    rw [if_neg hzero, if_neg hz]
    by_cases hlt : tp.nextsec < start
    · have hlt' : tp.clock.next < start.toNat := UInt64.lt_iff_toNat_lt.mp hlt
      rw [if_pos hlt, if_pos hlt', hnext, decide_eq_true_iff, UInt64.lt_iff_toNat_lt]
      exact ⟨rfl, fun h => ⟨hz, hlt', h⟩, fun h => h.2.2⟩
    · have hlt' : ¬ tp.clock.next < start.toNat := fun h => hlt (UInt64.lt_iff_toNat_lt.mpr h)
      rw [if_neg hlt, if_neg hlt']
      exact ⟨rfl, iff_of_false Bool.false_ne_true fun h => hlt' h.2.1⟩

theorem flagLong_clock (tp : IoThread) (idp : Iodet) : (flagLong tp idp).1.clock = tp.clock := by
  unfold flagLong
  dsimp only
  split
  · split <;> rfl
  · rfl

/-- **What `io_finish` does to the clock**: nothing when the I/O failed, and otherwise it feeds
it the start, asks for a stop when that is overdue, and stamps the record with the number. -/
theorem ioFinish_clock (h : ioFinish endtime tp idp r = .ret tp' idp' stop long) :
    (r.error = true ∧ tp' = tp ∧ stop = true) ∨
      (r.error = false ∧
        tp'.clock = tp.clock.feed (2 ^ 64) nsecToSec.toNat (nsec - 1) r.start.toNat ∧
        (stop = true ↔ Ticker.Overdue endtime.toNat tp.clock r.start.toNat) ∧
        idp'.start = r.start ∧ idp'.seconds = UInt32.ofNat tp'.nseconds) := by
  rcases ioFinish_cases h with
    ⟨herr, rfl, rfl⟩ | ⟨herr, ticked, rec, flagged, htick, rfl, hflag, rfl, rfl⟩
  · exact .inl ⟨herr, rfl, rfl⟩
  · obtain ⟨hclock, hstop⟩ := tick_clock endtime tp r.start
    have hkeep := flagLong_clock (countIo ticked (stamp ticked idp r)) (stamp ticked idp r)
    rw [htick] at hclock hstop
    rw [hflag] at hkeep
    have hcount : flagged.nseconds = ticked.nseconds := congrArg Ticker.count hkeep
    refine .inr ⟨herr, hkeep.trans hclock, hstop, rfl, ?_⟩
    dsimp only
    rw [hcount, stamp]

end Tick

/-! ## The deadline -/

section Deadline

variable {T : ℕ} {cp : CmdParams} {endtime : UInt64} {s t : FillState T} {i : Fin T}

/-- The start of an I/O of thread `i` that succeeded. -/
def Act.start (i : Fin T) : Act T → Option ℕ
  | .finish j r => if j = i ∧ r.error = false then some r.start.toNat else none
  | _ => none

/-- When the thread's successful I/Os started, the latest first. -/
def starts (i : Fin T) (as : List (Act T)) : List ℕ := (as.filterMap (Act.start i)).reverse

theorem starts_snoc (i : Fin T) (as : List (Act T)) (a : Act T) :
    starts i (as ++ [a]) = (a.start i).toList ++ starts i as := by
  rw [starts, List.filterMap_append, List.reverse_append]
  cases h : a.start i with
  | none =>
    rw [List.filterMap_cons_none h]
    rfl
  | some x =>
    rw [List.filterMap_cons_some h]
    rfl

/-- The clock of thread `i` is the ticker of its starts, and as long as it has not asked for a
stop none of them was overdue. -/
structure Clocked (endtime : UInt64) (i : Fin T) (as : List (Act T)) (s : FillState T) : Prop where
  clock : (s.thread i).itp.clock = clockAfter (starts i as)
  quiet : s.stops i = 0 →
    ¬ Ticker.AnyOverdue (2 ^ 64) nsecToSec.toNat (nsec - 1) endtime.toNat (starts i as)

/-- Only the return of a system call changes the thread's counters and clock. -/
theorem claimed_itp (totalio rand nextbno : UInt64) (l : LoopState) (k : UInt64) :
    (claimed totalio rand nextbno l k).itp = l.itp := by
  unfold claimed
  dsimp only
  split
  · rfl
  · split
    · rfl
    · split <;> rfl

theorem issued_itp {u : Drand48} {l l' : LoopState} (h : issued u l = some l') :
    l'.itp = l.itp := by
  unfold issued at h
  split at h
  · cases h
    rfl
  · cases h
    rfl
  · cases h

theorem loopEnd_itp (l : LoopState) : (loopEnd l).itp = l.itp := by
  unfold loopEnd
  dsimp only
  split <;> rfl

theorem update_itp (f : Fin T → LoopState) {j : Fin T} {l : LoopState}
    (h : l.itp = (f j).itp) (i : Fin T) : (Function.update f j l i).itp = (f i).itp := by
  by_cases hij : i = j
  · subst hij
    rw [Function.update_self, h]
  · rw [Function.update_of_ne hij]

theorem Clocked.same {as : List (Act T)} {a : Act T} (h : Clocked endtime i as s)
    (ha : a.start i = none) (hitp : (t.thread i).itp = (s.thread i).itp)
    (hstops : t.stops i = 0 → s.stops i = 0) : Clocked endtime i (as ++ [a]) t := by
  refine ⟨?_, fun hz => ?_⟩
  · rw [hitp, starts_snoc, ha]
    exact h.clock
  · rw [starts_snoc, ha]
    exact h.quiet (hstops hz)

theorem Clocked.finish {as : List (Act T)} {r : IoResult} {itp : IoThread} {idp : Iodet}
    {stop long : Bool} (h : Clocked endtime i as s)
    (hfin : ioFinish endtime (s.thread i).itp (s.thread i).detail r = .ret itp idp stop long)
    (hitp : (t.thread i).itp = itp)
    (hstops : t.stops i = if stop then s.stops i + 1 else s.stops i) :
    Clocked endtime i (as ++ [.finish i r]) t := by
  rcases ioFinish_clock hfin with ⟨herr, hsame, hstop⟩ | ⟨herr, hclock, hstop, -, -⟩
  · have hnone : Act.start i (.finish i r) = none := if_neg fun h => by rw [herr] at h; cases h.2
    apply h.same hnone (hitp.trans hsame)
    intro hz
    rw [hstops, if_pos hstop] at hz
    omega
  · have hsome : Act.start i (.finish i r) = some r.start.toNat := if_pos ⟨rfl, herr⟩
    refine ⟨?_, fun hz => ?_⟩
    · rw [hitp, hclock, h.clock, starts_snoc, hsome]
      rfl
    · rw [hstops] at hz
      split at hz
      · omega
      · rename_i hno
        rw [starts_snoc, hsome]
        rintro (hover | hany)
        · exact hno (hstop.mpr (h.clock ▸ hover))
        · exact h.quiet hz hany

theorem clocked_of_run {as : List (Act T)}
    (hr : Machine.Run (fill cp endtime T) Machine.always (fillInit cp T) as s) (i : Fin T) :
    Clocked endtime i as s := by
  induction hr with
  | nil => exact ⟨rfl, fun _ h => h⟩
  | @snoc t u as a _ _ h ih =>
    obtain ⟨-, hmove⟩ := fillMove_of_step h
    cases hmove with
    | @inject j =>
      exact ih.same rfl (update_itp t.thread (l := { t.thread j with pc := .inject }) rfl i) id
    | claim => exact ih.same rfl (update_itp _ (claimed_itp _ _ _ _ _) i) id
    | issue hl => exact ih.same rfl (update_itp _ (issued_itp hl) i) id
    | bottom => exact ih.same rfl (update_itp _ (loopEnd_itp _) i) id
    | @exit j r pc hret hfin =>
      have hnone : Act.start i (.finish j r) = none :=
        if_neg fun h => by rw [error_of_exit hfin] at h; cases h.2
      exact ih.same hnone rfl id
    | @finish j r pc itp idp stop long hret hfin =>
      by_cases hji : j = i
      · subst hji
        apply ih.finish hfin
        · dsimp only [FillState.set]
          rw [Function.update_self]
        · cases stop
          · rfl
          · exact Function.update_self _ _ _
      · refine ih.same (if_neg fun h => hji h.1) ?_ fun hz => ?_
        · dsimp only [FillState.set]
          rw [Function.update_of_ne fun h => hji h.symm]
        · cases stop
          · exact hz
          · exact (Function.update_of_ne (fun h => hji h.symm) _ _).symm.trans hz

/-- **The deadline is honoured within a second.** In every run, for every thread whose first I/O
started by the deadline: while it has not asked for the stop, the return of an I/O that started
more than a second after the deadline adds `totalio` to `thread_bno`; so once it has finished
such an I/O, and before it can start another one, the stop has been requested. -/
theorem deadline_honoured {as : List (Act T)}
    (hr : Machine.Run (fill cp endtime T) Machine.always (fillInit cp T) as s) (i : Fin T)
    (hfirst : ∀ start ∈ (starts i as).getLast?, start ≤ endtime.toNat) :
    (∀ r t, starts i as ≠ [] → s.stops i = 0 → r.error = false →
      endtime.toNat + 10 ^ 9 < r.start.toNat →
      (fill cp endtime T).step (.finish i r) s = some t →
      t.threadBno = s.threadBno + (fthreadinit cp).totalio ∧ t.stops i = 1) ∧
    ((∃ start ∈ starts i as, endtime.toNat + 10 ^ 9 < start) → 0 < s.stops i) := by
  have hclocked := clocked_of_run hr i
  have hP : nsecToSec.toNat = 10 ^ 9 := rfl
  have hlt : ∀ start ∈ starts i as, start < 2 ^ 64 := by
    intro start hmem
    obtain ⟨a, -, ha⟩ := List.mem_filterMap.mp (List.mem_reverse.mp hmem)
    cases a with
    | finish j r =>
      rw [Act.start] at ha
      split at ha
      · cases ha
        exact UInt64.toNat_lt _
      · cases ha
    | inject | claim | issue | bottom => cases ha
  constructor
  · intro r t hne hquiet herr hlate hstep
    have hover := Ticker.overdue_of_late (by decide) (hP.symm ▸ hlate) (UInt64.toNat_lt r.start) hne
      hfirst (hclocked.quiet hquiet)
    obtain ⟨-, hmove⟩ := fillMove_of_step hstep
    cases hmove with
    | exit hret hfin =>
      rw [error_of_exit hfin] at herr
      cases herr
    | @finish _ _ pc itp idp stop long hret hfin =>
      rcases ioFinish_clock hfin with ⟨herr', -, -⟩ | ⟨-, -, hstop, -, -⟩
      · rw [herr] at herr'
        cases herr'
      · have hyes : stop = true := hstop.mpr (hclocked.clock ▸ hover)
        rw [hyes, if_pos rfl, if_pos rfl]
        refine ⟨rfl, ?_⟩
        dsimp only
        rw [Function.update_self, hquiet]
  · rintro ⟨start, hmem, hlate⟩
    refine Nat.pos_of_ne_zero fun hz => hclocked.quiet hz ?_
    exact Ticker.anyOverdue_of_late (by decide) hlt hfirst hmem (hP.symm ▸ hlate)

end Deadline

/-- A schedule with an I/O before the deadline, and the next one under way. -/
def onTimeSchedule : List (Act 1) :=
  [.claim 0 0 0, .issue 0 0, .finish 0 ⟨1, 2, false, 0, 0⟩, .issue 0 0]

/-- With the deadline at 5 ns the next one started a second and 2 ns after the first. -/
theorem deadline_honoured_small : ∃ s t,
    (fill smallFill 5 1).exec onTimeSchedule (fillInit smallFill 1) = some s ∧
    (fill smallFill 5 1).step (.finish 0 ⟨1000000006, 1000000007, false, 0, 0⟩) s = some t ∧
    t.threadBno = s.threadBno + (fthreadinit smallFill).totalio ∧ t.stops 0 = 1 := by
  obtain ⟨s, t, hexec, hstep, hquiet⟩ : ∃ s t,
      (fill smallFill 5 1).exec onTimeSchedule (fillInit smallFill 1) = some s ∧
      (fill smallFill 5 1).step (.finish 0 ⟨1000000006, 1000000007, false, 0, 0⟩) s = some t ∧
      s.stops 0 = 0 := ⟨_, _, rfl, rfl, rfl⟩
  have hstarts : starts 0 onTimeSchedule = [1] := by decide
  have hfirst : ∀ start ∈ (starts 0 onTimeSchedule).getLast?, start ≤ (5 : UInt64).toNat := by
    rw [hstarts]
    decide
  have hadds := (deadline_honoured (Machine.run_of_exec hexec) 0 hfirst).1 _ t
    (by rw [hstarts]; decide) hquiet rfl (by decide) hstep
  exact ⟨s, t, hexec, hstep, hadds⟩

/-! ## The table of seconds -/

abbrev startsOf (ios : List Iodet) : List ℕ := ios.map fun idp => idp.start.toNat

/-- Each I/O, the latest first, is stamped with the number the clock came to with it. -/
def Stamped : List Iodet → Prop
  | [] => True
  | idp :: ios => idp.seconds.toNat = (clockAfter (startsOf (idp :: ios))).count ∧ Stamped ios

/-- The clock of a thread is that of its I/Os, and so are their stamps. -/
structure TimeKept (tp : IoThread) (ios : List Iodet) : Prop where
  clock : tp.clock = clockAfter (startsOf ios)
  stamped : Stamped ios
  room : tp.nseconds < nsec

/-- What the table promises of a thread that has finished the I/Os `ios`, the latest first: each
is counted in the second it is stamped with, and started in it, or past the end of the table
when that is the last second. -/
structure FiledRight (tp : IoThread) (ios : List Iodet) : Prop where
  counted : ∀ i, tp.seconds i = Int32.ofNat (inSecond i ios)
  filed : ∀ s₀ ∈ (startsOf ios).getLast?, ∀ idp ∈ ios,
    Ticker.Filed nsecToSec.toNat (nsec - 1) s₀ idp.seconds.toNat idp.start.toNat

/-- No start skips a second, and none follows another one in the last second below `2 ^ 64`. -/
def Steady (starts : List ℕ) : Prop :=
  ∀ s₀ ∈ starts.getLast?, Ticker.Paced (2 ^ 64) nsecToSec.toNat (nsec - 1) s₀ starts

section Seconds

variable {endtime : UInt64} {tp tp' : IoThread} {idp idp' : Iodet} {r : IoResult}
  {stop long : Bool} {ios : List Iodet} {files : List (CmdParams × ℕ × UInt64)} {s : List FileRun}

theorem timeKept_init (cp : CmdParams) (threadid : ℕ) : TimeKept (ithreadinit cp threadid) [] :=
  ⟨rfl, trivial, Nat.pos_of_ne_zero (by decide)⟩

theorem TimeKept.finish (h : TimeKept tp ios)
    (hfin : ioFinish endtime tp idp r = .ret tp' idp' stop long) :
    TimeKept tp' (if r.error then ios else idp' :: ios) := by
  rcases ioFinish_clock hfin with ⟨herr, rfl, -⟩ | ⟨herr, hclock, -, hstart, hstamp⟩
  · rwa [herr, if_pos rfl]
  · rw [herr, if_neg Bool.false_ne_true]
    have hroom : tp'.nseconds < nsec := by
      rcases ioFinish_counts hfin with ⟨herr', -⟩ | ⟨-, hcounts⟩
      · rw [herr] at herr'
        cases herr'
      · exact hcounts.clock h.room
    have hclock' : tp'.clock = clockAfter (startsOf (idp' :: ios)) := by
      rw [hclock, h.clock, ← hstart]
      rfl
    have hnsec : nsec = 20000 := rfl
    refine ⟨hclock', ⟨?_, h.stamped⟩, hroom⟩
    rw [hstamp, UInt32.toNat_ofNat', Nat.mod_eq_of_lt (by omega), ← hclock', IoThread.clock]

/-- With the stamps of the clock, the ticker has filed its events when the I/Os are in the
seconds they are stamped with. -/
theorem allFiled_startsOf (hstamped : Stamped ios) (t₀ : ℕ) :
    Ticker.AllFiled (2 ^ 64) nsecToSec.toNat (nsec - 1) t₀ (startsOf ios) ↔
      ∀ idp ∈ ios,
        Ticker.Filed nsecToSec.toNat (nsec - 1) t₀ idp.seconds.toNat idp.start.toNat := by
  induction ios with
  | nil => exact iff_of_true trivial fun idp hidp => absurd hidp List.not_mem_nil
  | cons idp ios ih =>
    rw [List.forall_mem_cons, hstamped.1, ← ih hstamped.2]
    exact Iff.rfl

theorem sorted_iff : (ios.Pairwise fun idp earlier => earlier.start ≤ idp.start) ↔
    (startsOf ios).Pairwise (· ≥ ·) := by
  rw [startsOf, List.pairwise_map]
  exact List.Pairwise.iff fun _ _ => UInt64.le_iff_toNat_le

theorem filedRight_iff (hkept : TimeKept tp ios)
    (hcounted : ∀ i, tp.seconds i = Int32.ofNat (inSecond i ios))
    (hsorted : ios.Pairwise fun idp earlier => earlier.start ≤ idp.start) :
    FiledRight tp ios ↔ Steady (startsOf ios) := by
  have hiff : ∀ s₀ ∈ (startsOf ios).getLast?,
      ((∀ idp ∈ ios, Ticker.Filed nsecToSec.toNat (nsec - 1) s₀ idp.seconds.toNat
          idp.start.toNat) ↔
        Ticker.Paced (2 ^ 64) nsecToSec.toNat (nsec - 1) s₀ (startsOf ios)) := by
    intro s₀ hs₀
    rw [← allFiled_startsOf hkept.stamped]
    refine Ticker.allFiled_iff (by decide) (by decide) (sorted_iff.mp hsorted) ?_ hs₀
    intro start hmem
    obtain ⟨idp, -, rfl⟩ := List.mem_map.mp hmem
    exact UInt64.toNat_lt _
  exact ⟨fun hright s₀ hs₀ => (hiff s₀ hs₀).mp (hright.filed s₀ hs₀),
    fun hsteady => ⟨hcounted, fun s₀ hs₀ => (hiff s₀ hs₀).mpr (hsteady s₀ hs₀)⟩⟩

/-- **When the table files a thread's I/Os under their seconds**, for starts that do not go back:
exactly when they are steady.

The clock goes on by one second at an I/O, however long ago the last one was. So a gap of more
than a second puts it behind, and it stays behind until there have been as many I/Os as seconds;
and near `2 ^ 64` the end of the second wraps to a small number, which every later start is past.
`Steady` excludes just these two. -/
theorem seconds_filed_iff (h : (completions files).Reachable Machine.always s) {ftp : FileRun}
    (hftp : ftp ∈ s) {t : ℕ} (ht : ftp.ithreads[t]? = some tp)
    (hsorted : (ofThread t ftp.done).Pairwise fun idp earlier => earlier.start ≤ idp.start) :
    FiledRight tp (ofThread t ftp.done) ↔ Steady (startsOf (ofThread t ftp.done)) :=
  filedRight_iff
    (threads_of_reachable timeKept_init (fun hk hfin => hk.finish hfin) h ftp hftp t tp ht)
    ((conserved_of_reachable h ftp hftp).threads t tp ht).seconds hsorted

/-- Three reads, of which the last is in the second after the others. -/
theorem seconds_filed_small : ∃ s ftp tp, (completions oneFile).exec
    [⟨0, 0, slowRead, took 1 2⟩, ⟨0, 0, slowRead, took 5 6⟩,
      ⟨0, 0, slowRead, took 1500000000 1500000009⟩] (completions oneFile).init = some s ∧
    s[0]? = some ftp ∧ ftp.ithreads[0]? = some tp ∧ FiledRight tp (ofThread 0 ftp.done) := by
  obtain ⟨s, ftp, tp, hexec, hf, ht, hstarts⟩ : ∃ s ftp tp, (completions oneFile).exec
      [⟨0, 0, slowRead, took 1 2⟩, ⟨0, 0, slowRead, took 5 6⟩,
        ⟨0, 0, slowRead, took 1500000000 1500000009⟩] (completions oneFile).init = some s ∧
      s[0]? = some ftp ∧ ftp.ithreads[0]? = some tp ∧
      startsOf (ofThread 0 ftp.done) = [1500000000, 5, 1] :=
    ⟨_, _, _, rfl, rfl, rfl, rfl⟩
  have hsorted := sorted_iff.mpr (show (startsOf (ofThread 0 ftp.done)).Pairwise (· ≥ ·) by
    rw [hstarts]
    decide)
  refine ⟨s, ftp, tp, hexec, hf, ht, (seconds_filed_iff ⟨_, Machine.run_of_exec hexec⟩
    (List.mem_of_getElem? hf) ht hsorted).mpr ?_⟩
  rw [hstarts]
  intro s₀ hs₀
  cases hs₀
  exact ⟨.inr ⟨.inl (by decide), .inl (by decide)⟩, .inr ⟨.inl (by decide), .inl (by decide)⟩,
    trivial⟩

/-- A read five seconds after the first is filed under the second after it. -/
theorem second_skipped : ¬ ∀ (files : List (CmdParams × ℕ × UInt64)) (s : List FileRun)
    (ftp : FileRun) (t : ℕ) (tp : IoThread), (completions files).Reachable Machine.always s →
    ftp ∈ s → ftp.ithreads[t]? = some tp →
    ((ofThread t ftp.done).Pairwise fun idp earlier => earlier.start ≤ idp.start) →
    FiledRight tp (ofThread t ftp.done) := by
  intro h
  obtain ⟨s, ftp, tp, hexec, hf, ht, hdone⟩ : ∃ s ftp tp, (completions oneFile).exec
      [⟨0, 0, slowRead, took 1 2⟩, ⟨0, 0, slowRead, took 5000000001 5000000002⟩]
      (completions oneFile).init = some s ∧
      s[0]? = some ftp ∧ ftp.ithreads[0]? = some tp ∧
      (ofThread 0 ftp.done).map (fun idp => (idp.seconds.toNat, idp.start.toNat)) =
        [(1, 5000000001), (0, 1)] :=
    ⟨_, _, _, rfl, rfl, rfl, rfl⟩
  have hstarts : startsOf (ofThread 0 ftp.done) = [5000000001, 1] := by
    have hmap := congrArg (List.map Prod.snd) hdone
    rwa [List.map_map] at hmap
  have hsorted := sorted_iff.mpr (show (startsOf (ofThread 0 ftp.done)).Pairwise (· ≥ ·) by
    rw [hstarts]
    decide)
  have hright := h oneFile s ftp 0 tp ⟨_, Machine.run_of_exec hexec⟩ (List.mem_of_getElem? hf) ht
    hsorted
  have hlast : (1, 5000000001) ∈
      (ofThread 0 ftp.done).map fun idp => (idp.seconds.toNat, idp.start.toNat) := by
    rw [hdone]
    exact List.mem_cons_self
  obtain ⟨idp, hmem, heq⟩ := List.mem_map.mp hlast
  have hfiled := hright.filed 1 (by rw [hstarts]; rfl) idp hmem
  rw [(Prod.mk.inj heq).1, (Prod.mk.inj heq).2] at hfiled
  rcases hfiled with ⟨-, hle⟩ | ⟨heq, -⟩
  · exact absurd hle (by decide)
  · exact absurd heq (by decide)

end Seconds

end Iofill
end Blockbench
