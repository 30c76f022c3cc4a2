import Blockbench.Lib.Quiesce
import Blockbench.Iofill.Handshake

/-!
# `Iofill/Rendezvous.lean` — a burst is alone

`ithreadinit` leaves `writeinject` and `injectinterval_io` to thread 0, so the threads of
`Iofill/Handshake.lean` are a leader and workers of `Quiesce`. `Rendezvous` is that protocol's
invariant, with what the program counters of the two machines have to do with one another. Most
steps are not seen by the protocol (`Rendezvous.quiet`), and the others are a move of the leader
(`Rendezvous.leads`) or of one worker (`Rendezvous.follows`).

While thread 0 is between `io_stop` and `io_restart`, every other thread is waiting on its
`iostart` with nothing in hand and cannot step (`burst_alone`).
-/

set_option autoImplicit false

namespace Blockbench
namespace Iofill

open Quiesce

variable {T : ℕ}

/-! ## One thread moves at a time -/

structure OnlyMoved (i : Fin T) (s t : InjectState T) : Prop where
  place : ∀ j, j ≠ i → t.place j = s.place j
  thread : ∀ j, j ≠ i → t.fill.thread j = s.fill.thread j
  params : (t.fill.thread i).itp.params = (s.fill.thread i).itp.params

section Frame

variable {cp : CmdParams} {ip : InjectParams} {endtime : UInt64} {s t : InjectState T} {i : Fin T}

@[simp] theorem InjectState.go_place (pl : Place) :
    (s.go i pl).place = Function.update s.place i pl := rfl

@[simp] theorem InjectState.go_fill (pl : Place) : (s.go i pl).fill = s.fill := rfl

@[simp] theorem InjectState.go_iowait (pl : Place) : (s.go i pl).iowait = s.iowait := rfl

@[simp] theorem InjectState.go_iostart (pl : Place) : (s.go i pl).iostart = s.iostart := rfl

@[simp] theorem InjectState.go_iostop (pl : Place) : (s.go i pl).iostop = s.iostop := rfl

@[simp] theorem InjectState.go_injected (pl : Place) : (s.go i pl).injected = s.injected := rfl

@[simp] theorem InjectState.go_seg (pl : Place) : (s.go i pl).seg = s.seg := rfl

@[simp] theorem InjectState.enter_place (site : Site) (flush : Bool) :
    (s.enter i site flush).place = Function.update s.place i (.stop site flush 0) := rfl

theorem fill_frame {a : Act T} {f f' : FillState T} (h : (fill cp endtime T).step a f = some f') :
    (∀ j, j ≠ a.thread → f'.thread j = f.thread j) ∧
      (f'.thread a.thread).itp.params = (f.thread a.thread).itp.params := by
  cases (fillMove_of_step h).2 with
  | inject hpc hon =>
    refine ⟨fun j hj => ?_, ?_⟩
    · exact Function.update_of_ne hj _ _
    · simp [Act.thread]
  | @claim i rand nextbno hpc =>
    refine ⟨fun j hj => ?_, ?_⟩
    · exact Function.update_of_ne hj _ _
    · simp only [FillState.set_thread, Act.thread, Function.update_self]
      unfold claimed
      dsimp only
      split
      · rfl
      · split
        · rfl
        · split <;> rfl
  | issue hl =>
    refine ⟨fun j hj => ?_, ?_⟩
    · exact Function.update_of_ne hj _ _
    · simp only [FillState.set_thread, Act.thread, Function.update_self]
      unfold issued at hl
      split at hl <;> cases hl <;> rfl
  | exit hret hfin => exact ⟨fun _ _ => rfl, rfl⟩
  | finish hret hfin =>
    refine ⟨fun j hj => ?_, ?_⟩
    · exact Function.update_of_ne hj _ _
    · simp only [FillState.set_thread, Act.thread, Function.update_self]
      exact (ioFinish_keeps hfin).1
  | bottom hpc =>
    refine ⟨fun j hj => ?_, ?_⟩
    · exact Function.update_of_ne hj _ _
    · simp only [FillState.set_thread, Act.thread, Function.update_self]
      unfold loopEnd
      dsimp only
      split <;> rfl

theorem fill_pc {a : Act T} {f f' : FillState T} (h : (fill cp endtime T).step a f = some f') :
    (f.thread a.thread).pc ≠ .done := by
  cases (fillMove_of_step h).2 with
  | inject hpc hon => exact fun hd => nomatch hpc.symm.trans hd
  | claim hpc => exact fun hd => nomatch hpc.symm.trans hd
  | @issue i u l hl =>
    intro hd
    unfold issued at hl
    rw [show (f.thread i).pc = .done from hd] at hl
    cases hl
  | @exit i r pc hret hfin =>
    intro hd
    rw [show (f.thread i).pc = .done from hd] at hret
    cases hret
  | @finish i r pc itp idp stop long hret hfin =>
    intro hd
    rw [show (f.thread i).pc = .done from hd] at hret
    cases hret
  | bottom hpc => exact fun hd => nomatch hpc.symm.trans hd

/-- `io_finish` for a request of a burst leaves the place in the loop. -/
theorem injectFinish_frame (i : Fin T) (endtime totalio : UInt64) (r : IoResult)
    (f : FillState T) :
    (∀ j, j ≠ i → (injectFinish totalio endtime i r f).thread j = f.thread j) ∧
      ((injectFinish totalio endtime i r f).thread i).itp.params = (f.thread i).itp.params ∧
      ((injectFinish totalio endtime i r f).thread i).pc = (f.thread i).pc := by
  unfold injectFinish
  split
  · exact ⟨fun _ _ => rfl, rfl, rfl⟩
  · rename_i hfin
    refine ⟨fun j hj => Function.update_of_ne hj _ _, ?_, ?_⟩
    · simpa using (ioFinish_keeps hfin).1
    · simp

/-- Only a thread with an interval is sent to inject by the number it claimed. -/
theorem injectintervalIo_of_claimed {totalio rand nextbno k : UInt64} {l : LoopState}
    (h : (claimed totalio rand nextbno l k).pc = .inject) :
    l.itp.params.injectintervalIo ≠ 0 := by
  unfold claimed at h
  dsimp only at h
  split at h
  · cases h
  · split at h
    · rename_i hinj
      exact hinj.1
    · split at h <;> cases h

theorem resume_params (site : Site) (l : LoopState) :
    (site.resume l).itp.params = l.itp.params := by
  cases site <;> rfl

/-- A step that changes the place of one thread, and nothing the fill knows of. -/
theorem onlyMoved_at {pl : Place} (hplace : t.place = Function.update s.place i pl)
    (hfill : t.fill = s.fill) : OnlyMoved i s t where
  place j hj := by rw [hplace, Function.update_of_ne hj]
  thread j _ := by rw [hfill]
  params := by rw [hfill]

theorem onlyMoved_go (pl : Place) : OnlyMoved i s (s.go i pl) := onlyMoved_at rfl rfl

/-- A step that changes the place of one thread, and what the fill knows of it. -/
theorem onlyMoved_set {pl : Place} {l : LoopState}
    (hl : l.itp.params = (s.fill.thread i).itp.params)
    (hplace : t.place = Function.update s.place i pl)
    (hfill : t.fill = s.fill.set i l) : OnlyMoved i s t where
  place j hj := by rw [hplace, Function.update_of_ne hj]
  thread j hj := by rw [hfill, FillState.set_thread, Function.update_of_ne hj]
  params := by rw [hfill, FillState.set_thread, Function.update_self, hl]

theorem onlyMoved_stay {a : Act T} {f : FillState T}
    (hstep : (fill cp endtime T).step a s.fill = some f) :
    OnlyMoved a.thread s { s with fill := f } :=
  let ⟨hothers, hparams⟩ := fill_frame hstep
  ⟨fun _ _ => rfl, hothers, hparams⟩

theorem onlyMoved_fill {pl : Place} {a : Act T} {f : FillState T}
    (hstep : (fill cp endtime T).step a s.fill = some f) (ha : a.thread = i)
    (hplace : t.place = Function.update s.place i pl) (hfill : t.fill = f) :
    OnlyMoved i s t := by
  obtain ⟨hothers, hparams⟩ := fill_frame hstep
  subst hfill ha
  refine ⟨fun j hj => ?_, hothers, hparams⟩
  rw [hplace, Function.update_of_ne hj]

/-- **A step is one thread's**, and leaves it its parameters. -/
theorem InjectMove.onlyMoved (h : InjectMove cp ip endtime s i t) : OnlyMoved i s t := by
  cases h with
  | due => exact onlyMoved_set (l := { s.fill.thread i with pc := .inject }) rfl rfl rfl
  | number _ hstep | bottom _ hstep => exact onlyMoved_fill hstep rfl rfl rfl
  | fill _ hstep => exact onlyMoved_stay hstep
  | @recoverStart _ _ _ itp _ hitp =>
    exact onlyMoved_set (l := { s.fill.thread i with itp := itp }) hitp rfl rfl
  | @recover _ _ _ d =>
    exact onlyMoved_set (l := { s.fill.thread i with detail := d }) rfl rfl rfl
  | @request _ _ _ _ d =>
    exact onlyMoved_set (l := { s.fill.thread i with detail := d }) rfl rfl rfl
  | finish =>
    obtain ⟨hothers, hparams, -⟩ := injectFinish_frame i endtime
      (fthreadinit cp).totalio _ s.fill
    exact ⟨fun _ hj => Function.update_of_ne hj _ _, hothers, hparams⟩
  | returned => exact onlyMoved_set (resume_params _ _) rfl rfl
  | early | see | pass | skipStop | recovered | skipRestart => exact onlyMoved_go _
  | answer | wake | collect | stopped | startRestart | release => exact onlyMoved_at rfl rfl

end Frame

/-! ## The protocol behind it -/

@[simp] def Place.leader : Place → Leader
  | .stop _ _ k => .stopping k
  | .inject _ _ | .injectIo _ _ => .still
  | .restart _ k => .starting k
  | .top | .check | .answer | .parked | .loop => .free

@[simp] def Place.worker : Place → Pc → Worker
  | .answer, _ => .answering
  | .parked, _ => .parked
  | .loop, .done => .left
  | _, _ => .running

@[simp] def Place.Fits : Place → Pc → Prop
  | .top, pc | .check, pc | .answer, pc | .parked, pc => pc = .claim
  | .loop, pc => pc ≠ .inject
  | .stop _ _ _, pc | .inject _ _, pc | .injectIo _ _, pc | .restart _ _, pc => pc = .inject

def InjectState.worker (s : InjectState T) (i : Fin T) : Worker :=
  (s.place i).worker (s.fill.thread i).pc

/-- Thread 0 leads, and agrees with each of the others.

The fields up to `self` say who can be where, and make the two machines one protocol; `flag` and
`link` are the protocol. The link is between thread 0 and one other thread at a time, so a step of
a worker has one link to keep, and only the steps of thread 0 have to do with all of them. -/
structure Rendezvous (cp : CmdParams) (s : InjectState T) : Prop where
  params : ∀ i : Fin T, (s.fill.thread i).itp.params = threadParams cp i
  fits : ∀ i, (s.place i).Fits (s.fill.thread i).pc
  lead : ∀ i : Fin T, (i : ℕ) ≠ 0 → (s.place i).leader = .free
  self : ∀ i : Fin T, (i : ℕ) = 0 → s.worker i ≠ .answering ∧ s.worker i ≠ .parked
  flag : ∀ i : Fin T, (i : ℕ) = 0 → (s.iowait = true ↔ (s.place i).leader.Raised)
  link : ∀ z i : Fin T, (z : ℕ) = 0 → (i : ℕ) ≠ 0 →
    Linked (s.place z).leader i (s.worker i) (s.iostart i) (s.iostop i)

section Invariant

variable {cp : CmdParams} {ip : InjectParams} {endtime : UInt64} {starttime : Fin T → UInt64}
  {draws : Fin T → ℕ → ℕ × ℕ} {s t : InjectState T} {i : Fin T}

theorem rendezvous_init : Rendezvous cp (injectInit cp ip starttime draws) where
  params _ := rfl
  fits _ := rfl
  lead _ _ := rfl
  self _ _ := ⟨nofun, nofun⟩
  flag _ _ := by simp [injectInit]
  link _ _ _ _ := linked_init

theorem OnlyMoved.worker (h : OnlyMoved i s t) {j : Fin T} (hj : j ≠ i) :
    t.worker j = s.worker j := by
  unfold InjectState.worker
  rw [h.place j hj, h.thread j hj]

theorem OnlyMoved.params_eq (h : OnlyMoved i s t) (hs : Rendezvous cp s) (j : Fin T) :
    (t.fill.thread j).itp.params = threadParams cp j := by
  by_cases hj : j = i
  · subst hj
    exact h.params.trans (hs.params j)
  · rw [h.thread j hj]
    exact hs.params j

theorem OnlyMoved.fits (h : OnlyMoved i s t) (hs : Rendezvous cp s)
    (hi : (t.place i).Fits (t.fill.thread i).pc) (j : Fin T) :
    (t.place j).Fits (t.fill.thread j).pc := by
  by_cases hj : j = i
  · subst hj
    exact hi
  · rw [h.place j hj, h.thread j hj]
    exact hs.fits j

theorem fin_eq_zero {z i : Fin T} (hz : (z : ℕ) = 0) (hi : (i : ℕ) = 0) : z = i :=
  Fin.ext (hz.trans hi.symm)

theorem fin_ne_zero {z i : Fin T} (hz : (z : ℕ) = 0) (hi : (i : ℕ) ≠ 0) : z ≠ i :=
  fun h => hi (h ▸ hz)

/-- A step that the protocol does not see, or in which a thread leaves its loop. -/
theorem Rendezvous.quiet (hs : Rendezvous cp s) (h : OnlyMoved i s t)
    (hfits : (t.place i).Fits (t.fill.thread i).pc)
    (hleader : (t.place i).leader = (s.place i).leader)
    (hworker : t.worker i = s.worker i ∨ s.worker i = .running ∧ t.worker i = .left)
    (hwait : t.iowait = s.iowait) (hsem : t.iostart = s.iostart ∧ t.iostop = s.iostop) :
    Rendezvous cp t := by
  have hall : ∀ j, (t.place j).leader = (s.place j).leader := by
    intro j
    by_cases hj : j = i
    · subst hj
      exact hleader
    · rw [h.place j hj]
  refine ⟨h.params_eq hs, h.fits hs hfits, ?_, ?_, ?_, ?_⟩
  · intro j hj
    rw [hall j]
    exact hs.lead j hj
  · intro j hj
    by_cases hji : j = i
    · subst hji
      rcases hworker with heq | ⟨-, hleft⟩
      · rw [heq]
        exact hs.self j hj
      · rw [hleft]
        exact ⟨nofun, nofun⟩
    · rw [h.worker hji]
      exact hs.self j hj
  · intro j hj
    rw [hwait, hall j]
    exact hs.flag j hj
  · intro z j hz hj
    rw [hall z, hsem.1, hsem.2]
    have hlink := hs.link z j hz hj
    by_cases hji : j = i
    · subst hji
      rcases hworker with heq | ⟨hrun, hleft⟩
      · rwa [heq]
      · rw [hrun] at hlink
        rw [hleft]
        exact hlink.leave
    · rwa [h.worker hji]

theorem Rendezvous.leads (hs : Rendezvous cp s) (h : OnlyMoved i s t) (hi : (i : ℕ) = 0)
    (hfits : (t.place i).Fits (t.fill.thread i).pc)
    (hself : t.worker i ≠ .answering ∧ t.worker i ≠ .parked)
    (hflag : t.iowait = true ↔ (t.place i).leader.Raised)
    (hlink : ∀ j : Fin T, (j : ℕ) ≠ 0 →
      Linked (s.place i).leader j (s.worker j) (s.iostart j) (s.iostop j) →
      Linked (t.place i).leader j (s.worker j) (t.iostart j) (t.iostop j)) :
    Rendezvous cp t := by
  refine ⟨h.params_eq hs, h.fits hs hfits, ?_, ?_, ?_, ?_⟩
  · intro j hj
    rw [h.place j (fin_ne_zero hi hj).symm]
    exact hs.lead j hj
  · intro j hj
    rw [fin_eq_zero hj hi]
    exact hself
  · intro j hj
    rw [fin_eq_zero hj hi]
    exact hflag
  · intro z j hz hj
    rw [fin_eq_zero hz hi, h.worker (fin_ne_zero hi hj).symm]
    exact hlink j hj (hs.link i j hi hj)

theorem Rendezvous.follows (hs : Rendezvous cp s) (h : OnlyMoved i s t) (hi : (i : ℕ) ≠ 0)
    (hfits : (t.place i).Fits (t.fill.thread i).pc) (hfree : (t.place i).leader = .free)
    (hwait : t.iowait = s.iowait)
    (hsem : ∀ j, j ≠ i → t.iostart j = s.iostart j ∧ t.iostop j = s.iostop j)
    (hlink : ∀ z : Fin T, (z : ℕ) = 0 →
      Linked (s.place z).leader i (s.worker i) (s.iostart i) (s.iostop i) →
      Linked (s.place z).leader i (t.worker i) (t.iostart i) (t.iostop i)) :
    Rendezvous cp t := by
  refine ⟨h.params_eq hs, h.fits hs hfits, ?_, ?_, ?_, ?_⟩
  · intro j hj
    by_cases hji : j = i
    · subst hji
      exact hfree
    · rw [h.place j hji]
      exact hs.lead j hj
  · intro j hj
    rw [h.worker (fin_ne_zero hj hi)]
    exact hs.self j hj
  · intro j hj
    rw [hwait, h.place j (fin_ne_zero hj hi)]
    exact hs.flag j hj
  · intro z j hz hj
    rw [h.place z (fin_ne_zero hz hi)]
    by_cases hji : j = i
    · subst hji
      exact hlink z hz (hs.link z j hz hj)
    · rw [h.worker hji, (hsem j hji).1, (hsem j hji).2]
      exact hs.link z j hz hj

/-! ## The steps -/

theorem threadParams_worker (cp : CmdParams) {k : ℕ} (hk : k ≠ 0) :
    (threadParams cp k).writeinject = 0 ∧ (threadParams cp k).injectintervalIo = 0 := by
  unfold threadParams
  dsimp only
  rw [if_pos hk]
  split <;> split <;> exact ⟨rfl, rfl⟩

theorem Rendezvous.zero_of_leads (hs : Rendezvous cp s) (h : (s.place i).leader ≠ .free) :
    (i : ℕ) = 0 := by
  by_contra hi
  exact h (hs.lead i hi)

theorem worker_eq (pl : Place) (hplace : s.place i = pl) :
    s.worker i = pl.worker (s.fill.thread i).pc := by
  rw [InjectState.worker, hplace]

theorem Rendezvous.enter (hs : Rendezvous cp s) (h : OnlyMoved i s t) (hi : (i : ℕ) = 0)
    {site : Site} {flush : Bool} (hfree : (s.place i).leader = .free)
    (hplace : t.place i = .stop site flush 0) (hpc : (t.fill.thread i).pc = .inject)
    (hwait : t.iowait = true) (hsem : t.iostart = s.iostart ∧ t.iostop = s.iostop) :
    Rendezvous cp t := by
  refine hs.leads h hi ?_ ?_ ?_ ?_
  · rw [hplace]
    exact hpc
  · rw [worker_eq _ hplace]
    exact ⟨nofun, nofun⟩
  · rw [hwait, hplace]
    simp
  · intro j _ hlink
    rw [hfree] at hlink
    rw [hplace, hsem.1, hsem.2]
    exact hlink.raise

/-- Thread 0 goes on in one of its two loops, or between them, and leaves the flag as it is. -/
theorem Rendezvous.leading (hs : Rendezvous cp s) (h : OnlyMoved i s t)
    (hfrom : (s.place i).leader ≠ .free) (hto : (t.place i).leader ≠ .free)
    (hfits : (t.place i).Fits (t.fill.thread i).pc)
    (hflag : t.iowait = s.iowait ∧ ((t.place i).leader.Raised ↔ (s.place i).leader.Raised))
    (hlink : ∀ j : Fin T, (j : ℕ) ≠ i →
      Linked (s.place i).leader j (s.worker j) (s.iostart j) (s.iostop j) →
      Linked (t.place i).leader j (s.worker j) (t.iostart j) (t.iostop j)) :
    Rendezvous cp t := by
  have hi : (i : ℕ) = 0 := hs.zero_of_leads hfrom
  refine hs.leads h hi hfits ?_ ?_ ?_
  · rw [InjectState.worker]
    cases hp : t.place i <;> simp_all
  · rw [hflag.1, hflag.2]
    exact hs.flag i hi
  · intro j hj
    exact hlink j (by omega)

theorem resume_spec (site : Site) (l : LoopState) :
    site.next.Fits (site.resume l).pc ∧ site.next.leader = .free ∧
      site.next.worker (site.resume l).pc = .running := by
  cases site with
  | timer => exact ⟨rfl, rfl, rfl⟩
  | number k rand nextbno =>
    refine ⟨?_, rfl, ?_⟩ <;> simp only [Site.next, Site.resume] <;> split <;> simp

/-! ### The calls of `do_write_inject`

Neither is made by a thread other than 0, whose `writeinject` and `injectinterval_io` are zero. -/

theorem Rendezvous.due (hs : Rendezvous cp s) {next nextflush : Fin T → UInt64} {flush : Bool}
    (hplace : s.place i = .top) (hon : (s.fill.thread i).itp.params.writeinject ≠ 0) :
    Rendezvous cp { s.enter i .timer flush with
      fill := s.fill.set i { s.fill.thread i with pc := .inject }
      next := next
      nextflush := nextflush } := by
  have hi : (i : ℕ) = 0 := by
    by_contra hi
    rw [hs.params i] at hon
    exact hon (threadParams_worker cp hi).1
  refine hs.enter (onlyMoved_set (l := { s.fill.thread i with pc := .inject }) rfl rfl rfl) hi
    (by simp [hplace]) (Function.update_self ..) ?_ rfl ⟨rfl, rfl⟩
  simp

theorem Rendezvous.number (hs : Rendezvous cp s) {site : Site} {flush : Bool}
    {rand nextbno : UInt64} {f : FillState T} (hplace : s.place i = .loop)
    (hstep : (fill cp endtime T).step (.claim i rand nextbno) s.fill = some f)
    (hpc : (f.thread i).pc = .inject) :
    Rendezvous cp { s.enter i site flush with fill := f } := by
  have hi : (i : ℕ) = 0 := by
    by_contra hi
    cases (fillMove_of_step hstep).2 with
    | claim hclaim =>
      simp only [FillState.set_thread, Function.update_self] at hpc
      have hne := injectintervalIo_of_claimed hpc
      rw [hs.params i] at hne
      exact hne (threadParams_worker cp hi).2
  have honly : OnlyMoved i s { s.enter i site flush with fill := f } :=
    onlyMoved_fill hstep rfl rfl rfl
  exact hs.enter honly hi (by simp [hplace]) (Function.update_self ..) hpc rfl ⟨rfl, rfl⟩

/-! ### A worker's way through the handshake -/

theorem Rendezvous.see (hs : Rendezvous cp s) (hplace : s.place i = .check)
    (hwait : s.iowait = true) : Rendezvous cp (s.go i .answer) := by
  have hfits := hs.fits i
  rw [hplace] at hfits
  have hi : (i : ℕ) ≠ 0 := by
    intro hi
    have hraised := (hs.flag i hi).mp hwait
    rw [hplace] at hraised
    exact absurd hraised (by simp)
  refine hs.follows (onlyMoved_go _) hi (by simpa using hfits) (by simp) rfl
    (fun _ _ => ⟨rfl, rfl⟩) ?_
  intro z hz hlink
  rw [worker_eq _ hplace] at hlink
  rw [worker_eq .answer (by simp)]
  exact hlink.see ((hs.flag z hz).mp hwait)

theorem Rendezvous.answer (hs : Rendezvous cp s) (hplace : s.place i = .answer) :
    Rendezvous cp { s.go i .parked with iostop := semaPost s.iostop i } := by
  have hfits := hs.fits i
  rw [hplace] at hfits
  have hi : (i : ℕ) ≠ 0 := by
    intro hi
    exact (hs.self i hi).1 (by simp [worker_eq _ hplace])
  refine hs.follows (onlyMoved_at rfl rfl) hi (by simpa using hfits) (by simp) rfl
    (fun j hj => ⟨rfl, Function.update_of_ne hj _ _⟩) ?_
  intro z hz hlink
  rw [worker_eq _ hplace] at hlink
  rw [worker_eq .parked (by simp)]
  simp only [semaPost, Function.update_self]
  exact hlink.park

theorem Rendezvous.wake (hs : Rendezvous cp s) {sem : Fin T → ℕ} (hplace : s.place i = .parked)
    (hsem : semaWait s.iostart i = some sem) :
    Rendezvous cp { s.go i .loop with iostart := sem } := by
  have hfits := hs.fits i
  rw [hplace, Place.Fits] at hfits
  have hi : (i : ℕ) ≠ 0 := by
    intro hi
    exact (hs.self i hi).2 (by simp [worker_eq _ hplace])
  refine hs.follows (onlyMoved_at rfl rfl) hi (by simp [hfits]) (by simp) rfl
    (fun j hj => ⟨semaWait_of_ne hsem hj, rfl⟩) ?_
  intro z hz hlink
  rw [worker_eq _ hplace, semaWait_self hsem] at hlink
  rw [worker_eq .loop (by simp)]
  simpa [hfits] using hlink.wake

/-! ### The fill's own steps

The protocol sees nothing of them, but that a thread whose number was too large leaves. -/

theorem Rendezvous.fill (hs : Rendezvous cp s) {a : Act T} {f : FillState T}
    (hplace : s.place a.thread = .loop)
    (hstep : (Iofill.fill cp endtime T).step a s.fill = some f)
    (hpc : (f.thread a.thread).pc ≠ .inject) : Rendezvous cp { s with fill := f } := by
  have hdone := fill_pc hstep
  refine hs.quiet (onlyMoved_stay hstep) ?_ rfl ?_ rfl ⟨rfl, rfl⟩
  · show (s.place a.thread).Fits (f.thread a.thread).pc
    rw [hplace]
    exact hpc
  · have hrun : s.worker a.thread = .running := by
      rw [worker_eq _ hplace]
      cases hp : (s.fill.thread a.thread).pc <;> simp_all
    rw [hrun, InjectState.worker]
    show (s.place a.thread).worker (f.thread a.thread).pc = _ ∨ _ = _ ∧
      (s.place a.thread).worker (f.thread a.thread).pc = _
    rw [hplace]
    cases hp : (f.thread a.thread).pc <;> simp

theorem Rendezvous.bottom (hs : Rendezvous cp s) {f : FillState T} (hplace : s.place i = .loop)
    (hstep : (Iofill.fill cp endtime T).step (.bottom i) s.fill = some f) :
    Rendezvous cp { s.go i .top with fill := f } := by
  have hdone := fill_pc hstep
  have hclaim : (f.thread i).pc = .claim := by
    cases (fillMove_of_step hstep).2 with
    | bottom hpc =>
      simp only [FillState.set_thread, Function.update_self, loopEnd]
      split <;> rfl
  have honly : OnlyMoved i s { s.go i .top with fill := f } := onlyMoved_fill hstep rfl rfl rfl
  refine hs.quiet honly (by simp [hclaim]) ?_ (.inl ?_) rfl ⟨rfl, rfl⟩
  · simp [hplace]
  · rw [worker_eq _ hplace, worker_eq .top (by simp)]
    cases hp : (s.fill.thread i).pc <;> simp_all [Act.thread]

/-- A thread goes on, outside the semaphores, to a place that is the same to the protocol. -/
theorem Rendezvous.advance (hs : Rendezvous cp s) (h : OnlyMoved i s t) {pl : Place}
    (hplace : t.place i = pl) (hpc : (t.fill.thread i).pc = (s.fill.thread i).pc)
    (hfits : pl.Fits (s.fill.thread i).pc) (hleader : pl.leader = (s.place i).leader)
    (hworker : pl.worker (s.fill.thread i).pc = (s.place i).worker (s.fill.thread i).pc)
    (hwait : t.iowait = s.iowait) (hsem : t.iostart = s.iostart ∧ t.iostop = s.iostop) :
    Rendezvous cp t := by
  refine hs.quiet h ?_ ?_ (.inl ?_) hwait hsem
  · rwa [hplace, hpc]
  · rwa [hplace]
  · rw [InjectState.worker, InjectState.worker, hplace, hpc]
    exact hworker

/-! ### The leader's rounds over the threads -/

theorem Rendezvous.skipStop (hs : Rendezvous cp s) {site : Site} {flush : Bool}
    (hplace : s.place i = .stop site flush i) :
    Rendezvous cp (s.go i (.stop site flush (i + 1))) := by
  have hfits := hs.fits i
  rw [hplace] at hfits
  refine hs.leading (onlyMoved_go _) (by simp [hplace]) (by simp) (by simpa using hfits) ?_ ?_
  · simp [hplace]
  · intro j hj hlink
    rw [hplace] at hlink
    simpa using hlink.pass hj

theorem Rendezvous.collect (hs : Rendezvous cp s) {site : Site} {flush : Bool} {k : ℕ}
    {sem : Fin T → ℕ} (hplace : s.place i = .stop site flush k) (hk : k < T)
    (hsem : semaWait s.iostop ⟨k, hk⟩ = some sem) :
    Rendezvous cp { s.go i (.stop site flush (k + 1)) with iostop := sem } := by
  have hfits := hs.fits i
  rw [hplace] at hfits
  refine hs.leading (onlyMoved_at rfl rfl) (by simp [hplace]) (by simp) (by simpa using hfits)
    ?_ ?_
  · simp [hplace]
  · intro j _ hlink
    rw [hplace] at hlink
    simpa using hlink.collect (semaWait_eq hsem j)

theorem Rendezvous.stopped (hs : Rendezvous cp s) {site : Site} {flush : Bool} {k : ℕ}
    {todo : List InjectOp} {seg : Fin T → Segments} (hplace : s.place i = .stop site flush k)
    (hk : ¬ k < T) : Rendezvous cp { s.go i (.inject site todo) with seg := seg } := by
  have hfits := hs.fits i
  rw [hplace] at hfits
  refine hs.leading (onlyMoved_at rfl rfl) (by simp [hplace]) (by simp) (by simpa using hfits)
    ?_ ?_
  · simp [hplace]
  · intro j _ hlink
    rw [hplace] at hlink
    simpa using hlink.collected (by omega)

theorem Rendezvous.startRestart (hs : Rendezvous cp s) {site : Site}
    (hplace : s.place i = .inject site []) :
    Rendezvous cp { s.go i (.restart site 0) with iowait := false } := by
  have hfits := hs.fits i
  rw [hplace] at hfits
  have hi : (i : ℕ) = 0 := hs.zero_of_leads (by simp [hplace])
  refine hs.leads (onlyMoved_at rfl rfl) hi (by simpa using hfits) ?_ (by simp) ?_
  · simp [InjectState.worker]
  · intro j _ hlink
    rw [hplace] at hlink
    simpa using hlink.lower

theorem Rendezvous.skipRestart (hs : Rendezvous cp s) {site : Site}
    (hplace : s.place i = .restart site i) : Rendezvous cp (s.go i (.restart site (i + 1))) := by
  have hfits := hs.fits i
  rw [hplace] at hfits
  refine hs.leading (onlyMoved_go _) (by simp [hplace]) (by simp) (by simpa using hfits) ?_ ?_
  · simp [hplace]
  · intro j hj hlink
    rw [hplace] at hlink
    simpa using hlink.skip hj

theorem Rendezvous.release (hs : Rendezvous cp s) {site : Site} {k : ℕ}
    (hplace : s.place i = .restart site k) (hk : k < T) :
    Rendezvous cp
      { s.go i (.restart site (k + 1)) with iostart := semaPost s.iostart ⟨k, hk⟩ } := by
  have hfits := hs.fits i
  rw [hplace] at hfits
  refine hs.leading (onlyMoved_at rfl rfl) (by simp [hplace]) (by simp) (by simpa using hfits)
    ?_ ?_
  · simp [hplace]
  · intro j _ hlink
    rw [hplace] at hlink
    simpa using hlink.release (semaPost_eq s.iostart ⟨k, hk⟩ j)

/-- `io_restart` returns, and thread 0 goes back to where it called `do_write_inject`. -/
theorem Rendezvous.returned (hs : Rendezvous cp s) {site : Site} {k : ℕ}
    (hplace : s.place i = .restart site k) (hk : ¬ k < T) :
    Rendezvous cp { s.go i site.next with
      fill := s.fill.set i (site.resume (s.fill.thread i)) } := by
  have hi : (i : ℕ) = 0 := hs.zero_of_leads (by simp [hplace])
  obtain ⟨hnext, hfree, hrun⟩ := resume_spec site (s.fill.thread i)
  have hplace' : (s.go i site.next).place i = site.next := Function.update_self ..
  have hthread : (s.fill.set i (site.resume (s.fill.thread i))).thread i
      = site.resume (s.fill.thread i) := Function.update_self ..
  refine hs.leads (onlyMoved_set (resume_params _ _) rfl rfl) hi ?_ ?_ ?_ ?_
  · rw [hplace', hthread]
    exact hnext
  · rw [InjectState.worker, hplace', hthread, hrun]
    simp
  · have hflag := hs.flag i hi
    rw [hplace] at hflag
    rw [hplace', hfree]
    exact hflag
  · intro j _ hlink
    rw [hplace] at hlink
    rw [hplace', hfree]
    exact hlink.released (by omega)

/-- **Every step keeps the rendezvous.** Each constructor of `InjectMove` has its own lemma above;
the steps the protocol does not see are one lemma for all (`Rendezvous.advance`). -/
theorem Rendezvous.move (hs : Rendezvous cp s) (h : InjectMove cp ip endtime s i t) :
    Rendezvous cp t := by
  have honly := h.onlyMoved
  have hfits := hs.fits i
  cases h with
  | due hplace hon => exact hs.due hplace hon
  | number hplace hstep hpc => exact hs.number hplace hstep hpc
  | see hplace hwait => exact hs.see hplace hwait
  | answer hplace => exact hs.answer hplace
  | wake hplace hsem => exact hs.wake hplace hsem
  | fill hplace hstep hpc => exact hs.fill hplace hstep hpc
  | bottom hplace hstep => exact hs.bottom hplace hstep
  | skipStop hplace => exact hs.skipStop hplace
  | collect hplace hk _ hsem => exact hs.collect hplace hk hsem
  | stopped hplace hk => exact hs.stopped hplace hk
  | startRestart hplace => exact hs.startRestart hplace
  | skipRestart hplace => exact hs.skipRestart hplace
  | release hplace hk => exact hs.release hplace hk
  | returned hplace hk => exact hs.returned hplace hk
  | early hplace | pass hplace =>
    rw [hplace, Place.Fits] at hfits
    exact hs.advance honly (Function.update_self ..) rfl (by simp [hfits]) (by simp [hplace])
      (by simp [hplace, hfits]) rfl ⟨rfl, rfl⟩
  | recoverStart hplace | recover hplace | request hplace | recovered hplace =>
    rw [hplace, Place.Fits] at hfits
    exact hs.advance honly (Function.update_self ..) (by simp) (by simpa using hfits)
      (by simp [hplace]) (by simp [hplace]) rfl ⟨rfl, rfl⟩
  | finish hplace =>
    rw [hplace, Place.Fits] at hfits
    obtain ⟨-, -, hsame⟩ := injectFinish_frame i endtime (fthreadinit cp).totalio _ s.fill
    exact hs.advance honly (Function.update_self ..) hsame hfits (by simp [hplace])
      (by simp [hplace]) rfl ⟨rfl, rfl⟩

theorem Rendezvous.step (hs : Rendezvous cp s) {a : InjectAct T}
    (h : (inject cp ip endtime starttime draws).step a s = some t) : Rendezvous cp t :=
  let ⟨_, _, hmove⟩ := injectMove_of_step h
  hs.move hmove

theorem rendezvous_of_reachable {ok : InjectState T → InjectAct T → Prop}
    (h : (inject cp ip endtime starttime draws).Reachable ok s) : Rendezvous cp s :=
  h.invariant rendezvous_init fun _ _ _ hs _ hst => hs.step hst

/-! ## Who can step -/

def InjectState.Left (s : InjectState T) (i : Fin T) : Prop :=
  s.place i = .loop ∧ (s.fill.thread i).pc = .done

/-- The thread is gone, or at a semaphore that is zero. -/
inductive Blocked (s : InjectState T) (i : Fin T) : Prop
  | left (h : s.Left i)
  | parked (hplace : s.place i = .parked) (hsem : s.iostart i = 0)
  | stopping {site : Site} {flush : Bool} {k : ℕ} (hplace : s.place i = .stop site flush k)
      (hk : k < T) (hne : k ≠ i) (hsem : s.iostop ⟨k, hk⟩ = 0)

theorem semaWait_pos {n : ℕ} {sem sem' : Fin n → ℕ} {k : Fin n}
    (h : semaWait sem k = some sem') : sem k ≠ 0 := by
  intro hz
  rw [semaWait, hz, if_neg (Nat.lt_irrefl 0)] at h
  cases h

/-- **A blocked thread does not step.** -/
theorem InjectMove.not_blocked (h : InjectMove cp ip endtime s i t) : ¬ Blocked s i := by
  intro hb
  cases hb with
  | left hleft =>
    obtain ⟨hplace, hdone⟩ := hleft
    cases h with
    | fill _ hstep => exact fill_pc hstep hdone
    | bottom _ hstep => exact fill_pc hstep hdone
    | number _ hstep => exact fill_pc hstep hdone
    | _ => simp_all
  | parked hplace hz =>
    cases h with
    | wake _ hsem => exact semaWait_pos hsem hz
    | _ => simp_all
  | stopping hplace hk hne hz =>
    cases h with
    | collect hplace' hk' _ hsem =>
      rw [hplace] at hplace'
      cases hplace'
      exact semaWait_pos hsem hz
    | _ => simp_all

/-- Thread `z` is between `io_stop` and `io_restart`. -/
def InjectState.Bursting (s : InjectState T) (z : Fin T) : Prop :=
  ∃ site todo, s.place z = .inject site todo ∨ s.place z = .injectIo site todo

theorem InjectState.Bursting.leader_eq (h : s.Bursting i) : (s.place i).leader = .still := by
  obtain ⟨site, todo, hplace | hplace⟩ := h <;> simp [hplace]

theorem worker_parked (h : s.worker i = .parked) : s.place i = .parked := by
  rw [InjectState.worker] at h
  cases hp : s.place i with
  | parked => rfl
  | loop =>
    rw [hp] at h
    cases hq : (s.fill.thread i).pc <;> rw [hq] at h <;> cases h
  | _ => simp_all

theorem Rendezvous.others_parked (hs : Rendezvous cp s) (hb : s.Bursting i) :
    (i : ℕ) = 0 ∧ ∀ j, j ≠ i → s.place j = .parked ∧ s.iostart j = 0 := by
  have hleader := hb.leader_eq
  have hi : (i : ℕ) = 0 := hs.zero_of_leads (by rw [hleader]; exact nofun)
  refine ⟨hi, ?_⟩
  intro j hj
  have hlink := hs.link i j hi fun hj0 => hj (fin_eq_zero hj0 hi)
  rw [hleader] at hlink
  obtain ⟨hparked, hstart, -⟩ := hlink.parked_of_held (by simp)
  exact ⟨worker_parked hparked, hstart⟩

/-- **A burst is alone.** In every run, whatever the clock says and whichever requests fail, a
thread between `io_stop` and `io_restart` is thread 0; every other thread is waiting on its
`iostart` in front of its next claim, with no request of its own under way, and no step is its
step. -/
theorem burst_alone
    (h : (inject cp ip endtime starttime draws).Reachable Machine.always s) {z : Fin T}
    (hb : s.Bursting z) :
    (z : ℕ) = 0 ∧ ∀ j, j ≠ z → s.place j = .parked ∧ (s.fill.thread j).pc = .claim ∧
      ∀ a t, (inject cp ip endtime starttime draws).step a s = some t →
        t.place j = s.place j ∧ t.fill.thread j = s.fill.thread j := by
  have hs := rendezvous_of_reachable h
  obtain ⟨hz, hothers⟩ := hs.others_parked hb
  refine ⟨hz, ?_⟩
  intro j hj
  obtain ⟨hparked, hstart⟩ := hothers j hj
  have hfits := hs.fits j
  rw [hparked] at hfits
  refine ⟨hparked, hfits, ?_⟩
  intro a t hstep
  obtain ⟨-, i, hmove⟩ := injectMove_of_step hstep
  have hji : j ≠ i := by
    rintro rfl
    exact hmove.not_blocked (.parked hparked hstart)
  exact ⟨hmove.onlyMoved.place j hji, hmove.onlyMoved.thread j hji⟩

/-- One write to one slot at a time, by a burst that is always due. -/
def smallInject : CmdParams := { smallFill with writeinject := 1 }

def smallBurst : InjectParams where
  writesize := 512
  segsize := 2048
  nsegments := 1
  nsubseg := 2
  randinject := 0
  flush := .off
  flushcount := 1
  postflushtype := .off
  flushalign := 512
  flushinterval := 0
  injectinterval := 0

def smallMachine : Machine (InjectState 2) (InjectAct 2) :=
  inject smallInject smallBurst 5 (fun _ => 0) fun _ _ => (0, 1)

/-- Thread `z` calls `io_stop`, thread `i` comes round to the flag, and `io_stop` returns. -/
def burstSchedule (z i : Fin 2) (d : BurstDraws) : List (InjectAct 2) :=
  [.top z 0, .top i 0, .check i, .answer i, .ioStop z d, .ioStop z d, .ioStop z d]

theorem burst_alone_small : ∃ s, smallMachine.Reachable Machine.always s ∧ s.Bursting 0 ∧
    s.place 1 = .parked := by
  obtain ⟨s, hexec, hb⟩ : ∃ s, smallMachine.exec (burstSchedule 0 1 ⟨fun _ => 0, fun _ _ => 0⟩)
      smallMachine.init = some s ∧ s.Bursting 0 := ⟨_, rfl, _, _, .inl rfl⟩
  have hs : smallMachine.Reachable Machine.always s := ⟨_, Machine.run_of_exec hexec⟩
  exact ⟨s, hs, hb, ((burst_alone hs hb).2 1 (by decide)).1⟩

/-- **No semaphore of the handshake is ever above one**, so no post of one round is left for the
next. -/
theorem handshake_le_one
    (h : (inject cp ip endtime starttime draws).Reachable Machine.always s) {z : Fin T}
    (hz : (z : ℕ) = 0) (hi : i ≠ z) : s.iostart i ≤ 1 ∧ s.iostop i ≤ 1 := by
  have hlink := (rendezvous_of_reachable h).link z i hz fun hi0 => hi (fin_eq_zero hi0 hz)
  exact ⟨hlink.start_le, hlink.stop_le⟩

end Invariant

end Iofill
end Blockbench
