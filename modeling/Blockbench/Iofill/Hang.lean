import Blockbench.Iofill.Rendezvous

/-!
# `Iofill/Hang.lean` — when the write injection hangs

`io_stop` waits for every other thread of the file, and a thread that has left its loop posts
`iostop` no more. So an `io_stop` that is under way when another thread is through never returns
(`io_stop_hangs`), `file_thread` waits for thread 0 and the program for `file_thread`. Nothing
else in the handshake can stop a run: a state no thread can step from is one in which every thread
is through, or such an `io_stop` with the rest through or parked (`stuck_iff`). What makes the
second half of that go through is that no wake-up is lost: a parked thread whose `iostart` is zero
is one whose token thread 0 has or has yet to take.

None of this happens to a command line that is accepted. No option sets `writeinject`, and
`injectinterval_io` keeps a default that no block number reaches, so the threads never call
`do_write_inject`, and their runs are runs of `fill` (`accepted_is_fill`).
-/

set_option autoImplicit false

namespace Blockbench
namespace Iofill

open CInt Quiesce

variable {T : ℕ}

section Hang

variable {cp : CmdParams} {ip : InjectParams} {endtime : UInt64} {starttime : Fin T → UInt64}
  {draws : Fin T → ℕ → ℕ × ℕ} {s t : InjectState T} {i j z : Fin T}

/-! ## A thread that is not blocked can step -/

/-- In the loop of the fill, a thread that is not through has a step of the fill. -/
theorem exists_fill_step (hlive : s.fill.exited = false) (hplace : s.place i = .loop)
    (hinj : (s.fill.thread i).pc ≠ .inject) (hdone : (s.fill.thread i).pc ≠ .done) :
    ∃ a t, (inject cp ip endtime starttime draws).step a s = some t := by
  -- an action whose step of the fill applies is a step here
  have hlift : ∀ a : Act T, a.thread = i → (∀ k, a ≠ .inject k) →
      (fillStep (fthreadinit cp).totalio endtime a s.fill).isSome →
      ∃ a t, (inject cp ip endtime starttime draws).step a s = some t := by
    intro a ha hne hsome
    obtain ⟨f, hf⟩ := Option.isSome_iff_exists.mp hsome
    have hstep : (fill cp endtime T).step a s.fill = some f := by
      simpa [fill, hlive] using hf
    refine ⟨.loop a, loopStep s f a, ?_⟩
    rw [← ha] at hplace
    cases a with
    | inject k => exact absurd rfl (hne k)
    | _ => simp [inject, hlive, injectStep, hplace, hstep]
  cases hpc : (s.fill.thread i).pc with
  | claim => exact hlift (.claim i 0 0) rfl (by simp) (by simp [fillStep, hpc])
  | inject => exact absurd hpc hinj
  | header k b =>
    exact hlift (.issue i ⟨0, by decide⟩) rfl (by simp) (by simp [fillStep, issued, hpc])
  | headerIo k b =>
    exact hlift (.finish i ⟨0, 0, false, 0, 0⟩) rfl (by simp)
      (by simp [fillStep, Pc.returned, hpc])
  | block k b =>
    exact hlift (.issue i ⟨0, by decide⟩) rfl (by simp) (by simp [fillStep, issued, hpc])
  | blockIo k b =>
    exact hlift (.finish i ⟨0, 0, false, 0, 0⟩) rfl (by simp)
      (by simp [fillStep, Pc.returned, hpc])
  | loopEnd k => exact hlift (.bottom i) rfl (by simp) (by simp [fillStep, hpc])
  | done => exact absurd hpc hdone

/-- **Progress**: the handshake holds up nobody who is not at a semaphore. -/
theorem exists_step (hs : Rendezvous cp s) (hlive : s.fill.exited = false)
    (hfree : ¬ Blocked s i) :
    ∃ a t, (inject cp ip endtime starttime draws).step a s = some t := by
  have hfits := hs.fits i
  have hlift : ∀ a, (injectStep cp ip endtime a s).isSome →
      ∃ a t, (inject cp ip endtime starttime draws).step a s = some t := by
    intro a hsome
    obtain ⟨t, ht⟩ := Option.isSome_iff_exists.mp hsome
    exact ⟨a, t, by simpa [inject, hlive] using ht⟩
  let d : BurstDraws := ⟨fun _ => 0, fun _ _ => 0⟩
  cases hplace : s.place i with
  | top => exact hlift (.top i 0) (by simp [injectStep, hplace])
  | check => exact hlift (.check i) (by simp [injectStep, hplace])
  | answer => exact hlift (.answer i) (by simp [injectStep, hplace])
  | parked =>
    have hpos : 0 < s.iostart i :=
      Nat.pos_of_ne_zero fun hz => hfree (.parked hplace hz)
    exact hlift (.wake i) (by simp [injectStep, hplace, semaWait, hpos])
  | loop =>
    rw [hplace] at hfits
    exact exists_fill_step hlive hplace hfits fun hdone => hfree (.left ⟨hplace, hdone⟩)
  | stop site flush k =>
    by_cases hk : k < T
    · by_cases hki : k = i
      · exact hlift (.ioStop i d) (by simp [injectStep, ioStop, hplace, hki])
      · have hpos : 0 < s.iostop ⟨k, hk⟩ :=
          Nat.pos_of_ne_zero fun hz => hfree (.stopping hplace hk hki hz)
        exact hlift (.ioStop i d) (by simp [injectStep, ioStop, hplace, hk, hki, semaWait, hpos])
    · exact hlift (.ioStop i d) (by simp [injectStep, ioStop, hplace, hk])
  | inject site todo =>
    cases todo with
    | nil => exact hlift (.ioRestart i) (by simp [injectStep, ioRestart, hplace])
    | cons op todo =>
      cases op with
      | recover => exact hlift (.recovered i) (by simp [injectStep, hplace])
      | write | flush | recoverStart =>
        exact hlift (.request i 0) (by simp [injectStep, requestStep, hplace])
  | injectIo site todo =>
    exact hlift (.finish i ⟨0, 0, false, 0, 0⟩) (by simp [injectStep, hplace])
  | restart site k =>
    refine hlift (.ioRestart i) ?_
    simp only [injectStep, ioRestart, hplace]
    split
    · split <;> rfl
    · rfl

/-! ## Where nobody can step -/

theorem InjectState.Left.worker_eq (h : s.Left i) : s.worker i = .left := by
  rw [InjectState.worker, h.1, h.2]
  rfl

theorem Rendezvous.blocked_worker (hs : Rendezvous cp s) (hi : (i : ℕ) ≠ 0) (hb : Blocked s i) :
    s.Left i ∨ s.place i = .parked ∧ s.iostart i = 0 := by
  cases hb with
  | left h => exact .inl h
  | parked hplace hz => exact .inr ⟨hplace, hz⟩
  | stopping hplace =>
    have hlead := hs.lead i hi
    rw [hplace] at hlead
    exact absurd hlead nofun

theorem Rendezvous.wakes (hs : Rendezvous cp s) (hz : (z : ℕ) = 0)
    (hfree : (s.place z).leader = .free) (hi : (i : ℕ) ≠ 0) (hplace : s.place i = .parked) :
    s.iostart i ≠ 0 := by
  intro hzero
  have hlink := hs.link z i hz hi
  rw [Iofill.worker_eq _ hplace, hzero, hfree] at hlink
  rcases hlink.woken with hpos | hawaits
  · exact absurd hpos (by simp)
  · exact hawaits

/-- Thread `z` is in `io_stop`, waiting for a thread that has left. -/
def InjectState.Hung (s : InjectState T) (z k : Fin T) : Prop :=
  k ≠ z ∧ (∃ site flush, s.place z = .stop site flush k) ∧ s.Left k

/-- The thread an `io_stop` waits for has left, if that thread is blocked. -/
theorem Rendezvous.hung (hs : Rendezvous cp s) {site : Site} {flush : Bool} {k : Fin T}
    (hplace : s.place z = .stop site flush k) (hne : k ≠ z) (hsem : s.iostop k = 0)
    (hb : Blocked s k) : s.Hung z k := by
  have hz : (z : ℕ) = 0 := hs.zero_of_leads (by simp [hplace])
  have hk : (k : ℕ) ≠ 0 := fun hk0 => hne (fin_eq_zero hk0 hz)
  refine ⟨hne, ⟨site, flush, hplace⟩, ?_⟩
  rcases hs.blocked_worker hk hb with hleft | ⟨hparked, hstart⟩
  · exact hleft
  · -- a parked one would still have a wake-up due to it
    have hlink := hs.link z k hz hk
    rw [Iofill.worker_eq _ hparked, hplace, hsem, hstart] at hlink
    rcases hlink.awaited with hnot | hone
    · exact absurd rfl hnot
    · exact absurd hone Nat.zero_ne_one

/-- If nobody can go on, all have left, or thread 0 is in an `io_stop` that does not return: it is
the only one that can be at another semaphore than its `iostart`, and were it gone, or at its own
work, a parked thread would have its wake-up. -/
theorem Rendezvous.ends_of_blocked (hs : Rendezvous cp s) (hblocked : ∀ i, Blocked s i) :
    (∀ i, s.Left i) ∨ ∃ z k : Fin T, (z : ℕ) = 0 ∧ s.Hung z k ∧
      ∀ i, i ≠ z → s.Left i ∨ s.place i = .parked ∧ s.iostart i = 0 := by
  by_cases hnone : ∀ i : Fin T, (i : ℕ) ≠ 0
  · -- there is no thread 0, so there is none
    refine .inl fun i => absurd rfl (hnone ⟨0, ?_⟩)
    exact Nat.lt_of_le_of_lt (Nat.zero_le _) i.isLt
  · obtain ⟨z, hz⟩ := not_forall.mp hnone
    have hz := not_not.mp hz
    have hother : ∀ i, i ≠ z → s.Left i ∨ s.place i = .parked ∧ s.iostart i = 0 := fun i hi =>
      hs.blocked_worker (fun hi0 => hi (fin_eq_zero hi0 hz)) (hblocked i)
    cases hblocked z with
    | left hleft =>
      refine .inl fun i => ?_
      by_cases hi : i = z
      · rw [hi]
        exact hleft
      · refine (hother i hi).resolve_right ?_
        rintro ⟨hparked, hstart⟩
        refine hs.wakes hz ?_ (fun hi0 => hi (fin_eq_zero hi0 hz)) hparked hstart
        rw [hleft.1]
        rfl
    | parked hplace =>
      exact absurd (Iofill.worker_eq _ hplace) (hs.self z hz).2
    | @stopping site flush k hplace hk hne hsem =>
      have hkz : (⟨k, hk⟩ : Fin T) ≠ z := fun he => hne (congrArg Fin.val he)
      exact .inr ⟨z, ⟨k, hk⟩, hz, hs.hung hplace hkz hsem (hblocked _), hother⟩

/-- A hung `io_stop` is at a semaphore that is zero: the thread it waits for has no token out. -/
theorem Rendezvous.blocked_of_hung (hs : Rendezvous cp s) (hz : (z : ℕ) = 0) {k : Fin T}
    (hhung : s.Hung z k) : Blocked s z := by
  obtain ⟨hkz, ⟨site, flush, hplace⟩, hleft⟩ := hhung
  have htoken := (hs.link z k hz fun hk0 => hkz (fin_eq_zero hk0 hz)).token
  rw [hleft.worker_eq] at htoken
  simp only [Worker.tokens] at htoken
  have hsem : s.iostop k = 0 := by omega
  exact .stopping hplace k.isLt (fun he => hkz (Fin.ext he)) hsem

/-- **What a run of the handshake can end in.** A live state no thread can step from is one in
which all have left their loops, or one in which thread 0 waits in `io_stop` for a thread that has
left, and the others have left too or are parked.

A thread that is not blocked can step (`exists_step`) and one that is blocked cannot, so the
question is what it takes for all of them to be blocked, and that is answered by the protocol. -/
theorem stuck_iff (h : (inject cp ip endtime starttime draws).Reachable Machine.always s)
    (hlive : s.fill.exited = false) :
    (∀ a, (inject cp ip endtime starttime draws).step a s = none) ↔
      (∀ i, s.Left i) ∨ ∃ z k : Fin T, (z : ℕ) = 0 ∧ s.Hung z k ∧
        ∀ i, i ≠ z → s.Left i ∨ s.place i = .parked ∧ s.iostart i = 0 := by
  have hs := rendezvous_of_reachable h
  constructor
  · intro hstuck
    refine hs.ends_of_blocked fun i => ?_
    by_contra hfree
    obtain ⟨a, t, hstep⟩ : ∃ a t, (inject cp ip endtime starttime draws).step a s = some t :=
      exists_step hs hlive hfree
    rw [hstuck a] at hstep
    cases hstep
  · intro hends a
    have hblocked : ∀ i, Blocked s i := by
      rcases hends with hall | ⟨z, k, hz, hhung, hother⟩
      · exact fun i => .left (hall i)
      · intro i
        by_cases hi : i = z
        · rw [hi]
          exact hs.blocked_of_hung hz hhung
        · rcases hother i hi with hgone | ⟨hparked, hstart⟩
          · exact .left hgone
          · exact .parked hparked hstart
    rw [Option.eq_none_iff_forall_ne_some]
    intro t hstep
    obtain ⟨-, i, hmove⟩ := injectMove_of_step hstep
    exact hmove.not_blocked (hblocked i)

/-! ## An `io_stop` that comes too late -/

/-- An `io_stop` that has thread `j` still in front of it, which has left. -/
structure Stopping (z j : Fin T) (s : InjectState T) : Prop where
  left : s.Left j
  place : ∃ site flush k, s.place z = .stop site flush k

theorem Stopping.step (hs : Stopping z j s) {a : InjectAct T}
    (h : (inject cp ip endtime starttime draws).step a s = some t) (hr : Rendezvous cp s) :
    Stopping z j t := by
  obtain ⟨-, i, hmove⟩ := injectMove_of_step h
  obtain ⟨site, flush, k, hplace⟩ := hs.place
  have hz : (z : ℕ) = 0 := hr.zero_of_leads (by simp [hplace])
  have hj : j ≠ i := by
    rintro rfl
    exact hmove.not_blocked (.left hs.left)
  have hjz : j ≠ z := by
    rintro rfl
    rw [hs.left.1] at hplace
    cases hplace
  have honly := hmove.onlyMoved
  have hleft : t.Left j := by
    rw [InjectState.Left, honly.place j hj, honly.thread j hj]
    exact hs.left
  refine ⟨hleft, ?_⟩
  by_cases hzi : z = i
  · subst hzi
    cases hmove with
    | skipStop hplace' => exact ⟨_, _, _, Function.update_self ..⟩
    | collect => exact ⟨_, _, _, Function.update_self ..⟩
    | @stopped _ _ _ k _ _ hplace' hk =>
      -- thread 0 would have a token of the thread that has left
      have hlink := hr.link z j hz fun hj0 => hjz (fin_eq_zero hj0 hz)
      rw [hplace', hs.left.worker_eq] at hlink
      have hheld : j < k := by omega
      obtain ⟨hw, -⟩ := hlink.parked_of_held (by simp [hheld])
      cases hw
    | _ => simp_all
  · rw [honly.place z hzi]
    exact ⟨site, flush, k, hplace⟩

/-- **An `io_stop` under way when another thread has left its loop never returns**: whatever
happens after, thread `z`, which is thread 0, is still in it, so it never comes to the post of the
`stop` that `file_thread` waits for. -/
theorem io_stop_hangs (h : (inject cp ip endtime starttime draws).Reachable Machine.always s)
    {site : Site} {flush : Bool} {k : ℕ} (hplace : s.place z = .stop site flush k)
    (hleft : s.Left j) {as : List (InjectAct T)}
    (hrun : Machine.Run (inject cp ip endtime starttime draws) Machine.always s as t) :
    (z : ℕ) = 0 ∧ t.Left j ∧ ∃ site' flush' k', t.place z = .stop site' flush' k' := by
  have hr := rendezvous_of_reachable h
  have hz : (z : ℕ) = 0 := hr.zero_of_leads (by simp [hplace])
  have hkeep := hrun.keeps (I := fun s => Rendezvous cp s ∧ Stopping z j s)
    (fun _ _ _ hs _ hst => ⟨hs.1.step hst, hs.2.step hst hs.1⟩)
    ⟨hr, hleft, site, flush, k, hplace⟩
  exact ⟨hz, hkeep.2.left, hkeep.2.place⟩

end Hang

/-! ## A run that hangs -/

/-- The device is full at the first header of thread `i` and at its block, and the thread leaves.
Then thread `z` calls `io_stop`. -/
def hangSchedule (z i : Fin 2) (u : Drand48) (d : BurstDraws) : List (InjectAct 2) :=
  [.top i 0, .check i, .loop (.claim i 0 0), .loop (.issue i u),
    .loop (.finish i ⟨0, 0, true, efbig, 0⟩), .loop (.issue i u),
    .loop (.finish i ⟨0, 0, true, efbig, 0⟩), .loop (.bottom i), .top i 0, .check i,
    .loop (.claim i 0 0), .top z 0, .ioStop z d]

theorem small_hung : ∃ s, smallMachine.Reachable Machine.always s ∧ s.fill.exited = false ∧
    s.Hung 0 1 := by
  obtain ⟨s, hexec, hlive, hhung⟩ : ∃ s, smallMachine.exec
      (hangSchedule 0 1 ⟨0, by decide⟩ ⟨fun _ => 0, fun _ _ => 0⟩) smallMachine.init = some s ∧
      s.fill.exited = false ∧ s.Hung 0 1 := by
    refine ⟨_, rfl, ?_⟩
    exact ⟨rfl, by decide, ⟨_, _, rfl⟩, rfl, rfl⟩
  exact ⟨s, ⟨_, Machine.run_of_exec hexec⟩, hlive, hhung⟩

theorem stuck_small : ∃ s, smallMachine.Reachable Machine.always s ∧
    (∀ a, smallMachine.step a s = none) ∧ ¬ ∀ i, s.Left i := by
  obtain ⟨s, hs, hlive, hhung⟩ := small_hung
  refine ⟨s, hs, (stuck_iff hs hlive).mpr (.inr ⟨0, 1, rfl, hhung, ?_⟩), ?_⟩
  · intro i hi
    obtain rfl : i = 1 := by omega
    exact .inl hhung.2.2
  · intro hall
    obtain ⟨-, ⟨site, flush, hplace⟩, -⟩ := hhung
    have hloop := (hall 0).1
    rw [hplace] at hloop
    cases hloop

theorem io_stop_hangs_small : ∃ s, smallMachine.Reachable Machine.always s ∧
    ∀ as t, Machine.Run smallMachine Machine.always s as t → ¬ t.Left 0 := by
  obtain ⟨s, hs, -, -, ⟨site, flush, hplace⟩, hleft⟩ := small_hung
  refine ⟨s, hs, ?_⟩
  intro as t hrun hgone
  obtain ⟨-, -, site', flush', k', hplace'⟩ := io_stop_hangs hs hplace hleft hrun
  rw [hgone.1] at hplace'
  cases hplace'

/-! ## The command lines that are accepted -/

section Accepted

variable {cp : CmdParams} {ip : InjectParams} {endtime : UInt64} {starttime : Fin T → UInt64}
  {draws : Fin T → ℕ → ℕ × ℕ} {s t : InjectState T}

/-- What no thread of an accepted command line leaves: nobody has called `io_stop`. -/
structure Undisturbed (cp : CmdParams) (s : InjectState T) : Prop where
  shape : Shape cp s.fill
  place : ∀ i, s.place i = .top ∨ s.place i = .check ∨ s.place i = .loop
  iowait : s.iowait = false

theorem undisturbed_init (hp : cp.Ok) : Undisturbed cp (injectInit cp ip starttime draws) where
  shape := shape_init hp
  place _ := .inl rfl
  iowait := rfl

theorem Undisturbed.go (h : Undisturbed cp s) (i : Fin T) {pl : Place}
    (hpl : pl = .top ∨ pl = .check ∨ pl = .loop) (j : Fin T) :
    (s.go i pl).place j = .top ∨ (s.go i pl).place j = .check ∨ (s.go i pl).place j = .loop := by
  by_cases hj : j = i
  · subst hj
    simpa using hpl
  · simpa [hj] using h.place j

/-- **A step is one of the fill, or one the fill does not see.** -/
theorem Undisturbed.step (hp : cp.Ok) (hs : Undisturbed cp s) {a : InjectAct T}
    (h : (inject cp ip endtime starttime draws).step a s = some t) :
    Undisturbed cp t ∧
      ((∃ b, (fill cp endtime T).step b s.fill = some t.fill) ∨ t.fill = s.fill) := by
  obtain ⟨-, i, hmove⟩ := injectMove_of_step h
  have hplaces := hs.place i
  cases hmove with
  | due hplace hon =>
    -- `writeinject` keeps its default
    rw [(hs.shape.thread i).params, hp.threadParams_eq i] at hon
    exact absurd hp.writeinject hon
  | early hplace => exact ⟨⟨hs.shape, hs.go i (.inr (.inl rfl)), hs.iowait⟩, .inr rfl⟩
  | see hplace hwait =>
    rw [hs.iowait] at hwait
    cases hwait
  | pass hplace => exact ⟨⟨hs.shape, hs.go i (.inr (.inr rfl)), hs.iowait⟩, .inr rfl⟩
  | fill hplace hstep hpc =>
    exact ⟨⟨(step_sim hp hs.shape hstep).1, hs.place, hs.iowait⟩, .inl ⟨_, hstep⟩⟩
  | bottom hplace hstep =>
    exact ⟨⟨(step_sim hp hs.shape hstep).1, hs.go i (.inl rfl), hs.iowait⟩, .inl ⟨_, hstep⟩⟩
  | number hplace hstep hpc =>
    -- no block number reaches the default of `injectinterval_io`
    exact absurd hpc ((step_sim hp hs.shape hstep).1.thread i).pc
  | _ => simp_all

theorem accepted_simulation (ip : InjectParams) (endtime : UInt64) (starttime : Fin T → UInt64)
    (draws : Fin T → ℕ → ℕ × ℕ) (hp : cp.Ok) :
    Machine.Simulation (inject cp ip endtime starttime draws) (fill cp endtime T)
      Machine.always (Undisturbed cp) InjectState.fill where
  keep _ _ _ hs _ hst := (hs.step hp hst).1
  step _ _ _ hs _ hst := (hs.step hp hst).2

/-- **The fill of an accepted command line is a run of `fill`.** With the write injection in the
loop, and whatever its parameters, nobody sets `iowait`, no thread calls `io_stop` or waits on a
semaphore in its loop, and what the threads have done is what they do in `fill`. -/
theorem accepted_is_fill {args : List CmdOpt} {c : Config} (hargs : getopt args = some c)
    (h : (inject c.cp ip endtime starttime draws).Reachable Machine.always s) :
    (fill c.cp endtime T).Reachable Machine.always s.fill ∧ s.iowait = false ∧
      ∀ i, s.place i = .top ∨ s.place i = .check ∨ s.place i = .loop := by
  have hp := ok_of_getopt hargs
  obtain ⟨as, hrun⟩ := h
  have hsim := accepted_simulation ip endtime starttime draws hp
  have hs : Undisturbed c.cp s := hrun.keeps hsim.keep (undisturbed_init hp)
  exact ⟨hsim.run hrun (undisturbed_init hp), hs.iowait, hs.place⟩

end Accepted

theorem accepted_is_fill_default : ∃ s : InjectState 1,
    (fill defparams 5 1).Reachable Machine.always s.fill ∧ s.iowait = false ∧
      s.fill.threadBno = 1 := by
  obtain ⟨s, hexec, hbno⟩ : ∃ s, (inject defparams smallBurst 5 (fun _ => 0) fun _ _ => (0, 1)).exec
      [.top 0 9, .check 0, .loop (.claim 0 0 0)]
      (injectInit (T := 1) defparams smallBurst (fun _ => 0) fun _ _ => (0, 1)) = some s ∧
      s.fill.threadBno = 1 := ⟨_, rfl, rfl⟩
  obtain ⟨hfill, hwait, -⟩ := accepted_is_fill (show getopt [] = _ from rfl)
    ⟨_, Machine.run_of_exec hexec⟩
  exact ⟨s, hfill, hwait, hbno⟩

end Iofill
end Blockbench
