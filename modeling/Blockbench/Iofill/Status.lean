import Mathlib.Algebra.Order.Floor.Div
import Blockbench.Iofill.Inside
import Blockbench.Iofill.Stop

/-!
# `Iofill/Status.lean` — the status lines

At the bottom of its loop a thread compares the block number it is through with to the one before
it, and prints `Completed … MB` when a multiple of `statusmb` lies between them. No thread knows
what the others have done, and the numbers are not finished in order.

Still every multiple is announced once. A number below `totalio` is claimed by one thread, that
thread has it in hand until the bottom of its loop, and whether there is a line depends on the
number and the size of its block alone; so the lines printed and the lines still due are those of
the numbers claimed (`Due`), in every run. With blocks of one size the lines are then one for each
multiple of `statusmb` (`status_milestones`), up to the number before the last: the end of the
fill itself is never announced.
-/

set_option autoImplicit false

namespace Blockbench
namespace Iofill

open CInt Finset TicketPool

variable {T : ℕ}

/-- The status line behind the block of a number: the megabytes it names. -/
def statusLine (statusmb ftotBno : UInt64) (size : UInt32) : Option UInt64 :=
  if (ftotBno - 1) * size.toUInt64 / statusmb < ftotBno * size.toUInt64 / statusmb then
    some ((ftotBno * size.toUInt64) >>> 20)
  else none

structure StatusState (T : ℕ) where
  fill : FillState T
  lines : List UInt64

def printedBy (statusmb : UInt64) (f : FillState T) : Act T → List UInt64
  | .bottom i =>
    match (f.thread i).pc with
    | .loopEnd ftotBno => (statusLine statusmb ftotBno (f.thread i).detail.size).toList
    | _ => []
  | _ => []

def status (cp : CmdParams) (statusmb endtime : UInt64) (T : ℕ) :
    Machine (StatusState T) (Act T) where
  init := { fill := fillInit cp T, lines := [] }
  step a s := ((fill cp endtime T).step a s.fill).map fun f =>
    { fill := f, lines := s.lines ++ printedBy statusmb s.fill a }

def lineOf (cp : CmdParams) (statusmb : UInt64) (k : ℕ) : Multiset UInt64 :=
  (statusLine statusmb (UInt64.ofNat k)
    (UInt32.ofNat (blockExtent cp (UInt64.ofNat k % cp.nio)).len)).toList

def LoopState.due (cp : CmdParams) (statusmb : UInt64) (l : LoopState) : Multiset UInt64 :=
  l.pc.hand.elim 0 (lineOf cp statusmb)

/-- `rp->detail` belongs to the number in hand, from the call of `io_start` for its block on. -/
def Sized (cp : CmdParams) (l : LoopState) : Prop :=
  match l.pc with
  | .header k b | .headerIo k b | .block k b => b = k % cp.nio
  | .blockIo k b => b = k % cp.nio ∧ l.detail.size.toNat = (blockExtent cp b).len
  | .loopEnd k => l.detail.size.toNat = (blockExtent cp (k % cp.nio)).len
  | .claim | .inject | .done => True

/-- The lines printed and those due are the lines of the numbers claimed. -/
structure Due (cp : CmdParams) (statusmb : UInt64) (s : StatusState T) : Prop where
  tracked : Tracked cp (2 * T) s.fill
  sized : ∀ i, Sized cp (s.fill.thread i)
  lines : (s.lines : Multiset UInt64) + ∑ i, (s.fill.thread i).due cp statusmb =
    ∑ k ∈ range s.fill.claims, lineOf cp statusmb k

section Thread

variable {cp : CmdParams} {totalio endtime : UInt64} {i : ℕ} {l l' : LoopState}

theorem selectBno_eq (hp : cp.Ok) (hl : LoopShape cp i l) (k rand nextbno : UInt64) :
    selectBno l.itp.params k rand nextbno = k % cp.nio := by
  rw [hl.params, hp.threadParams_eq i]
  unfold selectBno
  dsimp only
  rw [hp.seqflag, hp.streams, if_neg (by decide), if_neg (by decide)]

theorem sized_claimed (hp : cp.Ok) (hl : LoopShape cp i l) (k rand nextbno : UInt64) :
    Sized cp (claimed totalio rand nextbno l k) := by
  have hbno := selectBno_eq hp hl k rand nextbno
  unfold claimed
  dsimp only
  split
  · trivial
  · split
    · trivial
    · split <;> exact hbno

theorem sized_issued (hp : cp.Ok) (hl : LoopShape cp i l) (hs : Sized cp l) {u : Drand48}
    (h : issued u l = some l') : Sized cp l' := by
  obtain ⟨-, -, todo, hbusy, -⟩ := issued_spec hp hl h
  unfold Sized at hs
  unfold issued at h
  split at h
  case h_1 k b hpc =>
    cases h
    rw [hpc] at hs
    exact hs
  case h_2 k b hpc =>
    cases h
    rw [hpc] at hs hbusy
    simp only [absWorker, Worker.busy.injEq, List.cons.injEq] at hbusy
    exact ⟨hs, by rw [hbusy.2.1]; rfl⟩
  case h_3 => cases h

theorem ioFinish_size {tp tp' : IoThread} {idp idp' : Iodet} {r : IoResult} {stop long : Bool}
    (h : ioFinish endtime tp idp r = .ret tp' idp' stop long) : idp'.size = idp.size := by
  unfold ioFinish at h
  dsimp only at h
  split at h
  · unfold ioFailed at h
    split at h
    · cases h
      rfl
    · cases h
  · cases h
    rfl

theorem sized_finish (hs : Sized cp l) {pc : Pc} (hret : l.pc.returned = some pc)
    {itp : IoThread} {idp : Iodet} (hsize : idp.size = l.detail.size) :
    Sized cp { l with itp := itp, detail := idp, pc := pc } := by
  unfold Sized at hs ⊢
  cases hpc : l.pc with
  | headerIo k b =>
    rw [hpc] at hs hret
    cases hret
    exact hs
  | blockIo k b =>
    rw [hpc] at hs hret
    cases hret
    obtain ⟨rfl, hlen⟩ := hs
    simpa [hsize] using hlen
  | claim | inject | header k b | block k b | loopEnd k | done =>
    rw [hpc] at hret
    cases hret

/-! ## What a thread has in hand -/

theorem hand_issued (hp : cp.Ok) (hl : LoopShape cp i l) {u : Drand48}
    (h : issued u l = some l') : l'.pc.hand = l.pc.hand := by
  obtain ⟨-, -, todo, hbusy, hclosing⟩ := issued_spec hp hl h
  rw [← hand_absWorker cp, ← hand_absWorker cp, hbusy, hclosing]
  rfl

theorem hand_returned {pc pc' : Pc} (h : pc.returned = some pc') : pc'.hand = pc.hand := by
  cases pc <;> cases h <;> rfl

theorem hand_claimed (hp : cp.Ok) (hl : LoopShape cp i l) (rand nextbno : UInt64) {k : UInt64}
    (hk : ¬ totalio ≤ k) : (claimed totalio rand nextbno l k).pc.hand = some k.toNat := by
  rw [← hand_absWorker cp, (claimed_busy hp hl rand nextbno hk).2]
  rfl

theorem due_loopEnd (statusmb : UInt64) (hs : Sized cp l) {k : UInt64} (hpc : l.pc = .loopEnd k) :
    ((statusLine statusmb k l.detail.size).toList : Multiset UInt64) = l.due cp statusmb := by
  unfold Sized at hs
  rw [hpc] at hs
  unfold LoopState.due lineOf
  rw [hpc]
  simp only [Pc.hand, Option.elim, UInt64.ofNat_toNat]
  rw [← hs, UInt32.ofNat_toNat]

end Thread

section Runs

variable {cp : CmdParams} {statusmb endtime : UInt64} {s t : StatusState T}

theorem due_init (hp : cp.Ok) : Due cp statusmb (status cp statusmb endtime T).init where
  tracked := tracked_init hp _
  sized _ := trivial
  lines := by simp [status, fillInit, loopInit, LoopState.due, Pc.hand]

theorem sized_update {f : Fin T → LoopState} (h : ∀ j, Sized cp (f j)) {i : Fin T}
    {l : LoopState} (hl : Sized cp l) (j : Fin T) : Sized cp (Function.update f i l j) := by
  by_cases hji : j = i
  · subst hji
    rwa [Function.update_self]
  · rw [Function.update_of_ne hji]
    exact h j

theorem Due.keep {f : FillState T} {i : Fin T} {l : LoopState} (h : Due cp statusmb s)
    (htracked : Tracked cp (2 * T) f) (hf : f.thread = Function.update s.fill.thread i l)
    (hl : Sized cp l) (hhand : l.pc.hand = (s.fill.thread i).pc.hand)
    (hclaims : f.claims = s.fill.claims) : Due cp statusmb { s with fill := f } where
  tracked := htracked
  sized := by
    rw [hf]
    exact sized_update h.sized hl
  lines := by
    have hdue : l.due cp statusmb = (s.fill.thread i).due cp statusmb := by
      unfold LoopState.due
      rw [hhand]
    have hlines := h.lines
    rw [sum_eq_add_erase (LoopState.due cp statusmb) s.fill.thread i] at hlines
    rw [hclaims, ← hlines, hf, sum_update_eq (LoopState.due cp statusmb), hdue]

/-- **A step**: a number comes into a thread's hand when it is claimed, and its line is printed
when the thread lets go of it. -/
theorem Due.step (hp : cp.Ok) (hbound : (2 * T + 1) * total cp + T < 2 ^ 64)
    (h : Due cp statusmb s) {a : Act T}
    (hst : (status cp statusmb endtime T).step a s = some t) : Due cp statusmb t := by
  obtain ⟨f, hf, rfl⟩ := Option.map_eq_some_iff.mp hst
  have htracked : Tracked cp (2 * T) f :=
    (all_simulation endtime hp hbound).keep s.fill a f h.tracked trivial hf
  obtain ⟨-, hmove⟩ := fillMove_of_step hf
  cases hmove with
  | @inject i hpc _ =>
    have hidle := h.keep (l := { s.fill.thread i with pc := .inject }) htracked rfl trivial
      (by rw [hpc]; rfl) rfl
    simpa [printedBy] using hidle
  | @issue i u l hl =>
    have hshape := h.tracked.shape.thread i
    have hkeep := h.keep htracked rfl (sized_issued hp hshape (h.sized i) hl)
      (hand_issued hp hshape hl) rfl
    simpa [printedBy] using hkeep
  | exit =>
    refine ⟨htracked, h.sized, ?_⟩
    simpa [printedBy] using h.lines
  | @finish i r pc itp idp stop long hret hfin =>
    have hkeep := h.keep htracked rfl (sized_finish (h.sized i) hret (ioFinish_size hfin))
      (hand_returned hret) rfl
    simpa [printedBy] using hkeep
  | @claim i rand nextbno hpc =>
    have hshape := h.tracked.shape.thread i
    have hold : (s.fill.thread i).due cp statusmb = 0 := by
      unfold LoopState.due
      rw [hpc]
      rfl
    have hlines := h.lines
    rw [sum_eq_add_erase (LoopState.due cp statusmb) s.fill.thread i, hold, zero_add] at hlines
    refine ⟨htracked, sized_update h.sized (sized_claimed hp hshape _ _ _), ?_⟩
    simp only [printedBy, List.append_nil, FillState.set_thread]
    rw [sum_update_eq (LoopState.due cp statusmb)]
    by_cases hk : (fthreadinit cp).totalio ≤ s.fill.threadBno
    · have hnew : (claimed (fthreadinit cp).totalio rand nextbno (s.fill.thread i)
          s.fill.threadBno).due cp statusmb = 0 := by
        rw [claimed_leave hk]
        rfl
      rw [hnew, zero_add, if_pos hk, hlines]
    · have hlt : (absFill cp s.fill).next < total cp :=
        Nat.lt_of_not_le fun hle => hk (UInt64.le_iff_toNat_le.mpr hle)
      -- the number drawn is the count of those drawn before
      have hnext : s.fill.threadBno.toNat = s.fill.claims := (h.tracked.inv.fresh hlt).2.2
      have hnew : (claimed (fthreadinit cp).totalio rand nextbno (s.fill.thread i)
          s.fill.threadBno).due cp statusmb = lineOf cp statusmb s.fill.claims := by
        unfold LoopState.due
        rw [hand_claimed hp hshape rand nextbno hk, hnext]
        rfl
      rw [hnew, if_neg hk, sum_range_succ, ← hlines]
      ac_rfl
  | @bottom i k hpc =>
    have hshape := h.tracked.shape.thread i
    have hnew : (loopEnd (s.fill.thread i)).due cp statusmb = 0 := by
      rw [loopEnd_eq hp hshape]
      rfl
    have hsized : Sized cp (loopEnd (s.fill.thread i)) := by
      rw [loopEnd_eq hp hshape]
      trivial
    have hlines := h.lines
    rw [sum_eq_add_erase (LoopState.due cp statusmb) s.fill.thread i] at hlines
    refine ⟨htracked, sized_update h.sized hsized, ?_⟩
    simp only [printedBy, hpc, FillState.set_thread, ← Multiset.coe_add]
    rw [due_loopEnd statusmb (h.sized i) hpc, sum_update_eq (LoopState.due cp statusmb), hnew,
      zero_add, add_assoc]
    exact hlines

theorem due_of_reachable (hp : cp.Ok) (hbound : (2 * T + 1) * total cp + T < 2 ^ 64)
    (hr : (status cp statusmb endtime T).Reachable Machine.always s) : Due cp statusmb s :=
  hr.invariant (due_init hp) fun _ _ _ hs _ hst => hs.step hp hbound hst

theorem Due.finished (h : Due cp statusmb s) (hfin : s.fill.Finished) :
    (s.lines : Multiset UInt64) = ∑ k ∈ range s.fill.claims, lineOf cp statusmb k := by
  have hnone : ∑ i, (s.fill.thread i).due cp statusmb = 0 := by
    apply sum_eq_zero
    intro i _
    unfold LoopState.due
    rw [hfin i]
    rfl
  rw [← h.lines, hnone, add_zero]

theorem status_of_run {ok : FillState T → Act T → Prop} {as : List (Act T)} {f : FillState T}
    (hr : Machine.Run (fill cp endtime T) ok (fillInit cp T) as f) :
    ∃ lines, (status cp statusmb endtime T).Reachable Machine.always ⟨f, lines⟩ := by
  induction hr with
  | nil => exact ⟨[], .start⟩
  | @snoc f g as a _ _ hst ih =>
    obtain ⟨lines, hlines⟩ := ih
    have hstep : (status cp statusmb endtime T).step a ⟨f, lines⟩ =
        some ⟨g, lines ++ printedBy statusmb f a⟩ := Option.map_eq_some_iff.mpr ⟨g, hst, rfl⟩
    exact ⟨_, hlines.run (.single trivial hstep)⟩

/-- A quiet fill that has finished has claimed every number below `totalio`. -/
theorem claims_of_quiet {f : FillState T} (hp : cp.Ok) (hfit : total cp + T < 2 ^ 64)
    (hT : 0 < T) (hr : (fill cp endtime T).Reachable (quiet endtime) f) (hfin : f.Finished) :
    f.claims = total cp := by
  obtain ⟨as, hrun⟩ := hr
  have htrack : Tracked cp 0 f :=
    hrun.keeps (quiet_simulation endtime hp hfit).keep (tracked_init hp 0)
  apply htrack.inv.left_all ⟨0, hT⟩
  · show absWorker cp (f.thread ⟨0, hT⟩).pc = _
    rw [hfin]
    rfl
  · exact Nat.le_zero.mp htrack.stops

/-- `-s 1 -t size=1048576,count=2,nrep=3 -m maxoff=2048,header=0`. -/
def statusArgs : List CmdOpt :=
  [.s (some 1), .t [.size (some 1048576), .count (some 2), .nrep (some 3)],
    .m [.maxoff (some 2048), .header (some 0)]]

def statusFill : CmdParams :=
  { defparams with size := 1048576, maxoff := 2097152, nio := 2, nrep := 3, headersz := 0 }

theorem getopt_statusArgs : getopt statusArgs = some ⟨statusFill, (1 : UInt64) <<< 20⟩ := rfl

theorem statusFill_finishes : ∃ s,
    (status statusFill ((1 : UInt64) <<< 20) 5 2).Reachable Machine.always s ∧
      s.fill.Finished ∧ s.fill.claims = 6 := by
  have hp : statusFill.Ok := ok_of_getopt getopt_statusArgs
  obtain ⟨as, f, hrun, hfin⟩ := (quiet_ends (T := 2) 5 hp (by decide)).2 _ .start
  obtain ⟨lines, hr⟩ := status_of_run hrun
  exact ⟨⟨f, lines⟩, hr, hfin, claims_of_quiet hp (by decide) (by decide) ⟨as, hrun⟩ hfin⟩

/-- **Every number has its line once.** In every run, whatever the order in which the threads get
through the blocks and whatever fails: when they have all left, the lines printed are those that
the numbers claimed have by themselves.

The lines are compared as multisets, because the order in which they come is that of the bottoms
of the loops. `hbound` keeps a number from being claimed a second time when `thread_bno` comes
round after the fill was stopped. -/
theorem status_lines {args : List CmdOpt} {c : Config} (h : getopt args = some c)
    (hbound : (2 * T + 1) * total c.cp + T < 2 ^ 64)
    (hr : (status c.cp c.statusmb endtime T).Reachable Machine.always s)
    (hfin : s.fill.Finished) :
    (s.lines : Multiset UInt64) = ∑ k ∈ range s.fill.claims, lineOf c.cp c.statusmb k :=
  (due_of_reachable (ok_of_getopt h) hbound hr).finished hfin

theorem status_lines_small : ∃ s : StatusState 2, s.fill.Finished ∧
    (s.lines : Multiset UInt64) = ∑ k ∈ range 6, lineOf statusFill ((1 : UInt64) <<< 20) k := by
  obtain ⟨s, hr, hfin, hclaims⟩ := statusFill_finishes
  have hlines := status_lines getopt_statusArgs (by decide) hr hfin
  rw [hclaims] at hlines
  exact ⟨s, hfin, hlines⟩

end Runs

/-! ## Blocks of one size -/

/-- The line of the `m`-th multiple of `d`: the first multiple of the block size at or past it. -/
def milestone (d blk m : ℕ) : ℕ := m * d ⌈/⌉ blk * blk / 2 ^ 20

section Milestones

variable {d blk k m n : ℕ}

/-- The multiple of `d` that lies between two block numbers is passed by the second. -/
theorem ceilDiv_eq_of_between (hlo : (k - 1) * blk < m * d) (hhi : m * d ≤ k * blk)
    (hblk : 0 < blk) : m * d ⌈/⌉ blk = k := by
  apply le_antisymm
  · rw [ceilDiv_le_iff_le_mul hblk, Nat.mul_comm blk]
    exact hhi
  · by_contra hlt
    have hle : m * d ⌈/⌉ blk ≤ k - 1 := by omega
    rw [ceilDiv_le_iff_le_mul hblk, Nat.mul_comm blk] at hle
    exact absurd hlo (Nat.not_lt.mpr hle)

theorem div_step (hle : blk ≤ d) (hd : 0 < d) : k * blk / d ≤ (k - 1) * blk / d + 1 := by
  rw [← Nat.add_div_right _ hd]
  apply Nat.div_le_div_right
  cases k with
  | zero => simp
  | succ k =>
    rw [Nat.add_sub_cancel, Nat.succ_mul]
    omega

theorem sum_milestones (hblk : 0 < blk) (hle : blk ≤ d) (n : ℕ) :
    (∑ k ∈ range n,
      if (k - 1) * blk / d < k * blk / d then ({k * blk / 2 ^ 20} : Multiset ℕ) else 0) =
      (Multiset.range ((n - 1) * blk / d)).map fun m => milestone d blk (m + 1) := by
  have hd : 0 < d := hblk.trans_le hle
  induction n with
  | zero => simp
  | succ n ih =>
    rw [sum_range_succ, ih, Nat.add_sub_cancel]
    have hstep : n * blk / d ≤ (n - 1) * blk / d + 1 := div_step hle hd
    by_cases hpass : (n - 1) * blk / d < n * blk / d
    · have hnext : n * blk / d = (n - 1) * blk / d + 1 := by omega
      have hlo : (n - 1) * blk < ((n - 1) * blk / d + 1) * d := by
        have hmod := Nat.lt_succ_iff.mpr (le_refl ((n - 1) * blk / d))
        rwa [Nat.div_lt_iff_lt_mul hd] at hmod
      have hhi : ((n - 1) * blk / d + 1) * d ≤ n * blk := by
        rw [← hnext]
        exact Nat.div_mul_le_self _ _
      rw [if_pos hpass, hnext, Multiset.range_succ, Multiset.map_cons, milestone,
        ceilDiv_eq_of_between hlo hhi hblk, ← Multiset.singleton_add, add_comm]
    · have hmono : (n - 1) * blk / d ≤ n * blk / d :=
        Nat.div_le_div_right (Nat.mul_le_mul_right _ (Nat.sub_le n 1))
      have hsame : n * blk / d = (n - 1) * blk / d := by omega
      rw [if_neg hpass, add_zero, hsame]

end Milestones

section Lines

variable {cp : CmdParams} {statusmb endtime : UInt64} {s : StatusState T}

/-- The line of a number whose block has the full size, as the program computes it. -/
theorem map_lineOf {k : ℕ} (hk : k < total cp)
    (hlen : (blockExtent cp (UInt64.ofNat k % cp.nio)).len = cp.blk)
    (hfit : total cp * cp.blk < 2 ^ 64) :
    (lineOf cp statusmb k).map UInt64.toNat =
      if (k - 1) * cp.blk / statusmb.toNat < k * cp.blk / statusmb.toNat then
        {k * cp.blk / 2 ^ 20} else 0 := by
  have htop : total cp < 2 ^ 64 := (fthreadinit cp).totalio.toNat_lt
  have hblk := cp.blk_lt
  have hkmul : k * cp.blk ≤ total cp * cp.blk := Nat.mul_le_mul_right _ hk.le
  have hsize : (UInt32.ofNat cp.blk).toUInt64.toNat = cp.blk := by
    rw [UInt32.toNat_toUInt64, UInt32.toNat_ofNat', Nat.mod_eq_of_lt (by omega)]
  have hnum : (UInt64.ofNat k).toNat = k := by
    rw [UInt64.toNat_ofNat', Nat.mod_eq_of_lt (by omega)]
  have hprod : (UInt64.ofNat k * (UInt32.ofNat cp.blk).toUInt64).toNat = k * cp.blk := by
    rw [toNat_mul_of_lt (by rw [hnum, hsize]; omega), hnum, hsize]
  have hshift : ((UInt64.ofNat k * (UInt32.ofNat cp.blk).toUInt64) >>> 20).toNat =
      k * cp.blk / 2 ^ 20 := by
    rw [UInt64.toNat_shiftRight, hprod, Nat.shiftRight_eq_div_pow]
    rfl
  have hpass : (UInt64.ofNat k - 1) * (UInt32.ofNat cp.blk).toUInt64 / statusmb <
      UInt64.ofNat k * (UInt32.ofNat cp.blk).toUInt64 / statusmb ↔
      (k - 1) * cp.blk / statusmb.toNat < k * cp.blk / statusmb.toNat := by
    rw [UInt64.lt_iff_toNat_lt, UInt64.toNat_div, UInt64.toNat_div, hprod]
    cases k with
    | zero =>
      -- number zero wraps on the left, and has nothing on the right
      simp
    | succ k =>
      have hpred : (UInt64.ofNat (k + 1) - 1).toNat = k := by
        rw [UInt64.toNat_sub_of_le _ _ (by rw [UInt64.le_iff_toNat_le, hnum]; simp), hnum]
        simp
      have hless : k * cp.blk ≤ (k + 1) * cp.blk := Nat.mul_le_mul_right _ k.le_succ
      rw [toNat_mul_of_lt (by rw [hpred, hsize]; omega), hpred, hsize, Nat.add_sub_cancel]
  unfold lineOf statusLine
  rw [hlen, if_congr hpass rfl rfl]
  split
  · simp [hshift]
  · simp

/-- **Every multiple of `statusmb` is announced once**, whatever the order in which the threads
get through the blocks and whatever fails: when they have all left, the lines are those of the
first block number at or past each multiple, up to the last number claimed.

With blocks of one size the number of megabytes behind a block depends on its number alone, and
the multiples that lie between two neighbouring numbers are at most one when a block is no longer
than `statusmb`. The last block's own end is not among them: it is the number in front of it that
would be compared with. -/
theorem status_milestones {args : List CmdOpt} {c : Config} (h : getopt args = some c)
    (hbound : (2 * T + 1) * total c.cp + T < 2 ^ 64)
    (hsize : ∀ b < min (total c.cp) c.cp.nio.toNat,
      (blockExtent c.cp (UInt64.ofNat b)).len = c.cp.blk)
    (hle : c.cp.blk ≤ c.statusmb.toNat) (hfit : total c.cp * c.cp.blk < 2 ^ 64)
    (hr : (status c.cp c.statusmb endtime T).Reachable Machine.always s)
    (hfin : s.fill.Finished) :
    (s.lines : Multiset UInt64).map UInt64.toNat =
      (Multiset.range ((s.fill.claims - 1) * c.cp.blk / c.statusmb.toNat)).map fun m =>
        milestone c.statusmb.toNat c.cp.blk (m + 1) := by
  have hp := ok_of_getopt h
  have hdue := due_of_reachable hp hbound hr
  have hclaims : s.fill.claims ≤ total c.cp := hdue.tracked.inv.claimed_le
  have hblk : 0 < c.cp.blk := by
    have hge := hp.blk_ge
    omega
  rw [hdue.finished hfin, ← sum_milestones hblk hle, ← Multiset.coe_mapAddMonoidHom, map_sum]
  apply sum_congr rfl
  intro k hk
  have hk' : k < total c.cp := (mem_range.mp hk).trans_le hclaims
  exact map_lineOf hk'
    ((ticket_iff fun b => (blockExtent c.cp b).len = c.cp.blk).mpr hsize k hk') hfit

theorem status_milestones_small : ∃ s : StatusState 2, s.fill.Finished ∧
    (s.lines : Multiset UInt64).map UInt64.toNat = {1, 2, 3, 4, 5} := by
  obtain ⟨s, hr, hfin, hclaims⟩ := statusFill_finishes
  have hlines := status_milestones getopt_statusArgs (by decide) (by decide) (by decide)
    (by decide) hr hfin
  rw [hclaims] at hlines
  exact ⟨s, hfin, hlines.trans (by decide)⟩

end Lines

end Iofill
end Blockbench
