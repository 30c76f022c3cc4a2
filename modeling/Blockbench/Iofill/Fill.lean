import Blockbench.Lib.TicketPool
import Blockbench.Lib.Extent
import Blockbench.Iofill.IoThread

/-!
# `Iofill/Fill.lean` — the I/O threads of one file

`T` threads run the loop of `Iofill/IoThread.lean` against one `thread_bno`. The machine `fill`
takes one atomic step of one thread at a time: the fetch-and-add with the decisions that follow
it, the start of a system call, its return through `io_finish`, and the loop's bottom.

The machine is an instance of `TicketPool`: block numbers are tickets, the header and the block
of an iteration are the jobs of a ticket, and adding `totalio` is the stop. `step_sim` is the
step of that simulation, and it has one thing to get past — `thread_bno` is 64 bits wide and the
pool's counter is not. The pool's own bound on its counter is what closes the gap, so the
simulation is stated for every budget of stops that keeps the bound below `2 ^ 64`
(`fill_simulation`).
-/

set_option autoImplicit false

namespace Blockbench
namespace Iofill

open CInt Finset TicketPool

/-! ## The machine -/

def extent (d : Iodet) : Extent := ⟨d.offset.toNat, d.size.toNat⟩

/-- `claims`, `stops` and `issued` are bookkeeping: the block numbers claimed below `totalio`,
each thread's additions of `totalio`, and the requests passed to `io_start` with the block
number they belong to, newest first. -/
structure FillState (T : ℕ) where
  threadBno : UInt64
  thread : Fin T → LoopState
  exited : Bool
  claims : ℕ
  stops : Fin T → ℕ
  issued : List (ℕ × Iodet)

inductive Act (T : ℕ)
  | inject (i : Fin T)
  | claim (i : Fin T) (rand nextbno : UInt64)
  | issue (i : Fin T) (u : Drand48)
  | finish (i : Fin T) (r : IoResult)
  | bottom (i : Fin T)

/-- The number kept at a place in the loop, for the log. -/
def Pc.ftotBno : Pc → ℕ
  | .header k _ | .headerIo k _ | .block k _ | .blockIo k _ | .loopEnd k => k.toNat
  | .claim | .inject | .done => 0

variable {T : ℕ}

def fillInit (cp : CmdParams) (T : ℕ) : FillState T where
  threadBno := 0
  thread i := loopInit cp i
  exited := false
  claims := 0
  stops _ := 0
  issued := []

def FillState.set (s : FillState T) (i : Fin T) (l : LoopState) : FillState T :=
  { s with thread := Function.update s.thread i l }

def fillStep (totalio endtime : UInt64) : Act T → FillState T → Option (FillState T)
  | .inject i, s =>
    if (s.thread i).pc = .claim ∧ (s.thread i).itp.params.writeinject ≠ 0 then
      some (s.set i { s.thread i with pc := .inject })
    else none
  | .claim i rand nextbno, s =>
    if (s.thread i).pc = .claim then
      some { s.set i (claimed totalio rand nextbno (s.thread i) s.threadBno) with
        threadBno := s.threadBno + 1
        claims := if totalio ≤ s.threadBno then s.claims else s.claims + 1 }
    else none
  | .issue i u, s =>
    (issued u (s.thread i)).map fun l =>
      { s.set i l with issued := (l.pc.ftotBno, l.detail) :: s.issued }
  | .finish i r, s =>
    (s.thread i).pc.returned.map fun pc =>
      match ioFinish endtime (s.thread i).itp (s.thread i).detail r with
      | .exit => { s with exited := true }
      | .ret itp idp stop _ =>
        { s.set i { s.thread i with itp := itp, detail := idp, pc := pc } with
          threadBno := if stop then s.threadBno + totalio else s.threadBno
          stops := if stop then Function.update s.stops i (s.stops i + 1) else s.stops }
  | .bottom i, s =>
    match (s.thread i).pc with
    | .loopEnd _ => some (s.set i (loopEnd (s.thread i)))
    | _ => none

/-- The fill of one file by `T` threads, once `file_thread` has set `endtime`. `iob_errlog`
ends the whole program, so nothing steps after it. -/
def fill (cp : CmdParams) (endtime : UInt64) (T : ℕ) : Machine (FillState T) (Act T) where
  init := fillInit cp T
  step a s := if s.exited then none else fillStep (fthreadinit cp).totalio endtime a s

/-- Runs in which no I/O fails and `endtime` is not passed. -/
def quiet (endtime : UInt64) (_ : FillState T) : Act T → Prop
  | .finish _ r => r.error = false ∧ r.start ≤ endtime
  | _ => True

def FillState.Finished (s : FillState T) : Prop := ∀ i, (s.thread i).pc = .done

/-- How often byte `x` of the file has been written. -/
def timesWritten (s : FillState T) (x : ℕ) : ℕ :=
  ((s.issued.filter fun e => e.2.type = .write).map fun e => (extent e.2).covers x).sum

/-! ## The pool behind it -/

/-- The header and the block of a claimed number, under the parameters every thread has. -/
def headerExtent (cp : CmdParams) : Extent :=
  let p := threadParams cp 0
  ⟨(headerOffset p (blockRange p).2.2).toNat, p.headersz.toUInt32.toNat⟩

def blockExtent (cp : CmdParams) (bno : UInt64) : Extent :=
  let p := threadParams cp 0
  let offset := blockOffset p (blockRange p).2.2 bno
  ⟨offset.toNat, (blockSize p (blockRange p).2.2 offset cp.size).toNat⟩

def blockWork (cp : CmdParams) (bno : UInt64) : List Extent :=
  if bno = 0 ∧ (threadParams cp 0).headersz ≠ 0 then [headerExtent cp, blockExtent cp bno]
  else [blockExtent cp bno]

def ticketWork (cp : CmdParams) (k : ℕ) : List Extent :=
  blockWork cp (UInt64.ofNat k % cp.nio)

def total (cp : CmdParams) : ℕ := (fthreadinit cp).totalio.toNat

def absWorker (cp : CmdParams) : Pc → Worker Extent
  | .claim | .inject => .idle
  | .header k b => .busy k.toNat [headerExtent cp, blockExtent cp b]
  | .headerIo k b => .closing k.toNat (headerExtent cp) [blockExtent cp b]
  | .block k b => .busy k.toNat [blockExtent cp b]
  | .blockIo k b => .closing k.toNat (blockExtent cp b) []
  | .loopEnd k => .busy k.toNat []
  | .done => .done

def absFill (cp : CmdParams) (s : FillState T) : Pool (Fin T) Extent where
  next := s.threadBno.toNat
  claimed := s.claims
  worker i := absWorker cp (s.thread i).pc
  stops := s.stops
  log := s.issued.map fun e => (e.1, extent e.2)

/-- What a thread of an accepted command line looks like, wherever it is in its loop. -/
structure LoopShape (cp : CmdParams) (i : ℕ) (l : LoopState) : Prop where
  params : l.itp.params = threadParams cp i
  rangeoff : l.itp.rangeoff = (blockRange (threadParams cp 0)).2.2
  cursize : l.cursize = cp.size
  pc : l.pc ≠ .inject

structure Shape (cp : CmdParams) (s : FillState T) : Prop where
  thread : ∀ i : Fin T, LoopShape cp i (s.thread i)
  writes : ∀ e ∈ s.issued, e.2.type = .write

variable {cp : CmdParams} {totalio endtime : UInt64} {s t : FillState T}

theorem length_ticketWork (cp : CmdParams) (k : ℕ) : (ticketWork cp k).length ≤ 2 := by
  unfold ticketWork blockWork
  split <;> simp

theorem absFill_init (cp : CmdParams) : absFill cp (fillInit cp T) =
    (pool (ι := Fin T) (total cp) (ticketWork cp)).init := rfl

theorem CmdParams.Ok.placement (hp : cp.Ok) (i : ℕ) (rangeoff : UInt64) :
    headerOffset (threadParams cp i) rangeoff = headerOffset (threadParams cp 0) rangeoff ∧
    (∀ b, blockOffset (threadParams cp i) rangeoff b
      = blockOffset (threadParams cp 0) rangeoff b) ∧
    (∀ o c, blockSize (threadParams cp i) rangeoff o c
      = blockSize (threadParams cp 0) rangeoff o c) ∧
    (threadParams cp i).headersz = (threadParams cp 0).headersz ∧
    (blockRange (threadParams cp i)).2.2 = (blockRange (threadParams cp 0)).2.2 := by
  rw [hp.threadParams_eq i, hp.threadParams_eq 0]
  exact ⟨rfl, fun _ => rfl, fun _ _ => rfl, rfl, rfl⟩

theorem shape_init (hp : cp.Ok) : Shape cp (fillInit cp T) where
  thread i := ⟨rfl, (hp.placement i 0).2.2.2.2, rfl, nofun⟩
  writes := nofun

/-! ## What a step can do -/

/-- The branches of `fillStep`, with what each one found. -/
inductive FillMove (totalio endtime : UInt64) (s : FillState T) : Act T → FillState T → Prop
  | inject {i : Fin T} (hpc : (s.thread i).pc = .claim)
      (hon : (s.thread i).itp.params.writeinject ≠ 0) :
      FillMove totalio endtime s (.inject i) (s.set i { s.thread i with pc := .inject })
  | claim {i : Fin T} {rand nextbno : UInt64} (hpc : (s.thread i).pc = .claim) :
      FillMove totalio endtime s (.claim i rand nextbno)
        { s.set i (claimed totalio rand nextbno (s.thread i) s.threadBno) with
          threadBno := s.threadBno + 1
          claims := if totalio ≤ s.threadBno then s.claims else s.claims + 1 }
  | issue {i : Fin T} {u : Drand48} {l : LoopState} (hl : issued u (s.thread i) = some l) :
      FillMove totalio endtime s (.issue i u)
        { s.set i l with issued := (l.pc.ftotBno, l.detail) :: s.issued }
  | exit {i : Fin T} {r : IoResult} {pc : Pc} (hret : (s.thread i).pc.returned = some pc)
      (hfin : ioFinish endtime (s.thread i).itp (s.thread i).detail r = .exit) :
      FillMove totalio endtime s (.finish i r) { s with exited := true }
  | finish {i : Fin T} {r : IoResult} {pc : Pc} {itp : IoThread} {idp : Iodet}
      {stop long : Bool} (hret : (s.thread i).pc.returned = some pc)
      (hfin : ioFinish endtime (s.thread i).itp (s.thread i).detail r = .ret itp idp stop long) :
      FillMove totalio endtime s (.finish i r)
        { s.set i { s.thread i with itp := itp, detail := idp, pc := pc } with
          threadBno := if stop then s.threadBno + totalio else s.threadBno
          stops := if stop then Function.update s.stops i (s.stops i + 1) else s.stops }
  | bottom {i : Fin T} {k : UInt64} (hpc : (s.thread i).pc = .loopEnd k) :
      FillMove totalio endtime s (.bottom i) (s.set i (loopEnd (s.thread i)))

/-- **Inversion**: a program that has not exited takes one of the branches.

This is the one place where the branches of `fillStep` are gone through. Every invariant of the
fill is a case analysis of `FillMove`, which has what a branch found as hypotheses. -/
theorem fillMove_of_step {a : Act T} (h : (fill cp endtime T).step a s = some t) :
    s.exited = false ∧ FillMove (fthreadinit cp).totalio endtime s a t := by
  simp only [fill] at h
  split at h
  · cases h
  rename_i hlive
  refine ⟨Bool.eq_false_iff.mpr hlive, ?_⟩
  cases a with
  | inject i =>
    simp only [fillStep] at h
    split at h
    · rename_i hon
      cases h
      exact .inject hon.1 hon.2
    · cases h
  | claim i rand nextbno =>
    simp only [fillStep] at h
    split at h
    · rename_i hpc
      cases h
      exact .claim hpc
    · cases h
  | issue i u =>
    simp only [fillStep, Option.map_eq_some_iff] at h
    obtain ⟨l, hl, rfl⟩ := h
    exact .issue hl
  | finish i r =>
    simp only [fillStep, Option.map_eq_some_iff] at h
    obtain ⟨pc, hret, h⟩ := h
    cases hfin : ioFinish endtime (s.thread i).itp (s.thread i).detail r with
    | exit =>
      rw [hfin] at h
      subst h
      exact .exit hret hfin
    | ret itp idp stop long =>
      rw [hfin] at h
      subst h
      exact .finish hret hfin
  | bottom i =>
    simp only [fillStep] at h
    split at h
    · rename_i k hpc
      cases h
      exact .bottom hpc
    · cases h

/-! ## What one step of a thread does to its worker -/

/-- With `readpct` and `wroff` at zero every request is a write at its own offset. -/
theorem CmdParams.Ok.ioRequest_eq (hp : cp.Ok) (i : ℕ) (u : Drand48) (ionum offset : UInt64)
    (size : UInt32) (d : Iodet) :
    extent (ioRequest (threadParams cp i) u ionum offset size d)
        = ⟨offset.toNat, size.toNat⟩ ∧
      (ioRequest (threadParams cp i) u ionum offset size d).type = .write := by
  have hread : (threadParams cp i).readpct = 0 := by
    rw [hp.threadParams_eq i]
    exact hp.readpct
  have hwroff : (threadParams cp i).wroff = 0 := by
    rw [hp.threadParams_eq i]
    exact hp.wroff
  have hnot : ¬ u.val48 < 0 := not_lt.mpr u.val48_nonneg
  unfold ioRequest
  dsimp only
  rw [hread, if_neg hnot, hwroff]
  exact ⟨by simp [extent], rfl⟩

theorem claimed_leave {l : LoopState} {k rand nextbno : UInt64} (hk : totalio ≤ k) :
    claimed totalio rand nextbno l k = { l with pc := .done } := by
  unfold claimed
  exact if_pos hk

/-- The draw of a number below `totalio`: the worker gets that ticket's work. -/
theorem claimed_busy (hp : cp.Ok) {i : ℕ} {l : LoopState} (hl : LoopShape cp i l)
    (rand nextbno : UInt64) {k : UInt64} (hk : ¬ totalio ≤ k) :
    LoopShape cp i (claimed totalio rand nextbno l k) ∧
      absWorker cp (claimed totalio rand nextbno l k).pc
        = .busy k.toNat (ticketWork cp k.toNat) := by
  have hparams : l.itp.params = threadParams cp i := hl.params
  obtain ⟨-, -, -, hheader, -⟩ := hp.placement i 0
  have hinj : ¬ (l.itp.params.injectintervalIo ≠ 0 ∧
      l.injbno < k / l.itp.params.injectintervalIo) := by
    rintro ⟨hne, hlt⟩
    rw [hparams, hp.threadParams_eq i] at hne hlt
    dsimp only at hne hlt
    split at hne
    · exact hne rfl
    · rename_i hi
      rw [if_neg hi, UInt64.lt_iff_toNat_lt, UInt64.toNat_div, hp.injectintervalIo] at hlt
      rw [UInt64.le_iff_toNat_le] at hk
      have htop := UInt64.toNat_lt totalio
      rw [Nat.div_eq_of_lt (by omega)] at hlt
      exact Nat.not_lt_zero _ hlt
  have hbno : selectBno l.itp.params k rand nextbno = UInt64.ofNat k.toNat % cp.nio := by
    rw [hparams, hp.threadParams_eq i, UInt64.ofNat_toNat]
    unfold selectBno
    dsimp only
    rw [hp.seqflag, hp.streams, if_neg (by decide), if_neg (by decide)]
  unfold claimed ticketWork blockWork
  dsimp only
  rw [if_neg hk, if_neg hinj, hbno, hparams, hheader]
  split
  · exact ⟨⟨hparams, hl.rangeoff, hl.cursize, nofun⟩, rfl⟩
  · exact ⟨⟨hparams, hl.rangeoff, hl.cursize, nofun⟩, rfl⟩

/-- The start of a system call: the worker carries out the next of its jobs. -/
theorem issued_spec (hp : cp.Ok) {i : ℕ} {l l' : LoopState} (hl : LoopShape cp i l)
    {u : Drand48} (h : issued u l = some l') :
    LoopShape cp i l' ∧ l'.detail.type = .write ∧
      ∃ todo, absWorker cp l.pc = .busy l'.pc.ftotBno (extent l'.detail :: todo) ∧
        absWorker cp l'.pc = .closing l'.pc.ftotBno (extent l'.detail) todo := by
  obtain ⟨hhdr, hblk, hsize, hheader, -⟩ :=
    hp.placement i (blockRange (threadParams cp 0)).2.2
  unfold issued at h
  split at h
  · rename_i k b hpc
    cases h
    have hreq := hp.ioRequest_eq i u l.ionum
      (headerOffset (threadParams cp i) l.itp.rangeoff)
      (threadParams cp i).headersz.toUInt32 l.detail
    refine ⟨⟨hl.params, hl.rangeoff, hl.cursize, nofun⟩, ?_, [blockExtent cp b], ?_⟩
    · show (headerIo _ _ _ _ _).type = _
      rw [hl.params]
      exact hreq.2
    · have hext : extent (headerIo l.itp.params l.itp.rangeoff u l.ionum l.detail)
          = headerExtent cp := by
        rw [hl.params]
        apply hreq.1.trans
        rw [hl.rangeoff, hhdr, hheader]
        rfl
      rw [hpc, hext]
      exact ⟨rfl, rfl⟩
  · rename_i k b hpc
    cases h
    have hreq := hp.ioRequest_eq i u l.ionum
      (blockOffset (threadParams cp i) l.itp.rangeoff b)
      (blockSize (threadParams cp i) l.itp.rangeoff
        (blockOffset (threadParams cp i) l.itp.rangeoff b) l.cursize) l.detail
    refine ⟨⟨hl.params, hl.rangeoff, hl.cursize, nofun⟩, ?_, [], ?_⟩
    · show (blockIo _ _ _ _ _ _ _).type = _
      rw [hl.params]
      exact hreq.2
    · have hext : extent (blockIo l.itp.params l.itp.rangeoff l.cursize u b l.ionum l.detail)
          = blockExtent cp b := by
        rw [hl.params]
        apply hreq.1.trans
        rw [hl.rangeoff, hblk, hsize, hl.cursize]
        rfl
      rw [hpc, hext]
      exact ⟨rfl, rfl⟩
  · cases h

theorem returned_spec (cp : CmdParams) {pc pc' : Pc} (h : pc.returned = some pc') : pc' ≠ .inject ∧
    ∃ k b todo, absWorker cp pc = .closing k b todo ∧ absWorker cp pc' = .busy k todo := by
  cases pc with
  | headerIo k b =>
    cases h
    exact ⟨nofun, _, _, _, rfl, rfl⟩
  | blockIo k b =>
    cases h
    exact ⟨nofun, _, _, _, rfl, rfl⟩
  | claim | inject | header k b | block k b | loopEnd k | done => cases h

/-- With `altcount` at zero the bottom of the loop only goes back to its top. -/
theorem loopEnd_eq (hp : cp.Ok) {i : ℕ} {l : LoopState} (hl : LoopShape cp i l) :
    loopEnd l = { l with pc := .claim } := by
  have halt : l.itp.params.altcount = 0 := by
    rw [hl.params, hp.threadParams_eq i]
    exact hp.altcount
  unfold loopEnd
  exact if_pos halt

/-! ## The simulation -/

@[simp] theorem FillState.set_thread (s : FillState T) (i : Fin T) (l : LoopState) :
    (s.set i l).thread = Function.update s.thread i l := rfl

theorem Shape.update (h : Shape cp s) {i : Fin T} {l : LoopState} (hl : LoopShape cp i l)
    (j : Fin T) : LoopShape cp j (Function.update s.thread i l j) := by
  by_cases hji : j = i
  · subst hji
    rwa [Function.update_self]
  · rw [Function.update_of_ne hji]
    exact h.thread j

theorem absWorker_update (cp : CmdParams) (f : Fin T → LoopState) (i : Fin T) (l : LoopState) :
    (fun j => absWorker cp (Function.update f i l j).pc)
      = Function.update (fun j => absWorker cp (f j).pc) i (absWorker cp l.pc) := by
  funext j
  by_cases hji : j = i
  · subst hji
    rw [Function.update_self, Function.update_self]
  · rw [Function.update_of_ne hji, Function.update_of_ne hji]

/-- **One step of a thread is one step of the pool**, provided the pool's counter still fits in
64 bits; the exception is the step that ends the program. -/
theorem step_sim (hp : cp.Ok) (hs : Shape cp s) {a : Act T}
    (h : (fill cp endtime T).step a s = some t) :
    Shape cp t ∧
      ((∃ b t', (pool (total cp) (ticketWork cp)).step b (absFill cp s) = some t' ∧
          t'.stops = t.stops ∧ (t'.next < 2 ^ 64 → absFill cp t = t')) ∨
        t.exited = true ∧ absFill cp t = absFill cp s) := by
  obtain ⟨-, hmove⟩ := fillMove_of_step h
  cases hmove with
  | @inject i _ hon =>
    -- `writeinject` keeps its default
    have hz : (s.thread i).itp.params.writeinject = 0 := by
      rw [(hs.thread i).params, hp.threadParams_eq i]
      exact hp.writeinject
    exact absurd hz hon
  | @claim i rand nextbno hpc =>
    have hidle : (absFill cp s).worker i = .idle := by
      show absWorker cp (s.thread i).pc = _
      rw [hpc]
      rfl
    have hinc : s.threadBno.toNat + 1 < 2 ^ 64 →
        (s.threadBno + 1).toNat = s.threadBno.toNat + 1 := fun hlt => toNat_add_of_lt hlt
    by_cases hk : (fthreadinit cp).totalio ≤ s.threadBno
    · have hge : total cp ≤ (absFill cp s).next := UInt64.le_iff_toNat_le.mp hk
      rw [claimed_leave hk, if_pos hk]
      refine ⟨⟨hs.update ⟨(hs.thread i).params, (hs.thread i).rangeoff, (hs.thread i).cursize,
        nofun⟩, hs.writes⟩, .inl ⟨.claim i, _, step_leave hidle hge, rfl, fun hlt => ?_⟩⟩
      simp only [absFill, FillState.set, absWorker_update]
      rw [hinc hlt]
      rfl
    · have hlt' : (absFill cp s).next < total cp :=
        Nat.lt_of_not_le fun hle => hk (UInt64.le_iff_toNat_le.mpr hle)
      obtain ⟨hshape, hbusy⟩ := claimed_busy hp (hs.thread i) rand nextbno hk
      rw [if_neg hk]
      refine ⟨⟨hs.update hshape, hs.writes⟩,
        .inl ⟨.claim i, _, step_claim hidle hlt', rfl, fun hlt => ?_⟩⟩
      simp only [absFill, FillState.set, absWorker_update]
      rw [hinc hlt, hbusy]
  | @issue i u l hl =>
    obtain ⟨hshape, hwrite, todo, hbusy, hclosing⟩ := issued_spec hp (hs.thread i) hl
    refine ⟨⟨hs.update hshape, fun e he => ?_⟩,
      .inl ⟨.issue i, _, step_issue hbusy, rfl, fun _ => ?_⟩⟩
    · rcases List.mem_cons.mp he with rfl | he
      · exact hwrite
      · exact hs.writes e he
    · simp only [absFill, FillState.set, absWorker_update, hclosing]
      rfl
  | exit => exact ⟨⟨hs.thread, hs.writes⟩, .inr ⟨rfl, rfl⟩⟩
  | @finish i r pc itp idp stop long hret hfin =>
    obtain ⟨hinj, k, b, todo, hclosing, hbusy⟩ := returned_spec cp hret
    obtain ⟨hparams, hrange⟩ := ioFinish_keeps hfin
    refine ⟨⟨hs.update ⟨hparams.trans (hs.thread i).params,
      hrange.trans (hs.thread i).rangeoff, (hs.thread i).cursize, hinj⟩, hs.writes⟩,
      .inl ⟨.close i stop, _, step_close hclosing stop, rfl, fun hlt => ?_⟩⟩
    simp only [absFill, FillState.set, absWorker_update, hbusy]
    cases stop
    · rfl
    · simp only [if_true]
      rw [toNat_add_of_lt hlt]
      rfl
  | @bottom i k hpc =>
    have hw : (absFill cp s).worker i = .busy k.toNat [] := by
      show absWorker cp (s.thread i).pc = _
      rw [hpc]
      rfl
    rw [loopEnd_eq hp (hs.thread i)]
    refine ⟨⟨hs.update ⟨(hs.thread i).params, (hs.thread i).rangeoff, (hs.thread i).cursize,
      nofun⟩, hs.writes⟩, .inl ⟨.again i, _, step_again hw, rfl, fun _ => ?_⟩⟩
    simp only [absFill, FillState.set, absWorker_update]
    rfl

theorem issued_grows {as : List (Act T)}
    (hr : Machine.Run (fill cp endtime T) Machine.always s as t) :
    ∃ new, t.issued = new ++ s.issued := by
  induction hr with
  | nil => exact ⟨[], rfl⟩
  | @snoc t u as a _ _ h ih =>
    obtain ⟨new, hnew⟩ := ih
    suffices hstep : ∃ one, u.issued = one ++ t.issued by
      obtain ⟨one, hone⟩ := hstep
      exact ⟨one ++ new, by rw [hone, hnew, List.append_assoc]⟩
    obtain ⟨-, hmove⟩ := fillMove_of_step h
    cases hmove with
    | issue hl => exact ⟨[_], rfl⟩
    | inject | claim | exit | finish | bottom => exact ⟨[], rfl⟩

/-- What the simulation carries: the shape of the threads, the pool's own count, and a budget
`K` on the additions of `totalio`. -/
structure Tracked (cp : CmdParams) (K : ℕ) (s : FillState T) : Prop where
  shape : Shape cp s
  inv : Inv (total cp) 2 (absFill cp s)
  stops : ∑ i, s.stops i ≤ K

theorem tracked_init (hp : cp.Ok) (K : ℕ) : Tracked cp K (fillInit cp T) where
  shape := shape_init hp
  inv := by
    rw [absFill_init]
    exact inv_init
  stops := by simp [fillInit]

/-- Whatever the schedule, `T` threads add `totalio` at most `2 * T` times: once for the header
and once for the block of the one number each of them can be on by then. -/
theorem Tracked.stops_step (hp : cp.Ok) {K : ℕ} (hs : Tracked cp K s) {a : Act T}
    (h : (fill cp endtime T).step a s = some t) : ∑ i, t.stops i ≤ 2 * T := by
  obtain ⟨-, ⟨b, t', hb, hst, -⟩ | ⟨-, heq⟩⟩ := step_sim hp hs.shape h
  · have hle := (hs.inv.step (length_ticketWork cp) (move_of_step hb)).stops_le
    rwa [hst, Fintype.card_fin] at hle
  · have hle := hs.inv.stops_le
    rw [← heq, Fintype.card_fin] at hle
    exact hle

section Budget

variable {K : ℕ}

/-- The step of the simulation: as long as the budget of stops keeps the pool's counter below
`2 ^ 64`, `thread_bno` is that counter. -/
theorem Tracked.step (hp : cp.Ok) (hK : total cp + T + total cp * K < 2 ^ 64)
    (hs : Tracked cp K s) {a : Act T} (h : (fill cp endtime T).step a s = some t)
    (hle : ∑ i, t.stops i ≤ K) :
    Tracked cp K t ∧
      ((∃ b, (pool (total cp) (ticketWork cp)).step b (absFill cp s) = some (absFill cp t)) ∨
        t.exited = true ∧ absFill cp t = absFill cp s) := by
  obtain ⟨hshape, ⟨b, t', hb, hst, hfit⟩ | ⟨hexit, heq⟩⟩ := step_sim hp hs.shape h
  · have hinv := hs.inv.step (length_ticketWork cp) (move_of_step hb)
    have hnext := hinv.next_le
    rw [hst, Fintype.card_fin] at hnext
    have hmul := Nat.mul_le_mul_left (total cp) hle
    have habs := hfit (by omega)
    exact ⟨⟨hshape, habs ▸ hinv, hle⟩, .inl ⟨b, habs ▸ hb⟩⟩
  · exact ⟨⟨hshape, heq ▸ hs.inv, hle⟩, .inr ⟨hexit, heq⟩⟩

/-- **The fill is a ticket pool**, in every run that stays within the budget.

A block number is a ticket, its header and block are the jobs of the ticket, and `thread_bno` is
the pool's counter. The budget is on the number of times the fill is stopped: the counter of the
pool is a natural number and `thread_bno` is 64 bits, so the two agree as long as the additions of
`totalio` do not take it over the top. -/
theorem fill_simulation (hp : cp.Ok) (hK : total cp + T + total cp * K < 2 ^ 64)
    {ok : FillState T → Act T → Prop}
    (hstops : ∀ s a t, Tracked cp K s → ok s a → (fill cp endtime T).step a s = some t →
      ∑ i, t.stops i ≤ K) :
    Machine.Simulation (fill cp endtime T) (pool (total cp) (ticketWork cp)) ok
      (Tracked cp K) (absFill cp) where
  keep s a t hs hok h := (hs.step hp hK h (hstops s a t hs hok h)).1
  step s a t hs hok h := (hs.step hp hK h (hstops s a t hs hok h)).2.imp_right And.right

def stepsLeft (cp : CmdParams) (s : FillState T) : ℕ :=
  remaining (total cp) 2 (absFill cp s) + if s.exited then 0 else 1

theorem stepsLeft_lt (hp : cp.Ok) (hK : total cp + T + total cp * K < 2 ^ 64)
    (hs : Tracked cp K s) {a : Act T} (h : (fill cp endtime T).step a s = some t)
    (hle : ∑ i, t.stops i ≤ K) : stepsLeft cp t < stepsLeft cp s := by
  have hlive := (fillMove_of_step h).1
  obtain ⟨-, ⟨b, hb⟩ | ⟨hexit, heq⟩⟩ := hs.step hp hK h hle
  · have hlt := remaining_lt (length_ticketWork cp) hs.inv (move_of_step hb)
    unfold stepsLeft
    rw [hlive]
    cases t.exited <;> simp <;> omega
  · unfold stepsLeft
    rw [hlive, hexit, heq]
    simp

end Budget

/-! ## Quiet runs -/

/-- Without a failure and before the deadline nothing stops the fill and nothing ends it. -/
theorem quiet_step {a : Act T} (hq : quiet endtime s a)
    (h : (fill cp endtime T).step a s = some t) : t.stops = s.stops ∧ t.exited = false := by
  obtain ⟨hlive, hmove⟩ := fillMove_of_step h
  cases hmove with
  | inject | claim | issue | bottom => exact ⟨rfl, hlive⟩
  | @exit i r pc hret hfin =>
    obtain ⟨itp, idp, long, hok⟩ := ioFinish_success (s.thread i).itp (s.thread i).detail hq.1 hq.2
    rw [hok] at hfin
    cases hfin
  | @finish i r pc itp idp stop long hret hfin =>
    obtain ⟨itp', idp', long', hok⟩ := ioFinish_success (s.thread i).itp (s.thread i).detail
      hq.1 hq.2
    rw [hok] at hfin
    cases hfin
    exact ⟨rfl, hlive⟩

theorem quiet_simulation (endtime : UInt64) (hp : cp.Ok) (hfit : total cp + T < 2 ^ 64) :
    Machine.Simulation (fill cp endtime T) (pool (total cp) (ticketWork cp)) (quiet endtime)
      (Tracked cp 0) (absFill cp) :=
  fill_simulation hp (by omega) fun _ _ _ hs hq h => (quiet_step hq h).1 ▸ hs.stops

/-- **What a finished quiet run has written**, byte by byte: the work of every block number
below `totalio`, each once. -/
theorem timesWritten_eq (hp : cp.Ok) (hfit : total cp + T < 2 ^ 64) (hT : 0 < T)
    (hr : (fill cp endtime T).Reachable (quiet endtime) s) (hfin : s.Finished) (x : ℕ) :
    timesWritten s x
      = ∑ k ∈ range (total cp), weigh (Extent.covers x) (ticketWork cp k) := by
  obtain ⟨as, hrun⟩ := hr
  have hsim := quiet_simulation (T := T) endtime hp hfit
  have htrack : Tracked cp 0 s := hrun.keeps hsim.keep (tracked_init hp 0)
  obtain ⟨bs, hbs⟩ := hsim.run hrun (tracked_init hp 0)
  have hcons : TicketPool.Conserved (ticketWork cp) (Extent.covers x) (absFill cp s) :=
    conserved_of_run (length_ticketWork cp) hbs
  have : Nonempty (Fin T) := ⟨⟨0, hT⟩⟩
  have hdone : ∀ i, (absFill cp s).worker i = .done := fun i => by
    show absWorker cp (s.thread i).pc = _
    rw [hfin i]
    rfl
  have hzero : ∀ i, s.stops i = 0 := fun i =>
    (sum_eq_zero_iff.mp (Nat.le_zero.mp htrack.stops)) i (mem_univ i)
  rw [← conserved_finished htrack.inv hcons hdone hzero]
  have hall : s.issued.filter (fun e => e.2.type = .write) = s.issued :=
    List.filter_eq_self.mpr fun e he => decide_eq_true (htrack.shape.writes e he)
  simp only [timesWritten, hall, weigh, absFill, List.map_map]
  rfl

/-! ## Termination -/

theorem quiet_keeps (hp : cp.Ok) (hfit : total cp + T < 2 ^ 64) {a : Act T}
    (hs : Tracked cp 0 s ∧ s.exited = false) (hq : quiet endtime s a)
    (h : (fill cp endtime T).step a s = some t) : Tracked cp 0 t ∧ t.exited = false :=
  ⟨(quiet_simulation endtime hp hfit).keep s a t hs.1 hq h, (quiet_step hq h).2⟩

theorem quiet_progress (hs : Tracked cp 0 s ∧ s.exited = false) (hfin : ¬ s.Finished) :
    ∃ a t, quiet endtime s a ∧ (fill cp endtime T).step a s = some t := by
  obtain ⟨i, hi⟩ := not_forall.mp hfin
  have hinj := (hs.1.shape.thread i).pc
  have hstep : ∀ a : Act T, quiet endtime s a →
      (fillStep (fthreadinit cp).totalio endtime a s).isSome →
      ∃ a t, quiet endtime s a ∧ (fill cp endtime T).step a s = some t := by
    intro a hq ha
    obtain ⟨u, hu⟩ := Option.isSome_iff_exists.mp ha
    exact ⟨a, u, hq, by simp only [fill, hs.2]; exact hu⟩
  cases hpc : (s.thread i).pc with
  | claim =>
    exact hstep (.claim i 0 0) trivial (by simp only [fillStep, if_pos hpc, Option.isSome_some])
  | inject => exact absurd hpc hinj
  | header k b | block k b =>
    exact hstep (.issue i 0) trivial (by simp only [fillStep, issued, hpc, Option.isSome_map,
      Option.isSome_some])
  | headerIo k b | blockIo k b =>
    exact hstep (.finish i ⟨0, 0, false, 0, 0⟩) ⟨rfl, UInt64.zero_le⟩
      (by simp only [fillStep, hpc, Pc.returned, Option.isSome_map, Option.isSome_some])
  | loopEnd k => exact hstep (.bottom i) trivial (by simp only [fillStep, hpc, Option.isSome_some])
  | done => exact absurd hpc hi

/-- **A quiet fill ends**: the lengths of its runs are bounded, and each run that has not
finished goes on to one that has. -/
theorem quiet_ends (endtime : UInt64) (hp : cp.Ok) (hfit : total cp + T < 2 ^ 64) :
    (∀ as s, Machine.Run (fill cp endtime T) (quiet endtime) (fillInit cp T) as s →
      as.length ≤ stepsLeft cp (fillInit cp T)) ∧
    ∀ s, (fill cp endtime T).Reachable (quiet endtime) s →
      ∃ as t, Machine.Run (fill cp endtime T) (quiet endtime) s as t ∧ t.Finished := by
  have hinit : Tracked cp 0 (fillInit cp T) ∧ (fillInit cp T).exited = false :=
    ⟨tracked_init hp 0, rfl⟩
  have hdec : ∀ (s : FillState T) a t, Tracked cp 0 s ∧ s.exited = false → quiet endtime s a →
      (fill cp endtime T).step a s = some t → stepsLeft cp t < stepsLeft cp s :=
    fun s a t hs hq h => stepsLeft_lt hp (by omega) hs.1 h ((quiet_step hq h).1 ▸ hs.1.stops)
  constructor
  · intro as s hr
    have := hr.length_le (fun _ _ _ hs hq h => quiet_keeps hp hfit hs hq h) hdec hinit
    omega
  · rintro s ⟨as, hr⟩
    have hs := hr.keeps (fun _ _ _ hs hq h => quiet_keeps hp hfit hs hq h) hinit
    exact Machine.finishes (fun _ _ _ hs hq h => quiet_keeps hp hfit hs hq h) hdec
      (fun _ hs hf => quiet_progress hs hf) s hs

/-- A small instance: two blocks of 2 KB with a 1 KB header, three times over. -/
def smallFill : CmdParams :=
  { defparams with size := 2048, maxoff := 4096, nio := 2, nrep := 3 }

theorem smallFill_ok : smallFill.Ok := by
  constructor <;> first | rfl | decide

end Iofill
end Blockbench
