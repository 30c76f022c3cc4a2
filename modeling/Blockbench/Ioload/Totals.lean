import Mathlib.Algebra.Order.BigOperators.Group.List
import Blockbench.Lib.Machine
import Blockbench.Ioload.Output

/-!
# `Ioload/Totals.lean` — the reports of `ioload` add up

The run as its reports see it: rounds start, I/Os finish on some thread of some file, one step
each, and `output` is called for a status report or for the summary. Which worker does the I/O
and when it may is `Ioload/Rounds.lean`'s; here a summary ends the round and nothing else
happens before the next one starts.

The counters are kept by each thread, each file and the system, and a record's `last` is what
was printed so far. `before` and `recent` are not the program's: they are the I/Os finished in
this round up to the last status report and since, in no particular order, and `deltas` is what
the status reports of the round printed. `Kept` says that a record agrees with its part of
these, counter by counter in 64-bit arithmetic; it is the same statement for a file and for the
system, and each step keeps it.

A sum that passes `2^64` is still right modulo `2^64`, but as a number it is not: a difference
can then underflow. `AddsUp` keeps the two apart.
-/

set_option autoImplicit false

namespace Blockbench
namespace Ioload

open Machine CInt

/-! ## The machine -/

/-- Between two rounds, in one, or after the program has ended. -/
inductive RunPhase
  | idle
  | running
  | exited
  deriving DecidableEq

structure RunOpts where
  ignErrors : Bool
  verbose : Bool
  maxlatency : UInt32

/-- The counters, `current` and `starttime`, and the history of the round. An I/O is recorded
with the number of its file. -/
structure Totals where
  out : OutState
  phase : RunPhase
  window : Window
  starttime : UInt64
  before : List (ℕ × Iodet)
  recent : List (ℕ × Iodet)
  deltas : List Uses

inductive TotalsStep
  | start (w : Window) (starttime : UInt64)
  | io (f t : ℕ) (longlat : UInt64) (idp : Iodet) (error : Bool)
  | status
  | summary

/-- The counters of thread `t` of a file become `itp`. -/
def FileStats.setThread (ftp : FileStats) (t : ℕ) (itp : IoStats) : FileStats :=
  { ftp with ithreads := ftp.ithreads.set t itp }

def OutState.setFile (s : OutState) (f : ℕ) (ftp : FileStats) : OutState :=
  { s with flist := s.flist.set f ftp }

def finishIo (o : RunOpts) (f t : ℕ) (longlat : UInt64) (idp : Iodet) (error : Bool)
    (s : Totals) : Option Totals :=
  (s.out.flist[f]?).bind fun ftp =>
    (ftp.ithreads[t]?).map fun itp =>
      match ioFinish o.ignErrors s.window s.starttime longlat itp idp error with
      | none => { s with phase := .exited }
      | some (itp, _, _) =>
        { s with out := s.out.setFile f (ftp.setThread t itp), recent := (f, idp) :: s.recent }

def totalsStep (o : RunOpts) : TotalsStep → Totals → Option Totals
  | .start w starttime, s =>
    if s.phase = .idle then
      some { s with phase := .running, window := w, starttime := starttime }
    else none
  | .io f t longlat idp error, s =>
    if s.phase = .running then finishIo o f t longlat idp error s else none
  | .status, s =>
    if s.phase = .running then
      some { s with
        out := (output o.maxlatency o.verbose true s.out).2
        before := s.recent ++ s.before
        recent := []
        deltas := (computed true s.out).uses :: s.deltas }
    else none
  | .summary, s =>
    if s.phase = .running then
      let (report, out) := output o.maxlatency o.verbose false s.out
      if report.halt then some { s with out := out, phase := .exited }
      else some { s with out := out, phase := .idle, before := [], recent := [], deltas := [] }
    else none

def outInit (nfiles nthreads : ℕ) : OutState where
  flist := List.replicate nfiles ⟨List.replicate nthreads .zero, .zero, .zero⟩
  systot := ⟨[], .zero, .zero⟩
  uses := ⟨.zero, List.replicate nfiles .zero⟩
  statics := .zero

def totals (o : RunOpts) (nfiles nthreads : ℕ) : Machine Totals TotalsStep where
  init :=
    { out := outInit nfiles nthreads
      phase := .idle
      window := ⟨0, 0⟩
      starttime := 0
      before := []
      recent := []
      deltas := [] }
  step := totalsStep o

/-! ## What a record owes its I/Os -/

def ofFile (f : ℕ) (l : List (ℕ × Iodet)) : List Iodet :=
  (l.filter fun p => p.1 = f).map Prod.snd

/-- The contribution of some I/Os to a counter, in 64 bits. -/
def contribution (w : Window) (c : Counter) (l : List Iodet) : UInt64 := (l.map (weight w c)).sum

def natContribution (w : Window) (c : Counter) (l : List Iodet) : ℕ :=
  (l.map fun idp => (weight w c idp).toNat).sum

/-- The counters of a record agree with its I/Os: `total` is what its threads have counted. -/
structure Kept (w : Window) (total : Counter → UInt64) (last : IoStats) (deltas : List IoStats)
    (before recent : List Iodet) : Prop where
  balanced : last.Balanced nlatbkts
  last : ∀ c, last.get c = contribution w c before
  deltas : ∀ c, (deltas.map fun u => u.get c).sum = contribution w c before
  total : ∀ c, total c = contribution w c before + contribution w c recent

/-- What a report says of a record, with its counters added up. -/
structure AddsUp (w : Window) (c : Counter) (ftp : FileStats) (deltas : List IoStats)
    (before recent : List Iodet) : Prop where
  /-- The summary is the contribution of the round's I/Os. -/
  summary : (ftp.use false).get c = contribution w c (recent ++ before)
  /-- It is also the sum of what the status reports printed, and the I/Os since. -/
  reports : (ftp.use false).get c =
    (deltas.map fun u => u.get c).sum + contribution w c recent
  /-- While the contribution fits in 64 bits, the summary is exact and the difference a status
  report prints does not underflow. -/
  exact : natContribution w c (recent ++ before) < 2 ^ 64 →
    ((ftp.use false).get c).toNat = natContribution w c (recent ++ before) ∧
      (ftp.last.get c).toNat ≤ (ftp.cur.get c).toNat

section Kept

variable {w w' : Window} {total total' : Counter → UInt64} {last cur : IoStats}
  {deltas : List IoStats} {before recent : List Iodet} {c : Counter} {ftp : FileStats}

theorem contribution_append (l l' : List Iodet) :
    contribution w c (l ++ l') = contribution w c l + contribution w c l' := by
  rw [contribution, List.map_append, List.sum_append, contribution, contribution]

theorem contribution_cons (idp : Iodet) (l : List Iodet) :
    contribution w c (idp :: l) = weight w c idp + contribution w c l := by
  rw [contribution, List.map_cons, List.sum_cons, contribution]

theorem toNat_contribution {l : List Iodet} (h : natContribution w c l < 2 ^ 64) :
    (contribution w c l).toNat = natContribution w c l := by
  induction l with
  | nil => rfl
  | cons idp l ih =>
    rw [natContribution, List.map_cons, List.sum_cons, ← natContribution] at h ⊢
    have hl := ih (by omega)
    rw [contribution_cons, CInt.toNat_add_of_lt (by omega), hl]

theorem Kept.zero (w : Window) (h : ∀ c, total c = 0) : Kept w total .zero [] [] [] where
  total c := (h c).trans (add_zero _).symm
  last _ := get_zero
  deltas _ := rfl
  balanced := balanced_zero

theorem Kept.io (h : Kept w total last deltas before recent) {idp : Iodet}
    (ht : ∀ c, total' c = total c + weight w c idp) :
    Kept w total' last deltas before (idp :: recent) where
  total c := by
    rw [ht, h.total, contribution_cons, add_comm (weight w c idp), add_assoc]
  last := h.last
  deltas := h.deltas
  balanced := h.balanced

theorem Kept.status (h : Kept w total last deltas before recent) (hcur : ∀ c, cur.get c = total c)
    (hb : cur.Balanced nlatbkts) :
    Kept w total cur (statsDiff cur last :: deltas) (recent ++ before) [] where
  total c := by
    rw [h.total, contribution_append, add_comm]
    exact (add_zero _).symm
  last c := by rw [hcur, h.total, contribution_append, add_comm]
  deltas c := by
    rw [List.map_cons, List.sum_cons, h.deltas, get_diff, h.last, hcur, h.total,
      contribution_append, add_sub_cancel_left]
  balanced := hb

theorem Kept.addsUp (h : Kept w total ftp.last deltas before recent)
    (hcur : ∀ c, ftp.cur.get c = total c) (c : Counter) :
    AddsUp w c ftp deltas before recent := by
  have hsum : ftp.cur.get c = contribution w c (recent ++ before) := by
    rw [hcur, h.total, contribution_append, add_comm]
  refine ⟨hsum, ?_, fun hfits => ?_⟩
  · rw [h.deltas, add_comm, ← contribution_append]
    exact hsum
  · have hexact : (ftp.cur.get c).toNat = natContribution w c (recent ++ before) := by
      rw [hsum, toNat_contribution hfits]
    have hsplit : natContribution w c (recent ++ before) =
        natContribution w c recent + natContribution w c before := by
      rw [natContribution, List.map_append, List.sum_append, natContribution, natContribution]
    have hlast : (ftp.last.get c).toNat = natContribution w c before := by
      rw [h.last, toNat_contribution (by omega)]
    exact ⟨hexact, by omega⟩

end Kept

/-! ## The invariant -/

def Uses.file (u : Uses) (f : ℕ) : IoStats := u.files.getD f .zero

/-- Every record agrees with its I/Os, and what was printed of the system with what was printed
of the files. -/
structure Audited (s : Totals) : Prop where
  lasts : ∀ c, s.out.systot.last.get c = (s.out.flist.map fun ftp => ftp.last.get c).sum
  systot : Kept s.window (fun c => (s.out.flist.map (FileStats.total c)).sum) s.out.systot.last
    (s.deltas.map Uses.systot) (s.before.map Prod.snd) (s.recent.map Prod.snd)
  file : ∀ f ftp, s.out.flist[f]? = some ftp →
    Kept s.window (fun c => ftp.total c) ftp.last (s.deltas.map fun u => u.file f)
      (ofFile f s.before) (ofFile f s.recent)

/-- Between the rounds there is nothing to account for. -/
structure Cleared (s : Totals) : Prop where
  systot : s.out.systot.last = .zero
  file : ∀ ftp ∈ s.out.flist, ftp.last = .zero ∧ ∀ c, ftp.total c = 0
  before : s.before = []
  recent : s.recent = []
  deltas : s.deltas = []

def Sound (s : Totals) : Prop :=
  match s.phase with
  | .idle => Cleared s
  | .running => Audited s
  | .exited => True

section Steps

variable {s t : Totals} {o : RunOpts} {c : Counter}

theorem total_set {ftp : FileStats} {t : ℕ} {itp itp' : IoStats} {d : UInt64}
    (ht : ftp.ithreads[t]? = some itp)
    (hd : (itp'.recount nlatbkts).get c = (itp.recount nlatbkts).get c + d) :
    (ftp.setThread t itp').total c = ftp.total c + d :=
  sum_map_set hd ht

theorem audited_of_cleared (h : Cleared s) (w : Window) (starttime : UInt64) :
    Audited { s with phase := .running, window := w, starttime := starttime } := by
  have hsum : ∀ c, (s.out.flist.map (FileStats.total c)).sum = 0 := by
    intro c
    apply List.sum_eq_zero
    intro x hx
    obtain ⟨ftp, hmem, rfl⟩ := List.mem_map.mp hx
    exact (h.file ftp hmem).2 c
  refine ⟨fun c => ?_, ?_, ?_⟩
  · dsimp only
    rw [h.systot, get_zero]
    refine (List.sum_eq_zero fun x hx => ?_).symm
    obtain ⟨ftp, hmem, rfl⟩ := List.mem_map.mp hx
    rw [(h.file ftp hmem).1, get_zero]
  · dsimp only
    rw [h.systot, h.before, h.recent, h.deltas]
    exact Kept.zero w hsum
  · intro f ftp hf
    have hmem := h.file ftp (List.mem_of_getElem? hf)
    dsimp only
    rw [hmem.1, h.before, h.recent, h.deltas]
    exact Kept.zero w hmem.2

theorem ofFile_cons_self (f : ℕ) (idp : Iodet) (l : List (ℕ × Iodet)) :
    ofFile f ((f, idp) :: l) = idp :: ofFile f l := by
  rw [ofFile, List.filter_cons_of_pos (by simp), List.map_cons, ofFile]

theorem ofFile_cons_of_ne {f g : ℕ} (h : f ≠ g) (idp : Iodet) (l : List (ℕ × Iodet)) :
    ofFile g ((f, idp) :: l) = ofFile g l := by
  rw [ofFile, List.filter_cons_of_neg (by simpa using h), ofFile]

theorem ofFile_append (f : ℕ) (l l' : List (ℕ × Iodet)) :
    ofFile f (l ++ l') = ofFile f l ++ ofFile f l' := by
  rw [ofFile, List.filter_append, List.map_append, ofFile, ofFile]

/-- What `io_finish` does to the run: it ends it, or one thread's counters grow. -/
theorem finishIo_cases {f j : ℕ} {longlat : UInt64} {idp : Iodet} {error : Bool}
    (h : finishIo o f j longlat idp error s = some t) :
    t.phase = .exited ∨ ∃ ftp itp itp', s.out.flist[f]? = some ftp ∧
      ftp.ithreads[j]? = some itp ∧
      (∀ c, (itp'.recount nlatbkts).get c =
        (itp.recount nlatbkts).get c + weight s.window c idp) ∧
      t = { s with
        out := s.out.setFile f (ftp.setThread j itp')
        recent := (f, idp) :: s.recent } := by
  obtain ⟨ftp, hf, hrest⟩ := Option.bind_eq_some_iff.mp h
  obtain ⟨itp, hj, hout⟩ := Option.map_eq_some_iff.mp hrest
  split at hout
  · exact .inl (hout ▸ rfl)
  · rename_i itp' idp' long hfin
    exact .inr ⟨ftp, itp, itp', hf, hj, ioFinish_get hfin, hout.symm⟩

/-- An I/O is added to the system's account and to its file's, and to no other. -/
theorem Audited.io (h : Audited s) {f j : ℕ} {idp : Iodet} {ftp : FileStats}
    {itp itp' : IoStats} (hf : s.out.flist[f]? = some ftp) (hj : ftp.ithreads[j]? = some itp)
    (hd : ∀ c, (itp'.recount nlatbkts).get c =
      (itp.recount nlatbkts).get c + weight s.window c idp) :
    Audited { s with
      out := s.out.setFile f (ftp.setThread j itp')
      recent := (f, idp) :: s.recent } := by
  have hfile : ∀ c, (ftp.setThread j itp').total c = ftp.total c + weight s.window c idp :=
    fun c => total_set hj (hd c)
  refine ⟨fun c => ?_, ?_, ?_⟩
  · have hlast : (ftp.setThread j itp').last.get c = ftp.last.get c + 0 := (add_zero _).symm
    have hset := @sum_map_set _ (fun ftp => ftp.last.get c) _ _ _ hlast _ _ hf
    rw [add_zero] at hset
    exact (h.lasts c).trans hset.symm
  · exact h.systot.io fun c => sum_map_set (hfile c) hf
  · intro g ftp' hg
    dsimp only [OutState.setFile] at hg ⊢
    by_cases hfg : f = g
    · subst hfg
      have hlt : f < s.out.flist.length := (List.getElem?_eq_some_iff.mp hf).1
      rw [List.getElem?_set_self hlt] at hg
      cases hg
      rw [ofFile_cons_self]
      exact (h.file f ftp hf).io hfile
    · rw [List.getElem?_set_ne hfg] at hg
      rw [ofFile_cons_of_ne hfg]
      exact h.file g ftp' hg

/-! ### Reports -/

theorem output_flist {maxlatency : UInt32} {verbose status : Bool} {out : OutState}
    (h : (output maxlatency verbose status out).1.halt = false) :
    (output maxlatency verbose status out).2.flist =
        out.flist.map (fun ftp => ftp.collected.finish status) ∧
      (output maxlatency verbose status out).2.systot =
        (computed status out).systot.finish status := by
  have hlist := computed_flist status out
  unfold output at h ⊢
  dsimp only at h ⊢
  split at h
  · rename_i hhalt
    exact absurd h (by rw [hhalt]; exact Bool.noConfusion)
  · rename_i hgo
    rw [if_neg hgo]
    dsimp only
    rw [hlist, List.map_map]
    exact ⟨rfl, rfl⟩

theorem output_status (maxlatency : UInt32) (verbose : Bool) (out : OutState) :
    (output maxlatency verbose true out).1.halt = false := by
  unfold output outputTimes
  dsimp only
  rw [Bool.not_true, Bool.false_and, if_neg Bool.false_ne_true]

theorem uses_file {status : Bool} {out : OutState} {f : ℕ} {ftp : FileStats}
    (hf : out.flist[f]? = some ftp) :
    (computed status out).uses.file f = ftp.collected.use status := by
  have hfiles : (computed status out).uses.files =
      (computed status out).flist.map (FileStats.use status) := rfl
  rw [Uses.file, hfiles, computed_flist, List.map_map, List.getD_eq_getElem?_getD,
    List.getElem?_map, hf]
  rfl

/-- A status report moves what it prints to the account of the reports. -/
theorem Audited.status (h : Audited s) {out : OutState}
    (hlist : out.flist = s.out.flist.map fun ftp => ftp.collected.finish true)
    (hsys : out.systot = (computed true s.out).systot.finish true) :
    Audited { s with
      out := out
      before := s.recent ++ s.before
      recent := []
      deltas := (computed true s.out).uses :: s.deltas } := by
  refine ⟨fun c => ?_, ?_, ?_⟩
  · dsimp only
    rw [hlist, hsys, List.map_map]
    refine (computed_systot true s.out).trans (congrArg List.sum ?_)
    exact List.map_congr_left fun ftp _ => collected_cur.symm
  · have htot : ∀ c, (out.flist.map (FileStats.total c)).sum =
        (s.out.flist.map (FileStats.total c)).sum := by
      intro c
      rw [hlist, List.map_map]
      exact congrArg List.sum (List.map_congr_left fun ftp _ => collected_total)
    dsimp only
    rw [funext htot, hsys, List.map_append, List.map_nil, List.map_cons]
    exact h.systot.status (fun c => computed_systot true s.out)
      (collect_balanced _ balanced_zero)
  · intro f ftp hf
    dsimp only at hf ⊢
    rw [hlist, List.getElem?_map, Option.map_eq_some_iff] at hf
    obtain ⟨ftp', hf', rfl⟩ := hf
    have htot : (fun c => (ftp'.collected.finish true).total c) = fun c => ftp'.total c :=
      funext fun c => collected_total
    rw [List.map_cons, uses_file hf', ofFile_append, htot]
    exact (h.file f ftp' hf').status (fun c => collected_cur) collected_balanced

theorem get_recount_zero (n : ℕ) (c : Counter) : (IoStats.zero.recount n).get c = 0 := by
  cases c with
  | bucket i d => rfl
  | reads => exact colTotal_zero n
  | writes => exact colTotal_zero n
  | lat d => rfl
  | bytes d => rfl

theorem total_of_zero {ftp : FileStats} (h : ∀ itp ∈ ftp.ithreads, itp = .zero) (c : Counter) :
    ftp.total c = 0 := by
  apply List.sum_eq_zero
  intro x hx
  obtain ⟨itp, hmem, rfl⟩ := List.mem_map.mp hx
  rw [h itp hmem, get_recount_zero]

theorem cleared_of_summary {out : OutState}
    (hlist : out.flist = s.out.flist.map fun ftp => ftp.collected.finish false)
    (hsys : out.systot = (computed false s.out).systot.finish false) :
    Cleared { s with out := out, phase := .idle, before := [], recent := [], deltas := [] } where
  systot := by
    dsimp only
    rw [hsys]
    rfl
  file := by
    intro ftp hmem
    dsimp only at hmem
    rw [hlist] at hmem
    obtain ⟨ftp', -, rfl⟩ := List.mem_map.mp hmem
    refine ⟨rfl, total_of_zero fun itp hitp => ?_⟩
    obtain ⟨-, -, rfl⟩ := List.mem_map.mp hitp
    rfl
  before := rfl
  recent := rfl
  deltas := rfl

/-! ## The run -/

theorem sound_init (o : RunOpts) (nfiles nthreads : ℕ) :
    Sound (totals o nfiles nthreads).init where
  systot := rfl
  file := by
    intro ftp hmem
    obtain ⟨-, rfl⟩ := List.mem_replicate.mp hmem
    exact ⟨rfl, total_of_zero fun itp hitp => (List.mem_replicate.mp hitp).2⟩
  before := rfl
  recent := rfl
  deltas := rfl

theorem sound_of_running (hrun : t.phase = .running) (h : Audited t) : Sound t := by
  rw [Sound, hrun]
  exact h

theorem Sound.step {a : TotalsStep} (h : Sound s) (hst : totalsStep o a s = some t) :
    Sound t := by
  cases a with
  | start w starttime =>
    rw [totalsStep] at hst
    split at hst
    · rename_i hidle
      cases hst
      rw [Sound, hidle] at h
      exact audited_of_cleared h w starttime
    · cases hst
  | io f j longlat idp error =>
    rw [totalsStep] at hst
    split at hst
    · rename_i hrun
      rw [Sound, hrun] at h
      rcases finishIo_cases hst with hexit | ⟨ftp, itp, itp', hf, hj, hd, rfl⟩
      · rw [Sound, hexit]
        trivial
      · exact sound_of_running hrun (Audited.io h hf hj hd)
    · cases hst
  | status =>
    rw [totalsStep] at hst
    split at hst
    · rename_i hrun
      cases hst
      rw [Sound, hrun] at h
      obtain ⟨hlist, hsys⟩ := output_flist (output_status o.maxlatency o.verbose s.out)
      exact sound_of_running hrun (Audited.status h hlist hsys)
    · cases hst
  | summary =>
    rw [totalsStep] at hst
    split at hst
    · dsimp only at hst
      split at hst
      · cases hst
        trivial
      · rename_i hgo
        cases hst
        obtain ⟨hlist, hsys⟩ := output_flist (Bool.not_eq_true _ ▸ hgo)
        exact cleared_of_summary hlist hsys
    · cases hst

theorem sound_of_reachable {nfiles nthreads : ℕ}
    (h : (totals o nfiles nthreads).Reachable always s) : Sound s :=
  h.invariant (sound_init o nfiles nthreads) fun _ _ _ hs _ hst => hs.step hst

theorem audited_of_reachable {nfiles nthreads : ℕ}
    (h : (totals o nfiles nthreads).Reachable always s) (hrun : s.phase = .running) :
    Audited s := by
  have hs := sound_of_reachable h
  rw [Sound, hrun] at hs
  exact hs

/-- In either kind of report the system's counters are the sums of the files'. -/
theorem Audited.uses_sum (h : Audited s) (status : Bool) (c : Counter) :
    (computed status s.out).uses.systot.get c =
      ((computed status s.out).uses.files.map fun u => u.get c).sum := by
  have hfiles : (computed status s.out).uses.files =
      (computed status s.out).flist.map (FileStats.use status) := rfl
  have hsys : (computed status s.out).uses.systot =
      (computed status s.out).systot.use status := rfl
  rw [hfiles, hsys, computed_flist, List.map_map, List.map_map]
  cases status with
  | false =>
    refine (computed_systot false s.out).trans (congrArg List.sum ?_)
    exact List.map_congr_left fun ftp _ => collected_cur.symm
  | true =>
    have hdiff : ∀ ftp : FileStats, (ftp.collected.use true).get c =
        ftp.total c - ftp.last.get c := by
      intro ftp
      rw [FileStats.use, if_pos rfl, get_diff, collected_cur, collected_last]
    rw [FileStats.use, if_pos rfl, get_diff, computed_systot, computed_last, h.lasts,
      sub_eq_iff_eq_add, ← List.sum_map_add]
    refine congrArg List.sum (List.map_congr_left fun ftp _ => ?_)
    exact (sub_add_cancel _ _).symm.trans (congrArg (· + _) (hdiff ftp).symm)

/-- What a report prints of a record has the sums of its columns as its totals, so that
`Ioload/Report.lean` applies to it. -/
theorem Audited.uses_balanced (h : Audited s) (status : Bool) :
    (computed status s.out).uses.systot.Balanced nlatbkts ∧
      ∀ u ∈ (computed status s.out).uses.files, u.Balanced nlatbkts := by
  have huse : ∀ ftp : FileStats, ftp.cur.Balanced nlatbkts → ftp.last.Balanced nlatbkts →
      (ftp.use status).Balanced nlatbkts := by
    intro ftp hcur hlast
    rw [FileStats.use]
    split
    · exact hcur.diff hlast
    · exact hcur
  refine ⟨huse _ (collect_balanced _ balanced_zero) h.systot.balanced, fun u hu => ?_⟩
  have hfiles : (computed status s.out).uses.files =
      (computed status s.out).flist.map (FileStats.use status) := rfl
  rw [hfiles, computed_flist, List.map_map] at hu
  obtain ⟨ftp, hmem, rfl⟩ := List.mem_map.mp hu
  obtain ⟨f, hf⟩ := List.getElem?_of_mem hmem
  exact huse _ collected_balanced (h.file f ftp hf).balanced

/-- **The reports of `ioload` add up.** In every state a run can be in during a round, whichever
report comes next: its system counters are the sums of the files', and for the system and every
file the summary is the contribution of the round's I/Os, in 64 bits and, while it fits there, as
a number.

It is also the sum of what the round's status reports printed and of what has been counted since
the last of them. A status report prints differences and remembers the counters it took them from,
so its own print and the remainder always make up the whole; the system's record is the sum of the
files' at each report and not in between (`Audited`), which is why this is said of the report that
comes next and not of the counters. -/
theorem reports_add_up {nfiles nthreads : ℕ}
    (h : (totals o nfiles nthreads).Reachable always s) (hrun : s.phase = .running)
    (c : Counter) (status : Bool) :
    (computed status s.out).uses.systot.get c =
        ((computed status s.out).uses.files.map fun u => u.get c).sum ∧
      AddsUp s.window c (computed status s.out).systot (s.deltas.map Uses.systot)
        (s.before.map Prod.snd) (s.recent.map Prod.snd) ∧
      ∀ f ftp, (computed status s.out).flist[f]? = some ftp →
        AddsUp s.window c ftp (s.deltas.map fun u => u.file f)
          (ofFile f s.before) (ofFile f s.recent) := by
  have haud := audited_of_reachable h hrun
  refine ⟨haud.uses_sum status c, ?_, fun f ftp hf => ?_⟩
  · exact @Kept.addsUp _ _ _ _ _ (computed status s.out).systot haud.systot
      (fun c => computed_systot status s.out) c
  · rw [computed_flist, List.getElem?_map, Option.map_eq_some_iff] at hf
    obtain ⟨ftp', hf', rfl⟩ := hf
    exact @Kept.addsUp _ _ _ _ _ ftp'.collected (haud.file f ftp' hf')
      (fun c => collected_cur) c

end Steps

/-! ## Two runs -/

def plainOpts : RunOpts := ⟨false, false, 2000000⟩

def slowRead (start endTime : UInt64) : Iodet where
  start := start
  endTime := endTime
  offset := 0
  latency := 0
  ionum := 1
  size := 4096
  seconds := 0
  flag := 0
  type := .read
  dtype := .zeros
  fid := 0
  tid := 0

/-- A round of one second without warmup, on two files: a read of each, a status report, and a
second read of the first file. -/
theorem reports_add_up_midway :
    ∃ s, (totals plainOpts 2 1).Reachable always s ∧
      s.before = [(1, slowRead 20 50), (0, slowRead 10 30)] ∧ s.recent = [(0, slowRead 40 90)] ∧
      s.deltas.length = 1 ∧
      (computed true s.out).uses.systot.get (.lat .read) =
        ((computed true s.out).uses.files.map fun u => u.get (.lat .read)).sum ∧
      AddsUp s.window (.lat .read) (computed true s.out).systot (s.deltas.map Uses.systot)
        (s.before.map Prod.snd) (s.recent.map Prod.snd) ∧
      ((computed true s.out).systot.use false).get (.lat .read) = 100 := by
  have hrun : ∃ s, (totals plainOpts 2 1).exec
      [.start ⟨0, 1000000000⟩ 0, .io 0 0 0 (slowRead 10 30) false,
        .io 1 0 0 (slowRead 20 50) false, .status, .io 0 0 0 (slowRead 40 90) false]
      (totals plainOpts 2 1).init = some s ∧
      s.phase = .running ∧ s.window = ⟨0, 1000000000⟩ ∧
      s.before = [(1, slowRead 20 50), (0, slowRead 10 30)] ∧ s.recent = [(0, slowRead 40 90)] ∧
      s.deltas.length = 1 :=
    ⟨_, rfl, rfl, rfl, rfl, rfl, rfl⟩
  obtain ⟨s, hexec, hphase, hwin, hbefore, hrecent, hdeltas⟩ := hrun
  have hreach : (totals plainOpts 2 1).Reachable always s := ⟨_, run_of_exec hexec⟩
  obtain ⟨hsum, hsys, -⟩ := reports_add_up hreach hphase (.lat .read) true
  refine ⟨s, hreach, hbefore, hrecent, hdeltas, hsum, hsys, ?_⟩
  rw [hsys.summary, hwin, hbefore, hrecent]
  decide

/-- **The latencies of a round can pass `2^64`.** Two reads of `2^63` ns each, with a status
report between them: the next status report subtracts `2^63` from zero, and the summary prints
zero for what is `2^64`. -/
theorem report_underflows :
    ∃ s, (totals plainOpts 1 1).Reachable always s ∧ s.phase = .running ∧
      (computed true s.out).systot.cur.get (.lat .read) <
        (computed true s.out).systot.last.get (.lat .read) ∧
      (computed false s.out).uses.systot.get (.lat .read) = 0 ∧
      natContribution s.window (.lat .read) ((s.recent ++ s.before).map Prod.snd) = 2 ^ 64 := by
  have hrun : ∃ s, (totals plainOpts 1 1).exec
      [.start ⟨0, 1000000000⟩ 0, .io 0 0 0 (slowRead 0 9223372036854775808) false, .status,
        .io 0 0 0 (slowRead 1 9223372036854775809) false] (totals plainOpts 1 1).init = some s ∧
      s.phase = .running ∧ s.window = ⟨0, 1000000000⟩ ∧
      s.before = [(0, slowRead 0 9223372036854775808)] ∧
      s.recent = [(0, slowRead 1 9223372036854775809)] :=
    ⟨_, rfl, rfl, rfl, rfl, rfl⟩
  obtain ⟨s, hexec, hphase, hwin, hbefore, hrecent⟩ := hrun
  have hreach : (totals plainOpts 1 1).Reachable always s := ⟨_, run_of_exec hexec⟩
  have hkept := (audited_of_reachable hreach hphase).systot
  rw [hwin, hbefore, hrecent] at hkept
  have hcur : ∀ status, (computed status s.out).systot.cur.get (.lat .read) = 0 := by
    intro status
    rw [computed_systot, hkept.total]
    decide
  have hlast : (computed true s.out).systot.last.get (.lat .read) = 9223372036854775808 := by
    rw [computed_last, hkept.last]
    decide
  refine ⟨s, hreach, hphase, ?_, hcur false, ?_⟩
  · rw [hcur, hlast]
    decide
  · rw [hwin, hbefore, hrecent]
    decide

end Ioload
end Blockbench
