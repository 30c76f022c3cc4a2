import Mathlib.Algebra.BigOperators.ModEq
import Mathlib.Algebra.BigOperators.Group.List.Basic
import Blockbench.Lib.Machine
import Blockbench.Iofill.Output
import Blockbench.Iofill.IoThread

/-!
# `Iofill/Totals.lean` — the statistics of `iofill` conserve its I/Os

`io_finish` counts an I/O in five places of its thread: a bucket, the latencies, the bytes, the
second it finished in and `iocount`. At the end `output` adds the threads up, for each file and
for `systot`, and `output_seconds` prints the seconds. `Counter` names what is added up, so that
"one more I/O" is one statement about all of it (`ioFinish_counts`).

The run is any sequence of completions on any thread of any file. `FileRun.done` is not the
program's: it is the I/Os the threads of a file have finished without an error. `Conserved` is
the invariant: the threads of a file together hold what these I/Os are worth, and each thread
holds its own I/Os second by second. The counters wrap; so everything is said of the values
modulo `2 ^ 64`, and modulo `2 ^ 32` for the seconds, which are `int`.
-/

set_option autoImplicit false

namespace Blockbench
namespace Iofill

open CInt Finset

/-! ## `output` -/

def optypes : List OpType := [.read, .write]

/-- `for (j = 0; j < N_OPTYPES; j++) { tot[j] += cnt[j]; }` -/
def addOps (tot cnt : OpType → UInt64) : OpType → UInt64 :=
  optypes.foldl (fun tot j => Function.update tot j (tot j + cnt j)) tot

structure FileTotals extends FthreadStats where
  totbytes : OpType → UInt64

/-- A `struct fthread` before `output`, and `systot` after its `memset`. -/
def FileTotals.zero : FileTotals where
  latbuckets _ _ := 0
  totreads := 0
  totwrites := 0
  totflushes := 0
  totpflushes := 0
  totlat _ := 0
  totbytes _ := 0

/-- `itp->totreads` and its like: a column of the thread's histogram, added up. -/
def IoThread.tot (itp : IoThread) (op : OpType) : UInt64 :=
  colTotal nlatbkts (itp.latbuckets · op)

/-- The body of the loop over the threads, for one of the two records it adds to. -/
def FileTotals.addThread (ftp : FileTotals) (itp : IoThread) : FileTotals where
  latbuckets i := addOps (ftp.latbuckets i) (itp.latbuckets i)
  totreads := ftp.totreads + itp.tot .read
  totwrites := ftp.totwrites + itp.tot .write
  totflushes := ftp.totflushes + itp.tot .flush
  totpflushes := ftp.totpflushes + itp.tot .postflush
  totlat := addOps ftp.totlat itp.totlat
  totbytes := addOps ftp.totbytes itp.totbytes

/-- The loops of `output` over the files and their threads. -/
def collect : List (List IoThread) → FileTotals → List FileTotals × FileTotals
  | [], systot => ([], systot)
  | ithreads :: rest, systot =>
    let (ftp, systot) := ithreads.foldl
      (fun acc itp => (acc.1.addThread itp, acc.2.addThread itp)) (.zero, systot)
    let (rest, systot) := collect rest systot
    (ftp :: rest, systot)

/-- `output`, as far as `output_times`: the files' counters and `systot`. -/
def output (flist : List (List IoThread)) : List FileTotals × FileTotals := collect flist .zero

/-! ## `output_seconds` -/

/-- The number of rows: one more than the latest second of any thread, but `NSEC` at most. -/
def maxsec (flist : List (List IoThread)) : ℕ :=
  let maxsec := flist.flatten.foldl
    (fun maxsec itp => if maxsec < itp.nseconds then itp.nseconds else maxsec) 0
  if maxsec < nsec then maxsec + 1 else maxsec

/-- The rows of `_seconds.csv`: an entry for each thread, and their sum. -/
def outputSeconds (flist : List (List IoThread)) : List (List Int32 × Int32) :=
  (List.range (maxsec flist)).map fun i =>
    let row := flist.flatten.map fun itp => itp.seconds i
    (row, row.foldl (· + ·) 0)

/-! ## Counters -/

/-- What `output` adds up, so that a statement about all of it is one statement: an I/O is worth
something to a counter (`worth`), and `io_finish` adds what it is worth (`ioFinish_counts`). -/
inductive Counter
  | bucket (i : ℕ) (op : OpType)
  | lat (op : OpType)
  | bytes (op : OpType)
  | tot (op : OpType)

def IoThread.get (itp : IoThread) : Counter → UInt64
  | .bucket i op => itp.latbuckets i op
  | .lat op => itp.totlat op
  | .bytes op => itp.totbytes op
  | .tot op => itp.tot op

/-- The counter of a file; there is no total for the last operation. -/
def FileTotals.get (ftp : FileTotals) : Counter → UInt64
  | .bucket i op => ftp.latbuckets i op
  | .lat op => ftp.totlat op
  | .bytes op => ftp.totbytes op
  | .tot .read => ftp.totreads
  | .tot .write => ftp.totwrites
  | .tot .flush => ftp.totflushes
  | .tot .postflush => ftp.totpflushes
  | .tot .sleep => 0

def Counter.Added : Counter → Prop
  | .bucket _ op => op ∈ optypes
  | .lat op => op ∈ optypes
  | .bytes op => op ∈ optypes
  | .tot op => op ≠ .sleep

instance : DecidablePred Counter.Added := fun c => by
  cases c <;> unfold Counter.Added <;> infer_instance

def worth (idp : Iodet) : Counter → ℕ
  | .bucket i op => if i = latBucket (idp.endTime - idp.start) ∧ op = idp.type then 1 else 0
  | .lat op => if op = idp.type then (idp.endTime - idp.start).toNat else 0
  | .bytes op => if op = idp.type then idp.size.toNat else 0
  | .tot op => if op = idp.type then 1 else 0

def tally (c : Counter) (ios : List Iodet) : ℕ := (ios.map fun idp => worth idp c).sum

/-- How many of them finished in second `i` of their thread. -/
def inSecond (i : ℕ) (ios : List Iodet) : ℕ := ios.countP fun idp => idp.seconds.toNat = i

section Collect

variable {ftp : FileTotals} {itp : IoThread} {c : Counter}

@[simp] theorem get_zero : FileTotals.zero.get c = 0 := by
  cases c with
  | tot op => cases op <;> rfl
  | bucket i op | lat op | bytes op => rfl

theorem addOps_eq (tot cnt : OpType → UInt64) (op : OpType) :
    addOps tot cnt op = tot op + if op ∈ optypes then cnt op else 0 := by
  cases op with
  | read => rfl
  | write => rfl
  | flush | postflush | sleep => exact (add_zero _).symm

@[simp] theorem get_addThread :
    (ftp.addThread itp).get c = ftp.get c + if c.Added then itp.get c else 0 := by
  cases c with
  | bucket i op => exact addOps_eq _ _ op
  | lat op => exact addOps_eq _ _ op
  | bytes op => exact addOps_eq _ _ op
  | tot op => cases op <;> rfl

theorem get_foldl_addThread (l : List IoThread) :
    (l.foldl FileTotals.addThread ftp).get c
      = ftp.get c + if c.Added then (l.map fun itp => itp.get c).sum else 0 := by
  induction l generalizing ftp with
  | nil => simp
  | cons itp l ih =>
    rw [List.foldl_cons, ih, get_addThread, List.map_cons, List.sum_cons, add_assoc]
    split
    · rfl
    · rw [add_zero]

theorem foldl_both (l : List IoThread) (a b : FileTotals) :
    l.foldl (fun acc itp => (acc.1.addThread itp, acc.2.addThread itp)) (a, b)
      = (l.foldl FileTotals.addThread a, l.foldl FileTotals.addThread b) := by
  induction l generalizing a b with
  | nil => rfl
  | cons itp l ih => rw [List.foldl_cons, ih, List.foldl_cons, List.foldl_cons]

theorem collect_fst (flist : List (List IoThread)) (systot : FileTotals) :
    (collect flist systot).1
      = flist.map fun ithreads => ithreads.foldl FileTotals.addThread .zero := by
  induction flist generalizing systot with
  | nil => rfl
  | cons ithreads rest ih =>
    rw [collect]
    dsimp only
    rw [ih, foldl_both, List.map_cons]

theorem collect_snd (flist : List (List IoThread)) (systot : FileTotals) (c : Counter) :
    (collect flist systot).2.get c
      = systot.get c + ((collect flist systot).1.map fun ftp => ftp.get c).sum := by
  induction flist generalizing systot with
  | nil => exact (add_zero _).symm
  | cons ithreads rest ih =>
    rw [collect]
    dsimp only
    rw [ih, foldl_both, List.map_cons, List.sum_cons, get_foldl_addThread, get_foldl_addThread,
      get_zero, zero_add, add_assoc, collect_fst]

/-- **The system's counters are the sums of the files'**, whatever is in the threads: `output`
adds each thread to its file and to `systot` in the same turn of its loop. -/
theorem output_systot (flist : List (List IoThread)) (c : Counter) :
    (output flist).2.get c = ((output flist).1.map fun ftp => ftp.get c).sum := by
  unfold output
  rw [collect_snd, get_zero, zero_add]

theorem balanced_foldl (l : List IoThread) (h : ftp.Balanced) :
    (l.foldl FileTotals.addThread ftp).Balanced := by
  induction l generalizing ftp with
  | nil => exact h
  | cons itp l ih =>
    refine ih ⟨?_, ?_⟩
    · exact (congrArg (· + itp.tot .read) h.reads).trans (colTotal_add _ _ _).symm
    · exact (congrArg (· + itp.tot .write) h.writes).trans (colTotal_add _ _ _).symm

end Collect

/-! ## `io_finish` -/

section IoFinish

variable {endtime : UInt64} {tp tp' : IoThread} {idp idp' : Iodet} {r : IoResult}
  {stop long : Bool}

theorem tick_nseconds (endtime : UInt64) (tp : IoThread) (start : UInt64) :
    (tick endtime tp start).1.nseconds = tp.nseconds ∨
      ((tick endtime tp start).1.nseconds = tp.nseconds + 1 ∧ tp.nseconds < nsec - 1) := by
  unfold tick
  by_cases hzero : tp.nextsec = 0
  · rw [if_pos hzero]
    exact .inl (tp.setClock_nseconds _ _)
  · rw [if_neg hzero]
    by_cases hlt : tp.nextsec < start
    · rw [if_pos hlt]
      by_cases hroom : tp.nseconds < nsec - 1
      · rw [if_pos hroom]
        exact .inr ⟨tp.setClock_nseconds _ _, hroom⟩
      · rw [if_neg hroom]
        exact .inl (tp.setClock_nseconds _ _)
    · rw [if_neg hlt]
      exact .inl rfl

theorem countIo_get (tp : IoThread) (idp : Iodet) (c : Counter) :
    (countIo tp idp).get c = tp.get c + UInt64.ofNat (worth idp c) := by
  have hbucket : ∀ i op, (countIo tp idp).latbuckets i op = tp.latbuckets i op
      + if i = latBucket (idp.endTime - idp.start) ∧ op = idp.type then 1 else 0 := by
    intro i op
    dsimp only [countIo]
    by_cases hi : i = latBucket (idp.endTime - idp.start)
    · rw [hi, Function.update_self, update_add]
      simp only [true_and]
    · rw [Function.update_of_ne hi, if_neg fun h => hi h.1, add_zero]
  cases c with
  | bucket i op =>
    show (countIo tp idp).latbuckets i op = tp.latbuckets i op + UInt64.ofNat (if _ then 1 else 0)
    rw [hbucket]
    split <;> rfl
  | tot op =>
    show colTotal _ _ = colTotal _ _ + UInt64.ofNat (if _ then 1 else 0)
    rw [funext fun i => hbucket i op, colTotal_add, colTotal_one (latBucket_lt _)]
    split <;> rfl
  | lat op =>
    refine (update_add tp.totlat idp.type op _).trans (congrArg (tp.totlat op + ·) ?_)
    show _ = UInt64.ofNat (if _ then _ else 0)
    split
    · exact UInt64.ofNat_toNat.symm
    · rfl
  | bytes op =>
    refine (update_add tp.totbytes idp.type op _).trans (congrArg (tp.totbytes op + ·) ?_)
    show _ = UInt64.ofNat (if _ then _ else 0)
    split
    · exact (UInt64.ofNat_uInt32ToNat idp.size).symm
    · rfl

theorem flagLong_counters (tp : IoThread) (idp : Iodet) :
    (∀ c, (flagLong tp idp).1.get c = tp.get c) ∧ (flagLong tp idp).1.iocount = tp.iocount ∧
      (flagLong tp idp).1.seconds = tp.seconds ∧ (flagLong tp idp).1.nseconds = tp.nseconds := by
  have hsame : ∀ n v, ∀ c, ({ tp with recRunlen := n, recovered := v } : IoThread).get c
      = tp.get c := fun n v c => by cases c <;> rfl
  unfold flagLong
  dsimp only
  split
  · split
    · exact ⟨hsame _ _, rfl, rfl, rfl⟩
    · exact ⟨hsame _ _, rfl, rfl, rfl⟩
  · exact ⟨fun _ => rfl, rfl, rfl, rfl⟩

/-- What becomes of the statistics of a thread when one I/O is counted: one more in each place,
and in the second the clock then stands at. -/
structure Counts (tp tp' : IoThread) (idp : Iodet) : Prop where
  get : ∀ c, tp'.get c = tp.get c + UInt64.ofNat (worth idp c)
  iocount : tp'.iocount = tp.iocount + 1
  seconds : ∀ i, tp'.seconds i = tp.seconds i + if i = tp'.nseconds then 1 else 0
  later : tp.nseconds ≤ tp'.nseconds
  clock : tp.nseconds < nsec → tp'.nseconds < nsec
  second : idp.seconds = UInt32.ofNat tp'.nseconds

theorem tick_get (endtime : UInt64) (tp : IoThread) (start : UInt64) :
    (∀ c, (tick endtime tp start).1.get c = tp.get c) ∧
      (tick endtime tp start).1.iocount = tp.iocount ∧
      (tick endtime tp start).1.seconds = tp.seconds := by
  obtain ⟨nextsec, nseconds, st, heq, -⟩ := tick_cases endtime tp start
  rw [heq]
  exact ⟨fun c => by cases c <;> rfl, rfl, rfl⟩

/-- **What `io_finish` does to the statistics**: nothing when the I/O failed, and otherwise it
counts the I/O. -/
theorem ioFinish_counts (h : ioFinish endtime tp idp r = .ret tp' idp' stop long) :
    (r.error = true ∧ tp' = tp) ∨ (r.error = false ∧ Counts tp tp' idp') := by
  rcases ioFinish_cases h with
    ⟨herr, rfl, -⟩ | ⟨herr, ticked, rec, flagged, htick, hrec, hflag, rfl, rfl⟩
  · exact .inl ⟨herr, rfl⟩
  · have hnsec : nsec = 20000 := rfl
    have hclock := tick_nseconds endtime tp r.start
    obtain ⟨hget, hio, hsec⟩ := tick_get endtime tp r.start
    rw [htick] at hclock hget hio hsec
    obtain ⟨hget', hio', hsec', hclock'⟩ := flagLong_counters (countIo ticked rec) rec
    rw [hflag] at hget' hio' hsec' hclock'
    dsimp only at hclock hget hio hsec hget' hio' hsec' hclock'
    have hsame : flagged.nseconds = ticked.nseconds := hclock'
    refine .inr ⟨herr, ⟨fun c => ?_, ?_, fun i => ?_, ?_, fun h => ?_, ?_⟩⟩
    · have hiocount : ({ flagged with iocount := flagged.iocount + 1 } : IoThread).get c
          = flagged.get c := by
        cases c <;> rfl
      rw [hiocount, hget', countIo_get, hget]
      cases c <;> rfl
    · exact congrArg (· + 1) (hio'.trans hio)
    · dsimp only
      rw [hsec', hsame, ← hsec]
      show Function.update ticked.seconds ticked.nseconds (ticked.seconds ticked.nseconds + 1) i
        = _
      by_cases hi : i = ticked.nseconds
      · rw [hi, Function.update_self, if_pos rfl]
      · rw [Function.update_of_ne hi, if_neg hi, Int32.add_zero]
    · dsimp only
      omega
    · dsimp only
      omega
    · dsimp only
      rw [hsame, hrec, stamp]

end IoFinish

/-! ## The run -/

/-- A file in the run: its deadline, its threads, and the I/Os they have finished, each with the
number of its thread. -/
structure FileRun where
  endtime : UInt64
  ithreads : List IoThread
  done : List (ℕ × Iodet)

/-- Thread `t` of file `f` finishes the I/O `idp` with the outcome `r`. -/
structure Completion where
  f : ℕ
  t : ℕ
  idp : Iodet
  r : IoResult

/-- `io_finish` on a thread of the file. An error that ends the program is no step. -/
def FileRun.finish (ftp : FileRun) (t : ℕ) (idp : Iodet) (r : IoResult) : Option FileRun :=
  (ftp.ithreads[t]?).bind fun tp =>
    match ioFinish ftp.endtime tp idp r with
    | .exit => none
    | .ret tp idp _ _ =>
      some { ftp with
        ithreads := ftp.ithreads.set t tp
        done := if r.error then ftp.done else (t, idp) :: ftp.done }

/-- One completion. Which thread of which file is next, and what `io_finish` is told of its I/O,
are both left open, so every interleaving of the files and their threads is a run. -/
def complete (a : Completion) (s : List FileRun) : Option (List FileRun) :=
  (s[a.f]?).bind fun ftp => (ftp.finish a.t a.idp a.r).map fun ftp => s.set a.f ftp

def newFile (cp : CmdParams) (nthreads : ℕ) (endtime : UInt64) : FileRun where
  endtime := endtime
  ithreads := (List.range nthreads).map (ithreadinit cp)
  done := []

/-- A run on files of the given parameters, numbers of threads and deadlines. -/
def completions (files : List (CmdParams × ℕ × UInt64)) : Machine (List FileRun) Completion where
  init := files.map fun p => newFile p.1 p.2.1 p.2.2
  step := complete

def ofThread (t : ℕ) (l : List (ℕ × Iodet)) : List Iodet :=
  (l.filter fun p => p.1 = t).map Prod.snd

/-- The seconds and `iocount` of a thread hold its I/Os. -/
structure ThreadKept (tp : IoThread) (ios : List Iodet) : Prop where
  iocount : tp.iocount = UInt64.ofNat ios.length
  seconds : ∀ i, tp.seconds i = Int32.ofNat (inSecond i ios)
  clock : tp.nseconds < nsec
  second_le : ∀ idp ∈ ios, idp.seconds.toNat ≤ tp.nseconds

/-- The threads of a file hold what its I/Os are worth, and each its own.

The first part is about the sum over the threads, because that is what `output` prints and because
a completion changes one thread and one I/O, the same on both sides. The second is about single
threads: the seconds are not summed before they are printed. -/
structure Conserved (ftp : FileRun) : Prop where
  sums : ∀ c, (ftp.ithreads.map fun itp => itp.get c).sum
    = UInt64.ofNat (tally c (ftp.done.map Prod.snd))
  threads : ∀ t tp, ftp.ithreads[t]? = some tp → ThreadKept tp (ofThread t ftp.done)

section Run

variable {ftp ftp' : FileRun} {tp tp' : IoThread} {idp : Iodet} {r : IoResult} {t : ℕ}
  {ios : List Iodet} {s : List FileRun} {files : List (CmdParams × ℕ × UInt64)}

theorem ofThread_cons_self (t : ℕ) (idp : Iodet) (l : List (ℕ × Iodet)) :
    ofThread t ((t, idp) :: l) = idp :: ofThread t l := by
  rw [ofThread, List.filter_cons_of_pos (by simp), List.map_cons, ofThread]

theorem ofThread_cons_of_ne {t u : ℕ} (h : t ≠ u) (idp : Iodet) (l : List (ℕ × Iodet)) :
    ofThread u ((t, idp) :: l) = ofThread u l := by
  rw [ofThread, List.filter_cons_of_neg (by simpa using h), ofThread]

theorem ThreadKept.count (h : ThreadKept tp ios) (hc : Counts tp tp' idp) :
    ThreadKept tp' (idp :: ios) := by
  have hnsec : nsec = 20000 := rfl
  have hclock := hc.clock h.clock
  have hsecond : idp.seconds.toNat = tp'.nseconds := by
    rw [hc.second, UInt32.toNat_ofNat', Nat.mod_eq_of_lt (by omega)]
  refine ⟨?_, fun i => ?_, hclock, fun x hx => ?_⟩
  · rw [hc.iocount, h.iocount, List.length_cons, UInt64.ofNat_add]
    rfl
  · unfold inSecond
    rw [hc.seconds, h.seconds, List.countP_cons, hsecond, Int32.ofNat_add]
    apply congrArg (_ + ·)
    by_cases hi : i = tp'.nseconds
    · subst hi
      simp
    · rw [if_neg hi, if_neg (by simpa using fun h => hi h.symm)]
      rfl
  · rcases List.mem_cons.mp hx with rfl | hmem
    · exact hsecond.le
    · exact (h.second_le x hmem).trans hc.later

theorem threadKept_init (cp : CmdParams) (threadid : ℕ) :
    ThreadKept (ithreadinit cp threadid) [] :=
  ⟨rfl, fun _ => rfl, Nat.pos_of_ne_zero (by decide), fun _ h => absurd h List.not_mem_nil⟩

theorem sums_init (cp : CmdParams) (nthreads : ℕ) (endtime : UInt64) (c : Counter) :
    ((newFile cp nthreads endtime).ithreads.map fun itp => itp.get c).sum = 0 := by
  apply List.sum_eq_zero
  intro x hx
  obtain ⟨itp, hitp, rfl⟩ := List.mem_map.mp hx
  obtain ⟨threadid, -, rfl⟩ := List.mem_map.mp hitp
  cases c with
  | tot op => exact colTotal_zero _
  | bucket i op | lat op | bytes op => rfl

theorem sums_finish (h : ∀ c, (ftp.ithreads.map fun itp => itp.get c).sum
      = UInt64.ofNat (tally c (ftp.done.map Prod.snd)))
    (hf : ftp.finish t idp r = some ftp') (c : Counter) :
    (ftp'.ithreads.map fun itp => itp.get c).sum
      = UInt64.ofNat (tally c (ftp'.done.map Prod.snd)) := by
  obtain ⟨tp, ht, hmatch⟩ := Option.bind_eq_some_iff.mp hf
  split at hmatch
  · cases hmatch
  · next tp' idp' stop long hret =>
    cases hmatch
    rcases ioFinish_counts hret with ⟨herr, rfl⟩ | ⟨herr, hc⟩
    · -- a failed I/O leaves the thread as it was
      have hset : ftp.ithreads.set t tp' = ftp.ithreads := by
        obtain ⟨hlt, hget⟩ := List.getElem?_eq_some_iff.mp ht
        rw [← hget, List.set_getElem_self]
      rw [herr, if_pos rfl, hset]
      exact h c
    · rw [herr, if_neg Bool.false_ne_true]
      dsimp only
      rw [sum_map_set (hc.get c) ht, h, List.map_cons, tally, tally, List.map_cons,
        List.sum_cons, UInt64.ofNat_add, UInt64.add_comm]

/-- **What one completion keeps of a thread and its I/Os holds of every thread in a run.** -/
theorem threads_of_reachable {P : IoThread → List Iodet → Prop}
    (hinit : ∀ cp threadid, P (ithreadinit cp threadid) [])
    (hstep : ∀ {endtime tp idp r tp' idp' stop long ios}, P tp ios →
      ioFinish endtime tp idp r = .ret tp' idp' stop long →
      P tp' (if r.error then ios else idp' :: ios))
    (h : (completions files).Reachable Machine.always s) :
    ∀ ftp ∈ s, ∀ t tp, ftp.ithreads[t]? = some tp → P tp (ofThread t ftp.done) := by
  refine h.invariant (I := fun s => ∀ ftp ∈ s, ∀ t tp, ftp.ithreads[t]? = some tp →
    P tp (ofThread t ftp.done)) ?_ fun s a s' hs _ hst => ?_
  · intro ftp hmem t tp ht
    obtain ⟨p, -, rfl⟩ := List.mem_map.mp hmem
    obtain ⟨threadid, -, rfl⟩ := List.mem_map.mp (List.mem_of_getElem? ht)
    exact hinit p.1 threadid
  · obtain ⟨ftp, hf, hfinish⟩ := Option.bind_eq_some_iff.mp hst
    obtain ⟨ftp', hfin, rfl⟩ := Option.map_eq_some_iff.mp hfinish
    have hold := hs ftp (List.mem_of_getElem? hf)
    intro x hx u tp₂ hu
    rcases List.mem_or_eq_of_mem_set hx with hx | rfl
    · exact hs x hx u tp₂ hu
    obtain ⟨tp, ht, hmatch⟩ := Option.bind_eq_some_iff.mp hfin
    split at hmatch
    · cases hmatch
    · next tp' idp' stop long hret =>
      cases hmatch
      dsimp only at hu ⊢
      have hkept := hstep (hold a.t tp ht) hret
      by_cases htu : a.t = u
      · subst htu
        rw [List.getElem?_set_self (List.getElem?_eq_some_iff.mp ht).1] at hu
        cases hu
        cases herr : a.r.error with
        | true =>
          rw [herr, if_pos rfl] at hkept
          rw [if_pos rfl]
          exact hkept
        | false =>
          rw [herr, if_neg Bool.false_ne_true] at hkept
          rw [if_neg Bool.false_ne_true, ofThread_cons_self]
          exact hkept
      · rw [List.getElem?_set_ne htu] at hu
        have hother : ofThread u (if a.r.error then ftp.done else (a.t, idp') :: ftp.done) =
            ofThread u ftp.done := by
          split
          · rfl
          · exact ofThread_cons_of_ne htu _ _
        rw [hother]
        exact hold u tp₂ hu

theorem conserved_of_reachable (h : (completions files).Reachable Machine.always s) :
    ∀ ftp ∈ s, Conserved ftp := by
  have hthreads := threads_of_reachable threadKept_init (fun hk hret => by
    rcases ioFinish_counts hret with ⟨herr, rfl⟩ | ⟨herr, hc⟩
    · rwa [herr, if_pos rfl]
    · rw [herr, if_neg Bool.false_ne_true]
      exact hk.count hc) h
  have hsums : ∀ ftp ∈ s, ∀ c, (ftp.ithreads.map fun itp => itp.get c).sum
      = UInt64.ofNat (tally c (ftp.done.map Prod.snd)) := by
    refine h.invariant (I := fun s => ∀ ftp ∈ s, ∀ c, (ftp.ithreads.map fun itp => itp.get c).sum
      = UInt64.ofNat (tally c (ftp.done.map Prod.snd))) ?_ fun s a s' hs _ hst => ?_
    · intro ftp hmem
      obtain ⟨p, -, rfl⟩ := List.mem_map.mp hmem
      exact sums_init _ _ _
    · obtain ⟨ftp, hf, hstep⟩ := Option.bind_eq_some_iff.mp hst
      obtain ⟨ftp', hfin, rfl⟩ := Option.map_eq_some_iff.mp hstep
      intro x hx
      rcases List.mem_or_eq_of_mem_set hx with hx | rfl
      · exact hs x hx
      · exact sums_finish (hs ftp (List.mem_of_getElem? hf)) hfin
  exact fun ftp hmem => ⟨hsums ftp hmem, hthreads ftp hmem⟩

/-! ## What is reported -/

def ofType (op : OpType) (ios : List Iodet) : List Iodet := ios.filter fun idp => op = idp.type

/-- What `output` makes of a file whose threads have finished the I/Os `ios`: each total is the
sum of its column and the number of I/Os of its type, and the latencies and the bytes are
theirs, all modulo `2 ^ 64`. -/
structure FileTotals.Reports (tot : FileTotals) (ios : List Iodet) : Prop where
  balanced : tot.Balanced
  reads : tot.totreads.toNat = (ofType .read ios).length % 2 ^ 64
  writes : tot.totwrites.toNat = (ofType .write ios).length % 2 ^ 64
  lat : ∀ op ∈ optypes, (tot.totlat op).toNat
    = ((ofType op ios).map fun idp => (idp.endTime - idp.start).toNat).sum % 2 ^ 64
  bytes : ∀ op ∈ optypes, (tot.totbytes op).toNat
    = ((ofType op ios).map fun idp => idp.size.toNat).sum % 2 ^ 64

/-- What `output_seconds` makes of a thread that has finished the I/Os `ios`: its row entries add
up to `iocount`, and the non-zero ones are among the rows. -/
structure SecondsAddUp (itp : IoThread) (ios : List Iodet) (rows : ℕ) : Prop where
  iocount : itp.iocount.toNat = ios.length % 2 ^ 64
  modulo : ∑ i ∈ range nsec, (itp.seconds i).toInt ≡ itp.iocount.toNat [ZMOD 2 ^ 32]
  /-- The entries are exact while none of them passes the range of an `int`. -/
  exact : (∀ i < nsec, inSecond i ios < 2 ^ 31) →
    ∑ i ∈ range nsec, (itp.seconds i).toInt = itp.iocount.toNat
  printed : ∀ i, itp.seconds i ≠ 0 → i < rows

/-- The statistics of a state of the run, as they are reported. -/
structure StatisticsConserved (s : List FileRun) : Prop where
  file : ∀ (f : ℕ) (ftp : FileRun), s[f]? = some ftp →
    ∃ tot : FileTotals, (output (s.map FileRun.ithreads)).1[f]? = some tot ∧
      tot.Reports (ftp.done.map Prod.snd)
  systot : ∀ c, (output (s.map FileRun.ithreads)).2.get c
    = ((output (s.map FileRun.ithreads)).1.map fun tot => tot.get c).sum
  seconds : ∀ ftp ∈ s, ∀ t itp, ftp.ithreads[t]? = some itp →
    SecondsAddUp itp (ofThread t ftp.done) (outputSeconds (s.map FileRun.ithreads)).length
  rows : (outputSeconds (s.map FileRun.ithreads)).length ≤ nsec

theorem sum_map_ite {α : Type*} (p : α → Prop) [DecidablePred p] (g : α → ℕ) (l : List α) :
    (l.map fun x => if p x then g x else 0).sum = ((l.filter fun x => p x).map g).sum := by
  induction l with
  | nil => rfl
  | cons x l ih =>
    rw [List.map_cons, List.sum_cons, ih]
    by_cases hx : p x
    · rw [if_pos hx, List.filter_cons_of_pos (by simpa using hx), List.map_cons, List.sum_cons]
    · rw [if_neg hx, List.filter_cons_of_neg (by simpa using hx), Nat.zero_add]

theorem tally_lat (op : OpType) (ios : List Iodet) : tally (.lat op) ios
    = ((ofType op ios).map fun idp => (idp.endTime - idp.start).toNat).sum :=
  sum_map_ite (fun idp : Iodet => op = idp.type) _ ios

theorem tally_bytes (op : OpType) (ios : List Iodet) :
    tally (.bytes op) ios = ((ofType op ios).map fun idp => idp.size.toNat).sum :=
  sum_map_ite (fun idp : Iodet => op = idp.type) _ ios

theorem tally_tot (op : OpType) (ios : List Iodet) :
    tally (.tot op) ios = (ofType op ios).length := by
  apply (sum_map_ite (fun idp : Iodet => op = idp.type) (fun _ => 1) ios).trans
  rw [List.map_const', List.sum_replicate, smul_eq_mul, mul_one]
  rfl

theorem output_file {f : ℕ} (hf : s[f]? = some ftp) :
    (output (s.map FileRun.ithreads)).1[f]?
      = some (ftp.ithreads.foldl FileTotals.addThread .zero) := by
  unfold output
  rw [collect_fst, List.map_map, List.getElem?_map, hf]
  rfl

theorem Conserved.get_tot (h : Conserved ftp) {c : Counter} (hc : c.Added) :
    ((ftp.ithreads.foldl FileTotals.addThread .zero).get c).toNat
      = tally c (ftp.done.map Prod.snd) % 2 ^ 64 := by
  rw [get_foldl_addThread, if_pos hc, get_zero, zero_add, h.sums, UInt64.toNat_ofNat']

theorem Conserved.reports (h : Conserved ftp) :
    (ftp.ithreads.foldl FileTotals.addThread .zero).Reports (ftp.done.map Prod.snd) where
  balanced := balanced_foldl _ ⟨(colTotal_zero _).symm, (colTotal_zero _).symm⟩
  reads := by
    rw [← tally_tot]
    exact h.get_tot (c := .tot .read) (by decide)
  writes := by
    rw [← tally_tot]
    exact h.get_tot (c := .tot .write) (by decide)
  lat op hop := by
    rw [← tally_lat]
    exact h.get_tot (c := .lat op) hop
  bytes op hop := by
    rw [← tally_bytes]
    exact h.get_tot (c := .bytes op) hop

theorem sum_inSecond {n : ℕ} (h : ∀ idp ∈ ios, idp.seconds.toNat < n) :
    ∑ i ∈ range n, inSecond i ios = ios.length := by
  induction ios with
  | nil => exact sum_eq_zero fun _ _ => rfl
  | cons idp ios ih =>
    have hone : ∑ i ∈ range n, (if idp.seconds.toNat = i then 1 else 0) = 1 := by
      rw [sum_ite_eq (range n), if_pos (mem_range.mpr (h idp List.mem_cons_self))]
    have hstep : ∀ i ∈ range n, inSecond i (idp :: ios)
        = inSecond i ios + if idp.seconds.toNat = i then 1 else 0 := fun i _ => by
      unfold inSecond
      rw [List.countP_cons]
      simp
    rw [sum_congr rfl hstep, sum_add_distrib, hone, List.length_cons,
      ih fun x hx => h x (List.mem_cons_of_mem _ hx)]

theorem ThreadKept.secondsAddUp (h : ThreadKept tp ios) {rows : ℕ} (hrows : tp.nseconds < rows) :
    SecondsAddUp tp ios rows := by
  have hsum : ∑ i ∈ range nsec, inSecond i ios = ios.length :=
    sum_inSecond fun idp hmem => (h.second_le idp hmem).trans_lt h.clock
  have hcount : tp.iocount.toNat = ios.length % 2 ^ 64 := by
    rw [h.iocount, UInt64.toNat_ofNat']
  refine ⟨hcount, ?_, fun hfit => ?_, fun i hi => ?_⟩
  · have hslot : ∑ i ∈ range nsec, (tp.seconds i).toInt
        ≡ ∑ i ∈ range nsec, (inSecond i ios : ℤ) [ZMOD 2 ^ 32] := by
      apply Int.ModEq.sum
      intro i _
      rw [h.seconds, Int32.toInt_ofNat']
      exact Int.bmod_emod
    apply hslot.trans
    rw [← Nat.cast_sum, hsum, hcount]
    show (_ : ℤ) % _ = _ % _
    omega
  · have hlen : ios.length ≤ nsec * 2 ^ 31 := by
      rw [← hsum]
      refine (sum_le_sum fun i hi => (hfit i (mem_range.mp hi)).le).trans ?_
      rw [sum_const, card_range, smul_eq_mul]
    have hnsec : nsec = 20000 := rfl
    have hexact : ∀ i ∈ range nsec, (tp.seconds i).toInt = (inSecond i ios : ℤ) := fun i hi => by
      rw [h.seconds, Int32.toInt_ofNat_of_lt (hfit i (mem_range.mp hi))]
    rw [sum_congr rfl hexact, ← Nat.cast_sum, hsum, hcount, Nat.mod_eq_of_lt (by omega)]
  · by_contra hle
    apply hi
    have hnone : inSecond i ios = 0 := List.countP_eq_zero.mpr fun idp hmem => by
      have := h.second_le idp hmem
      simp only [decide_eq_true_eq]
      omega
    rw [h.seconds, hnone]
    rfl

/-- The latest second is that of some thread, and no thread's is later. -/
theorem latest_cases (l : List IoThread) (m : ℕ) :
    (∀ itp ∈ l, itp.nseconds ≤ l.foldl
      (fun m itp => if m < itp.nseconds then itp.nseconds else m) m) ∧
    m ≤ l.foldl (fun m itp => if m < itp.nseconds then itp.nseconds else m) m ∧
    ∀ n, m < n → (∀ itp ∈ l, itp.nseconds < n) →
      l.foldl (fun m itp => if m < itp.nseconds then itp.nseconds else m) m < n := by
  induction l generalizing m with
  | nil => exact ⟨fun _ h => absurd h List.not_mem_nil, le_rfl, fun _ h _ => h⟩
  | cons itp l ih =>
    obtain ⟨hall, hm, hlt⟩ := ih (if m < itp.nseconds then itp.nseconds else m)
    rw [List.foldl_cons]
    have hstep : m ≤ (if m < itp.nseconds then itp.nseconds else m) ∧
        itp.nseconds ≤ (if m < itp.nseconds then itp.nseconds else m) := by
      split <;> omega
    refine ⟨fun x hx => ?_, hstep.1.trans hm, fun n hn h => hlt n ?_ fun x hx => ?_⟩
    · rcases List.mem_cons.mp hx with rfl | hmem
      · exact hstep.2.trans hm
      · exact hall x hmem
    · have := h itp List.mem_cons_self
      split <;> omega
    · exact h x (List.mem_cons_of_mem _ hx)

/-- Every thread's second is among the rows, and there are `NSEC` of them at most. -/
theorem maxsec_bounds {flist : List (List IoThread)}
    (h : ∀ itp ∈ flist.flatten, itp.nseconds < nsec) :
    (∀ itp ∈ flist.flatten, itp.nseconds < maxsec flist) ∧ maxsec flist ≤ nsec := by
  obtain ⟨hall, -, hlt⟩ := latest_cases flist.flatten 0
  have hroom := hlt nsec (Nat.pos_of_ne_zero (by decide)) h
  unfold maxsec
  dsimp only
  rw [if_pos hroom]
  exact ⟨fun itp hmem => Nat.lt_succ_of_le (hall itp hmem), hroom⟩

/-- **The statistics of `iofill` conserve its I/Os**, in every state of a run: what is reported of
a file is what its threads have finished, what is reported of the system is the sum of the files,
and a thread's seconds are its I/Os, in rows that are printed.

Sums are taken modulo the width of the counter they are kept in: 64 bits for the totals, 32 for
the entries of a row, which are `int`. The latencies are the one sum that can pass its width in a
run of ordinary length (`latencies_wrap`), so the statement cannot do without the modulus. -/
theorem statistics_conserved (h : (completions files).Reachable Machine.always s) :
    StatisticsConserved s := by
  have hkept := conserved_of_reachable h
  have hclock : ∀ itp ∈ (s.map FileRun.ithreads).flatten, itp.nseconds < nsec := by
    intro itp hmem
    obtain ⟨l, hl, hitp⟩ := List.mem_flatten.mp hmem
    obtain ⟨ftp, hftp, rfl⟩ := List.mem_map.mp hl
    obtain ⟨t, ht⟩ := List.getElem?_of_mem hitp
    exact ((hkept ftp hftp).threads t itp ht).clock
  obtain ⟨hrows, hle⟩ := maxsec_bounds hclock
  have hlen : (outputSeconds (s.map FileRun.ithreads)).length
      = maxsec (s.map FileRun.ithreads) := by
    unfold outputSeconds
    rw [List.length_map, List.length_range]
  refine ⟨fun f ftp hf => ?_, output_systot _, fun ftp hftp t itp ht => ?_, hlen ▸ hle⟩
  · exact ⟨_, output_file hf, (hkept ftp (List.mem_of_getElem? hf)).reports⟩
  · rw [hlen]
    refine ((hkept ftp hftp).threads t itp ht).secondsAddUp (hrows itp ?_)
    exact List.mem_flatten.mpr ⟨_, List.mem_map_of_mem hftp, List.mem_of_getElem? ht⟩

end Run

/-! ## Two runs -/

def slowRead : Iodet := { detail₀ 0 with size := 4096, type := .read }

/-- A system call that took all of `[start, endTime)` and did what it was asked. -/
def took (start endTime : UInt64) : IoResult := ⟨start, endTime, false, 0, 4096⟩

def oneFile : List (CmdParams × ℕ × UInt64) := [(defparams, 1, 5)]

def twoFiles : List (CmdParams × ℕ × UInt64) := [(defparams, 2, 5), (defparams, 2, 5)]

/-- Both threads of the first file read, one of them across a second, and a thread of the second
file writes between. -/
theorem statistics_conserved_read : ∃ s, (completions twoFiles).exec
    [⟨0, 0, slowRead, took 1 2⟩, ⟨1, 1, { slowRead with type := .write }, took 3 9⟩,
      ⟨0, 1, slowRead, took 4 2000000000⟩] (completions twoFiles).init = some s ∧
    (s.map fun ftp => ftp.done.map Prod.fst) = [[1, 0], [1]] ∧ StatisticsConserved s := by
  obtain ⟨s, hexec, hdone⟩ : ∃ s, (completions twoFiles).exec
      [⟨0, 0, slowRead, took 1 2⟩, ⟨1, 1, { slowRead with type := .write }, took 3 9⟩,
        ⟨0, 1, slowRead, took 4 2000000000⟩] (completions twoFiles).init = some s ∧
      (s.map fun ftp => ftp.done.map Prod.fst) = [[1, 0], [1]] := ⟨_, rfl, rfl⟩
  exact ⟨s, hexec, hdone, statistics_conserved ⟨_, Machine.run_of_exec hexec⟩⟩

/-- **The latencies can pass `2 ^ 64`**: of two reads of `2 ^ 63` ns each nothing is left.

Nothing in `io_finish` keeps a latency small, since the two clock readings are the system's. So
the sums of `statistics_conserved` are those of 64 bits, and are not natural numbers. -/
theorem latencies_wrap : ¬ ∀ (files : List (CmdParams × ℕ × UInt64)) (s : List FileRun),
    (completions files).Reachable Machine.always s →
    ∀ (f : ℕ) (ftp : FileRun) (tot : FileTotals), s[f]? = some ftp →
    (output (s.map FileRun.ithreads)).1[f]? = some tot →
    (tot.totlat .read).toNat = ((ofType .read (ftp.done.map Prod.snd)).map fun idp =>
      (idp.endTime - idp.start).toNat).sum := by
  intro h
  have hrun : ∃ s ftp, (completions oneFile).exec
      [⟨0, 0, slowRead, took 0 9223372036854775808⟩,
        ⟨0, 0, slowRead, took 1 9223372036854775809⟩] (completions oneFile).init = some s ∧
      s[0]? = some ftp ∧ ((ofType .read (ftp.done.map Prod.snd)).map fun idp =>
        (idp.endTime - idp.start).toNat) = [9223372036854775808, 9223372036854775808] :=
    ⟨_, _, rfl, rfl, rfl⟩
  obtain ⟨s, ftp, hexec, hf, hlat⟩ := hrun
  have hreach : (completions oneFile).Reachable Machine.always s :=
    ⟨_, Machine.run_of_exec hexec⟩
  have hkept := conserved_of_reachable hreach ftp (List.mem_of_getElem? hf)
  have hsum := h oneFile s hreach 0 ftp _ hf (output_file hf)
  have hwrap := hkept.reports.lat .read (by decide)
  rw [hlat] at hsum hwrap
  rw [hwrap] at hsum
  exact absurd hsum (by decide)

end Iofill
end Blockbench
