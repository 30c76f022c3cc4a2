import Mathlib.Algebra.BigOperators.Group.List.Basic
import Blockbench.Iob.Percentile

/-!
# `Ioload/Stats.lean` — `struct iostats` and `io_finish`

The same counters are kept four times over: by each thread, by each file, for the system, and
as what a report prints. `Counter` names one of them, so that what holds of every counter is
stated once; the operations of `iol_output.c` on whole records are read off it by the simp set
`get_zero`, `get_add`, `get_diff`.

A thread's `totreads` and `totwrites` are not counted by `io_finish`: `output` sets them from
the histogram (`recount`). `weight` is what one I/O is worth to a counter, and `ioFinish_get`
is the one fact the rest needs of `io_finish`: it adds that and nothing else.
-/

set_option autoImplicit false

namespace Blockbench
namespace Ioload

open Finset CInt

/-- The columns of the counters; `N_OPTYPES` is 2. -/
inductive Dir
  | read
  | write
  deriving DecidableEq, Repr

/-- The column of an operation of `ioload`; a SLEEP has none. -/
def dirOf : OpType → Option Dir
  | .read => some .read
  | .write => some .write
  | _ => none

structure IoStats where
  latbuckets : ℕ → Dir → UInt64
  totreads : UInt64
  totwrites : UInt64
  totlat : Dir → UInt64
  totbytes : Dir → UInt64

/-! ## The counters -/

inductive Counter
  | bucket (i : ℕ) (d : Dir)
  | reads
  | writes
  | lat (d : Dir)
  | bytes (d : Dir)
  deriving DecidableEq

def IoStats.get (s : IoStats) : Counter → UInt64
  | .bucket i d => s.latbuckets i d
  | .reads => s.totreads
  | .writes => s.totwrites
  | .lat d => s.totlat d
  | .bytes d => s.totbytes d

/-- `memset(…, 0, sizeof (struct iostats))` -/
def IoStats.zero : IoStats := ⟨fun _ _ => 0, 0, 0, fun _ => 0, fun _ => 0⟩

/-- The `+=` of `output`, for every counter. -/
def IoStats.add (s t : IoStats) : IoStats where
  latbuckets i d := s.latbuckets i d + t.latbuckets i d
  totreads := s.totreads + t.totreads
  totwrites := s.totwrites + t.totwrites
  totlat d := s.totlat d + t.totlat d
  totbytes d := s.totbytes d + t.totbytes d

def statsDiff (cp lp : IoStats) : IoStats where
  latbuckets i d := cp.latbuckets i d - lp.latbuckets i d
  totreads := cp.totreads - lp.totreads
  totwrites := cp.totwrites - lp.totwrites
  totlat d := cp.totlat d - lp.totlat d
  totbytes d := cp.totbytes d - lp.totbytes d

/-- `itp->cur.totreads` and `itp->cur.totwrites`, set from a histogram of `n` buckets. -/
def IoStats.recount (n : ℕ) (s : IoStats) : IoStats :=
  { s with
    totreads := colTotal n fun i => s.latbuckets i .read
    totwrites := colTotal n fun i => s.latbuckets i .write }

structure IoStats.Balanced (n : ℕ) (s : IoStats) : Prop where
  reads : s.totreads = colTotal n fun i => s.latbuckets i .read
  writes : s.totwrites = colTotal n fun i => s.latbuckets i .write

section Get

variable {n : ℕ} {s t : IoStats} {c : Counter}

@[simp] theorem get_zero : IoStats.zero.get c = 0 := by
  cases c <;> rfl

@[simp] theorem get_add : (s.add t).get c = s.get c + t.get c := by
  cases c <;> rfl

@[simp] theorem get_diff : (statsDiff s t).get c = s.get c - t.get c := by
  cases c <;> rfl

theorem get_foldl_add (l : List IoStats) :
    (l.foldl IoStats.add s).get c = s.get c + (l.map fun t => t.get c).sum := by
  induction l generalizing s with
  | nil => simp
  | cons t l ih => rw [List.foldl_cons, ih, get_add, List.map_cons, List.sum_cons, add_assoc]

theorem balanced_recount (s : IoStats) : (s.recount n).Balanced n := ⟨rfl, rfl⟩

theorem balanced_zero : IoStats.zero.Balanced n := ⟨(colTotal_zero _).symm, (colTotal_zero _).symm⟩

theorem IoStats.Balanced.add (hs : s.Balanced n) (ht : t.Balanced n) : (s.add t).Balanced n := by
  refine ⟨?_, ?_⟩
  · rw [IoStats.add, colTotal_add, hs.reads, ht.reads]
  · rw [IoStats.add, colTotal_add, hs.writes, ht.writes]

theorem IoStats.Balanced.diff (hs : s.Balanced n) (ht : t.Balanced n) :
    (statsDiff s t).Balanced n := by
  refine ⟨?_, ?_⟩
  · rw [statsDiff, colTotal_sub, hs.reads, ht.reads]
  · rw [statsDiff, colTotal_sub, hs.writes, ht.writes]

end Get

/-! ## `io_finish` -/

/-- `current->endwarmup` and `current->endinterval`. -/
structure Window where
  endwarmup : UInt64
  endinterval : UInt64

/-- The lines of `io_finish` that count an I/O with a column. -/
def IoStats.count (s : IoStats) (d : Dir) (lat : UInt64) (size : UInt32) : IoStats :=
  let bkt := latBucket lat
  { s with
    latbuckets := Function.update s.latbuckets bkt
      (Function.update (s.latbuckets bkt) d (s.latbuckets bkt d + 1))
    totlat := Function.update s.totlat d (s.totlat d + lat)
    totbytes := Function.update s.totbytes d (s.totbytes d + size.toUInt64) }

/-- `io_finish`: `none` when the program ends, and otherwise the thread's counters, the record,
and whether it went to `iob_details_add`. `error` is `rp->error`, and `longlat` the limit of the
I/O's type. -/
def ioFinish (ignErrors : Bool) (w : Window) (starttime longlat : UInt64) (cur : IoStats)
    (idp : Iodet) (error : Bool) : Option (IoStats × Iodet × Bool) :=
  if error ∧ ¬ ignErrors then none
  else
    let idp := if error then { idp with flag := idp.flag ||| iodError } else idp
    if idp.start < w.endwarmup ∨ w.endinterval ≤ idp.start then some (cur, idp, false)
    else
      let lat := idp.endTime - idp.start
      let idp := { idp with seconds := ((idp.endTime - starttime) / nsecToSec).toUInt32 }
      let cur :=
        match dirOf idp.type with
        | some d => cur.count d lat idp.size
        | none => cur
      some (cur, idp, decide (idp.flag ≠ 0 ∨ longlat ≤ lat))

/-- The I/O started in the window. -/
def Window.Covers (w : Window) (idp : Iodet) : Prop :=
  w.endwarmup ≤ idp.start ∧ idp.start < w.endinterval

instance (w : Window) (idp : Iodet) : Decidable (w.Covers idp) :=
  inferInstanceAs (Decidable (_ ∧ _))

/-- What an I/O of column `d` is worth to a counter. -/
def worth (d : Dir) (lat : UInt64) (size : UInt32) : Counter → UInt64
  | .bucket i e => if i = latBucket lat ∧ e = d then 1 else 0
  | .reads => if .read = d then 1 else 0
  | .writes => if .write = d then 1 else 0
  | .lat e => if e = d then lat else 0
  | .bytes e => if e = d then size.toUInt64 else 0

/-- **The contribution of an I/O to a counter**: nothing for a SLEEP, and nothing for one that
did not start in the window. -/
def weight (w : Window) (c : Counter) (idp : Iodet) : UInt64 :=
  match dirOf idp.type with
  | some d => if w.Covers idp then worth d (idp.endTime - idp.start) idp.size c else 0
  | none => 0

theorem count_latbuckets (s : IoStats) (d : Dir) (lat : UInt64) (size : UInt32) (i : ℕ)
    (e : Dir) : (s.count d lat size).latbuckets i e =
      s.latbuckets i e + if i = latBucket lat ∧ e = d then 1 else 0 := by
  dsimp only [IoStats.count]
  by_cases hi : i = latBucket lat
  · rw [hi, Function.update_self, update_add]
    simp only [true_and]
  · rw [Function.update_of_ne hi, if_neg fun h => hi h.1, add_zero]

theorem count_column {n : ℕ} {s : IoStats} {lat : UInt64} (hb : latBucket lat < n) (d : Dir)
    (size : UInt32) (e : Dir) :
    colTotal n (fun i => (s.count d lat size).latbuckets i e) =
      colTotal n (fun i => s.latbuckets i e) + if e = d then 1 else 0 := by
  rw [funext fun i => count_latbuckets s d lat size i e, colTotal_add, colTotal_one hb]

/-- Counting an I/O adds its worth, once the totals are set from the histogram. -/
theorem get_recount_count {n : ℕ} {s : IoStats} {lat : UInt64} (hb : latBucket lat < n) (d : Dir)
    (size : UInt32) (c : Counter) :
    ((s.count d lat size).recount n).get c = (s.recount n).get c + worth d lat size c := by
  cases c with
  | bucket i e => exact count_latbuckets s d lat size i e
  | reads => exact count_column hb d size .read
  | writes => exact count_column hb d size .write
  | lat e => exact update_add s.totlat d e lat
  | bytes e => exact update_add s.totbytes d e size.toUInt64

/-- **`io_finish` adds the I/O's contribution to its thread's counters**: what it is worth when it
started in the window, and nothing otherwise. This is all that the accounts of
`Ioload/Totals.lean` know of `io_finish`. -/
theorem ioFinish_get {ignErrors error long : Bool} {w : Window} {starttime longlat : UInt64}
    {cur cur' : IoStats} {idp idp' : Iodet}
    (h : ioFinish ignErrors w starttime longlat cur idp error = some (cur', idp', long))
    (c : Counter) :
    (cur'.recount nlatbkts).get c = (cur.recount nlatbkts).get c + weight w c idp := by
  unfold ioFinish at h
  split at h
  · cases h
  · -- the error flag is the only thing set before the window is looked at
    have hsame : ∀ e : Bool, (if e then { idp with flag := idp.flag ||| iodError } else idp) =
        { idp with flag := if e then idp.flag ||| iodError else idp.flag } := by
      intro e
      cases e <;> rfl
    rw [hsame] at h
    dsimp only at h
    split at h
    · rename_i hout
      cases h
      have hnot : ¬ w.Covers idp := by
        rintro ⟨hlo, hhi⟩
        rcases hout with hlt | hle
        · exact UInt64.not_lt.mpr hlo hlt
        · exact UInt64.not_lt.mpr hle hhi
      have hzero : weight w c idp = 0 := by
        unfold weight
        split
        · exact if_neg hnot
        · rfl
      rw [hzero, add_zero]
    · rename_i hin
      have hcov : w.Covers idp :=
        ⟨UInt64.not_lt.mp fun hlt => hin (.inl hlt), UInt64.not_le.mp fun hle => hin (.inr hle)⟩
      cases h
      unfold weight
      cases dirOf idp.type with
      | none => exact (add_zero _).symm
      | some d =>
        dsimp only
        rw [if_pos hcov]
        exact get_recount_count (latBucket_lt _) d idp.size c

end Ioload
end Blockbench
