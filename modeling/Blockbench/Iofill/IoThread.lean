import Blockbench.Iofill.Init

/-!
# `Iofill/IoThread.lean` — the loop of `io_thread`

One I/O thread of a file, branch by branch: the claim on `thread_bno` and the choice of `bno`
(`claim`), the request of the header (`headerIo`), the request of the block with the cut at the
region's end (`blockIo`), the completion (`ioFinish`) and the `altcount` toggle at the loop's
bottom (`loopEnd`). `LoopState` is what the loop keeps in its locals, in `struct iothread` and
in `rp->detail`; `Pc` is the place in the loop, with a place of its own on each side of the
system call, since that is where the threads interleave.

Two inputs are not computed here: a random draw, and what the system call did (`IoResult`).
`curtime` is a third, and only the write injection reads it.

Not modelled: the body of `do_write_inject`. Both guards in front of it are here, and
`Iofill/Fill.lean` shows that no accepted command line passes either (`Pc.inject` is
unreachable); `iowait` is set only inside it, so the rendezvous at the top of the loop never
happens.
-/

set_option autoImplicit false

namespace Blockbench
namespace Iofill

open CInt

/-! ## The block number and the two requests -/

/-- The three ways `io_thread` turns the number it claimed into `bno`. `rand` is what
`IOB_RAND64()` returned and `nextbno` what the fetch-and-add on `streamhead->nextbno` did. -/
def selectBno (p : CmdParams) (ftotBno rand nextbno : UInt64) : UInt64 :=
  if p.seqflag = 0 then rand
  else if 1 < p.streams then nextbno
  else ftotBno % p.nio

/-- `minoff + (offset % rangeoff) * multiplier`. -/
def place (p : CmdParams) (rangeoff offset : UInt64) : UInt64 :=
  p.minoff + offset % rangeoff * u64OfI32 p.multiplier

def headerOffset (p : CmdParams) (rangeoff : UInt64) : UInt64 := place p rangeoff p.seekoff

def blockOffset (p : CmdParams) (rangeoff bno : UInt64) : UInt64 :=
  place p rangeoff (p.seekoff + p.headersz + u64OfI32 p.size * u64OfI32 (1 + p.skip) * bno)

/-- How much is written there: `cursize`, cut at the region's end. -/
def blockSize (p : CmdParams) (rangeoff offset : UInt64) (cursize : Int32) : UInt32 :=
  let limit := p.minoff + rangeoff * u64OfI32 p.multiplier
  if limit < offset + u64OfI32 cursize then (limit - offset).toUInt32 else cursize.toUInt32

/-- The part both requests share: the draw decides between a read and a write, and a write goes
to `offset + wroff`. -/
def ioRequest (p : CmdParams) (u : Drand48) (ionum : UInt64) (offset : UInt64) (size : UInt32)
    (d : Iodet) : Iodet :=
  let d := { d with ionum := ionum.toUInt32, offset := offset, size := size }
  if u.val48 < p.readpct then { d with type := .read }
  else { d with offset := d.offset + p.wroff, type := .write, dtype := p.datatype }

/-- `rp->detail` for the header. -/
def headerIo (p : CmdParams) (rangeoff : UInt64) (u : Drand48) (ionum : UInt64) (d : Iodet) :
    Iodet :=
  ioRequest p u ionum (headerOffset p rangeoff) p.headersz.toUInt32 d

/-- `rp->detail` for a block. -/
def blockIo (p : CmdParams) (rangeoff : UInt64) (cursize : Int32) (u : Drand48) (bno ionum : UInt64)
    (d : Iodet) : Iodet :=
  let offset := blockOffset p rangeoff bno
  ioRequest p u ionum offset (blockSize p rangeoff offset cursize) d

/-! ## `io_finish` -/

/-- What `io_finish` does: end the program, or return with the thread's counters updated,
having added `totalio` to `thread_bno` (`stop`) and having passed the record to
`iob_details_add` (`long`) or not. -/
inductive Finish
  | exit
  | ret (tp : IoThread) (idp : Iodet) (stop long : Bool)

/-- The branch for an I/O that failed. The comparison of `rsize`, an `int`, with `size` is
unsigned. -/
def ioFailed (tp : IoThread) (idp : Iodet) (r : IoResult) : Finish :=
  if r.syserr = efbig ∨ r.syserr = enospc ∨ (r.syserr = 0 ∧ r.rsize.toUInt32 ≠ idp.size) then
    .ret tp idp true false
  else .exit

def IoThread.setClock (tp : IoThread) (nextsec : UInt64) (nseconds : ℕ) : IoThread :=
  { tp with nextsec := nextsec, nseconds := nseconds }

@[simp] theorem IoThread.setClock_params (tp : IoThread) (nextsec : UInt64) (nseconds : ℕ) :
    (tp.setClock nextsec nseconds).params = tp.params := rfl

@[simp] theorem IoThread.setClock_rangeoff (tp : IoThread) (nextsec : UInt64) (nseconds : ℕ) :
    (tp.setClock nextsec nseconds).rangeoff = tp.rangeoff := rfl

@[simp] theorem IoThread.setClock_nseconds (tp : IoThread) (nextsec : UInt64) (nseconds : ℕ) :
    (tp.setClock nextsec nseconds).nseconds = nseconds := rfl

/-- The per-second clock: `nextsec` and `nseconds`, and whether the deadline has passed. -/
def tick (endtime : UInt64) (tp : IoThread) (start : UInt64) : IoThread × Bool :=
  if tp.nextsec = 0 then (tp.setClock (start + nsecToSec) tp.nseconds, false)
  else if tp.nextsec < start then
    (tp.setClock (tp.nextsec + nsecToSec)
        (if tp.nseconds < nsec - 1 then tp.nseconds + 1 else tp.nseconds),
      decide (endtime < start))
  else (tp, false)

def countIo (tp : IoThread) (idp : Iodet) : IoThread :=
  let lat := idp.endTime - idp.start
  let bkt := latBucket lat
  { tp with
    latbuckets := Function.update tp.latbuckets bkt
      (Function.update (tp.latbuckets bkt) idp.type (tp.latbuckets bkt idp.type + 1))
    totlat := Function.update tp.totlat idp.type (tp.totlat idp.type + lat)
    totbytes := Function.update tp.totbytes idp.type
      (tp.totbytes idp.type + idp.size.toUInt64)
    seconds := Function.update tp.seconds tp.nseconds (tp.seconds tp.nseconds + 1) }

/-- The recovery count of `POSTFLUSH` reads, and whether the I/O is logged as long. -/
def flagLong (tp : IoThread) (idp : Iodet) : IoThread × Bool :=
  let lat := idp.endTime - idp.start
  if idp.type = .postflush then
    if lat < tp.params.recoverytime then
      ({ tp with
          recRunlen := tp.recRunlen + 1
          recovered := if tp.recRunlen + 1 = tp.params.dynamicrecovery then 1
            else tp.recovered }, true)
    else ({ tp with recRunlen := 0 }, true)
  else (tp, decide (tp.params.iodettime ≤ lat))

def ioFinish (endtime : UInt64) (tp : IoThread) (idp : Iodet) (r : IoResult) : Finish :=
  let idp := { idp with start := r.start, endTime := r.endTime }
  if r.error then ioFailed tp idp r
  else
    let (tp, stop) := tick endtime tp idp.start
    let idp := { idp with seconds := UInt32.ofNat tp.nseconds }
    let (tp, long) := flagLong (countIo tp idp) idp
    .ret { tp with iocount := tp.iocount + 1 }
      { idp with flag := if long then iodLong else 0 } stop long

/-- All the clock does: set its own two fields, and ask for a stop only past the deadline. -/
theorem tick_cases (endtime : UInt64) (tp : IoThread) (start : UInt64) :
    ∃ nextsec nseconds stop, tick endtime tp start = (tp.setClock nextsec nseconds, stop) ∧
      (stop = true → endtime < start) := by
  by_cases hzero : tp.nextsec = 0
  · exact ⟨_, _, _, if_pos hzero, fun h => absurd h Bool.false_ne_true⟩
  · by_cases hlt : tp.nextsec < start
    · exact ⟨_, _, _, (if_neg hzero).trans (if_pos hlt), of_decide_eq_true⟩
    · exact ⟨tp.nextsec, tp.nseconds, false, (if_neg hzero).trans (if_neg hlt),
        fun h => absurd h Bool.false_ne_true⟩

theorem flagLong_keeps (tp : IoThread) (idp : Iodet) :
    (flagLong tp idp).1.params = tp.params ∧ (flagLong tp idp).1.rangeoff = tp.rangeoff := by
  unfold flagLong
  dsimp only
  split
  · split <;> exact ⟨rfl, rfl⟩
  · exact ⟨rfl, rfl⟩

/-- The record of a successful I/O, once it is stamped with the thread's second. -/
def stamp (tp : IoThread) (idp : Iodet) (r : IoResult) : Iodet :=
  { idp with start := r.start, endTime := r.endTime, seconds := UInt32.ofNat tp.nseconds }

/-- **What `io_finish` can return**: the thread as it was, having asked for the stop, when the
I/O failed; otherwise the thread after the clock, the counters and the recovery count. -/
theorem ioFinish_cases {endtime : UInt64} {tp tp' : IoThread} {idp idp' : Iodet}
    {r : IoResult} {stop long : Bool}
    (h : ioFinish endtime tp idp r = .ret tp' idp' stop long) :
    (r.error = true ∧ tp' = tp ∧ stop = true) ∨
      (r.error = false ∧ ∃ ticked rec flagged, tick endtime tp r.start = (ticked, stop) ∧
        rec = stamp ticked idp r ∧ flagLong (countIo ticked rec) rec = (flagged, long) ∧
        tp' = { flagged with iocount := flagged.iocount + 1 } ∧
        idp' = { rec with flag := if long then iodLong else 0 }) := by
  unfold ioFinish at h
  dsimp only at h
  cases herr : r.error with
  | true =>
    rw [herr, if_pos rfl] at h
    unfold ioFailed at h
    split at h
    · cases h
      exact .inl ⟨rfl, rfl, rfl⟩
    · cases h
  | false =>
    rw [herr, if_neg Bool.false_ne_true] at h
    cases h
    exact .inr ⟨rfl, _, _, _, rfl, rfl, rfl, rfl, rfl⟩

theorem error_of_exit {endtime : UInt64} {tp : IoThread} {idp : Iodet} {r : IoResult}
    (h : ioFinish endtime tp idp r = .exit) : r.error = true := by
  unfold ioFinish at h
  dsimp only at h
  split at h
  · assumption
  · cases h

/-- The parameters and the geometry of a thread are fixed when it is created. -/
theorem ioFinish_keeps {endtime : UInt64} {tp tp' : IoThread} {idp idp' : Iodet}
    {r : IoResult} {stop long : Bool}
    (h : ioFinish endtime tp idp r = .ret tp' idp' stop long) :
    tp'.params = tp.params ∧ tp'.rangeoff = tp.rangeoff := by
  rcases ioFinish_cases h with ⟨-, rfl, -⟩ | ⟨-, ticked, rec, flagged, htick, -, hflag, rfl, -⟩
  · exact ⟨rfl, rfl⟩
  · obtain ⟨nextsec, nseconds, st, heq, -⟩ := tick_cases endtime tp r.start
    obtain rfl : tp.setClock nextsec nseconds = ticked :=
      congrArg Prod.fst (heq.symm.trans htick)
    have hkeeps := flagLong_keeps (countIo (tp.setClock nextsec nseconds) rec) rec
    rw [hflag] at hkeeps
    exact hkeeps

/-- An I/O that succeeds before the deadline returns and does not stop the fill. -/
theorem ioFinish_success {endtime : UInt64} (tp : IoThread) (idp : Iodet) {r : IoResult}
    (herr : r.error = false) (htime : r.start ≤ endtime) :
    ∃ tp' idp' long, ioFinish endtime tp idp r = .ret tp' idp' false long := by
  obtain ⟨nextsec, nseconds, stop, heq, hstop⟩ := tick_cases endtime tp r.start
  have hno : stop = false := by
    cases stop
    · rfl
    · exact absurd (hstop rfl) (UInt64.not_lt.mpr htime)
  unfold ioFinish
  dsimp only
  rw [herr, if_neg Bool.false_ne_true, heq, hno]
  exact ⟨_, _, _, rfl⟩

/-! ## The places in the loop -/

/-- Where the thread is. The number kept is `ftot_bno`, the one claimed; `bno` is what
`selectBno` made of it. -/
inductive Pc
  | claim
  | inject
  | header (ftotBno bno : UInt64)
  | headerIo (ftotBno bno : UInt64)
  | block (ftotBno bno : UInt64)
  | blockIo (ftotBno bno : UInt64)
  | loopEnd (ftotBno : UInt64)
  | done
  deriving DecidableEq, Repr

/-- The thread, the loop's locals and `rp->detail`. -/
structure LoopState where
  itp : IoThread
  pc : Pc
  detail : Iodet
  ionum : UInt64
  cursize : Int32
  altcount : UInt64
  injbno : UInt64

/-- The first record of a thread's request: `iob_malloc` zeroes it and `ithreadinit` sets
`tid`. -/
def detail₀ (threadid : ℕ) : Iodet where
  start := 0
  endTime := 0
  offset := 0
  latency := 0
  ionum := 0
  size := 0
  seconds := 0
  flag := 0
  type := .read
  dtype := .zeros
  fid := 0
  tid := UInt16.ofNat threadid

def loopInit (cp : CmdParams) (threadid : ℕ) : LoopState where
  itp := ithreadinit cp threadid
  pc := .claim
  detail := detail₀ threadid
  ionum := 1
  cursize := cp.size
  altcount := 0
  injbno := 0

/-- The iteration's start, once the number is claimed: leave the loop, inject, or go on to the
header or the block. -/
def claimed (totalio rand nextbno : UInt64) (l : LoopState) (ftotBno : UInt64) : LoopState :=
  let p := l.itp.params
  if totalio ≤ ftotBno then { l with pc := .done }
  else if p.injectintervalIo ≠ 0 ∧ l.injbno < ftotBno / p.injectintervalIo then
    { l with pc := .inject }
  else
    let bno := selectBno p ftotBno rand nextbno
    if bno = 0 ∧ p.headersz ≠ 0 then { l with pc := .header ftotBno bno }
    else { l with pc := .block ftotBno bno }

/-- Fill in the request and call `io_start`. -/
def issued (u : Drand48) (l : LoopState) : Option LoopState :=
  match l.pc with
  | .header ftotBno bno =>
    some { l with
      pc := .headerIo ftotBno bno
      detail := headerIo l.itp.params l.itp.rangeoff u l.ionum l.detail
      ionum := l.ionum + 1 }
  | .block ftotBno bno =>
    some { l with
      pc := .blockIo ftotBno bno
      detail := blockIo l.itp.params l.itp.rangeoff l.cursize u bno l.ionum l.detail
      ionum := l.ionum + 1 }
  | _ => none

/-- Where the thread goes when `io_start` returns. -/
def Pc.returned : Pc → Option Pc
  | .headerIo ftotBno bno => some (.block ftotBno bno)
  | .blockIo ftotBno _ => some (.loopEnd ftotBno)
  | _ => none

/-- The bottom of the loop: the `altcount` toggle between the two sizes. -/
def loopEnd (l : LoopState) : LoopState :=
  let p := l.itp.params
  if p.altcount = 0 then { l with pc := .claim }
  else
    let altcount := l.altcount + 1
    { l with
      pc := .claim
      altcount := altcount
      cursize :=
        if altcount % p.altcount = 0 then if l.cursize = p.size then p.altsize else p.size
        else l.cursize }

end Iofill
end Blockbench
