import Blockbench.Iofill.Inside

/-!
# `Iofill/Divisors.lean` — no division by zero

Lean's `/` and `%` are total, so the model of `io_thread` would compute on where C traps. This
file lists what the code divides by, function by function and under the conditions it divides
under, and proves that the lists hold no zero (`never_divides_by_zero`).

Two of the divisors need an argument. `rangeoff` is a wrapping difference times the size, and
`ithreadinit` keeps it away from zero by two special cases; `CmdParams.Ok.region_pos` is the
case analysis. `nio` is not checked at all — with `count=0` it is zero — but `totalio` is then
zero too, and the loop ends before the remainder.

The divisors of the write injection are left out with the rest of it: its flag is off.
-/

set_option autoImplicit false

namespace Blockbench
namespace Iofill

open CInt TicketPool

/-! ## What the code divides by -/

/-- `segsize`, which no option sets. -/
def segsize : Int32 := (16 : Int32) <<< 20

/-- `init_threads` and `ithreadinit`: the two ends of the region, `maxsegs`, a header that is
longer than the size, and the stream a thread belongs to. -/
def initDivisors (cp : CmdParams) (threadid : ℕ) : List UInt64 :=
  let p := threadParams cp threadid
  [u64OfI32 p.size, u64OfI32 p.size, u64OfI32 segsize]
    ++ (if u64OfI32 p.size < cp.headersz then [u64OfI32 p.size] else [])
    ++ if 1 < cp.streams ∧ cp.streams < cp.nthreads then [u64OfI32 cp.streams] else []

/-- The entry of `io_thread`: another thread's random seek. -/
def entryDivisors (l : LoopState) : List UInt64 :=
  let p := l.itp.params
  if (1 < p.streams ∧ p.seqflag ≠ 0) ∧ p.partition = 0 ∧ l.itp.threadid ≠ 0 then
    [l.itp.rangeoff >>> 20]
  else []

/-- From the claim on `thread_bno` to `bno`. -/
def claimDivisors (totalio : UInt64) (l : LoopState) (ftotBno : UInt64) : List UInt64 :=
  let p := l.itp.params
  if totalio ≤ ftotBno then []
  else
    (if p.injectintervalIo ≠ 0 then [p.injectintervalIo] else [])
      ++ if p.seqflag = 0 ∨ 1 < p.streams then [] else [p.nio]

/-- `iob_iodata`: only the types filled from a pool draw a header. -/
def iodataDivisors (dtype : DataType) (dedupblks : UInt64) : List UInt64 :=
  match dtype with
  | .pattern1 | .ones | .zeros => []
  | _ => [dedupblks]

/-- From `offset` to `io_start`, for the header as for a block. -/
def issueDivisors (u : Drand48) (l : LoopState) : List UInt64 :=
  let p := l.itp.params
  l.itp.rangeoff :: if u.val48 < p.readpct then [] else iodataDivisors p.datatype p.dedupblks

/-- The status line and the `altcount` toggle. -/
def bottomDivisors (statusmb : UInt64) (l : LoopState) : List UInt64 :=
  let p := l.itp.params
  [statusmb, statusmb] ++ if p.altcount ≠ 0 then [p.altcount] else []

def stepDivisors {T : ℕ} (c : Config) : Act T → FillState T → List UInt64
  | .claim i _ _, s => claimDivisors (fthreadinit c.cp).totalio (s.thread i) s.threadBno
  | .issue i u, s => issueDivisors u (s.thread i)
  | .bottom i, s => bottomDivisors c.statusmb (s.thread i)
  | .inject _, _ | .finish _ _, _ => []

/-! ## None of them is zero -/

theorem mainOpt_statusmb {c d : Config} {o : CmdOpt} (hc : c.statusmb ≠ 0)
    (h : mainOpt c o = some d) : d.statusmb ≠ 0 := by
  cases o with
  | s value =>
    simp only [mainOpt, Option.bind_eq_bind, Option.bind_eq_some_iff] at h
    obtain ⟨v, -, h⟩ := h
    split at h
    · cases h
    · rename_i hmb
      cases h
      exact hmb
  | out =>
    cases h
    exact hc
  | d options | m options | t options =>
    simp only [mainOpt, Option.bind_eq_bind, Option.bind_eq_some_iff, Option.pure_def,
      Option.some.injEq] at h
    obtain ⟨p, -, rfl⟩ := h
    exact hc
  | unknown => cases h

theorem statusmb_of_getopt {args : List CmdOpt} {c : Config} (h : getopt args = some c) :
    c.statusmb ≠ 0 :=
  foldlM_keeps (P := fun c => c.statusmb ≠ 0) (fun _ _ _ => mainOpt_statusmb) args
    (by decide) h

section Thread

variable {cp : CmdParams} (hp : cp.Ok)
include hp

theorem CmdParams.Ok.size_ne_zero : u64OfI32 cp.size ≠ 0 := by
  have hblk := hp.blk_ge
  rw [Ne, eq_zero_iff, hp.toNat_size]
  omega

theorem initDivisors_ne_zero (threadid : ℕ) : ∀ d ∈ initDivisors cp threadid, d ≠ 0 := by
  have hsize := hp.size_ne_zero
  have hstreams : ¬ (1 < cp.streams ∧ cp.streams < cp.nthreads) := by
    rw [hp.streams]
    exact fun h => absurd h.1 (by decide)
  have hseg : u64OfI32 segsize ≠ 0 := by decide
  intro d hd
  unfold initDivisors at hd
  rw [hp.threadParams_eq threadid, if_neg hstreams, List.append_nil] at hd
  dsimp only at hd
  rcases List.mem_append.mp hd with hd | hd
  · simp only [List.mem_cons, List.not_mem_nil, or_false] at hd
    rcases hd with rfl | rfl | rfl <;> assumption
  · split at hd
    · rw [List.mem_singleton.mp hd]
      exact hsize
    · cases hd

variable {i : ℕ} {l : LoopState} (hl : LoopShape cp i l)
include hl

theorem entryDivisors_eq_nil : entryDivisors l = [] := by
  have hstreams : ¬ 1 < l.itp.params.streams := by
    rw [hl.params, hp.threadParams_eq i]
    dsimp only
    rw [hp.streams]
    decide
  unfold entryDivisors
  exact if_neg fun h => hstreams h.1.1

/-- A thread gets past the test on `totalio` only when `nio` is not zero. -/
theorem claimDivisors_ne_zero (k : UInt64) :
    ∀ d ∈ claimDivisors (fthreadinit cp).totalio l k, d ≠ 0 := by
  have hnio : l.itp.params.nio = cp.nio := by rw [hl.params, hp.threadParams_eq i]
  intro d hd
  unfold claimDivisors at hd
  dsimp only at hd
  split at hd
  · cases hd
  · rename_i hk
    rcases List.mem_append.mp hd with hd | hd
    · split at hd
      · rename_i hne
        rw [List.mem_singleton.mp hd]
        exact hne
      · cases hd
    · split at hd
      · cases hd
      · rw [List.mem_singleton.mp hd, hnio]
        intro hz
        -- `totalio` would be zero, and no number is below it
        have htotal : (fthreadinit cp).totalio = 0 := by
          unfold fthreadinit
          dsimp only
          rw [hz, UInt64.zero_mul]
        exact hk (htotal ▸ UInt64.zero_le)

omit hl in
theorem iodataDivisors_ne_zero (dtype : DataType) :
    ∀ d ∈ iodataDivisors dtype cp.dedupblks, d ≠ 0 := by
  have hdedup : cp.dedupblks ≠ 0 := fun hz => by
    have := hp.dedupblks_pos
    rw [hz] at this
    exact absurd this (by decide)
  intro d hd
  unfold iodataDivisors at hd
  split at hd
  · cases hd
  · cases hd
  · cases hd
  · rw [List.mem_singleton.mp hd]
    exact hdedup

theorem issueDivisors_ne_zero (u : Drand48) : ∀ d ∈ issueDivisors u l, d ≠ 0 := by
  have hrange : l.itp.rangeoff ≠ 0 := by
    have hpos := hp.region_pos
    rw [hl.rangeoff, Ne, eq_zero_iff, hp.geometry.1]
    omega
  have hdedup : l.itp.params.dedupblks = cp.dedupblks := by rw [hl.params, hp.threadParams_eq i]
  intro d hd
  unfold issueDivisors at hd
  rcases List.mem_cons.mp hd with rfl | hd
  · exact hrange
  · split at hd
    · cases hd
    · rw [hdedup] at hd
      exact iodataDivisors_ne_zero hp _ d hd

omit hp hl in
theorem bottomDivisors_ne_zero {statusmb : UInt64} (hmb : statusmb ≠ 0) (l : LoopState) :
    ∀ d ∈ bottomDivisors statusmb l, d ≠ 0 := by
  intro d hd
  unfold bottomDivisors at hd
  rcases List.mem_append.mp hd with hd | hd
  · simp only [List.mem_cons, List.not_mem_nil, or_false, or_self] at hd
    rw [hd]
    exact hmb
  · split at hd
    · rename_i hne
      rw [List.mem_singleton.mp hd]
      exact hne
    · cases hd

end Thread

variable {endtime : UInt64} {T : ℕ}

/-- **`iofill` never divides by zero**: not when its threads are set up, and not in a step of any
run, whatever command line was accepted.

The three parts are the three places the program divides in: `ithreadinit`, the entry of
`io_thread` in front of its loop, and the loop. A divisor is listed only for the steps that get to
it, and it is there that `count=0` is harmless: `totalio` is zero with it, and the loop is left in
front of the remainder by `nio`. -/
theorem never_divides_by_zero {args : List CmdOpt} {c : Config} (h : getopt args = some c) :
    (∀ threadid, ∀ d ∈ initDivisors c.cp threadid, d ≠ 0) ∧
    (∀ i : Fin T, ∀ d ∈ entryDivisors ((fillInit c.cp T).thread i), d ≠ 0) ∧
    ∀ s, (fill c.cp endtime T).Reachable Machine.always s → ∀ a t,
      (fill c.cp endtime T).step a s = some t → ∀ d ∈ stepDivisors c a s, d ≠ 0 := by
  have hok := ok_of_getopt h
  refine ⟨initDivisors_ne_zero hok, fun i d hd => ?_, fun s hr a t _ d hd => ?_⟩
  · rw [entryDivisors_eq_nil hok (shape_init hok |>.thread i)] at hd
    cases hd
  · have hshape : Shape c.cp s := hr.invariant (shape_init hok)
      fun _ _ _ hs _ hst => (step_sim hok hs hst).1
    cases a with
    | inject i => cases hd
    | claim i rand nextbno => exact claimDivisors_ne_zero hok (hshape.thread i) _ d hd
    | issue i u => exact issueDivisors_ne_zero hok (hshape.thread i) u d hd
    | finish i r => cases hd
    | bottom i => exact bottomDivisors_ne_zero (statusmb_of_getopt h) _ d hd

/-- `minoff` above `maxoff`, and a `count` of zero. -/
theorem never_divides_by_zero_empty : ∃ c, getopt [.m [.minoff (some 8192), .maxoff (some 0)],
      .t [.count (some 0)]] = some c ∧
    ∀ s, (fill c.cp 5 1).Reachable Machine.always s → ∀ a t,
      (fill c.cp 5 1).step a s = some t → ∀ d ∈ stepDivisors c a s, d ≠ 0 := by
  have hargs : getopt [.m [.minoff (some 8192), .maxoff (some 0)],
      .t [.count (some 0)]] = some ⟨{ defparams with
        minoff := 8388608, maxoff := 0, nio := 0 }, (4096 : UInt64) <<< 20⟩ := rfl
  exact ⟨_, hargs, (never_divides_by_zero hargs).2.2⟩

end Iofill
end Blockbench
