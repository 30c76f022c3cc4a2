import Blockbench.Iob.Types

/-!
# `Iofill/Params.lean` — the options of `iofill`

`iof_main.c`: the default parameters, the three suboption parsers and `main`'s loop over the
options. `usage()` and `iob_errlog(1, …)` end the program, so a parser is a partial function
and `none` is that exit.

`struct cmdparams` has more fields than options: `seqflag`, `streams`, `altcount`, `wroff`,
`partition`, `writeinject` and a few others keep their defaults for ever, and `io_thread`
branches on them all the same. `CmdParams.Ok` is what the parsers guarantee — the size check of
`gettestopts`, the clamp of `getmodopts` and those constants — and `ok_of_getopt` is the proof.
Everything downstream is proved from `Ok`.
-/

set_option autoImplicit false

namespace Blockbench
namespace Iofill

open CInt

/-- `struct cmdparams`, the fields read outside the write-injection code.

Widths and signs are the source's: what is an `int` there is an `Int32` here, also where a
suboption is read as 64 bits, since it is at the assignment that the upper half is lost. The one
`double`, `readpct`, is zero for ever and needs no more than a rational. The fields that no option
sets are kept because `io_thread` branches on them; those that only the write injection reads are
in `InjectParams`. -/
structure CmdParams where
  readpct : ℚ
  seqflag : Int32
  size : Int32
  altsize : Int32
  altcount : UInt64
  nio : UInt64
  nrep : UInt64
  seekoff : UInt64
  headersz : UInt64
  skip : Int32
  nthreads : Int32
  streams : Int32
  wroff : UInt64
  minoff : UInt64
  maxoff : UInt64
  multiplier : Int32
  partition : Int32
  writeinject : Int32
  injectintervalIo : UInt64
  iodetcnt : UInt64
  iodettime : UInt64
  recoverytime : UInt64
  maxtime : UInt64
  dynamicrecovery : Int32
  datatype : DataType
  dedupblks : UInt64

/-- `defparams`. `count` and `maxoff` are as good as infinite, `2 ^ 40` blocks and `2 ^ 62` bytes:
by default it is the deadline or the end of the device that ends a fill. -/
def defparams : CmdParams where
  readpct := 0
  seqflag := 1
  size := 1048576
  altsize := 512
  altcount := 0
  nio := (1 : UInt64) <<< 40
  nrep := 1
  seekoff := 0
  headersz := 1024
  skip := 0
  nthreads := 1
  streams := 1
  wroff := 0
  minoff := 0
  maxoff := (4 : UInt64) <<< 60
  multiplier := 1
  partition := 0
  writeinject := 0
  injectintervalIo := ~~~0
  iodetcnt := 10000
  iodettime := 100000000
  recoverytime := 500000
  maxtime := 3600000 * nsecToSec
  dynamicrecovery := 0
  datatype := .vm
  dedupblks := (1 : UInt64) <<< 50

/-- A `-t` suboption: `tstopts`, or a name that is not in the table. -/
inductive TestOpt
  | size (value : Arg)
  | count (value : Arg)
  | nrep (value : Arg)
  | skip (value : Arg)
  | unknown

/-- One turn of the loop of `gettestopts`. -/
def gettestopt (cp : CmdParams) : TestOpt → Option CmdParams
  | .size value => do
    let cp := { cp with size := (← iobStrtoul value).toInt32 }
    if cp.size < 512 ∨ cp.size % 512 ≠ 0 then none else some cp
  | .count value => do return { cp with nio := ← iobStrtoull value }
  | .nrep value => do return { cp with nrep := ← iobStrtoull value }
  | .skip value => do return { cp with skip := i32OfU64 (← iobStrtoull value) }
  | .unknown => none

def gettestopts (cp : CmdParams) (options : List TestOpt) : Option CmdParams :=
  options.foldlM gettestopt cp

/-- A `-m` suboption: `modopts`. The value of `dtype` is what `iob_dtargparse` made of it. -/
inductive ModOpt
  | threads (value : Arg)
  | seek (value : Arg)
  | seed (value : Arg)
  | maxrun (value : Arg)
  | dtype (value : Option DataType)
  | dedupblks (value : Arg)
  | maxoff (value : Arg)
  | minoff (value : Arg)
  | multiplier (value : Arg)
  | header (value : Arg)
  | unknown

/-- One turn of the loop of `getmodopts`. -/
def getmodopt (cp : CmdParams) : ModOpt → Option CmdParams
  | .threads value => do return { cp with nthreads := (← iobStrtoul value).toInt32 }
  | .seek value => do return { cp with seekoff := (← iobStrtoull value) * 1024 }
  | .minoff value => do return { cp with minoff := (← iobStrtoull value) * 1024 }
  | .maxoff value => do return { cp with maxoff := (← iobStrtoull value) * 1024 }
  | .header value => do return { cp with headersz := (← iobStrtoull value) * 1024 }
  | .multiplier value => do return { cp with multiplier := (← iobStrtoul value).toInt32 }
  -- `randseed` only feeds `srand48`; the draws themselves are inputs of the model
  | .seed value => do let _ ← iobStrtoul value; return cp
  | .maxrun value => do return { cp with maxtime := (← iobStrtoull value) * nsecToSec }
  | .dtype value => do return { cp with datatype := ← value }
  | .dedupblks value => do return { cp with dedupblks := clampDedupblks (← iobStrtoull value) }
  | .unknown => none

def getmodopts (cp : CmdParams) (options : List ModOpt) : Option CmdParams :=
  options.foldlM getmodopt cp

inductive DetOpt
  | count (value : Arg)
  | time (value : Arg)
  | unknown

/-- One turn of the loop of `getdetopts`. -/
def getdetopt (cp : CmdParams) : DetOpt → Option CmdParams
  | .count value => do return { cp with iodetcnt := ← iobStrtoull value }
  | .time value => do return { cp with iodettime := (← iobStrtoull value) * 1000 }
  | .unknown => none

def getdetopts (cp : CmdParams) (options : List DetOpt) : Option CmdParams :=
  options.foldlM getdetopt cp

/-- What `main` sets: the parameters and `statusmb`. -/
structure Config where
  cp : CmdParams
  statusmb : UInt64

def defconfig : Config := ⟨defparams, (4096 : UInt64) <<< 20⟩

/-- A command-line option, with its argument split by `getsubopt`. -/
inductive CmdOpt
  | s (value : Arg)
  | out
  | d (options : List DetOpt)
  | m (options : List ModOpt)
  | t (options : List TestOpt)
  | unknown

/-- One turn of the `getopt` loop of `main`. -/
def mainOpt (c : Config) : CmdOpt → Option Config
  | .s value => do
    let mb := (← iobStrtoull value) <<< 20
    if mb = 0 then none else some { c with statusmb := mb }
  | .out => some c
  | .d options => do return { c with cp := ← getdetopts c.cp options }
  | .m options => do return { c with cp := ← getmodopts c.cp options }
  | .t options => do return { c with cp := ← gettestopts c.cp options }
  | .unknown => none

/-- The option loop of `main`, from the defaults. -/
def getopt (args : List CmdOpt) : Option Config := args.foldlM mainOpt defconfig

/-! ## What the parsers guarantee -/

/-- The parameters a run starts with: the size is checked, `dedupblks` is clamped, and the
fields no option sets are at their defaults. -/
structure CmdParams.Ok (p : CmdParams) : Prop where
  size_ge : 512 ≤ p.size.toInt
  size_mod : p.size.toInt % 512 = 0
  dedupblks_pos : 0 < p.dedupblks.toNat
  dedupblks_le : p.dedupblks.toNat ≤ 2 ^ 50
  readpct : p.readpct = 0
  seqflag : p.seqflag = 1
  streams : p.streams = 1
  altcount : p.altcount = 0
  wroff : p.wroff = 0
  partition : p.partition = 0
  writeinject : p.writeinject = 0
  injectintervalIo : p.injectintervalIo.toNat = 2 ^ 64 - 1

theorem defparams_ok : defparams.Ok := by
  constructor <;> first | rfl | decide

theorem size_checked {s : Int32} (h : ¬ (s < 512 ∨ s % 512 ≠ 0)) :
    512 ≤ s.toInt ∧ s.toInt % 512 = 0 := by
  obtain ⟨hge, hmod⟩ := not_or.mp h
  have hge' : 512 ≤ s.toInt := by
    have := Int32.lt_iff_toInt_lt.not.mp hge
    simpa using this
  refine ⟨hge', ?_⟩
  have hz : (s % 512).toInt = 0 := by rw [not_not.mp hmod]; rfl
  rw [Int32.toInt_mod] at hz
  have : (512 : Int32).toInt = 512 := rfl
  rw [this, Int.tmod_eq_emod_of_nonneg (by omega)] at hz
  exact hz

theorem gettestopt_ok {p q : CmdParams} {o : TestOpt} (hp : p.Ok)
    (h : gettestopt p o = some q) : q.Ok := by
  cases o with
  | size value =>
    simp only [gettestopt, Option.bind_eq_bind, Option.bind_eq_some_iff] at h
    obtain ⟨v, -, h⟩ := h
    split at h
    · cases h
    · rename_i hs
      cases h
      obtain ⟨hge, hmod⟩ := size_checked hs
      exact { hp with size_ge := hge, size_mod := hmod }
  | count value | nrep value | skip value =>
    simp only [gettestopt, Option.bind_eq_bind, Option.bind_eq_some_iff, Option.pure_def,
      Option.some.injEq] at h
    obtain ⟨v, -, rfl⟩ := h
    exact { hp with }
  | unknown => cases h

theorem getmodopt_ok {p q : CmdParams} {o : ModOpt} (hp : p.Ok)
    (h : getmodopt p o = some q) : q.Ok := by
  cases o with
  | dedupblks value =>
    simp only [getmodopt, Option.bind_eq_bind, Option.bind_eq_some_iff, Option.pure_def,
      Option.some.injEq] at h
    obtain ⟨v, -, rfl⟩ := h
    exact { hp with
      dedupblks_pos := (clampDedupblks_bounds v).1
      dedupblks_le := (clampDedupblks_bounds v).2 }
  | unknown => cases h
  | threads value | seek value | seed value | maxrun value | dtype value | maxoff value
  | minoff value | multiplier value | header value =>
    simp only [getmodopt, Option.bind_eq_bind, Option.bind_eq_some_iff, Option.pure_def,
      Option.some.injEq] at h
    obtain ⟨v, -, rfl⟩ := h
    exact { hp with }

theorem getdetopt_ok {p q : CmdParams} {o : DetOpt} (hp : p.Ok)
    (h : getdetopt p o = some q) : q.Ok := by
  cases o with
  | unknown => cases h
  | count value | time value =>
    simp only [getdetopt, Option.bind_eq_bind, Option.bind_eq_some_iff, Option.pure_def,
      Option.some.injEq] at h
    obtain ⟨v, -, rfl⟩ := h
    exact { hp with }

theorem mainOpt_keeps {P : CmdParams → Prop}
    (hmod : ∀ p o q, P p → getmodopt p o = some q → P q)
    (htest : ∀ p o q, P p → gettestopt p o = some q → P q)
    (hdet : ∀ p o q, P p → getdetopt p o = some q → P q) {c d : Config} {o : CmdOpt}
    (hc : P c.cp) (h : mainOpt c o = some d) : P d.cp := by
  cases o with
  | s value =>
    simp only [mainOpt, Option.bind_eq_bind, Option.bind_eq_some_iff] at h
    obtain ⟨v, -, h⟩ := h
    split at h
    · cases h
    · cases h
      exact hc
  | out =>
    cases h
    exact hc
  | d options =>
    simp only [mainOpt, Option.bind_eq_bind, Option.bind_eq_some_iff, Option.pure_def,
      Option.some.injEq] at h
    obtain ⟨p, hp, rfl⟩ := h
    exact foldlM_keeps hdet options hc hp
  | m options =>
    simp only [mainOpt, Option.bind_eq_bind, Option.bind_eq_some_iff, Option.pure_def,
      Option.some.injEq] at h
    obtain ⟨p, hp, rfl⟩ := h
    exact foldlM_keeps hmod options hc hp
  | t options =>
    simp only [mainOpt, Option.bind_eq_bind, Option.bind_eq_some_iff, Option.pure_def,
      Option.some.injEq] at h
    obtain ⟨p, hp, rfl⟩ := h
    exact foldlM_keeps htest options hc hp
  | unknown => cases h

/-- **Every accepted command line gives parameters that are `Ok`.**

The defaults are (`defparams_ok`), each suboption keeps them so, and the command line is a fold
over suboptions that stops at the first one refused (`foldlM_keeps`). So a new suboption costs a
case of one lemma, and nothing that is proved from `Ok`. -/
theorem ok_of_getopt {args : List CmdOpt} {c : Config} (h : getopt args = some c) :
    c.cp.Ok :=
  foldlM_keeps (P := fun c => c.cp.Ok)
    (fun _ _ _ => mainOpt_keeps (fun _ _ _ => getmodopt_ok) (fun _ _ _ => gettestopt_ok)
      fun _ _ _ => getdetopt_ok) args defparams_ok h

end Iofill
end Blockbench
