import Mathlib.Data.Rat.Init
import Mathlib.Algebra.Order.Ring.Rat
import Blockbench.Lib.CInt
import Blockbench.Lib.Binary64

/-!
# `Iob/Types.lean` — what both tools share

The constants and records of `iobenchlibext.h` and the two number readers of `iob_lib.c`. The
tools keep their own copies of `NLATBKTS`, `NSEC` and `LATDIV`, with the same values in both
headers, so they are stated once.

A suboption's value is modelled after `strtoul`/`strtoull` have read it: on LP64 both return 64
bits, and `iob_strtoul` keeps the low 32 of them.
-/

set_option autoImplicit false

namespace Blockbench

open CInt

/-- `NLATBKTS`: the number of latency buckets. -/
abbrev nlatbkts : ℕ := 100000

/-- `NSEC`: the number of rows of the per-second table. -/
abbrev nsec : ℕ := 20000

/-- `LATDIV`: the width of a latency bucket in nanoseconds. -/
abbrev latdiv : UInt64 := 10000

abbrev nsecToSec : UInt64 := 1000000000

/-- `READ`, `WRITE`, `FLUSH`, `POSTFLUSH` and `SLEEP`, the operations the two tools issue. -/
inductive OpType
  | read
  | write
  | flush
  | postflush
  | sleep
  deriving DecidableEq, Repr

inductive DataType
  | zeros
  | ones
  | pattern1
  | uncompressible
  | compressible
  | hcompressible
  | pst
  | vm
  | h20compressible
  | h10compressible
  | h40compressible
  deriving DecidableEq, Repr

/-- `struct iodet`, without the fields only other tools of the library fill. -/
structure Iodet where
  start : UInt64
  endTime : UInt64
  offset : UInt64
  latency : UInt64
  ionum : UInt32
  size : UInt32
  seconds : UInt32
  flag : UInt16
  type : OpType
  dtype : DataType
  fid : UInt16
  tid : UInt16
  deriving DecidableEq, Repr

abbrev iodLong : UInt16 := 0x01
abbrev iodError : UInt16 := 0x08

/-- What a system call made of an I/O: `idp->start` and `idp->end`, and `rp->error`,
`rp->syserr` and `rp->rsize`, which the code sets when the count returned is not the size
asked for. -/
structure IoResult where
  start : UInt64
  endTime : UInt64
  error : Bool
  syserr : Int32
  rsize : Int32
  deriving DecidableEq, Repr

abbrev efbig : Int32 := 27
abbrev enospc : Int32 := 28

/-- The value of a suboption: `none` when it has no `=value`. -/
abbrev Arg := Option UInt64

/-- `iob_strtoul`; a missing value ends the program. -/
def iobStrtoul (v : Arg) : Option UInt32 := v.map UInt64.toUInt32

def iobStrtoull (v : Arg) : Option UInt64 := v

/-- A value `drand48()` can return, by its 48-bit numerator. -/
abbrev Drand48 := Fin (2 ^ 48)

def Drand48.val48 (u : Drand48) : ℚ := (u : ℕ) / 2 ^ 48

theorem Drand48.val48_nonneg (u : Drand48) : 0 ≤ u.val48 :=
  div_nonneg (Nat.cast_nonneg _) (by positivity)

theorem Drand48.val48_eq (u : Drand48) : u.val48 = ((32 * (u : ℕ) : ℕ) : ℚ) / 2 ^ 53 := by
  unfold Drand48.val48
  push_cast
  norm_num
  ring

theorem Drand48.representable_val48 (u : Drand48) : Binary64.Representable u.val48 := by
  rw [u.val48_eq]
  exact Binary64.representable_div (by omega)

def Drand48.double (u : Drand48) : Binary64 := .finite u.val48 u.representable_val48

/-- The bucket of a latency, as both `io_finish` functions compute it: the quotient is stored
in 32 bits and then clamped. -/
def latBucket (lat : UInt64) : ℕ :=
  let bkt := (lat / latdiv).toUInt32
  if nlatbkts ≤ bkt.toNat then nlatbkts - 1 else bkt.toNat

theorem latBucket_lt (lat : UInt64) : latBucket lat < nlatbkts := by
  unfold latBucket
  dsimp only
  split
  · decide
  · exact Nat.lt_of_not_le ‹_›

/-- The clamp both tools put on `dedupblks`. -/
def clampDedupblks (n : UInt64) : UInt64 :=
  let n := if n = 0 then 1 else n
  if (1 : UInt64) <<< 50 < n then (1 : UInt64) <<< 50 else n

theorem clampDedupblks_bounds (n : UInt64) :
    0 < (clampDedupblks n).toNat ∧ (clampDedupblks n).toNat ≤ 2 ^ 50 := by
  unfold clampDedupblks
  dsimp only
  have htop : ((1 : UInt64) <<< 50).toNat = 2 ^ 50 := by decide
  by_cases hn : n = 0
  · subst hn
    decide
  · have hpos : 0 < n.toNat := Nat.pos_of_ne_zero fun h => hn (eq_zero_iff.mpr h)
    rw [if_neg hn]
    split
    · rw [htop]
      decide
    · rename_i hlt
      rw [UInt64.lt_iff_toNat_lt, htop] at hlt
      exact ⟨hpos, Nat.le_of_not_lt hlt⟩

theorem foldlM_keeps {σ β : Type*} {f : σ → β → Option σ} {P : σ → Prop}
    (hstep : ∀ s b t, P s → f s b = some t → P t) :
    ∀ (l : List β) {s t : σ}, P s → l.foldlM f s = some t → P t
  | [], s, t, hs, h => by
    rw [List.foldlM_nil] at h
    cases h
    exact hs
  | b :: l, s, t, hs, h => by
    rw [List.foldlM_cons] at h
    obtain ⟨m, hm, hrest⟩ := Option.bind_eq_some_iff.mp h
    exact foldlM_keeps hstep l (hstep s b m hs hm) hrest

end Blockbench
