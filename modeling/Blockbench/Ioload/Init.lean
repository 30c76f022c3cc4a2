import Mathlib.Data.List.Induction
import Blockbench.Ioload.Params

/-!
# `Ioload/Init.lean` — `init_threads` and `ithreadinit`

Every thread computes the range the acceptance check was made on, so `blockRange` is stated
once. The semaphores are in `Ioload/Rounds.lean` and the counters in `Ioload/Stats.lean`; the
descriptor and the request structure are left out.

`maxsize` is an `int` compared with the unsigned sizes, and added to and subtracted from 64-bit
numbers. What the rest needs of it is `msz`, its sign extension: no size is above it, and it
leaves a sector below `2^64`. The three facts about `rangeoff` follow, one for each way the
header and the largest size can stand to the range: it is the whole of it (`rangeoff_whole`),
it keeps room for the largest size (`rangeoff_room`), or the subtraction wrapped and it is
larger than the range (`rangeoff_wrapped`).
-/

set_option autoImplicit false

namespace Blockbench
namespace Ioload

open CInt

/-- `struct iothread`, with the size its two buffers are allocated with. -/
structure IoThread where
  params : CmdParams
  itlist : List Itype
  threadid : ℕ
  iosize : Int32
  maxblks : UInt64
  minblks : UInt64
  rangeoff : UInt64

structure File where
  fileno : ℕ
  params : CmdParams
  itlist : List Itype
  ithreads : List IoThread

/-- The loop that sets `maxsize`; the comparison is unsigned. -/
def maxsize (itlist : List Itype) : Int32 :=
  itlist.foldl (fun m ip => if m.toUInt32 < ip.size then ip.size.toInt32 else m) 0

/-- The `headersz` line of `init_threads`. The comparison is the other way round than in
`iofill`, so the remainder never changes anything (`reduceHeader_eq`). -/
def reduceHeader (cp : CmdParams) (maxsize : Int32) : CmdParams :=
  if cp.headersz < u64OfI32 maxsize then
    { cp with headersz := cp.headersz % u64OfI32 maxsize }
  else cp

/-- `minblks`, `maxblks` and `rangeoff`. -/
def blockRange (p : CmdParams) (maxsize : Int32) : UInt64 × UInt64 × UInt64 :=
  let minblks := p.minoff / iobSector.toUInt64
  let maxblks := p.maxoff / iobSector.toUInt64
  let maxblks :=
    if p.headersz ≠ 0 then (p.maxoff - u64OfI32 maxsize) / iobSector.toUInt64 else maxblks
  (minblks, maxblks, (maxblks - minblks) * iobSector.toUInt64)

def ithreadinit (threadid : ℕ) (cp : CmdParams) (itlist : List Itype) (iosize : Int32) :
    IoThread :=
  let (minblks, maxblks, rangeoff) := blockRange cp (maxsize itlist)
  { params := cp
    itlist := itlist
    threadid := threadid
    iosize := iosize
    maxblks := maxblks
    minblks := minblks
    rangeoff := rangeoff }

/-- `init_threads`; `none` is the error about the test range. -/
def initThreads (nfiles : ℕ) (cp : CmdParams) (itlist : List Itype) : Option (List File) :=
  let cp := reduceHeader cp (maxsize itlist)
  let rangeoff := (blockRange cp (maxsize itlist)).2.2
  if rangeoff < u64OfI32 (maxsize itlist) + cp.headersz then none
  else
    let iosize := if cp.maxiosize < maxsize itlist then cp.maxiosize else maxsize itlist
    some ((List.range nfiles).map fun i =>
      { fileno := i + 1
        params := cp
        itlist := itlist
        ithreads := (List.range cp.maxthreads.toInt.toNat).map fun j =>
          ithreadinit j cp itlist iosize })

/-! ## The largest size -/

theorem maxsize_append (l : List Itype) (ip : Itype) :
    maxsize (l ++ [ip]) =
      if (maxsize l).toUInt32 < ip.size then ip.size.toInt32 else maxsize l := by
  rw [maxsize, List.foldl_append]
  rfl

/-- The unsigned reading of `maxsize` is the largest size of the list. -/
theorem toNat_maxsize_append (l : List Itype) (ip : Itype) :
    (maxsize (l ++ [ip])).toUInt32.toNat = max (maxsize l).toUInt32.toNat ip.size.toNat := by
  rw [maxsize_append]
  split
  · rename_i hlt
    rw [UInt32.lt_iff_toNat_lt] at hlt
    rw [max_eq_right hlt.le, UInt32.toUInt32_toInt32]
  · rename_i hlt
    rw [UInt32.lt_iff_toNat_lt] at hlt
    rw [max_eq_left (Nat.le_of_not_lt hlt)]

theorem size_le_maxsize {l : List Itype} {ip : Itype} (h : ip ∈ l) :
    ip.size.toNat ≤ (maxsize l).toUInt32.toNat := by
  induction l using List.reverseRecOn with
  | nil => exact absurd h List.not_mem_nil
  | append_singleton l jp ih =>
    rw [toNat_maxsize_append]
    rcases List.mem_append.mp h with hl | hjp
    · exact (ih hl).trans (le_max_left _ _)
    · rw [List.mem_singleton.mp hjp]
      exact le_max_right _ _

theorem maxsize_mem (l : List Itype) :
    (maxsize l).toUInt32.toNat = 0 ∨ ∃ ip ∈ l, (maxsize l).toUInt32.toNat = ip.size.toNat := by
  induction l using List.reverseRecOn with
  | nil => exact .inl rfl
  | append_singleton l jp ih =>
    rw [toNat_maxsize_append]
    rcases le_total (maxsize l).toUInt32.toNat jp.size.toNat with h | h
    · rw [max_eq_right h]
      exact .inr ⟨jp, by simp, rfl⟩
    · rw [max_eq_left h]
      rcases ih with hz | ⟨ip, hip, heq⟩
      · exact .inl hz
      · exact .inr ⟨ip, List.mem_append_left _ hip, heq⟩

/-- `maxsize` as the 64-bit number it is extended to. -/
def msz (itlist : List Itype) : ℕ := (u64OfI32 (maxsize itlist)).toNat

theorem reduceHeader_eq (cp : CmdParams) (m : Int32) : reduceHeader cp m = cp := by
  unfold reduceHeader
  split
  · rename_i hlt
    rw [UInt64.lt_iff_toNat_lt] at hlt
    have hmod : cp.headersz % u64OfI32 m = cp.headersz := by
      rw [← UInt64.toNat_inj, UInt64.toNat_mod, Nat.mod_eq_of_lt hlt]
    rw [hmod]
  · rfl

theorem size_le_msz {l : List Itype} {ip : Itype} (h : ip ∈ l) : ip.size.toNat ≤ msz l := by
  have hle := size_le_maxsize h
  rw [msz, toNat_u64OfI32_eq]
  split <;> omega

/-- A size with the top bit set is a READ or WRITE size, so it ends a sector before `2^32`. -/
theorem msz_le {l : List Itype} (hok : ∀ ip ∈ l, ip.Ok) : msz l + 512 ≤ 2 ^ 64 := by
  have hlt := UInt32.toNat_lt (maxsize l).toUInt32
  rw [msz, toNat_u64OfI32_eq]
  split
  · omega
  · rename_i hbig
    rcases maxsize_mem l with hz | ⟨ip, hip, heq⟩
    · omega
    · have hne : ip.optype ≠ .sleep := by
        intro hsleep
        have := ((hok ip hip).sleep hsleep).2
        omega
      have hdvd := ((hok ip hip).sector hne).2
      omega

/-! ## The range -/

section Range

variable {p : CmdParams} {l : List Itype}

/-- `rangeoff`, as every thread computes it. -/
abbrev rangeoff (p : CmdParams) (itlist : List Itype) : UInt64 :=
  (blockRange p (maxsize itlist)).2.2

def CmdParams.span (p : CmdParams) : ℕ := p.maxoff.toNat - p.minoff.toNat

theorem toNat_rangeoff (p : CmdParams) (l : List Itype) :
    (rangeoff p l).toNat =
      (2 ^ 64 - p.minoff.toNat / 512 +
        (if p.headersz ≠ 0 then (2 ^ 64 - msz l + p.maxoff.toNat) % 2 ^ 64
          else p.maxoff.toNat) / 512) % 2 ^ 64 * 512 % 2 ^ 64 := by
  have hsector : iobSector.toUInt64.toNat = 512 := rfl
  rw [rangeoff, blockRange]
  dsimp only
  split <;> simp only [UInt64.toNat_mul, UInt64.toNat_sub, UInt64.toNat_div, hsector, msz]

theorem rangeoff_whole (hp : p.Ranged) (hz : p.headersz = 0) :
    (rangeoff p l).toNat = p.span := by
  obtain ⟨hmin, hmax, hlt, hbound⟩ := hp.sectors
  rw [toNat_rangeoff, if_neg (not_not.mpr hz), CmdParams.span]
  omega

theorem rangeoff_room (hp : p.Ranged) (hnz : p.headersz ≠ 0) (hle : msz l ≤ p.span) :
    (rangeoff p l).toNat + msz l ≤ p.span := by
  obtain ⟨hmin, hmax, hlt, hbound⟩ := hp.sectors
  rw [CmdParams.span] at hle ⊢
  rw [toNat_rangeoff, if_pos hnz]
  omega

theorem rangeoff_wrapped (hp : p.Ranged) (hnz : p.headersz ≠ 0) (hlt : p.span < msz l)
    (hm : msz l + 512 ≤ 2 ^ 64) : p.span < (rangeoff p l).toNat := by
  obtain ⟨hmin, hmax, hord, hbound⟩ := hp.sectors
  rw [CmdParams.span] at hlt ⊢
  rw [toNat_rangeoff, if_pos hnz]
  omega

/-- The bytes an I/O can start in when `m` is the largest size: all of the range, or what `m`
leaves of it in whole sectors; a size that does not fit wraps. -/
def CmdParams.room (p : CmdParams) (m : ℕ) : ℕ :=
  if p.headersz = 0 then p.span else (2 ^ 64 + p.span - m) % 2 ^ 64 / 512 * 512

theorem toNat_rangeoff_eq (hp : p.Ranged) (l : List Itype) :
    (rangeoff p l).toNat = p.room (msz l) := by
  unfold CmdParams.room
  split
  · rename_i hz
    exact rangeoff_whole hp hz
  · rename_i hz
    obtain ⟨hmin, hmax, hlt, hbound⟩ := hp.sectors
    have hmsz : msz l < 2 ^ 64 := UInt64.toNat_lt _
    rw [toNat_rangeoff, if_pos hz, CmdParams.span]
    omega

end Range

/-! ## The threads -/

section Threads

variable {nfiles : ℕ} {cp : CmdParams} {itlist : List Itype} {files : List File}

/-- **What `init_threads` makes**: as many threads as asked for, each from the parameters and
the list `main` read. -/
theorem initThreads_mem (h : initThreads nfiles cp itlist = some files) {f : File} (hf : f ∈ files)
    {t : IoThread} (ht : t ∈ f.ithreads) :
    ∃ j < cp.maxthreads.toInt.toNat, t = ithreadinit j cp itlist
      (if cp.maxiosize < maxsize itlist then cp.maxiosize else maxsize itlist) := by
  simp only [initThreads, reduceHeader_eq] at h
  split at h
  · cases h
  · cases h
    obtain ⟨i, -, rfl⟩ := List.mem_map.mp hf
    obtain ⟨j, hj, rfl⟩ := List.mem_map.mp ht
    exact ⟨j, List.mem_range.mp hj, rfl⟩

theorem exists_thread (h : initThreads nfiles cp itlist = some files) (hfiles : 0 < nfiles)
    (hthreads : 0 < cp.maxthreads.toInt) : ∃ f ∈ files, ∃ t, t ∈ f.ithreads := by
  simp only [initThreads, reduceHeader_eq] at h
  split at h
  · cases h
  · cases h
    refine ⟨_, List.mem_map.mpr ⟨0, List.mem_range.mpr hfiles, rfl⟩, _,
      List.mem_map.mpr ⟨0, List.mem_range.mpr ?_, rfl⟩⟩
    omega

/-- A thread of an accepted configuration: the parameters and the list are the ones `main`
read, and its range is `rangeoff`. -/
theorem thread_of_initThreads (h : initThreads nfiles cp itlist = some files) {f : File}
    (hf : f ∈ files) {t : IoThread} (ht : t ∈ f.ithreads) :
    t.params = cp ∧ t.itlist = itlist ∧ t.rangeoff = rangeoff cp itlist := by
  obtain ⟨j, -, rfl⟩ := initThreads_mem h hf ht
  exact ⟨rfl, rfl, rfl⟩

theorem iosize_of_initThreads (h : initThreads nfiles cp itlist = some files) {f : File}
    (hf : f ∈ files) {t : IoThread} (ht : t ∈ f.ithreads) :
    t.iosize = if cp.maxiosize < maxsize itlist then cp.maxiosize else maxsize itlist := by
  obtain ⟨j, -, rfl⟩ := initThreads_mem h hf ht
  rfl

/-- What is the same for all threads holds of them all when there is none or it holds. -/
theorem all_threads_iff (h : initThreads nfiles cp itlist = some files) (hfiles : 0 < nfiles)
    {P : IoThread → Prop} {Q : Prop}
    (hthread : ∀ t : IoThread, t.params = cp → t.itlist = itlist →
      t.rangeoff = rangeoff cp itlist → (P t ↔ Q)) :
    (∀ f ∈ files, ∀ t ∈ f.ithreads, P t) ↔ cp.maxthreads.toInt ≤ 0 ∨ Q := by
  have hiff : ∀ f ∈ files, ∀ t ∈ f.ithreads, (P t ↔ Q) := fun f hf t ht => by
    obtain ⟨hcp, hlist, hrange⟩ := thread_of_initThreads h hf ht
    exact hthread t hcp hlist hrange
  constructor
  · intro hall
    by_cases hpos : 0 < cp.maxthreads.toInt
    · obtain ⟨f, hf, t, ht⟩ := exists_thread h hfiles hpos
      exact .inr ((hiff f hf t ht).mp (hall f hf t ht))
    · exact .inl (not_lt.mp hpos)
  · rintro (hnone | hq) f hf t ht
    · obtain ⟨j, hj, -⟩ := initThreads_mem h hf ht
      omega
    · exact (hiff f hf t ht).mpr hq

end Threads

end Ioload
end Blockbench
