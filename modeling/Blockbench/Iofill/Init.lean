import Blockbench.Iofill.Params

/-!
# `Iofill/Init.lean` — `fthreadinit` and `ithreadinit`

The parts of `struct fthread` and `struct iothread` that the fill computes with. Left out are
the semaphores (`Iofill/Barrier.lean`), the buffers and the write-injection tables.

`IoThread.streamhead` is not a field: `set_streamhead` runs only when `streams > 1`, which no
option sets, so every thread is its own stream head and reads its own parameters.
-/

set_option autoImplicit false

namespace Blockbench
namespace Iofill

open CInt

/-- `struct fthread`: what the I/O threads of one file share, `thread_bno` apart. -/
structure FThread where
  params : CmdParams
  totalio : UInt64
  starttime : UInt64
  endtime : UInt64

/-- `struct iothread`. `latbuckets`, `totlat`, `totbytes` and `seconds` are C arrays, zeroed by
`iob_malloc`. -/
structure IoThread where
  params : CmdParams
  threadid : ℕ
  minblks : UInt64
  maxblks : UInt64
  rangeoff : UInt64
  iocount : UInt64
  recovered : Int32
  recRunlen : Int32
  latbuckets : ℕ → OpType → UInt64
  totlat : OpType → UInt64
  totbytes : OpType → UInt64
  seconds : ℕ → Int32
  nseconds : ℕ
  nextsec : UInt64

/-- `fthreadinit`; the times are set by `file_thread`. -/
def fthreadinit (cp : CmdParams) : FThread where
  params := cp
  totalio := cp.nio * cp.nrep
  starttime := 0
  endtime := 0

/-- `minblks`, `maxblks` and `rangeoff`, with `ithreadinit`'s two special cases. -/
def blockRange (p : CmdParams) : UInt64 × UInt64 × UInt64 :=
  let minblks := p.minoff / u64OfI32 p.size
  let maxblks := p.maxoff / u64OfI32 p.size
  let maxblks := if maxblks = 0 then 1 else maxblks
  let maxblks := if maxblks = minblks then minblks + 1 else maxblks
  (minblks, maxblks, (maxblks - minblks) * u64OfI32 p.size)

/-- The thread's own copy of the parameters, as `ithreadinit` adjusts it. -/
def threadParams (cp : CmdParams) (threadid : ℕ) : CmdParams :=
  let p := cp
  let p := if threadid ≠ 0 then { p with writeinject := 0, injectintervalIo := 0 } else p
  let p := if p.partition ≠ 0 then
      { p with
        minoff := p.minoff + p.maxoff * UInt64.ofNat threadid
        maxoff := p.maxoff + p.maxoff * UInt64.ofNat threadid }
    else p
  if u64OfI32 p.size < p.headersz then { p with headersz := p.headersz % u64OfI32 p.size } else p

def ithreadinit (cp : CmdParams) (threadid : ℕ) : IoThread :=
  let p := threadParams cp threadid
  let (minblks, maxblks, rangeoff) := blockRange p
  { params := p
    threadid := threadid
    minblks := minblks
    maxblks := maxblks
    rangeoff := rangeoff
    iocount := 0
    recovered := 0
    recRunlen := 0
    latbuckets := fun _ _ => 0
    totlat := fun _ => 0
    totbytes := fun _ => 0
    seconds := fun _ => 0
    nseconds := 0
    nextsec := 0 }

/-! ## The region in plain arithmetic -/

def CmdParams.blk (p : CmdParams) : ℕ := p.size.toInt.toNat

def CmdParams.nblks (p : CmdParams) : ℕ :=
  max (p.maxoff.toNat / p.blk - p.minoff.toNat / p.blk) 1

/-- The length of the region `ithreadinit` lays out. An end below the start makes the
difference wrap, and then it is nearly the whole of the 64-bit range. -/
def CmdParams.region (p : CmdParams) : ℕ :=
  let a := p.minoff.toNat / p.blk
  let b := max (p.maxoff.toNat / p.blk) 1
  if a < b then (b - a) * p.blk else if a = b then p.blk else 2 ^ 64 - (a - b) * p.blk

/-- The header that is left after `ithreadinit` reduced it. -/
def CmdParams.hdr (p : CmdParams) : ℕ :=
  if p.blk < p.headersz.toNat then p.headersz.toNat % p.blk else p.headersz.toNat

section Ok

variable {p : CmdParams}

theorem CmdParams.Ok.blk_ge (hp : p.Ok) : 512 ≤ p.blk := by
  have := hp.size_ge
  unfold CmdParams.blk
  omega

theorem CmdParams.blk_lt (p : CmdParams) : p.blk < 2 ^ 31 := by
  have := Int32.toInt_lt p.size
  unfold CmdParams.blk
  omega

theorem CmdParams.Ok.toNat_size (hp : p.Ok) : (u64OfI32 p.size).toNat = p.blk := by
  rw [toNat_u64OfI32 (by have := hp.size_ge; omega)]
  rfl

theorem CmdParams.Ok.toNat_size32 (hp : p.Ok) : p.size.toUInt32.toNat = p.blk := by
  rw [toNat_toUInt32_of_nonneg (by have := hp.size_ge; omega)]
  rfl

theorem CmdParams.nblks_pos (p : CmdParams) : 0 < p.nblks :=
  lt_of_lt_of_le Nat.one_pos (le_max_right _ _)

theorem CmdParams.Ok.hdr_le (hp : p.Ok) : p.hdr ≤ p.blk := by
  have hpos := hp.blk_ge
  unfold CmdParams.hdr
  split
  · exact (Nat.mod_lt _ (by omega)).le
  · omega

/-- The distance between two block numbers, in bytes, fits in 64 bits. -/
theorem CmdParams.divs_mul_le (p : CmdParams) :
    (p.minoff.toNat / p.blk < max (p.maxoff.toNat / p.blk) 1 →
      (max (p.maxoff.toNat / p.blk) 1 - p.minoff.toNat / p.blk) * p.blk < 2 ^ 64) ∧
    (max (p.maxoff.toNat / p.blk) 1 < p.minoff.toNat / p.blk →
      (p.minoff.toNat / p.blk - max (p.maxoff.toNat / p.blk) 1) * p.blk < 2 ^ 64) := by
  have hmin := UInt64.toNat_lt p.minoff
  have hmax := UInt64.toNat_lt p.maxoff
  have hblk := p.blk_lt
  have hminle : p.minoff.toNat / p.blk * p.blk ≤ p.minoff.toNat := Nat.div_mul_le_self _ _
  have hmaxle : p.maxoff.toNat / p.blk * p.blk ≤ p.maxoff.toNat := Nat.div_mul_le_self _ _
  rw [Nat.sub_mul, Nat.sub_mul]
  rcases le_total (p.maxoff.toNat / p.blk) 1 with h | h
  · rw [max_eq_right h]
    omega
  · rw [max_eq_left h]
    omega

theorem CmdParams.Ok.nblks_mul_lt (hp : p.Ok) : p.nblks * p.blk < 2 ^ 64 := by
  have hblk := hp.blk_ge
  have hlt := p.blk_lt
  have hmax := UInt64.toNat_lt p.maxoff
  have hdiv : p.maxoff.toNat / p.blk * p.blk ≤ p.maxoff.toNat := Nat.div_mul_le_self _ _
  unfold CmdParams.nblks
  rcases le_total (p.maxoff.toNat / p.blk - p.minoff.toNat / p.blk) 1 with h | h
  · rw [max_eq_right h]
    omega
  · rw [max_eq_left h]
    have hmul := Nat.mul_le_mul_right p.blk
      (Nat.sub_le (p.maxoff.toNat / p.blk) (p.minoff.toNat / p.blk))
    omega

/-- **What `ithreadinit` computes as `rangeoff`.** -/
theorem toNat_rangeoff (hp : p.Ok) : (blockRange p).2.2.toNat = p.region := by
  have hsize := hp.toNat_size
  have hblk := hp.blk_ge
  have hone : (1 : UInt64).toNat = 1 := rfl
  have hmin : (p.minoff / u64OfI32 p.size).toNat = p.minoff.toNat / p.blk := by
    rw [UInt64.toNat_div, hsize]
  have hmax : (if p.maxoff / u64OfI32 p.size = 0 then 1 else p.maxoff / u64OfI32 p.size).toNat
      = max (p.maxoff.toNat / p.blk) 1 := by
    have hdiv : (p.maxoff / u64OfI32 p.size).toNat = p.maxoff.toNat / p.blk := by
      rw [UInt64.toNat_div, hsize]
    by_cases hz : p.maxoff / u64OfI32 p.size = 0
    · have hz' : p.maxoff.toNat / p.blk = 0 := by rw [← hdiv, hz]; rfl
      rw [if_pos hz, hz', hone]
      rfl
    · have hz' : p.maxoff.toNat / p.blk ≠ 0 := hdiv ▸ fun h => hz (eq_zero_iff.mpr h)
      rw [if_neg hz, hdiv, max_eq_left (by omega)]
  have hle := p.divs_mul_le
  have hsmall : p.minoff.toNat / p.blk < 2 ^ 63 := by
    have := UInt64.toNat_lt p.minoff
    exact Nat.div_lt_of_lt_mul (by omega)
  have hsucc : (p.minoff / u64OfI32 p.size + 1).toNat = p.minoff.toNat / p.blk + 1 := by
    rw [toNat_add_of_lt (by omega), hmin, hone]
  unfold blockRange CmdParams.region
  dsimp only
  generalize (if p.maxoff / u64OfI32 p.size = 0 then 1 else p.maxoff / u64OfI32 p.size) = maxblks
    at hmax ⊢
  generalize max (p.maxoff.toNat / p.blk) 1 = b at hmax hle ⊢
  generalize p.minoff.toNat / p.blk = a at hmin hle hsmall hsucc ⊢
  generalize p.minoff / u64OfI32 p.size = minblks at hmin hsucc ⊢
  rcases lt_trichotomy a b with hab | hab | hab
  · -- the blocks of the region
    have hne : maxblks ≠ minblks := fun h => by
      rw [h, hmin] at hmax
      omega
    have hsub : (maxblks - minblks).toNat = b - a := by rw [toNat_sub_of_le (by omega)]; omega
    rw [if_neg hne, if_pos hab, toNat_mul_of_lt (by rw [hsub, hsize]; exact hle.1 hab), hsub,
      hsize]
  · -- one block, by the second special case
    have heq : maxblks = minblks := UInt64.toNat_inj.mp (by omega)
    have hsub : (minblks + 1 - minblks).toNat = 1 := by rw [toNat_sub_of_le (by omega)]; omega
    rw [if_pos heq, if_neg (by omega), if_pos hab,
      toNat_mul_of_lt (by rw [hsub, hsize]; have := p.blk_lt; omega), hsub, hsize, Nat.one_mul]
  · -- the subtraction and the product wrap
    have hne : maxblks ≠ minblks := fun h => by
      rw [h, hmin] at hmax
      omega
    obtain ⟨k, rfl⟩ := Nat.exists_eq_add_of_lt hab
    have hsub : (maxblks - minblks).toNat = 2 ^ 64 - (k + 1) := by
      rw [UInt64.toNat_sub]
      omega
    have hk := hle.2 hab
    have hdist : b + k + 1 - b = k + 1 := by omega
    rw [hdist] at hk
    have hkpos : 0 < (k + 1) * p.blk := Nat.mul_pos (Nat.succ_pos k) (by omega)
    rw [if_neg hne, if_neg (by omega), if_neg (by omega), UInt64.toNat_mul, hsub, hsize, hdist,
      Nat.sub_mul]
    have hbig : (k + 1) * p.blk ≤ 2 ^ 64 * p.blk := Nat.mul_le_mul_right _ (by omega)
    have hwrap : 2 ^ 64 * p.blk - (k + 1) * p.blk
        = 2 ^ 64 * (p.blk - 1) + (2 ^ 64 - (k + 1) * p.blk) := by
      have : 2 ^ 64 * p.blk = 2 ^ 64 * (p.blk - 1) + 2 ^ 64 := by
        rw [← Nat.mul_succ]
        congr 1
        omega
      omega
    rw [hwrap, Nat.mul_add_mod, Nat.mod_eq_of_lt (by omega)]

/-- **The region is never empty**, wherever `minoff` and `maxoff` are.

`ithreadinit` adds a block where the two rounded ends are equal. Elsewhere the number of blocks is
a difference in 64 bits, which may have wrapped, and its product with the size wraps as well; but
a product of a size below `2 ^ 31` with a difference of two quotients by that size is zero only
when the difference is. -/
theorem CmdParams.Ok.region_pos (hp : p.Ok) : 0 < p.region := by
  have hblk := hp.blk_ge
  obtain ⟨-, hgt⟩ := p.divs_mul_le
  unfold CmdParams.region
  dsimp only
  split
  · exact Nat.mul_pos (by omega) (by omega)
  · split
    · omega
    · have := hgt (by omega)
      omega

theorem CmdParams.Ok.toNat_headersz (hp : p.Ok) :
    (if u64OfI32 p.size < p.headersz then p.headersz % u64OfI32 p.size
      else p.headersz).toNat = p.hdr := by
  have hsize := hp.toNat_size
  unfold CmdParams.hdr
  by_cases hlt : u64OfI32 p.size < p.headersz
  · have hlt' := UInt64.lt_iff_toNat_lt.mp hlt
    rw [hsize] at hlt'
    rw [if_pos hlt, if_pos hlt', UInt64.toNat_mod, hsize]
  · have hlt' := UInt64.lt_iff_toNat_lt.not.mp hlt
    rw [hsize] at hlt'
    rw [if_neg hlt, if_neg hlt']

/-- The parameters a thread works with are the file's own, apart from the reduced header and,
in the other threads than the first, the write-injection options. -/
theorem CmdParams.Ok.threadParams_eq (hp : p.Ok) (threadid : ℕ) :
    threadParams p threadid =
      { p with
        injectintervalIo := if threadid ≠ 0 then 0 else p.injectintervalIo
        headersz := if u64OfI32 p.size < p.headersz then p.headersz % u64OfI32 p.size
          else p.headersz } := by
  have hinj := hp.writeinject
  have hpart := hp.partition
  obtain ⟨⟩ := p
  dsimp only at hinj hpart
  subst hinj hpart
  by_cases ht : threadid ≠ 0
  · simp only [threadParams, if_pos ht, ne_eq, not_true_eq_false, if_false]
    split <;> rfl
  · simp only [threadParams, if_neg ht, ne_eq, not_true_eq_false, if_false]
    split <;> rfl

end Ok

end Iofill
end Blockbench
