import Blockbench.Iob.HcData
import Blockbench.Iob.Rand48

/-!
# `Iob/Initdata.lean` — the pools

`iob_initdata` fills six pools: first `uncdata` and `cdata`, a word of each in turn, and then the
four with longer runs, sector by sector. A sector of `hcdata` is one byte; in the others a byte
is drawn for every 24, 10 or 6 places. All of it comes from one run of the generator, and
`initdata_words` and `initdata_sectors` say which place of a pool shows which draw.

`iob_malloc` has zeroed the pools. The two tables are parameters.
-/

set_option autoImplicit false

namespace Blockbench

open CInt Bytes

/-- Where the loops are: the generator, `pbyte`, and what the pools hold. -/
structure Initdata where
  rand : Drand48
  pbyte : UInt8
  pools : Pools

/-- A turn of the first loop, for word `n` of the two pools. -/
def wordTurn (n : ℕ) (s : Initdata) : Initdata :=
  let (u, rand) := mrand48 s.rand
  let (v, rand) := mrand48 rand
  { s with
    rand := rand
    pools := { s.pools with
      uncdata := store32 s.pools.uncdata (4 * n) u.toUInt32
      cdata := store32 s.pools.cdata (4 * n) (v.toUInt32 &&& 0x3c3c3c3c) } }

def xbyte (r : Int32) : UInt8 := (r &&& 0xff).toUInt32.toUInt8

/-- `for (j = 0; j < IOB_SECTOR; j += count)` over the sector at `a`: a byte is drawn for every
`count` places, and the last run is cut. `j` goes on in every turn, so as many turns as there
are bytes are enough. -/
def runLoop (a : ℕ) : ℕ → ℕ → ℕ → Mem × Drand48 → Mem × Drand48
  | 0, _, _, s => s
  | fuel + 1, j, count, (mem, rand) =>
    if j < iobSector then
      let (r, rand) := mrand48 rand
      let count := if j + count > iobSector then iobSector - j else count
      runLoop a fuel (j + count) count (fill mem (a + j) count (xbyte r), rand)
    else (mem, rand)

def fillRuns (a count : ℕ) (mem : Mem) (rand : Drand48) : Mem × Drand48 :=
  runLoop a iobSector 0 count (mem, rand)

/-- A turn of the second loop, for sector `n` of the four pools. -/
def sectorTurn (n : ℕ) (s : Initdata) : Initdata :=
  let a := iobSector * n
  let hcdata := fill s.pools.hcdata a iobSector s.pbyte
  let (hc10data, rand) := fillRuns a 24 s.pools.hc10data s.rand
  let (hc20data, rand) := fillRuns a 10 s.pools.hc20data rand
  let (hc40data, rand) := fillRuns a 6 s.pools.hc40data rand
  { rand := rand
    pbyte := s.pbyte + 1
    pools := { s.pools with
      hcdata := hcdata
      hc10data := hc10data
      hc20data := hc20data
      hc40data := hc40data } }

def forTurns (turn : ℕ → Initdata → Initdata) : ℕ → Initdata → Initdata
  | 0, s => s
  | n + 1, s => turn n (forTurns turn n s)

def poolSize : ℕ := iobNdatapages * iobPage

def initSeed : Drand48 := seed48 1234 35578 9568

/-- `iob_initdata`, with the two tables. -/
def iobInitdata (pstData vmData : Mem) : Pools :=
  let zero : Mem := fun _ => 0
  let s : Initdata :=
    { rand := initSeed
      pbyte := 0x5E
      pools :=
        { uncdata := zero
          pstData := pstData
          vmData := vmData
          cdata := zero
          hc40data := zero
          hc20data := zero
          hc10data := zero
          hcdata := zero } }
  (forTurns sectorTurn (poolSize / iobSector) (forTurns wordTurn (poolSize / 4) s)).pools

/-- The pools of runs, by the type that takes its data from them. -/
inductive RunPool
  | hc10
  | hc20
  | hc40

def RunPool.dtype : RunPool → DataType
  | .hc10 => .h10compressible
  | .hc20 => .h20compressible
  | .hc40 => .h40compressible

def RunPool.count : RunPool → ℕ
  | .hc10 => 24
  | .hc20 => 10
  | .hc40 => 6

/-- Which of the 160 draws for a sector is the first for this pool. -/
def RunPool.first : RunPool → ℕ
  | .hc10 => 0
  | .hc20 => 22
  | .hc40 => 74

/-! ## What a turn leaves -/

section Turns

variable {a count fuel r n m y z : ℕ} {mem : Mem} {x : Drand48} {s : Initdata}

def drawByte (x : Drand48) (n : ℕ) : UInt8 := (x.draw n).toUInt8

theorem drawByte_after (x : Drand48) (m n : ℕ) : drawByte (x.after m) n = drawByte x (m + n) := by
  unfold drawByte
  rw [Drand48.draw_after]

theorem xbyte_mrand48 (x : Drand48) (n : ℕ) : xbyte (mrand48 (x.after n)).1 = drawByte x n := by
  have hmask : (0xff : Int32).toUInt32.toNat = 2 ^ 8 - 1 := rfl
  unfold xbyte drawByte Drand48.draw
  rw [← UInt8.toNat_inj, UInt32.toNat_toUInt8, UInt32.toNat_toUInt8, Int32.toUInt32_and,
    UInt32.toNat_and, hmask, Nat.and_two_pow_sub_one_eq_mod, Nat.mod_mod]

theorem runLoop_over {j : ℕ} {t : Mem × Drand48} (hj : iobSector ≤ j) :
    runLoop a fuel j count t = t := by
  cases fuel with
  | zero => rfl
  | succ fuel =>
    unfold runLoop
    rw [if_neg (Nat.not_lt.mpr hj)]

theorem runLoop_eq (hcount : 0 < count) (hin : count * r < iobSector)
    (hfuel : iobSector ≤ count * r + fuel) :
    runLoop a fuel (count * r) count (mem, x.after r) =
      (fun z => if a + count * r ≤ z ∧ z < a + iobSector then drawByte x ((z - a) / count)
        else mem z, x.after ((iobSector - 1) / count + 1)) := by
  induction fuel generalizing r mem with
  | zero => omega
  | succ fuel ih =>
    have hrun : ∀ z, a + count * r ≤ z → z < a + count * r + count → (z - a) / count = r :=
      fun z hle hlt => Nat.div_eq_of_lt_le (by rw [Nat.mul_comm]; omega)
        (by rw [Nat.mul_comm, Nat.mul_succ]; omega)
    have hnext : (mrand48 (x.after r)).2 = x.after (r + 1) := by
      rw [mrand48_snd, Drand48.after_after]
    unfold runLoop
    rw [if_pos hin]
    dsimp only
    rw [xbyte_mrand48, hnext]
    by_cases hcut : iobSector ≤ count * r + count
    · -- the last run, cut or not
      have hlen : (if count * r + count > iobSector then iobSector - count * r else count) =
          iobSector - count * r := by
        split <;> omega
      have hlast : (iobSector - 1) / count = r :=
        Nat.div_eq_of_lt_le (by rw [Nat.mul_comm]; omega)
          (by rw [Nat.mul_comm, Nat.mul_succ]; omega)
      rw [hlen, runLoop_over (by omega), hlast]
      refine Prod.ext (funext fun z => ?_) rfl
      dsimp only [fill, copy]
      by_cases hz : a + count * r ≤ z ∧ z < a + iobSector
      · rw [if_pos (by omega), if_pos hz, hrun z hz.1 (by omega)]
      · rw [if_neg (by omega), if_neg hz]
    · have hsucc : count * r + count = count * (r + 1) := (Nat.mul_succ _ _).symm
      rw [if_neg (by omega), hsucc, ih (by omega) (by omega)]
      refine Prod.ext (funext fun z => ?_) rfl
      dsimp only [fill, copy]
      by_cases hlater : a + count * (r + 1) ≤ z ∧ z < a + iobSector
      · rw [if_pos hlater, if_pos (by omega)]
      · rw [if_neg hlater]
        by_cases hz : a + count * r ≤ z ∧ z < a + count * r + count
        · rw [if_pos hz, if_pos (by omega), hrun z hz.1 hz.2]
        · rw [if_neg hz, if_neg (by omega)]

/-- **A sector of a pool of runs.** -/
theorem fillRuns_eq (hcount : 0 < count) :
    fillRuns a count mem x =
      (fun z => if a ≤ z ∧ z < a + iobSector then drawByte x ((z - a) / count) else mem z,
        x.after ((iobSector - 1) / count + 1)) := by
  have hstart : count * 0 < iobSector := Nat.pos_of_ne_zero (by simp)
  have h := @runLoop_eq a count iobSector 0 mem x hcount hstart (Nat.le_add_left _ _)
  rwa [Nat.mul_zero, Nat.add_zero] at h

/-- What a turn of the second loop leaves in a pool of runs. -/
def sectorRuns (s : Initdata) (n : ℕ) (k : RunPool) : Mem := fun z =>
  if iobSector * n ≤ z ∧ z < iobSector * n + iobSector then
    drawByte s.rand (k.first + (z - iobSector * n) / k.count)
  else s.pools.dbuf k.dtype z

theorem wordTurn_eq (n : ℕ) (s : Initdata) : wordTurn n s =
    { s with
      rand := s.rand.after 2
      pools := { s.pools with
        uncdata := store32 s.pools.uncdata (4 * n) (s.rand.draw 0)
        cdata := store32 s.pools.cdata (4 * n) (s.rand.draw 1 &&& 0x3c3c3c3c) } } := rfl

theorem sectorTurn_eq (n : ℕ) (s : Initdata) : sectorTurn n s =
    { rand := s.rand.after 160
      pbyte := s.pbyte + 1
      pools := { s.pools with
        hcdata := fill s.pools.hcdata (iobSector * n) iobSector s.pbyte
        hc10data := sectorRuns s n .hc10
        hc20data := sectorRuns s n .hc20
        hc40data := sectorRuns s n .hc40 } } := by
  unfold sectorTurn sectorRuns RunPool.first RunPool.count RunPool.dtype Pools.dbuf
  simp [fillRuns_eq, drawByte_after, Drand48.after_after]

end Turns

/-! ## What the loops leave -/

/-- After `n` turns of the first loop: `s` is where it started. -/
structure Worded (s : Initdata) (n : ℕ) (t : Initdata) : Prop where
  rand : t.rand = s.rand.after (2 * n)
  pbyte : t.pbyte = s.pbyte
  uncdata : ∀ j < n, ∀ y < 4,
    t.pools.uncdata (4 * j + y) = byteOf (s.rand.draw (2 * j)).toUInt64 y
  cdata : ∀ j < n, ∀ y < 4,
    t.pools.cdata (4 * j + y) = byteOf (s.rand.draw (2 * j + 1) &&& 0x3c3c3c3c).toUInt64 y

structure Striped (s : Initdata) (n : ℕ) (t : Initdata) : Prop where
  rand : t.rand = s.rand.after (160 * n)
  pbyte : t.pbyte = s.pbyte + UInt8.ofNat n
  hcdata : ∀ j < n, ∀ y < iobSector,
    t.pools.hcdata (iobSector * j + y) = s.pbyte + UInt8.ofNat j
  runs : ∀ k : RunPool, ∀ j < n, ∀ y < iobSector, t.pools.dbuf k.dtype (iobSector * j + y) =
    drawByte s.rand (160 * j + (k.first + y / k.count))
  uncdata : t.pools.uncdata = s.pools.uncdata
  cdata : t.pools.cdata = s.pools.cdata

section Loops

variable {s t : Initdata} {n : ℕ}

theorem store32_words {mem : Mem} {f : ℕ → UInt32}
    (h : ∀ j < n, ∀ y < 4, mem (4 * j + y) = byteOf (f j).toUInt64 y) :
    ∀ j < n + 1, ∀ y < 4,
      store32 mem (4 * n) (f n) (4 * j + y) = byteOf (f j).toUInt64 y := by
  intro j hj y hy
  obtain hlt | rfl := Nat.lt_succ_iff_lt_or_eq.mp hj
  · rw [store32_outside (by omega)]
    exact h j hlt y hy
  · exact store32_inside hy

/-- **A turn of the first loop** adds a word to both pools. -/
theorem Worded.turn (h : Worded s n t) : Worded s (n + 1) (wordTurn n t) := by
  have hdraw : ∀ i, t.rand.draw i = s.rand.draw (2 * n + i) := by
    intro i
    rw [h.rand, Drand48.draw_after]
  rw [wordTurn_eq]
  refine ⟨?_, h.pbyte, ?_, ?_⟩
  · dsimp only
    rw [h.rand, Drand48.after_after]
    rfl
  · dsimp only
    rw [hdraw]
    exact store32_words (f := fun j => s.rand.draw (2 * j)) h.uncdata
  · dsimp only
    rw [hdraw]
    exact store32_words (f := fun j => s.rand.draw (2 * j + 1) &&& 0x3c3c3c3c) h.cdata

theorem worded_forTurns (s : Initdata) (n : ℕ) : Worded s n (forTurns wordTurn n s) := by
  induction n with
  | zero =>
    refine ⟨rfl, rfl, ?_, ?_⟩
    · intro j hj
      exact absurd hj j.not_lt_zero
    · intro j hj
      exact absurd hj j.not_lt_zero
  | succ n ih => exact ih.turn

/-- **A turn of the second loop** adds a sector to the four pools. -/
theorem Striped.turn (h : Striped s n t) : Striped s (n + 1) (sectorTurn n t) := by
  have hruns : ∀ k : RunPool, (sectorTurn n t).pools.dbuf k.dtype = sectorRuns t n k := by
    intro k
    rw [sectorTurn_eq]
    cases k <;> rfl
  refine ⟨?_, ?_, ?_, ?_, ?_, ?_⟩
  · rw [sectorTurn_eq, h.rand, Drand48.after_after, Nat.mul_succ]
  · rw [sectorTurn_eq, h.pbyte, UInt8.ofNat_add, ← UInt8.add_assoc]
    rfl
  · intro j hj y hy
    rw [sectorTurn_eq]
    dsimp only
    obtain hlt | rfl := Nat.lt_succ_iff_lt_or_eq.mp hj
    · rw [fill, copy_outside (by unfold iobSector at *; omega)]
      exact h.hcdata j hlt y hy
    · rw [fill, copy_inside hy, h.pbyte]
  · intro k j hj y hy
    rw [hruns k, sectorRuns]
    obtain hlt | rfl := Nat.lt_succ_iff_lt_or_eq.mp hj
    · rw [if_neg (by unfold iobSector at *; omega)]
      exact h.runs k j hlt y hy
    · rw [if_pos (by omega), Nat.add_sub_cancel_left, h.rand, drawByte_after]
  · rw [sectorTurn_eq]
    exact h.uncdata
  · rw [sectorTurn_eq]
    exact h.cdata

theorem striped_forTurns (s : Initdata) (n : ℕ) : Striped s n (forTurns sectorTurn n s) := by
  induction n with
  | zero =>
    refine ⟨rfl, (UInt8.add_zero _).symm, ?_, ?_, rfl, rfl⟩
    · intro j hj
      exact absurd hj j.not_lt_zero
    · intro k j hj
      exact absurd hj j.not_lt_zero
  | succ n ih => exact ih.turn

end Loops

/-! ## The pools

The pools of `iob_initdata` are never to be computed, so they are looked at through
`Pools.dbuf` only. -/

section Pools

variable {pools : Pools} {pst vm : Mem}

theorem dbuf_uncompressible : pools.dbuf .uncompressible = pools.uncdata := rfl

theorem dbuf_compressible : pools.dbuf .compressible = pools.cdata := rfl

theorem dbuf_hcompressible : pools.dbuf .hcompressible = pools.hcdata := rfl

theorem initdata_words {j y : ℕ} (hj : j < poolSize / 4) (hy : y < 4) :
    (iobInitdata pst vm).dbuf .uncompressible (4 * j + y) =
        byteOf (initSeed.draw (2 * j)).toUInt64 y ∧
      (iobInitdata pst vm).dbuf .compressible (4 * j + y) =
        byteOf (initSeed.draw (2 * j + 1) &&& 0x3c3c3c3c).toUInt64 y := by
  unfold iobInitdata
  dsimp only
  generalize hs : Initdata.mk initSeed _ _ = s
  have hword := worded_forTurns s (poolSize / 4)
  have hstriped := striped_forTurns (forTurns wordTurn (poolSize / 4) s) (poolSize / iobSector)
  have hrand : s.rand = initSeed := hs ▸ rfl
  rw [dbuf_uncompressible, dbuf_compressible, hstriped.uncdata, hstriped.cdata, ← hrand]
  exact ⟨hword.uncdata j hj y hy, hword.cdata j hj y hy⟩

theorem initdata_sectors {j y : ℕ} (hj : j < poolSize / iobSector) (hy : y < iobSector) :
    (iobInitdata pst vm).dbuf .hcompressible (iobSector * j + y) = 0x5E + UInt8.ofNat j ∧
      ∀ k : RunPool, (iobInitdata pst vm).dbuf k.dtype (iobSector * j + y) =
        drawByte initSeed (2 * (poolSize / 4) + (160 * j + (k.first + y / k.count))) := by
  unfold iobInitdata
  dsimp only
  generalize hs : Initdata.mk initSeed _ _ = s
  have hword := worded_forTurns s (poolSize / 4)
  have hstriped := striped_forTurns (forTurns wordTurn (poolSize / 4) s) (poolSize / iobSector)
  have hrand : s.rand = initSeed := hs ▸ rfl
  have hpbyte : s.pbyte = 0x5E := hs ▸ rfl
  constructor
  · rw [dbuf_hcompressible, hstriped.hcdata j hj y hy, hword.pbyte, hpbyte]
  · intro k
    rw [hstriped.runs k j hj y hy, hword.rand, drawByte_after, hrand]

end Pools

end Blockbench
