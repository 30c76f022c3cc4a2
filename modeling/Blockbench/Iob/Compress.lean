import Blockbench.Iob.Initdata
import Blockbench.Iob.Sectors

/-!
# `Iob/Compress.lean` — what the types promise of a sector

The types are named by how well their data compresses. What makes it so is the shape of the
pools, and it is to be seen in a sector behind its tag: runs of equal bytes, or bytes of which
four bits are always zero. `compressible_of_data` says that every sector `iob_iodata` makes has
the shape of its type; for data that is not to be compressed, and for the two tables, there is
nothing to say.
-/

set_option autoImplicit false

namespace Blockbench

open CInt Bytes

/-- Behind the tag the sector is made of runs of `count` equal bytes. -/
def RunsOf (count : ℕ) (b : Sector) : Prop :=
  ∀ y y' : Fin iobSector, 8 ≤ y.val → 8 ≤ y'.val → y.val / count = y'.val / count → b y = b y'

def Compressible (dtype : DataType) (b : Sector) : Prop :=
  match dtype with
  | .zeros | .ones | .pattern1 => ∀ y y', b y = b y'
  | .compressible => ∀ y : Fin iobSector, 8 ≤ y.val → b y &&& 0xc3 = 0
  | .hcompressible => RunsOf iobSector b
  | .h10compressible => RunsOf 24 b
  | .h20compressible => RunsOf 10 b
  | .h40compressible => RunsOf 6 b
  | .uncompressible | .pst | .vm => True

section Shapes

variable {pst vm : Mem} {dtype : DataType} {D i j v y : ℕ} {b : Sector}

theorem byteOf_masked (u : UInt32) {k : ℕ} (hk : k < 4) :
    byteOf (u &&& 0x3c3c3c3c).toUInt64 k &&& 0xc3 = 0 := by
  have hpow : 256 ^ k = 2 ^ (8 * k) := (Nat.pow_mul 2 8 k).symm
  have hmask : (0x3c3c3c3c : UInt32).toNat / 2 ^ (8 * k) % 2 ^ 8 = 0x3c := by
    obtain rfl | rfl | rfl | rfl : k = 0 ∨ k = 1 ∨ k = 2 ∨ k = 3 := by omega
    all_goals rfl
  have hbyte : (byteOf (u &&& 0x3c3c3c3c).toUInt64 k).toNat =
      u.toNat / 2 ^ (8 * k) % 2 ^ 8 &&& 0x3c := by
    unfold byteOf
    rw [UInt8.toNat_ofNat', UInt32.toNat_toUInt64, UInt32.toNat_and, hpow, Nat.and_div_two_pow,
      Nat.and_mod_two_pow, hmask]
  rw [← UInt8.toNat_inj, UInt8.toNat_and, hbyte, Nat.and_assoc]
  exact Nat.and_zero _

theorem taggedSector_data {pools : Pools} {y : Fin iobSector} (hy : 8 ≤ y.val) :
    taggedSector pools dtype i j v y = pools.dbuf dtype (iobSector * (8 * i + j) + y) := by
  have hlt : y.val < 512 := y.isLt
  have hat : i * iobPage + (iobSector * j + y.val) = iobSector * (8 * i + j) + y.val := by
    unfold iobPage iobSector
    omega
  have hmod : (iobSector * j + y.val) % iobSector = y.val := by
    unfold iobSector
    omega
  unfold taggedSector pageByte
  rw [hmod, if_neg (by omega), hat]

theorem sector_lt (hi : i < iobNdatapages) (hj : j < 8) : 8 * i + j < poolSize / iobSector := by
  unfold poolSize iobPage iobNdatapages iobSector at *
  omega

theorem runsOf_tagged (k : RunPool) (hi : i < iobNdatapages) (hj : j < 8) :
    RunsOf k.count (taggedSector (iobInitdata pst vm) k.dtype i j v) := by
  intro y y' hy hy' hrun
  have hleft := (@initdata_sectors pst vm _ _ (sector_lt hi hj) y.isLt).2 k
  have hright := (@initdata_sectors pst vm _ _ (sector_lt hi hj) y'.isLt).2 k
  rw [taggedSector_data hy, taggedSector_data hy', hleft, hright, hrun]

theorem runsOf_hcdata (hi : i < iobNdatapages) (hj : j < 8) :
    RunsOf iobSector (taggedSector (iobInitdata pst vm) .hcompressible i j v) := by
  intro y y' hy hy' _
  have hleft := (@initdata_sectors pst vm _ _ (sector_lt hi hj) y.isLt).1
  have hright := (@initdata_sectors pst vm _ _ (sector_lt hi hj) y'.isLt).1
  rw [taggedSector_data hy, taggedSector_data hy', hleft, hright]

theorem masked_tagged (hi : i < iobNdatapages) (hj : j < 8) {y : Fin iobSector} (hy : 8 ≤ y.val) :
    taggedSector (iobInitdata pst vm) .compressible i j v y &&& 0xc3 = 0 := by
  have hlt : y.val < 512 := y.isLt
  have hsplit : iobSector * (8 * i + j) + y.val =
      4 * (128 * (8 * i + j) + y.val / 4) + y.val % 4 := by
    unfold iobSector
    omega
  have hin : 128 * (8 * i + j) + y.val / 4 < poolSize / 4 := by
    unfold poolSize iobPage iobNdatapages at *
    omega
  have hmod : y.val % 4 < 4 := Nat.mod_lt _ (by norm_num)
  rw [taggedSector_data hy, hsplit, (initdata_words hin hmod).2]
  exact byteOf_masked _ hmod

/-- **A sector that `iob_iodata` makes has the shape of its type**, with the pools of
`iob_initdata`. -/
theorem compressible_of_data (h : SectorData (iobInitdata pst vm) dtype D b) :
    Compressible dtype b := by
  cases dtype with
  | zeros | ones =>
    intro y y'
    rw [h y, h y']
  | pattern1 =>
    obtain ⟨v, hv⟩ := h
    intro y y'
    rw [hv y, hv y']
  | uncompressible | pst | vm => exact trivial
  | compressible =>
    obtain ⟨i, hi, j, hj, v, -, rfl⟩ := h
    intro y hy
    exact masked_tagged hi hj hy
  | hcompressible =>
    obtain ⟨i, hi, j, hj, v, -, rfl⟩ := h
    exact runsOf_hcdata hi hj
  | h10compressible =>
    obtain ⟨i, hi, j, hj, v, -, rfl⟩ := h
    exact runsOf_tagged .hc10 hi hj
  | h20compressible =>
    obtain ⟨i, hi, j, hj, v, -, rfl⟩ := h
    exact runsOf_tagged .hc20 hi hj
  | h40compressible =>
    obtain ⟨i, hi, j, hj, v, -, rfl⟩ := h
    exact runsOf_tagged .hc40 hi hj

end Shapes

end Blockbench
