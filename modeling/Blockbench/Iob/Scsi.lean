import Blockbench.Lib.BigEndian
import Blockbench.Lib.CInt

/-!
# `Iob/Scsi.lean` — the two commands that discard a range

`drive_unmap` and `drive_write_same` are called with an offset and a length in bytes, and tell
the device which blocks of 512 bytes to discard: the one in a parameter list of 24 bytes, the
other in the command itself. Both write the number of the first block in eight bytes and the
number of blocks in four, highest first, and `issue_sgio` hands the bytes over as they are.

Both divide the offset by 512. Only `drive_write_same` divides the length, so `drive_unmap` asks
for as many blocks as there are bytes (`ranges_agree_iff`).
-/

set_option autoImplicit false

namespace Blockbench

open BigEndian CInt

/-- What `issue_sgio` is given: the bytes of `cmdp` and of `dxferp`. -/
structure SgIo where
  cmdp : List UInt8
  dxferp : List UInt8
  deriving DecidableEq, Repr

/-- `(x >> n) & 0xff` of a `uint64_t`, stored in a byte. -/
def byte64 (x n : UInt64) : UInt8 := (x >>> n &&& 0xff).toUInt8

/-- `(x >> n) & 0xff` of an `int`, stored in a byte. -/
def byte32 (x n : Int32) : UInt8 := (x >>> n &&& 0xff).toUInt32.toUInt8

def driveUnmap (offset : UInt64) (length : Int32) : SgIo :=
  let off := offset / 512
  { cmdp := [0x42, 0x00, 0x00, 0x00, 0x00, 0x00, 0x00, 0x00, 0x18, 0x00]
    dxferp :=
      [0, 24 - 2, 0, 24 - 8, 0, 0, 0, 0,
       byte64 off 56, byte64 off 48, byte64 off 40, byte64 off 32,
       byte64 off 24, byte64 off 16, byte64 off 8, byte64 off 0,
       byte32 length 24, byte32 length 16, byte32 length 8, byte32 length 0,
       0, 0, 0, 0] }

/-- `cmdbuf[1]` of `drive_write_same`. -/
def writeSameFlags (unmap pbdata lbdata : Int32) : UInt8 :=
  if unmap ≠ 0 then (0x01 : UInt8) <<< 3
  else if pbdata ≠ 0 then (0x01 : UInt8) <<< 2
  else if lbdata ≠ 0 then (0x01 : UInt8) <<< 1
  else 0x00

def driveWriteSame (offset : UInt64) (length unmap pbdata lbdata : Int32) : SgIo :=
  let offset := offset / 512
  let length := length / 512
  { cmdp :=
      [0x93, writeSameFlags unmap pbdata lbdata,
       byte64 offset 56, byte64 offset 48, byte64 offset 40, byte64 offset 32,
       byte64 offset 24, byte64 offset 16, byte64 offset 8, byte64 offset 0,
       byte32 length 24, byte32 length 16, byte32 length 8, byte32 length 0,
       0x00, 0x00]
    dxferp := List.replicate 512 0 }

/-- A range of blocks, as a device reads it: the first block and the number of blocks. -/
structure BlockRange where
  lba : ℕ
  count : ℕ
  deriving DecidableEq, Repr

/-- The range of an UNMAP, in the block descriptor of its parameter list. -/
def SgIo.unmapRange (io : SgIo) : BlockRange :=
  ⟨decode ((io.dxferp.drop 8).take 8), decode ((io.dxferp.drop 16).take 4)⟩

def SgIo.writeSameRange (io : SgIo) : BlockRange :=
  ⟨decode ((io.cmdp.drop 2).take 8), decode ((io.cmdp.drop 10).take 4)⟩

/-! ## What the device reads -/

section Encoders

variable {offset : UInt64} {length unmap pbdata lbdata : Int32}

theorem byte64_eq {k : ℕ} (hk : k < 8) (x : UInt64) :
    byte64 x (UInt64.ofNat (8 * k)) = UInt8.ofNat (x.toNat / 256 ^ k) := by
  have hn : (UInt64.ofNat (8 * k)).toNat = 8 * k :=
    UInt64.toNat_ofNat_of_lt' (by show 8 * k < 2 ^ 64; omega)
  have hmask : (0xff : UInt64).toNat = 2 ^ 8 - 1 := rfl
  rw [← UInt8.toNat_inj, byte64, UInt64.toNat_toUInt8, UInt64.toNat_and, UInt64.toNat_shiftRight,
    hn, hmask, Nat.and_two_pow_sub_one_eq_mod, UInt8.toNat_ofNat', Nat.mod_mod,
    Nat.mod_eq_of_lt (by omega : 8 * k < 64), Nat.shiftRight_eq_div_pow, Nat.pow_mul]

/-- The shift of an `int` brings in copies of the sign, but not below the byte that is kept. -/
theorem byte_sshiftRight {k : ℕ} (hk : k < 4) (v : BitVec 32) :
    (v.sshiftRight (8 * k) &&& 0xff#32).setWidth 8 = BitVec.ofNat 8 (v.toNat / 256 ^ k) := by
  apply BitVec.eq_of_getLsbD_eq
  intro i hi
  have hpow : 256 ^ k = 2 ^ (8 * k) := (Nat.pow_mul 2 8 k).symm
  have hin : 8 * k + i < 32 := by omega
  have hmask : (0xff#32).getLsbD i = true := by
    have hff : 0xff#32 = BitVec.ofNat 32 (2 ^ 8 - 1) := rfl
    rw [hff, BitVec.getLsbD_ofNat, Nat.testBit_two_pow_sub_one]
    simp
    omega
  rw [hpow, BitVec.getLsbD_setWidth, BitVec.getLsbD_and, hmask, BitVec.getLsbD_sshiftRight,
    BitVec.getLsbD_ofNat, ← Nat.shiftRight_eq_div_pow, Nat.testBit_shiftRight]
  simp [hi, hin, show i < 32 by omega, BitVec.getLsbD]

theorem byte32_eq {k : ℕ} (hk : k < 4) (x : Int32) :
    byte32 x (Int32.ofNat (8 * k)) = UInt8.ofNat (x.toUInt32.toNat / 256 ^ k) := by
  have hn : (Int32.ofNat (8 * k)).toBitVec.smod 32#32 = BitVec.ofNat 32 (8 * k) := by
    obtain rfl | rfl | rfl | rfl : k = 0 ∨ k = 1 ∨ k = 2 ∨ k = 3 := by omega
    all_goals rfl
  rw [← UInt8.toBitVec_inj]
  show (x.toBitVec.sshiftRight' ((Int32.ofNat (8 * k)).toBitVec.smod 32#32) &&&
    0xff#32).setWidth 8 = _
  rw [hn, BitVec.sshiftRight'_ofNat_eq_sshiftRight, Nat.mod_eq_of_lt (by omega)]
  exact byte_sshiftRight hk x.toBitVec

theorem bytes64_eq (x : UInt64) :
    [byte64 x 56, byte64 x 48, byte64 x 40, byte64 x 32, byte64 x 24, byte64 x 16, byte64 x 8,
      byte64 x 0] = encode 8 x.toNat := by
  rw [show byte64 x 56 = _ from byte64_eq (k := 7) (by norm_num) x,
    show byte64 x 48 = _ from byte64_eq (k := 6) (by norm_num) x,
    show byte64 x 40 = _ from byte64_eq (k := 5) (by norm_num) x,
    show byte64 x 32 = _ from byte64_eq (k := 4) (by norm_num) x,
    show byte64 x 24 = _ from byte64_eq (k := 3) (by norm_num) x,
    show byte64 x 16 = _ from byte64_eq (k := 2) (by norm_num) x,
    show byte64 x 8 = _ from byte64_eq (k := 1) (by norm_num) x,
    show byte64 x 0 = _ from byte64_eq (k := 0) (by norm_num) x]
  rfl

theorem bytes32_eq (x : Int32) :
    [byte32 x 24, byte32 x 16, byte32 x 8, byte32 x 0] = encode 4 x.toUInt32.toNat := by
  rw [show byte32 x 24 = _ from byte32_eq (k := 3) (by norm_num) x,
    show byte32 x 16 = _ from byte32_eq (k := 2) (by norm_num) x,
    show byte32 x 8 = _ from byte32_eq (k := 1) (by norm_num) x,
    show byte32 x 0 = _ from byte32_eq (k := 0) (by norm_num) x]
  rfl

theorem decode_bytes64 (x : UInt64) : decode [byte64 x 56, byte64 x 48, byte64 x 40,
    byte64 x 32, byte64 x 24, byte64 x 16, byte64 x 8, byte64 x 0] = x.toNat := by
  rw [bytes64_eq, decode_encode_of_lt]
  exact x.toNat_lt

theorem decode_bytes32 {x : Int32} (hx : 0 ≤ x.toInt) :
    decode [byte32 x 24, byte32 x 16, byte32 x 8, byte32 x 0] = x.toInt.toNat := by
  rw [bytes32_eq, decode_encode_of_lt, toNat_toUInt32_of_nonneg hx]
  exact x.toUInt32.toNat_lt

theorem unmapRange_eq (hlen : 0 ≤ length.toInt) :
    (driveUnmap offset length).unmapRange = ⟨offset.toNat / 512, length.toInt.toNat⟩ := by
  have hlba := decode_bytes64 (offset / 512)
  rw [UInt64.toNat_div] at hlba
  exact congrArg₂ BlockRange.mk hlba (decode_bytes32 hlen)

theorem writeSameRange_eq (hlen : 0 ≤ length.toInt) :
    (driveWriteSame offset length unmap pbdata lbdata).writeSameRange =
      ⟨offset.toNat / 512, length.toInt.toNat / 512⟩ := by
  have hlba := decode_bytes64 (offset / 512)
  rw [UInt64.toNat_div] at hlba
  have hdiv : (length / 512).toInt = length.toInt / 512 := by
    rw [Int32.toInt_div_of_ne_right _ _ (by decide)]
    exact Int.tdiv_eq_ediv_of_nonneg hlen
  have hcount := @decode_bytes32 (length / 512) (by omega)
  rw [hdiv] at hcount
  refine congrArg₂ BlockRange.mk hlba (hcount.trans ?_)
  omega

end Encoders

/-! ## The two commands -/

/-- Both commands name the range of the arguments, whatever is asked of WRITE SAME besides. -/
def RangesAgree (offset : UInt64) (length : Int32) : Prop :=
  ∀ unmap pbdata lbdata,
    (driveUnmap offset length).unmapRange =
        (driveWriteSame offset length unmap pbdata lbdata).writeSameRange ∧
      (driveWriteSame offset length unmap pbdata lbdata).writeSameRange =
        ⟨offset.toNat / 512, length.toInt.toNat / 512⟩

/-- **When the two commands discard the same range**: only when it is empty.

Both are given bytes, and both turn the offset into blocks. `drive_write_same` turns the length
into blocks, too; `drive_unmap` puts the number of bytes where the number of blocks belongs, which
is 512 times as many. Whatever else is asked of the WRITE SAME (its UNMAP and ANCHOR flags) makes
no difference to its range, so the condition is on the length alone. -/
theorem ranges_agree_iff {offset : UInt64} {length : Int32} (hlen : 0 ≤ length.toInt) :
    RangesAgree offset length ↔ length = 0 := by
  have hzero : length = 0 ↔ length.toInt = 0 := by
    rw [← Int32.toInt_inj]
    rfl
  rw [hzero, RangesAgree]
  constructor
  · intro h
    obtain ⟨hsame, -⟩ := h 0 0 0
    rw [unmapRange_eq hlen, writeSameRange_eq hlen, BlockRange.mk.injEq] at hsame
    omega
  · intro h unmap pbdata lbdata
    rw [unmapRange_eq hlen, writeSameRange_eq hlen, h]
    exact ⟨rfl, rfl⟩

/-- An empty range at 1 MB. -/
theorem ranges_agree_empty : RangesAgree 1048576 0 :=
  (ranges_agree_iff (by decide)).mpr rfl

/-- `drive_unmap` of one block asks for 512. -/
theorem ranges_differ : ¬ ∀ (offset : UInt64) (length : Int32), offset.toNat < 2 ^ 63 →
    0 ≤ length.toInt → 512 ∣ offset.toNat → (512 : ℤ) ∣ length.toInt →
    RangesAgree offset length := by
  intro h
  have hagree := h 0 512 (by decide) (by decide) (by decide) (by decide)
  exact absurd ((ranges_agree_iff (by decide)).mp hagree) (by decide)

end Blockbench
