import Blockbench.Iob.Scsi

/-!
# `Iob/ScsiCommands.lean` — the commands for the drive

Every command of the library builds the bytes of a SCSI command and its data by hand and gives
them to `issue_sgio` with three more things: how long the command is, which way the data goes and
how much of it there is. Nothing checks that these agree with what the bytes say.

`SgIoHdr.decode` is the other end: it gets a request from a header, by the layouts of the
commands, and nothing from a header that contradicts itself. Reading back what a call has built
gives what the call was for (`decode_hdr`), with its numbers, keys and data. There are two
exceptions. `drive_trim` keeps the number of its sectors in one byte, and `drive_unmap` writes its
length in bytes where the number of blocks goes (`Iob/Scsi.lean`), so it asks for what it was
called for only when that is nothing.
-/

set_option autoImplicit false

namespace Blockbench

open BigEndian CInt

/-- `SG_DXFER_NONE`, `SG_DXFER_TO_DEV` and `SG_DXFER_FROM_DEV`. -/
inductive Direction
  | noData
  | toDev
  | fromDev
  deriving DecidableEq, Repr

structure SgIoHdr extends SgIo where
  cmdLen : UInt8
  direction : Direction
  dxferLen : UInt32
  deriving DecidableEq, Repr

/-! ## The commands -/

/-- `x & mask` of an `int`, stored in a byte. -/
def lowByte (x mask : Int32) : UInt8 := (x &&& mask).toUInt32.toUInt8

def getScsiInfo : SgIoHdr where
  cmdp := [0x12, 0x00, 0x00, 0x02, 0x00, 0x00]
  cmdLen := 6
  direction := .fromDev
  dxferLen := 512
  dxferp := List.replicate 512 0

def getVpdPage (page : Int32) : SgIoHdr where
  cmdp := [0x12, 0x01, lowByte page 0xff, 0x04, 0x00, 0x00]
  cmdLen := 6
  direction := .fromDev
  dxferLen := 1024
  dxferp := List.replicate 1024 0

def getModePage (page : Int32) : SgIoHdr where
  cmdp := [0x5a, 0x08, lowByte page 0xff, 0x00, 0x00, 0x00, 0x00, 0x04, 0x00, 0x00]
  cmdLen := 10
  direction := .fromDev
  dxferLen := 1024
  dxferp := List.replicate 1024 0

def driveSanitize (stype : Int32) : SgIoHdr where
  cmdp := [0x21, 0x00, lowByte stype 0x3, 0x00, 0x00, 0x00, 0x66, 0x77, 0x88, 0x00]
  cmdLen := 10
  direction := .noData
  dxferLen := 0
  dxferp := []

def driveSataIdentifyDevice : SgIoHdr where
  cmdp := [0x85, (0x04 : UInt8) <<< 1, 0x0e, 0x00, 0x00, 0x00, 0x01, 0x00,
    0x00, 0x00, 0x00, 0x00, 0x00, 0x00, 0xec, 0x00]
  cmdLen := 16
  direction := .fromDev
  dxferLen := 512
  dxferp := List.replicate 512 0

def password (first : UInt8) : List UInt8 :=
  [first, 0x00, 0x50, 0x55, 0x52, 0x45] ++ List.replicate 506 0

/-- The commands of the security feature set that send a password. -/
def securityOut (first command : UInt8) : SgIoHdr where
  cmdp := [0xa1, 0x0a, 0x06, 0x00, 0x01, 0x00, 0x00, 0x00, 0x00, command, 0x00, 0x00]
  cmdLen := 12
  direction := .toDev
  dxferLen := 512
  dxferp := password first

def driveSetPassword : SgIoHdr := securityOut 0x00 0xf1

def driveUnlock : SgIoHdr := securityOut 0x00 0xf2

def driveErasePrepare : SgIoHdr where
  cmdp := [0xa1, 0x06, 0x00, 0x00, 0x00, 0x00, 0x00, 0x00, 0x00, 0xf3, 0x00, 0x00]
  cmdLen := 12
  direction := .noData
  dxferLen := 0
  dxferp := []

def driveSecureErase (enhanced : Int32) : SgIoHdr :=
  securityOut (if enhanced ≠ 0 then 0x2 else 0x00) 0xf4

def driveSecureDisablePassword : SgIoHdr := securityOut 0x00 0xf6

def driveIntFlushCacheSyncCache16 : SgIoHdr where
  cmdp := [0x91, 0x00, 0x00, 0x00, 0x00, 0x00, 0x00, 0x00,
    0x00, 0x00, 0x00, 0x00, 0x00, 0x00, 0x00, 0x00]
  cmdLen := 16
  direction := .noData
  dxferLen := 0
  dxferp := []

def driveIntFlushCacheSyncCache10 : SgIoHdr where
  cmdp := [0x35, 0x00, 0x00, 0x00, 0x00, 0x00, 0x00, 0x00, 0x00, 0x00]
  cmdLen := 10
  direction := .noData
  dxferLen := 0
  dxferp := []

def driveSataFlushCache : SgIoHdr where
  cmdp := [0x85, (0x03 : UInt8) <<< 1, 0x00, 0x00, 0x00, 0x00, 0x00, 0x00,
    0x00, 0x00, 0x00, 0x00, 0x00, 0x00, 0xea, 0x00]
  cmdLen := 16
  direction := .noData
  dxferLen := 0
  dxferp := []

def driveReadSmartData : SgIoHdr where
  cmdp := [0x85, (0x04 : UInt8) <<< 1, 0x0e, 0x00, 0xd0, 0x00, 0x01, 0x00,
    0x00, 0x00, 0x4f, 0x00, 0xc2, 0x00, 0xb0, 0x00]
  cmdLen := 16
  direction := .fromDev
  dxferLen := 512
  dxferp := List.replicate 512 0

def driveReadSmartLog : SgIoHdr where
  cmdp := [0x85, (0x04 : UInt8) <<< 1, 0x0e, 0x00, 0xd5, 0x00, 0x10, 0x00,
    0x80, 0x00, 0x4f, 0x00, 0xc2, 0x00, 0xb0, 0x00]
  cmdLen := 16
  direction := .fromDev
  dxferLen := 8192
  dxferp := List.replicate 8192 0

/-- `drive_write_smart_log`; `pid` is what `getpid` returned. -/
def driveWriteSmartLog (pid : Int32) : SgIoHdr where
  cmdp := [0x85, (0x05 : UInt8) <<< 1, 0x06, 0x00, 0xd6, 0x00, 0x10, 0x00,
    0x80, 0x00, 0x4f, 0x00, 0xc2, 0x00, 0xb0, 0x00]
  cmdLen := 16
  direction := .toDev
  dxferLen := 8192
  dxferp := List.replicate 8192 (lowByte pid 0xff)

def driveSataStandbyImmediate : SgIoHdr where
  cmdp := [0x85, (0x03 : UInt8) <<< 1, 0x00, 0x00, 0x00, 0x00, 0x00, 0x00,
    0x00, 0x00, 0x00, 0x00, 0x00, 0x00, 0xe0, 0x00]
  cmdLen := 16
  direction := .noData
  dxferLen := 0
  dxferp := []

/-- `cbytes` of `drive_trim`. -/
def trimBytes (blen : Int32) : Int32 := (blen + 512 - 1) &&& ~~~(512 - 1)

/-- `drive_trim`; `data` is what is in `databuf`, `blen` bytes of it. -/
def driveTrim (data : List UInt8) : SgIoHdr :=
  let blen := Int32.ofNat data.length
  let cbytes := trimBytes blen
  { cmdp := [0x85, (0x06 : UInt8) <<< 1, (0x01 : UInt8) <<< 2 ||| 0x02, 0x00, 0x01, 0x00,
      (cbytes / 512).toUInt32.toUInt8, 0x00,
      0x00, 0x00, 0x00, 0x00, 0x00, 0x40, 0x06, 0x00]
    cmdLen := 16
    direction := .toDev
    dxferLen := cbytes.toUInt32
    dxferp := data ++ List.replicate (cbytes - blen).toInt.toNat 0 }

/-- `(key >> n) & 0xff`, stored in a byte. -/
def keyByte (key n : UInt32) : UInt8 := (key >>> n &&& 0xff).toUInt8

def loadKey (key : UInt32) : List UInt8 :=
  [0x50, 0x55, 0x52, 0x45, keyByte key 24, keyByte key 16, keyByte key 8, keyByte key 0]

/-- The commands that change a reservation, with the two keys of their list. -/
def reserveOut (action kind : UInt8) (myKey newKey : List UInt8) : SgIoHdr where
  cmdp := [0x5f, action, kind, 0x00, 0x00, 0x00, 0x00, 0x00, 0x18, 0x00]
  cmdLen := 10
  direction := .toDev
  dxferLen := 24
  dxferp := myKey ++ newKey ++ List.replicate 8 0

def noKey : List UInt8 := List.replicate 8 0

def driveRegisterIgnore (newKey : UInt32) : SgIoHdr := reserveOut 0x06 0x00 noKey (loadKey newKey)

def driveRegister (newKey myKey : UInt32) : SgIoHdr :=
  reserveOut 0x00 0x00 (loadKey myKey) (loadKey newKey)

def driveReserve (myKey : UInt32) : SgIoHdr := reserveOut 0x01 0x07 (loadKey myKey) noKey

def drivePreempt (myKey : UInt32) : SgIoHdr := reserveOut 0x05 0x07 (loadKey myKey) noKey

def driveClear (myKey : UInt32) : SgIoHdr := reserveOut 0x03 0x00 (loadKey myKey) noKey

def driveReadReserve : SgIoHdr where
  cmdp := [0x5e, 0x03, 0x00, 0x00, 0x00, 0x00, 0x00, 0x02, 0x00, 0x00]
  cmdLen := 10
  direction := .fromDev
  dxferLen := 512
  dxferp := List.replicate 512 0

/-- A call of the library that ends in `issue_sgio`. -/
inductive Command
  | getScsiInfo
  | getVpdPage (page : Int32)
  | getModePage (page : Int32)
  | sanitize (stype : Int32)
  | sataIdentifyDevice
  | setPassword
  | unlock
  | erasePrepare
  | secureErase (enhanced : Int32)
  | secureDisablePassword
  | syncCache16
  | syncCache10
  | sataFlushCache
  | readSmartData
  | readSmartLog
  | writeSmartLog (pid : Int32)
  | sataStandbyImmediate
  | trim (data : List UInt8)
  | writeSame (offset : UInt64) (length unmap pbdata lbdata : Int32)
  | registerIgnore (newKey : UInt32)
  | register (newKey myKey : UInt32)
  | reserve (myKey : UInt32)
  | preempt (myKey : UInt32)
  | clear (myKey : UInt32)
  | readReserve
  | unmap (offset : UInt64) (length : Int32)

/-- The header it gives to `issue_sgio`. -/
def Command.hdr : Command → SgIoHdr
  | .getScsiInfo => Blockbench.getScsiInfo
  | .getVpdPage page => Blockbench.getVpdPage page
  | .getModePage page => Blockbench.getModePage page
  | .sanitize stype => driveSanitize stype
  | .sataIdentifyDevice => driveSataIdentifyDevice
  | .setPassword => driveSetPassword
  | .unlock => driveUnlock
  | .erasePrepare => driveErasePrepare
  | .secureErase enhanced => driveSecureErase enhanced
  | .secureDisablePassword => driveSecureDisablePassword
  | .syncCache16 => driveIntFlushCacheSyncCache16
  | .syncCache10 => driveIntFlushCacheSyncCache10
  | .sataFlushCache => driveSataFlushCache
  | .readSmartData => driveReadSmartData
  | .readSmartLog => driveReadSmartLog
  | .writeSmartLog pid => driveWriteSmartLog pid
  | .sataStandbyImmediate => driveSataStandbyImmediate
  | .trim data => driveTrim data
  | .writeSame offset length unmapping pbdata lbdata =>
    { driveWriteSame offset length unmapping pbdata lbdata with
      cmdLen := 16, direction := .toDev, dxferLen := 512 }
  | .registerIgnore newKey => driveRegisterIgnore newKey
  | .register newKey myKey => driveRegister newKey myKey
  | .reserve myKey => driveReserve myKey
  | .preempt myKey => drivePreempt myKey
  | .clear myKey => driveClear myKey
  | .readReserve => driveReadReserve
  | .unmap offset length =>
    { driveUnmap offset length with cmdLen := 10, direction := .toDev, dxferLen := 24 }

/-- `drive_flush_cache`: the command for a kind of flush, and none for an unknown kind. -/
def driveFlushCache (flushtype : Int32) : Option Command :=
  if flushtype = 0 then some .syncCache16
  else if flushtype = 1 then some .syncCache10
  else if flushtype = 2 then some .sataFlushCache
  else none

/-! ## What a drive reads -/

/-- The registers of an ATA command, and the data that goes with it. -/
structure Ata where
  features : ℕ
  count : ℕ
  lba : ℕ
  device : ℕ
  command : ℕ
  data : List UInt8
  deriving DecidableEq, Repr

inductive DriveRequest
  | inquiry (vpd page : ℕ)
  | modeSense (dbd page : ℕ)
  | sanitize (how : ℕ)
  | synchronizeCache (range : BlockRange)
  | writeSame (flags : ℕ) (range : BlockRange)
  | unmap (range : BlockRange)
  | reserveOut (action kind reservationKey actionKey : ℕ)
  | reserveIn (action : ℕ)
  | ata (regs : Ata)
  deriving DecidableEq, Repr

def field (bs : List UInt8) (i n : ℕ) : ℕ := decode ((bs.drop i).take n)

/-- The length of a command, by the group of its first byte. -/
def cdbLength (op : ℕ) : Option ℕ :=
  match op / 32 with
  | 0 => some 6
  | 1 | 2 => some 10
  | 4 => some 16
  | 5 => some 12
  | _ => none

/-- The transfer of an ATA command: which way, and how many sectors. Its protocol says the first
as well. -/
def ataTransfer (protocol flags count : ℕ) : Option (Direction × ℕ) :=
  if flags % 4 = 0 ∧ protocol = 3 then some (.noData, 0)
  else if flags % 8 = 6 ∧ flags / 8 % 2 = 1 ∧ (protocol = 4 ∨ protocol = 6) then
    some (.fromDev, count * 512)
  else if flags % 8 = 6 ∧ flags / 8 % 2 = 0 ∧ (protocol = 5 ∨ protocol = 6) then
    some (.toDev, count * 512)
  else none

def unmapList (list : List UInt8) : Option BlockRange :=
  if field list 0 2 + 2 = list.length ∧ field list 2 2 + 8 = list.length ∧ field list 2 2 = 16 then
    some ⟨field list 8 8, field list 16 4⟩
  else none

/-- The request of a command, and the transfer that it names. -/
def SgIo.request (h : SgIo) : Option (DriveRequest × Direction × ℕ) :=
  let b := field h.cmdp
  let op := b 0 1
  if op = 0x12 then some (.inquiry (b 1 1) (b 2 1), .fromDev, b 3 2)
  else if op = 0x5a then some (.modeSense (b 1 1) (b 2 1), .fromDev, b 7 2)
  else if op = 0x21 then some (.sanitize (b 2 1), .noData, 0)
  else if op = 0x91 then some (.synchronizeCache ⟨b 2 8, b 10 4⟩, .noData, 0)
  else if op = 0x35 then some (.synchronizeCache ⟨b 2 4, b 7 2⟩, .noData, 0)
  else if op = 0x93 then some (.writeSame (b 1 1) h.writeSameRange, .toDev, 512)
  else if op = 0x42 then (unmapList h.dxferp).map fun range => (.unmap range, .toDev, b 7 2)
  else if op = 0x5f then
    some (.reserveOut (b 1 1) (b 2 1) (field h.dxferp 0 8) (field h.dxferp 8 8), .toDev, b 5 4)
  else if op = 0x5e then some (.reserveIn (b 1 1), .fromDev, b 7 2)
  else if op = 0xa1 then
    (ataTransfer (b 1 1 / 2) (b 2 1) (b 4 1)).map fun t =>
      (.ata ⟨b 3 1, b 4 1, b 5 1 + b 6 1 * 2 ^ 8 + b 7 1 * 2 ^ 16, b 8 1, b 9 1, h.dxferp⟩, t)
  else if op = 0x85 then
    (ataTransfer (b 1 1 / 2) (b 2 1) (b 5 2)).map fun t =>
      (.ata ⟨b 3 2, b 5 2, b 8 1 + b 10 1 * 2 ^ 8 + b 12 1 * 2 ^ 16, b 13 1, b 14 1, h.dxferp⟩, t)
  else none

/-- What a drive makes of a header: the lengths have to agree with the bytes that are there, and
the transfer with the one the command names. -/
def SgIoHdr.decode (h : SgIoHdr) : Option DriveRequest := do
  let (r, direction, n) ← h.toSgIo.request
  if cdbLength (field h.cmdp 0 1) = some h.cmdp.length ∧ h.cmdLen.toNat = h.cmdp.length ∧
      h.dxferLen.toNat = h.dxferp.length ∧ h.direction = direction ∧ h.dxferLen.toNat = n then
    some r
  else none

/-- A key of the library's, as one number: `PURE` and the caller's. -/
def pureKey (key : UInt32) : ℕ := 0x50555245 * 2 ^ 32 + key.toNat

/-- The data of `drive_trim`, filled up to a sector. -/
def trimData (data : List UInt8) : List UInt8 :=
  data ++ List.replicate ((data.length + 511) / 512 * 512 - data.length) 0

def blocksOf (offset : UInt64) (length : Int32) : BlockRange :=
  ⟨offset.toNat / 512, length.toInt.toNat / 512⟩

def Command.request : Command → DriveRequest
  | .getScsiInfo => .inquiry 0 0
  | .getVpdPage page => .inquiry 1 (page.toUInt32.toNat % 256)
  | .getModePage page => .modeSense 8 (page.toUInt32.toNat % 256)
  | .sanitize stype => .sanitize (stype.toUInt32.toNat % 4)
  | .sataIdentifyDevice => .ata ⟨0, 1, 0, 0, 0xec, List.replicate 512 0⟩
  | .setPassword => .ata ⟨0, 1, 0, 0, 0xf1, password 0⟩
  | .unlock => .ata ⟨0, 1, 0, 0, 0xf2, password 0⟩
  | .erasePrepare => .ata ⟨0, 0, 0, 0, 0xf3, []⟩
  | .secureErase enhanced => .ata ⟨0, 1, 0, 0, 0xf4, password (if enhanced ≠ 0 then 2 else 0)⟩
  | .secureDisablePassword => .ata ⟨0, 1, 0, 0, 0xf6, password 0⟩
  | .syncCache16 | .syncCache10 => .synchronizeCache ⟨0, 0⟩
  | .sataFlushCache => .ata ⟨0, 0, 0, 0, 0xea, []⟩
  | .readSmartData => .ata ⟨0xd0, 1, 0xc24f00, 0, 0xb0, List.replicate 512 0⟩
  | .readSmartLog => .ata ⟨0xd5, 16, 0xc24f80, 0, 0xb0, List.replicate 8192 0⟩
  | .writeSmartLog pid =>
    .ata ⟨0xd6, 16, 0xc24f80, 0, 0xb0, List.replicate 8192 (UInt8.ofNat pid.toUInt32.toNat)⟩
  | .sataStandbyImmediate => .ata ⟨0, 0, 0, 0, 0xe0, []⟩
  | .trim data => .ata ⟨1, (data.length + 511) / 512, 0, 0x40, 0x06, trimData data⟩
  | .writeSame offset length unmapping pbdata lbdata =>
    .writeSame (if unmapping ≠ 0 then 8 else if pbdata ≠ 0 then 4 else if lbdata ≠ 0 then 2 else 0)
      (blocksOf offset length)
  | .registerIgnore newKey => .reserveOut 6 0 0 (pureKey newKey)
  | .register newKey myKey => .reserveOut 0 0 (pureKey myKey) (pureKey newKey)
  | .reserve myKey => .reserveOut 1 7 (pureKey myKey) 0
  | .preempt myKey => .reserveOut 5 7 (pureKey myKey) 0
  | .clear myKey => .reserveOut 3 0 (pureKey myKey) 0
  | .readReserve => .reserveIn 3
  | .unmap offset length => .unmap (blocksOf offset length)

/-- The arguments make sense: a length is not negative, and rounding it up stays an `int`. -/
def Command.Callable : Command → Prop
  | .trim data => data.length + 511 < 2 ^ 31
  | .writeSame _ length _ _ _ | .unmap _ length => 0 ≤ length.toInt
  | _ => True

/-- The calls whose headers say what they are for. -/
def Command.Fits : Command → Prop
  | .trim data => data.length ≤ 255 * 512
  | .unmap _ length => length = 0
  | _ => True

/-! ## The bytes -/

section Bytes

theorem toNat_lowByte (x : Int32) {k : ℕ} (hk : k ≤ 8) :
    (lowByte x (Int32.ofNat (2 ^ k - 1))).toNat = x.toUInt32.toNat % 2 ^ k := by
  have hmask : (Int32.ofNat (2 ^ k - 1)).toBitVec.toNat = 2 ^ k - 1 := by
    have hle : 2 ^ k ≤ 2 ^ 8 := Nat.pow_le_pow_right (by omega) hk
    show (BitVec.ofNat 32 (2 ^ k - 1)).toNat = _
    rw [BitVec.toNat_ofNat, Nat.mod_eq_of_lt (by omega)]
  have hlt : x.toUInt32.toNat % 2 ^ k < 2 ^ 8 :=
    (Nat.mod_lt _ (by positivity)).trans_le (Nat.pow_le_pow_right (by omega) hk)
  have hand : (x &&& Int32.ofNat (2 ^ k - 1)).toUInt32.toNat = x.toUInt32.toNat % 2 ^ k := by
    show (x.toBitVec &&& (Int32.ofNat (2 ^ k - 1)).toBitVec).toNat = _
    rw [BitVec.toNat_and, hmask, Nat.and_two_pow_sub_one_eq_mod]
    rfl
  rw [lowByte, UInt32.toNat_toUInt8, hand, Nat.mod_eq_of_lt hlt]

theorem lowByte_eq (x : Int32) : lowByte x 0xff = UInt8.ofNat x.toUInt32.toNat := by
  have hlow : (lowByte x 0xff).toNat = x.toUInt32.toNat % 256 := toNat_lowByte x (k := 8) le_rfl
  rw [← UInt8.toNat_inj, hlow, UInt8.toNat_ofNat']

theorem toNat_writeSameFlags (unmapping pbdata lbdata : Int32) :
    (writeSameFlags unmapping pbdata lbdata).toNat =
      if unmapping ≠ 0 then 8 else if pbdata ≠ 0 then 4 else if lbdata ≠ 0 then 2 else 0 := by
  unfold writeSameFlags
  split_ifs <;> rfl

theorem keyByte_eq {k : ℕ} (hk : k < 4) (key : UInt32) :
    keyByte key (UInt32.ofNat (8 * k)) = UInt8.ofNat (key.toNat / 256 ^ k) := by
  have hn : (UInt32.ofNat (8 * k)).toNat = 8 * k :=
    UInt32.toNat_ofNat_of_lt' (by show 8 * k < 2 ^ 32; omega)
  have hmask : (0xff : UInt32).toNat = 2 ^ 8 - 1 := rfl
  rw [← UInt8.toNat_inj, keyByte, UInt32.toNat_toUInt8, UInt32.toNat_and, UInt32.toNat_shiftRight,
    hn, hmask, Nat.and_two_pow_sub_one_eq_mod, UInt8.toNat_ofNat', Nat.mod_mod,
    Nat.mod_eq_of_lt (by omega : 8 * k < 32), Nat.shiftRight_eq_div_pow, Nat.pow_mul]

theorem length_loadKey (key : UInt32) : (loadKey key).length = 8 := rfl

theorem decode_loadKey (key : UInt32) : BigEndian.decode (loadKey key) = pureKey key := by
  have hkey : loadKey key = [0x50, 0x55, 0x52, 0x45] ++ encode 4 key.toNat := by
    unfold loadKey
    rw [show keyByte key 24 = _ from keyByte_eq (k := 3) (by norm_num) key,
      show keyByte key 16 = _ from keyByte_eq (k := 2) (by norm_num) key,
      show keyByte key 8 = _ from keyByte_eq (k := 1) (by norm_num) key,
      show keyByte key 0 = _ from keyByte_eq (k := 0) (by norm_num) key]
    rfl
  have hlow : BigEndian.decode (encode 4 key.toNat) = key.toNat :=
    decode_encode_of_lt key.toNat_lt
  rw [hkey]
  simp only [List.cons_append, List.nil_append, BigEndian.decode, List.length_cons,
    length_encode, hlow, UInt8.reduceToNat, pureKey]
  omega

/-- What a TRIM transfers: the data and as many zeros as fill a sector. -/
theorem toNat_trimBytes {n : ℕ} (hn : n + 511 < 2 ^ 31) :
    (trimBytes (Int32.ofNat n)).toUInt32.toNat = (n + 511) / 512 * 512 := by
  have hsum : (Int32.ofNat n + 512 - 1).toBitVec.toNat = n + 511 := by
    show (BitVec.ofNat 32 n + 512#32 - 1#32).toNat = _
    rw [BitVec.toNat_sub, BitVec.toNat_add, BitVec.toNat_ofNat]
    simp
    omega
  have hval : (trimBytes (Int32.ofNat n)).toUInt32.toNat =
      ((Int32.ofNat n + 512 - 1).toBitVec &&& ~~~BitVec.ofNat 32 (2 ^ 9 - 1)).toNat := rfl
  rw [hval, toNat_and_not_mask, hsum]
  norm_num

theorem toNat_trimSectors {n : ℕ} (hn : n + 511 < 2 ^ 31) :
    (trimBytes (Int32.ofNat n) / 512).toUInt32.toNat = (n + 511) / 512 := by
  have hbytes := toNat_trimBytes hn
  have hint : (trimBytes (Int32.ofNat n)).toInt = ((n + 511) / 512 * 512 : ℕ) := by
    rw [← hbytes]
    exact toInt_of_lt (by omega)
  have hdiv : (trimBytes (Int32.ofNat n) / 512).toInt = ((n + 511) / 512 : ℕ) := by
    rw [Int32.toInt_div_of_ne_right _ _ (by decide), hint]
    show Int.tdiv _ 512 = _
    rw [Int.tdiv_eq_ediv_of_nonneg (by positivity)]
    omega
  rw [toNat_toUInt32_of_nonneg (by omega), hdiv]
  rfl

theorem toNat_trimZeros {n : ℕ} (hn : n + 511 < 2 ^ 31) :
    (trimBytes (Int32.ofNat n) - Int32.ofNat n).toInt.toNat = (n + 511) / 512 * 512 - n := by
  have hbytes := toNat_trimBytes hn
  have hdata : (Int32.ofNat n).toUInt32.toNat = n := by
    show (BitVec.ofNat 32 n).toNat = n
    rw [BitVec.toNat_ofNat, Nat.mod_eq_of_lt (by omega)]
  have hsub : (trimBytes (Int32.ofNat n) - Int32.ofNat n).toUInt32.toNat =
      (n + 511) / 512 * 512 - n := by
    show ((trimBytes (Int32.ofNat n)).toBitVec - (Int32.ofNat n).toBitVec).toNat = _
    rw [BitVec.toNat_sub]
    have h₁ : (trimBytes (Int32.ofNat n)).toBitVec.toNat = _ := hbytes
    have h₂ : (Int32.ofNat n).toBitVec.toNat = n := hdata
    rw [h₁, h₂]
    omega
  have hint : (trimBytes (Int32.ofNat n) - Int32.ofNat n).toInt =
      ((n + 511) / 512 * 512 - n : ℕ) := by
    rw [← hsub]
    exact toInt_of_lt (by omega)
  rw [hint]
  rfl

end Bytes

section Decode

variable {h : SgIoHdr} {r : DriveRequest} {d : Direction} {n : ℕ}

theorem SgIoHdr.decode_eq (hreq : h.toSgIo.request = some (r, d, n))
    (hcdb : cdbLength (field h.cmdp 0 1) = some h.cmdp.length)
    (hcmd : h.cmdLen.toNat = h.cmdp.length) (hdata : h.dxferLen.toNat = h.dxferp.length)
    (hdir : h.direction = d) (hn : h.dxferLen.toNat = n) : h.decode = some r := by
  unfold SgIoHdr.decode
  rw [hreq]
  exact if_pos ⟨hcdb, hcmd, hdata, hdir, hn⟩

theorem decode_securityOut (first command : UInt8) :
    (securityOut first command).decode =
      some (.ata ⟨0, 1, 0, 0, command.toNat, password first⟩) := by
  refine SgIoHdr.decode_eq (d := .toDev) (n := 512) ?_ ?_ rfl ?_ rfl rfl
  · simp [SgIo.request, securityOut, field, BigEndian.decode, ataTransfer]
  · simp [securityOut, field, BigEndian.decode, cdbLength]
  · simp [securityOut, password, -List.reduceReplicate]

theorem decode_reserveOut (action kind : UInt8) (myKey newKey : List UInt8)
    (hmy : myKey.length = 8) (hnew : newKey.length = 8) :
    (reserveOut action kind myKey newKey).decode = some (.reserveOut action.toNat kind.toNat
      (BigEndian.decode myKey) (BigEndian.decode newKey)) := by
  refine SgIoHdr.decode_eq (d := .toDev) (n := 24) ?_ ?_ rfl ?_ rfl rfl
  · have hfirst : ∀ rest, (myKey ++ rest).take 8 = myKey := fun _ => List.take_left' hmy
    have hsecond : ∀ rest, ((myKey ++ (newKey ++ rest)).drop 8).take 8 = newKey := by
      intro rest
      rw [List.drop_left' hmy, List.take_left' hnew]
    simp [SgIo.request, reserveOut, field, BigEndian.decode, hfirst, hsecond]
  · simp [reserveOut, field, BigEndian.decode, cdbLength]
  · simp [reserveOut, hmy, hnew]

theorem decode_noKey : BigEndian.decode noKey = 0 := rfl

theorem decode_driveSanitize (stype : Int32) :
    (driveSanitize stype).decode = some (Command.sanitize stype).request := by
  have htype : (lowByte stype 0x3).toNat = stype.toUInt32.toNat % 4 :=
    toNat_lowByte stype (k := 2) (by omega)
  refine SgIoHdr.decode_eq (d := .noData) (n := 0) ?_ ?_ rfl rfl rfl rfl
  · simp [SgIo.request, driveSanitize, field, BigEndian.decode, Command.request, htype]
  · simp [driveSanitize, field, BigEndian.decode, cdbLength]

theorem decode_getVpdPage (page : Int32) :
    (getVpdPage page).decode = some (Command.getVpdPage page).request := by
  have hpage : (lowByte page 0xff).toNat = page.toUInt32.toNat % 256 :=
    toNat_lowByte page (k := 8) le_rfl
  refine SgIoHdr.decode_eq (d := .fromDev) (n := 1024) ?_ ?_ rfl ?_ rfl rfl
  · simp [SgIo.request, getVpdPage, field, BigEndian.decode, Command.request, hpage,
      -List.reduceReplicate]
  · simp [getVpdPage, field, BigEndian.decode, cdbLength, -List.reduceReplicate]
  · simp [getVpdPage, -List.reduceReplicate]

theorem decode_getModePage (page : Int32) :
    (getModePage page).decode = some (Command.getModePage page).request := by
  have hpage : (lowByte page 0xff).toNat = page.toUInt32.toNat % 256 :=
    toNat_lowByte page (k := 8) le_rfl
  refine SgIoHdr.decode_eq (d := .fromDev) (n := 1024) ?_ ?_ rfl ?_ rfl rfl
  · simp [SgIo.request, getModePage, field, BigEndian.decode, Command.request, hpage,
      -List.reduceReplicate]
  · simp [getModePage, field, BigEndian.decode, cdbLength, -List.reduceReplicate]
  · simp [getModePage, -List.reduceReplicate]

theorem request_driveTrim {data : List UInt8} (hlen : data.length + 511 < 2 ^ 31) :
    (driveTrim data).toSgIo.request =
      some (.ata ⟨1, (data.length + 511) / 512 % 256, 0, 0x40, 0x06, trimData data⟩, .toDev,
        (data.length + 511) / 512 % 256 * 512) := by
  have hcount : (trimBytes (Int32.ofNat data.length) / 512).toUInt32.toUInt8.toNat =
      (data.length + 511) / 512 % 256 := by
    rw [UInt32.toNat_toUInt8, toNat_trimSectors hlen]
  simp only [SgIo.request, driveTrim, toNat_trimZeros hlen]
  simp [field, BigEndian.decode, ataTransfer, hcount, trimData]

theorem length_trimData (data : List UInt8) :
    (trimData data).length = (data.length + 511) / 512 * 512 := by
  unfold trimData
  rw [List.length_append, List.length_replicate]
  omega

theorem decode_driveTrim {data : List UInt8} (hlen : data.length + 511 < 2 ^ 31) :
    (data.length ≤ 255 * 512 → (driveTrim data).decode = some (Command.trim data).request) ∧
      (¬ data.length ≤ 255 * 512 → (driveTrim data).decode = none) := by
  have hreq := request_driveTrim hlen
  have hxfer : (driveTrim data).dxferLen.toNat = (data.length + 511) / 512 * 512 :=
    toNat_trimBytes hlen
  have hdata : (driveTrim data).dxferp = trimData data := by
    unfold driveTrim trimData
    dsimp only
    rw [toNat_trimZeros hlen]
  constructor
  · intro hfits
    rw [Nat.mod_eq_of_lt (by omega)] at hreq
    refine SgIoHdr.decode_eq hreq ?_ rfl ?_ rfl hxfer
    · simp [driveTrim, field, BigEndian.decode, cdbLength]
    · rw [hxfer, hdata, length_trimData]
  · intro hlong
    have hmod := Nat.mod_lt ((data.length + 511) / 512) (show 0 < 256 by omega)
    unfold SgIoHdr.decode
    rw [hreq]
    refine if_neg fun hagree => ?_
    have hnamed := hagree.2.2.2.2
    rw [hxfer] at hnamed
    omega

theorem decode_writeSame {length : Int32} (hlen : 0 ≤ length.toInt) (offset : UInt64)
    (unmapping pbdata lbdata : Int32) :
    (Command.writeSame offset length unmapping pbdata lbdata).hdr.decode =
      some (Command.writeSame offset length unmapping pbdata lbdata).request := by
  have hrange : (driveWriteSame offset length unmapping pbdata lbdata).writeSameRange =
      blocksOf offset length := writeSameRange_eq hlen
  refine SgIoHdr.decode_eq (d := .toDev) (n := 512) ?_ ?_ rfl ?_ rfl rfl
  · simp only [Command.hdr, SgIo.request, hrange]
    simp [driveWriteSame, field, BigEndian.decode, Command.request, toNat_writeSameFlags,
      -List.reduceReplicate]
  · simp [Command.hdr, driveWriteSame, field, BigEndian.decode, cdbLength, -List.reduceReplicate]
  · simp [Command.hdr, driveWriteSame, -List.reduceReplicate]

theorem decode_unmap {length : Int32} (hlen : 0 ≤ length.toInt) (offset : UInt64) :
    (Command.unmap offset length).hdr.decode =
      some (.unmap ⟨offset.toNat / 512, length.toInt.toNat⟩) := by
  have hlist : unmapList (driveUnmap offset length).dxferp =
      some ⟨offset.toNat / 512, length.toInt.toNat⟩ := by
    rw [← unmapRange_eq hlen]
    refine if_pos ⟨?_, ?_, ?_⟩ <;> simp [driveUnmap, field, BigEndian.decode]
  refine SgIoHdr.decode_eq (d := .toDev) (n := 24) ?_ ?_ rfl rfl rfl rfl
  · simp only [Command.hdr, SgIo.request, hlist]
    simp [driveUnmap, field, BigEndian.decode]
  · simp [Command.hdr, driveUnmap, field, BigEndian.decode, cdbLength]

theorem unmap_reads_back_iff {length : Int32} (hlen : 0 ≤ length.toInt) (offset : UInt64) :
    (Command.unmap offset length).hdr.decode = some (Command.unmap offset length).request ↔
      length = 0 := by
  have hzero : length = 0 ↔ length.toInt = 0 := by
    rw [← Int32.toInt_inj]
    rfl
  rw [decode_unmap hlen, Command.request, blocksOf, hzero]
  simp only [Option.some.injEq, DriveRequest.unmap.injEq, BlockRange.mk.injEq, true_and]
  omega

theorem decode_noData {c : Command} (h : c = .erasePrepare ∨ c = .syncCache16 ∨ c = .syncCache10 ∨
    c = .sataFlushCache ∨ c = .sataStandbyImmediate) : c.hdr.decode = some c.request := by
  obtain rfl | rfl | rfl | rfl | rfl := h
  all_goals
    refine SgIoHdr.decode_eq (d := .noData) (n := 0) ?_ ?_ rfl rfl rfl rfl
    · simp [SgIo.request, Command.hdr, driveErasePrepare, driveIntFlushCacheSyncCache16,
        driveIntFlushCacheSyncCache10, driveSataFlushCache, driveSataStandbyImmediate, field,
        BigEndian.decode, ataTransfer, Command.request]
    · simp [Command.hdr, driveErasePrepare, driveIntFlushCacheSyncCache16,
        driveIntFlushCacheSyncCache10, driveSataFlushCache, driveSataStandbyImmediate, field,
        BigEndian.decode, cdbLength]

theorem decode_readSector {c : Command} (h : c = .getScsiInfo ∨ c = .sataIdentifyDevice ∨
    c = .readSmartData ∨ c = .readReserve) : c.hdr.decode = some c.request := by
  obtain rfl | rfl | rfl | rfl := h
  all_goals
    refine SgIoHdr.decode_eq (d := .fromDev) (n := 512) ?_ ?_ rfl ?_ rfl rfl
    · simp [SgIo.request, Command.hdr, getScsiInfo, driveSataIdentifyDevice, driveReadSmartData,
        driveReadReserve, field, BigEndian.decode, ataTransfer, Command.request,
        -List.reduceReplicate]
    · simp [Command.hdr, getScsiInfo, driveSataIdentifyDevice, driveReadSmartData,
        driveReadReserve, field, BigEndian.decode, cdbLength, -List.reduceReplicate]
    · simp [Command.hdr, getScsiInfo, driveSataIdentifyDevice, driveReadSmartData,
        driveReadReserve, -List.reduceReplicate]

theorem decode_readSmartLog : driveReadSmartLog.decode = some Command.readSmartLog.request := by
  refine SgIoHdr.decode_eq (d := .fromDev) (n := 8192) ?_ ?_ rfl ?_ rfl rfl
  · simp [SgIo.request, driveReadSmartLog, field, BigEndian.decode, ataTransfer, Command.request,
      -List.reduceReplicate]
  · simp [driveReadSmartLog, field, BigEndian.decode, cdbLength, -List.reduceReplicate]
  · simp [driveReadSmartLog, -List.reduceReplicate]

theorem decode_writeSmartLog (pid : Int32) :
    (driveWriteSmartLog pid).decode = some (Command.writeSmartLog pid).request := by
  refine SgIoHdr.decode_eq (d := .toDev) (n := 8192) ?_ ?_ rfl ?_ rfl rfl
  · simp [SgIo.request, driveWriteSmartLog, field, BigEndian.decode, ataTransfer,
      Command.request, lowByte_eq, -List.reduceReplicate]
  · simp [driveWriteSmartLog, field, BigEndian.decode, cdbLength, -List.reduceReplicate]
  · simp [driveWriteSmartLog, -List.reduceReplicate]

theorem decode_hdr {c : Command} (htrim : ∀ data, c ≠ .trim data)
    (hunmap : ∀ offset length, c ≠ .unmap offset length) (hcall : c.Callable) :
    c.hdr.decode = some c.request := by
  cases c with
  | trim data => exact absurd rfl (htrim data)
  | unmap offset length => exact absurd rfl (hunmap offset length)
  | getVpdPage page => exact decode_getVpdPage page
  | getModePage page => exact decode_getModePage page
  | sanitize stype => exact decode_driveSanitize stype
  | setPassword | unlock | secureDisablePassword => exact decode_securityOut _ _
  | secureErase enhanced => exact decode_securityOut _ _
  | erasePrepare | syncCache16 | syncCache10 | sataFlushCache | sataStandbyImmediate =>
    exact decode_noData (by simp)
  | getScsiInfo | sataIdentifyDevice | readSmartData | readReserve =>
    exact decode_readSector (by simp)
  | readSmartLog => exact decode_readSmartLog
  | writeSmartLog pid => exact decode_writeSmartLog pid
  | writeSame offset length unmapping pbdata lbdata =>
    exact decode_writeSame hcall offset unmapping pbdata lbdata
  | registerIgnore newKey =>
    have hdec := decode_reserveOut 0x06 0x00 noKey (loadKey newKey) rfl (length_loadKey newKey)
    rwa [decode_noKey, decode_loadKey] at hdec
  | register newKey myKey =>
    have hdec := decode_reserveOut 0x00 0x00 (loadKey myKey) (loadKey newKey)
      (length_loadKey myKey) (length_loadKey newKey)
    rwa [decode_loadKey, decode_loadKey] at hdec
  | reserve myKey =>
    have hdec := decode_reserveOut 0x01 0x07 (loadKey myKey) noKey (length_loadKey myKey) rfl
    rwa [decode_loadKey, decode_noKey] at hdec
  | preempt myKey =>
    have hdec := decode_reserveOut 0x05 0x07 (loadKey myKey) noKey (length_loadKey myKey) rfl
    rwa [decode_loadKey, decode_noKey] at hdec
  | clear myKey =>
    have hdec := decode_reserveOut 0x03 0x00 (loadKey myKey) noKey (length_loadKey myKey) rfl
    rwa [decode_loadKey, decode_noKey] at hdec

/-- **Reading back a command gives what the call was for**, except for an UNMAP of anything and a
TRIM of more sectors than its byte can count. The TRIM names another transfer than the one that
comes with it, so a drive that checks takes nothing; the UNMAP is in order, and it names 512 times
the blocks.

The request of a call is what its arguments ask for and not what its bytes are: for the two
commands with a range it is the blocks of the bytes (`blocksOf`), which only `drive_write_same`
computes. -/
theorem command_reads_back {c : Command} (h : c.Callable) :
    (c.hdr.decode = some c.request ↔ c.Fits) ∧
      ((∃ data, c = .trim data) → ¬ c.Fits → c.hdr.decode = none) := by
  cases c with
  | trim data =>
    obtain ⟨hfits, hnot⟩ := decode_driveTrim h
    refine ⟨⟨fun hdec => ?_, hfits⟩, fun _ => hnot⟩
    by_contra hlong
    have hnone : (Command.trim data).hdr.decode = none := hnot hlong
    rw [hnone] at hdec
    cases hdec
  | unmap offset length => exact ⟨unmap_reads_back_iff h offset, nofun⟩
  | _ => exact ⟨iff_of_true (decode_hdr nofun nofun h) trivial, nofun⟩

/-- A TRIM of three bytes and the zeros behind them. -/
theorem command_reads_back_trim :
    (Command.trim [1, 2, 3]).hdr.decode =
      some (.ata ⟨1, 1, 0, 0x40, 0x06, trimData [1, 2, 3]⟩) := by
  have hcallable : (Command.trim [1, 2, 3]).Callable := by
    show 3 + 511 < 2 ^ 31
    norm_num
  have hfits : (Command.trim [1, 2, 3]).Fits := by
    show 3 ≤ 255 * 512
    norm_num
  exact (command_reads_back hcallable).1.mpr hfits

/-- Flushing sends no data, and a kind that is not known sends nothing. -/
theorem driveFlushCache_reads_back {flushtype : Int32} {c : Command}
    (h : driveFlushCache flushtype = some c) :
    c.hdr.decode = some c.request ∧ c.hdr.direction = .noData := by
  unfold driveFlushCache at h
  split at h
  · cases h
    exact ⟨decode_hdr nofun nofun trivial, rfl⟩
  · split at h
    · cases h
      exact ⟨decode_hdr nofun nofun trivial, rfl⟩
    · split at h
      · cases h
        exact ⟨decode_hdr nofun nofun trivial, rfl⟩
      · cases h

end Decode

end Blockbench
