import Blockbench.Iob.Types

/-!
# `Ioload/Params.lean` — the options of `ioload`

`iol_main.c`: the default parameters and I/O type, the two suboption parsers and `main`'s loop
over the options. As for `iofill`, a parser is a partial function and `none` is `usage()`.

`pct` and `repwrite` are the doubles `strtod` returned, which need not be numbers. The list of
I/O types is a list: `getitypeopts` appends to the chain of `next` pointers, and `main` falls
back on `defitype` when no `-i` was given.

Two guarantees are carried on from here. `CmdParams.Ranged` says that both ends of the range
are whole megabytes and in order; `Itype.Ok` says what a size can be: a positive multiple of
the sector for a READ or WRITE type, and a number of microseconds for a SLEEP one.
-/

set_option autoImplicit false

namespace Blockbench
namespace Ioload

open CInt

abbrev iobSector : UInt32 := 512

structure CmdParams where
  minoff : UInt64
  maxoff : UInt64
  headersz : UInt64
  warmup : UInt64
  interval : UInt64
  maxlatency : UInt32
  maxrate : UInt32
  status : UInt32
  multiplier : Int32
  initthreads : Int32
  maxthreads : Int32
  incrthreads : Int32
  maxiosize : Int32

def params : CmdParams where
  minoff := 0
  maxoff := (204800 : UInt64) <<< 20
  headersz := 1024
  warmup := 60 * nsecToSec
  interval := 300 * nsecToSec
  maxlatency := 2000 * 1000
  maxrate := 0
  status := 0
  multiplier := 1
  initthreads := 5
  maxthreads := 40
  incrthreads := 5
  maxiosize := 1048576

/-- `struct itype`, without the link and the unused `buf`. -/
structure Itype where
  pct : Binary64
  dedupblks : UInt64
  optype : OpType
  size : UInt32
  dtype : DataType
  longlat : UInt64
  repwrite : Binary64

def defitype : Itype where
  pct := 1
  dedupblks := (1 : UInt64) <<< 50
  optype := .read
  size := 4096
  dtype := .vm
  longlat := ~~~0
  repwrite := 0

/-- A `-m` suboption: `modopts`, or a name that is not in the table. -/
inductive ModOpt
  | minoff (value : Arg)
  | maxoff (value : Arg)
  | warmup (value : Arg)
  | interval (value : Arg)
  | initthreads (value : Arg)
  | maxthreads (value : Arg)
  | incrthreads (value : Arg)
  | maxlat (value : Arg)
  | status (value : Arg)
  | maxrate (value : Arg)
  | multiplier (value : Arg)
  | maxiosize (value : Arg)
  | header (value : Arg)
  | unknown

/-- The check both `minoff` and `maxoff` end with. -/
def checkRange (cp : CmdParams) : Option CmdParams :=
  if cp.maxoff ≤ cp.minoff then none else some cp

/-- One turn of the loop of `getmodopts`. -/
def getmodopt (cp : CmdParams) : ModOpt → Option CmdParams
  | .minoff value => do checkRange { cp with minoff := (← iobStrtoull value) <<< 20 }
  | .maxoff value => do checkRange { cp with maxoff := (← iobStrtoull value) <<< 20 }
  | .multiplier value => do return { cp with multiplier := (← iobStrtoul value).toInt32 }
  | .status value => do return { cp with status := ← iobStrtoul value }
  | .header value => do return { cp with headersz := (← iobStrtoull value) * 1024 }
  | .warmup value => do return { cp with warmup := (← iobStrtoull value) * nsecToSec }
  | .interval value => do return { cp with interval := (← iobStrtoull value) * nsecToSec }
  | .initthreads value => do return { cp with initthreads := (← iobStrtoul value).toInt32 }
  | .maxthreads value => do return { cp with maxthreads := (← iobStrtoul value).toInt32 }
  | .incrthreads value => do return { cp with incrthreads := (← iobStrtoul value).toInt32 }
  | .maxlat value => do return { cp with maxlatency := (← iobStrtoul value) * 1000 }
  | .maxrate value => do return { cp with maxrate := ← iobStrtoul value }
  | .maxiosize value => do return { cp with maxiosize := (← iobStrtoul value).toInt32 }
  | .unknown => none

def getmodopts (cp : CmdParams) (options : List ModOpt) : Option CmdParams :=
  options.foldlM getmodopt cp

/-- The value of `op`: a string that is one of three, another string, or no string. -/
inductive OpArg
  | write
  | read
  | sleep
  | other
  | missing

/-- An `-i` suboption: `itypeopts`. A number read by `strtod` is `none` when it is missing. -/
inductive ItypeOpt
  | size (value : Arg)
  | pct (value : Option Binary64)
  | op (value : OpArg)
  | dtype (value : Option DataType)
  | dedupblks (value : Arg)
  | longlat (value : Arg)
  | sleeptm (value : Arg)
  | repwrite (value : Option Binary64)
  | unknown

/-- What the loop of `getitypeopts` works on: the new type, the local `sleeptm` and the global
`longlats`. -/
structure ItypeAcc where
  ip : Itype
  sleeptm : Int32
  longlats : Bool

/-- One turn of the loop of `getitypeopts`. -/
def getitypeopt (a : ItypeAcc) : ItypeOpt → Option ItypeAcc
  | .size value => do
    let size ← iobStrtoul value
    if size < iobSector ∨ size % iobSector ≠ 0 then none
    else return { a with ip := { a.ip with size := size } }
  | .op .write => return { a with ip := { a.ip with optype := .write } }
  | .op .read => return { a with ip := { a.ip with optype := .read } }
  | .op .sleep => return { a with ip := { a.ip with optype := .sleep } }
  | .op .other => none
  | .op .missing => none
  | .pct value => do return { a with ip := { a.ip with pct := ← value } }
  | .repwrite value => do return { a with ip := { a.ip with repwrite := ← value } }
  | .sleeptm value => do
    let sleeptm := (← iobStrtoul value).toInt32
    if sleeptm < 50 then none else return { a with sleeptm := sleeptm }
  | .longlat value => do
    return { a with ip := { a.ip with longlat := (← iobStrtoull value) * 1000 }, longlats := true }
  | .dtype value => do return { a with ip := { a.ip with dtype := ← value } }
  | .dedupblks value => do
    return { a with ip := { a.ip with dedupblks := clampDedupblks (← iobStrtoull value) } }
  | .unknown => none

/-- The last lines of `getitypeopts`: a SLEEP type's size is its time. -/
def setSleepSize (a : ItypeAcc) : Itype :=
  if a.ip.optype = .sleep then
    { a.ip with size := if a.sleeptm ≠ 0 then a.sleeptm.toUInt32 else 5000 }
  else a.ip

structure Config where
  cp : CmdParams
  itlist : List Itype
  ignErrors : Bool
  verbose : Bool
  latDetails : Bool
  longlats : Bool

def defconfig : Config := ⟨params, [], false, false, false, false⟩

def getitypeopts (c : Config) (options : List ItypeOpt) : Option Config := do
  let a ← options.foldlM getitypeopt ⟨defitype, 0, c.longlats⟩
  return { c with itlist := c.itlist ++ [setSleepSize a], longlats := a.longlats }

/-- A command-line option, with its argument split by `getsubopt`. -/
inductive CmdOpt
  | n
  | v
  | l
  | o
  | m (options : List ModOpt)
  | i (options : List ItypeOpt)
  | unknown

/-- One turn of the `getopt` loop of `main`. -/
def mainOpt (c : Config) : CmdOpt → Option Config
  | .n => some { c with ignErrors := true }
  | .v => some { c with verbose := true }
  | .l => some { c with latDetails := true }
  | .o => some c
  | .m options => do return { c with cp := ← getmodopts c.cp options }
  | .i options => getitypeopts c options
  | .unknown => none

/-- `main`'s fallback when no `-i` was given. -/
def useDefitype (c : Config) : Config :=
  if c.itlist = [] then { c with itlist := [defitype] } else c

/-- The option loop of `main`, from the defaults. -/
def getopt (args : List CmdOpt) : Option Config :=
  (args.foldlM mainOpt defconfig).map useDefitype

/-! ## What the parsers guarantee -/

/-- The ends of the range are whole megabytes, and in order. -/
structure CmdParams.Ranged (p : CmdParams) : Prop where
  minoff_dvd : 2 ^ 20 ∣ p.minoff.toNat
  maxoff_dvd : 2 ^ 20 ∣ p.maxoff.toNat
  lt : p.minoff.toNat < p.maxoff.toNat

theorem CmdParams.Ranged.sectors {p : CmdParams} (hp : p.Ranged) :
    512 ∣ p.minoff.toNat ∧ 512 ∣ p.maxoff.toNat ∧ p.minoff.toNat < p.maxoff.toNat ∧
      p.maxoff.toNat < 2 ^ 64 := by
  have hsector : 512 ∣ 2 ^ 20 := by norm_num
  exact ⟨hsector.trans hp.minoff_dvd, hsector.trans hp.maxoff_dvd, hp.lt, p.maxoff.toNat_lt⟩

theorem params_ranged : params.Ranged := by
  constructor <;> decide

/-- A value in megabytes is a multiple of one, also when the shift drops its high bits. -/
theorem dvd_shiftLeft_mb (v : UInt64) : 2 ^ 20 ∣ (v <<< 20).toNat := by
  have hmod : (v <<< 20).toNat = v.toNat * 2 ^ 20 % 2 ^ 64 := by
    rw [UInt64.toNat_shiftLeft, Nat.shiftLeft_eq]
    rfl
  rw [hmod]
  exact (Nat.dvd_mod_iff (by norm_num)).mpr (Nat.dvd_mul_left _ _)

theorem checkRange_eq_some {p q : CmdParams} :
    checkRange p = some q ↔ p = q ∧ p.minoff.toNat < p.maxoff.toNat := by
  rw [checkRange]
  constructor
  · intro h
    split at h
    · cases h
    · rename_i hlt
      cases h
      rw [UInt64.le_iff_toNat_le] at hlt
      exact ⟨rfl, Nat.lt_of_not_le hlt⟩
  · rintro ⟨rfl, hlt⟩
    rw [if_neg]
    rw [UInt64.le_iff_toNat_le]
    exact Nat.not_le.mpr hlt

theorem getmodopt_ranged {p q : CmdParams} {o : ModOpt} (hp : p.Ranged)
    (h : getmodopt p o = some q) : q.Ranged := by
  cases o with
  | minoff value =>
    simp only [getmodopt, Option.bind_eq_bind, Option.bind_eq_some_iff] at h
    obtain ⟨v, -, h⟩ := h
    obtain ⟨rfl, hlt⟩ := checkRange_eq_some.mp h
    exact ⟨dvd_shiftLeft_mb v, hp.maxoff_dvd, hlt⟩
  | maxoff value =>
    simp only [getmodopt, Option.bind_eq_bind, Option.bind_eq_some_iff] at h
    obtain ⟨v, -, h⟩ := h
    obtain ⟨rfl, hlt⟩ := checkRange_eq_some.mp h
    exact ⟨hp.minoff_dvd, dvd_shiftLeft_mb v, hlt⟩
  | unknown => cases h
  | warmup value | interval value | initthreads value | maxthreads value | incrthreads value
  | maxlat value | status value | maxrate value | multiplier value | maxiosize value
  | header value =>
    simp only [getmodopt, Option.bind_eq_bind, Option.bind_eq_some_iff, Option.pure_def,
      Option.some.injEq] at h
    obtain ⟨v, -, rfl⟩ := h
    exact ⟨hp.minoff_dvd, hp.maxoff_dvd, hp.lt⟩

theorem getmodopt_headersz {p q : CmdParams} {o : ModOpt} (hp : 512 ∣ p.headersz.toNat)
    (h : getmodopt p o = some q) : 512 ∣ q.headersz.toNat := by
  cases o with
  | minoff value | maxoff value =>
    simp only [getmodopt, Option.bind_eq_bind, Option.bind_eq_some_iff] at h
    obtain ⟨v, -, h⟩ := h
    obtain ⟨rfl, -⟩ := checkRange_eq_some.mp h
    exact hp
  | unknown => cases h
  | header value =>
    simp only [getmodopt, Option.bind_eq_bind, Option.bind_eq_some_iff, Option.pure_def,
      Option.some.injEq] at h
    obtain ⟨v, -, rfl⟩ := h
    exact dvd_toNat_mul_right (by norm_num) v (by decide)
  | warmup value | interval value | initthreads value | maxthreads value | incrthreads value
  | maxlat value | status value | maxrate value | multiplier value | maxiosize value =>
    simp only [getmodopt, Option.bind_eq_bind, Option.bind_eq_some_iff, Option.pure_def,
      Option.some.injEq] at h
    obtain ⟨v, -, rfl⟩ := h
    exact hp

/-- The sizes and operations an accepted I/O type can have. -/
structure Itype.Ok (ip : Itype) : Prop where
  optype : ip.optype = .read ∨ ip.optype = .write ∨ ip.optype = .sleep
  sector : ip.optype ≠ .sleep → 512 ≤ ip.size.toNat ∧ 512 ∣ ip.size.toNat
  sleep : ip.optype = .sleep → 50 ≤ ip.size.toNat ∧ ip.size.toNat < 2 ^ 31

/-- What `Itype.Ok` is while the suboptions are read: the size is checked when it is set, and
the sleep time is zero or long enough. -/
structure ItypeAcc.Ok (a : ItypeAcc) : Prop where
  optype : a.ip.optype = .read ∨ a.ip.optype = .write ∨ a.ip.optype = .sleep
  size_ge : 512 ≤ a.ip.size.toNat
  size_dvd : 512 ∣ a.ip.size.toNat
  sleeptm : a.sleeptm = 0 ∨ 50 ≤ a.sleeptm.toInt

theorem getitypeopt_ok {a b : ItypeAcc} {o : ItypeOpt} (ha : a.Ok)
    (h : getitypeopt a o = some b) : b.Ok := by
  cases o with
  | size value =>
    simp only [getitypeopt, Option.bind_eq_bind, Option.bind_eq_some_iff] at h
    obtain ⟨v, -, h⟩ := h
    split at h
    · cases h
    · rename_i hs
      obtain ⟨hge, hmod⟩ := not_or.mp hs
      cases h
      rw [UInt32.lt_iff_toNat_lt] at hge
      refine ⟨ha.optype, Nat.le_of_not_lt hge, ?_, ha.sleeptm⟩
      have hz : (v % iobSector).toNat = 0 := by rw [not_not.mp hmod]; rfl
      rw [UInt32.toNat_mod] at hz
      exact Nat.dvd_of_mod_eq_zero hz
  | op value =>
    cases value with
    | write => cases h; exact ⟨.inr (.inl rfl), ha.size_ge, ha.size_dvd, ha.sleeptm⟩
    | read => cases h; exact ⟨.inl rfl, ha.size_ge, ha.size_dvd, ha.sleeptm⟩
    | sleep => cases h; exact ⟨.inr (.inr rfl), ha.size_ge, ha.size_dvd, ha.sleeptm⟩
    | other => cases h
    | missing => cases h
  | sleeptm value =>
    simp only [getitypeopt, Option.bind_eq_bind, Option.bind_eq_some_iff] at h
    obtain ⟨v, -, h⟩ := h
    split at h
    · cases h
    · rename_i hs
      cases h
      refine ⟨ha.optype, ha.size_ge, ha.size_dvd, .inr ?_⟩
      rw [Int32.lt_iff_toInt_lt] at hs
      exact Int.le_of_not_gt hs
  | unknown => cases h
  | pct value | repwrite value | longlat value | dtype value | dedupblks value =>
    simp only [getitypeopt, Option.bind_eq_bind, Option.bind_eq_some_iff, Option.pure_def,
      Option.some.injEq] at h
    obtain ⟨v, -, rfl⟩ := h
    exact ⟨ha.optype, ha.size_ge, ha.size_dvd, ha.sleeptm⟩

theorem setSleepSize_ok {a : ItypeAcc} (ha : a.Ok) : (setSleepSize a).Ok := by
  unfold setSleepSize
  split
  · rename_i hsleep
    refine ⟨.inr (.inr hsleep), fun hne => absurd hsleep hne, fun _ => ?_⟩
    rcases ha.sleeptm with hz | hge
    · rw [hz]
      have htm : (if (0 : Int32) ≠ 0 then (0 : Int32).toUInt32 else 5000).toNat = 5000 := by decide
      dsimp only
      omega
    · -- a positive `int` stored in the unsigned `size` is itself
      have hne : a.sleeptm ≠ 0 := by
        intro hz
        rw [hz] at hge
        exact absurd hge (by decide)
      rw [if_pos hne]
      have hlt := Int32.toInt_lt a.sleeptm
      have heq := toNat_toUInt32_of_nonneg (i := a.sleeptm) (by omega)
      dsimp only
      rw [heq]
      omega
  · rename_i hsleep
    exact ⟨ha.optype, fun _ => ⟨ha.size_ge, ha.size_dvd⟩, fun h => absurd h hsleep⟩

theorem defitype_ok : defitype.Ok :=
  ⟨.inl rfl, fun _ => by decide, fun h => by cases h⟩

theorem getitypeopts_ok {c d : Config} {options : List ItypeOpt}
    (h : getitypeopts c options = some d) : ∃ ip : Itype, ip.Ok ∧ d.itlist = c.itlist ++ [ip] ∧
      d.cp = c.cp := by
  simp only [getitypeopts, Option.bind_eq_bind, Option.bind_eq_some_iff, Option.pure_def,
    Option.some.injEq] at h
  obtain ⟨a, ha, rfl⟩ := h
  have hsize : 512 ≤ defitype.size.toNat ∧ 512 ∣ defitype.size.toNat := by decide
  refine ⟨setSleepSize a, setSleepSize_ok ?_, rfl, rfl⟩
  refine foldlM_keeps (fun _ _ _ => getitypeopt_ok) options ?_ ha
  exact ⟨.inl rfl, hsize.1, hsize.2, .inl rfl⟩

theorem mainOpt_keeps {P : CmdParams → Prop}
    (hmod : ∀ p o q, P p → getmodopt p o = some q → P q) {c d : Config} {opt : CmdOpt}
    (hc : P c.cp) (h : mainOpt c opt = some d) : P d.cp := by
  cases opt with
  | n | v | l | o =>
    cases h
    exact hc
  | m options =>
    simp only [mainOpt, Option.bind_eq_bind, Option.bind_eq_some_iff, Option.pure_def,
      Option.some.injEq] at h
    obtain ⟨p, hp, rfl⟩ := h
    exact foldlM_keeps hmod options hc hp
  | i options =>
    obtain ⟨-, -, -, hcp⟩ := getitypeopts_ok h
    exact hcp ▸ hc
  | unknown => cases h

structure Config.Ok (c : Config) : Prop where
  ranged : c.cp.Ranged
  itypes : ∀ ip ∈ c.itlist, ip.Ok

theorem mainOpt_ok {c d : Config} {opt : CmdOpt} (hc : c.Ok) (h : mainOpt c opt = some d) :
    d.Ok := by
  refine ⟨mainOpt_keeps (fun _ _ _ => getmodopt_ranged) hc.ranged h, ?_⟩
  cases opt with
  | n | v | l | o =>
    cases h
    exact hc.itypes
  | m options =>
    simp only [mainOpt, Option.bind_eq_bind, Option.bind_eq_some_iff, Option.pure_def,
      Option.some.injEq] at h
    obtain ⟨p, -, rfl⟩ := h
    exact hc.itypes
  | i options =>
    obtain ⟨ip, hip, hlist, -⟩ := getitypeopts_ok h
    intro jp hjp
    rw [hlist, List.mem_append, List.mem_singleton] at hjp
    rcases hjp with hjp | rfl
    · exact hc.itypes jp hjp
    · exact hip
  | unknown => cases h

/-- **Every accepted command line gives a range in order and I/O types that are `Ok`**, at
least one of them. -/
theorem ok_of_getopt {args : List CmdOpt} {c : Config} (h : getopt args = some c) :
    c.Ok ∧ c.itlist ≠ [] := by
  rw [getopt, Option.map_eq_some_iff] at h
  obtain ⟨d, hd, rfl⟩ := h
  have hok : d.Ok :=
    foldlM_keeps (fun _ _ _ => mainOpt_ok) args
      ⟨params_ranged, fun ip hip => absurd hip List.not_mem_nil⟩ hd
  unfold useDefitype
  split
  · refine ⟨⟨hok.ranged, fun ip hip => ?_⟩, by simp⟩
    rw [List.mem_singleton.mp hip]
    exact defitype_ok
  · exact ⟨hok, ‹_›⟩

theorem headersz_dvd_of_getopt {args : List CmdOpt} {c : Config} (h : getopt args = some c) :
    512 ∣ c.cp.headersz.toNat := by
  rw [getopt, Option.map_eq_some_iff] at h
  obtain ⟨d, hd, rfl⟩ := h
  have hdvd : 512 ∣ d.cp.headersz.toNat :=
    foldlM_keeps (P := fun c => 512 ∣ c.cp.headersz.toNat)
      (fun _ _ _ => mainOpt_keeps (P := fun p => 512 ∣ p.headersz.toNat)
        fun _ _ _ => getmodopt_headersz) args (by decide : 512 ∣ params.headersz.toNat) hd
  unfold useDefitype
  split
  · exact hdvd
  · exact hdvd

end Ioload
end Blockbench
