import Blockbench.Iofill.Params

/-!
# `Iofill/DetailsInit.lean` — room for the log of long I/Os

`-d count=…` says how many entries the log has. The number is parsed as 64 bits and passed to
`iob_details_init` as an `int`; the bytes for that many records are computed as `size_t` and
passed to `iob_malloc` as an `int` again; and the bound that `iob_details_add` compares with is
the first `int`, as 64 bits. So the allocation and the bound agree as long as the bytes fit an
`int`. Beyond that what is left of them in 32 bits is allocated, and records are stored past
the end (`details_inside_iff`); only a number of bytes that is negative asks for so much that
nothing is stored past it.

`malloc` is a parameter, that says which requests it grants. Nothing is assumed of it: where it
refuses, `iob_malloc` exits.
-/

set_option autoImplicit false

namespace Blockbench
namespace Iofill

open CInt

abbrev sizeofIodet : ℕ := 88

/-- What is behind `details`: the bytes it was allocated with, and `niodet`. -/
structure DetailsTable where
  bytes : UInt64
  niodet : UInt64
  deriving DecidableEq, Repr

/-- `iob_malloc`: the bytes asked of `malloc`; `none` when it refuses and the program exits. -/
def iobMalloc (malloc : UInt64 → Bool) (nbytes : Int32) : Option UInt64 :=
  if malloc (u64OfI32 nbytes) then some (u64OfI32 nbytes) else none

/-- `iob_details_init`, from `details` and `niodet` as they are at the start. -/
def iobDetailsInit (malloc : UInt64 → Bool) (maxiodet : Int32) : Option DetailsTable :=
  if maxiodet ≠ 0 then do
    let bytes ← iobMalloc malloc (i32OfU64 (u64OfI32 maxiodet * UInt64.ofNat sizeofIodet))
    return { bytes := bytes, niodet := u64OfI32 maxiodet }
  else some { bytes := 0, niodet := 0 }

/-- The call in `init_threads`. -/
def CmdParams.detailsInit (malloc : UInt64 → Bool) (cp : CmdParams) : Option DetailsTable :=
  iobDetailsInit malloc (i32OfU64 cp.iodetcnt)

/-- Where `iob_details_add` stores the record that `cur_iodet` gave entry `nextdet`. -/
def DetailsTable.recordAt (t : DetailsTable) (nextdet : UInt64) : Option ℕ :=
  if nextdet < t.niodet then some (sizeofIodet * nextdet.toNat) else none

/-- `niodet` records have room, and every record stored is within what was allocated. -/
structure DetailsTable.Inside (t : DetailsTable) : Prop where
  room : sizeofIodet * t.niodet.toNat ≤ t.bytes.toNat
  stored : ∀ nextdet, ∀ a ∈ t.recordAt nextdet, a + sizeofIodet ≤ t.bytes.toNat

section Inside

variable {malloc : UInt64 → Bool} {count : UInt64} {t : DetailsTable}

theorem inside_iff : t.Inside ↔ sizeofIodet * t.niodet.toNat ≤ t.bytes.toNat := by
  constructor
  · intro h
    exact h.room
  · intro h
    refine ⟨h, fun nextdet a ha => ?_⟩
    obtain ⟨hlt, rfl⟩ := Option.ite_some_none_eq_some.mp ha
    have hnat := UInt64.lt_iff_toNat_lt.mp hlt
    unfold sizeofIodet at *
    omega

/-- A number passed as an `int` and widened again keeps its low 32 bits, sign-extended. -/
theorem toNat_widen (x : UInt64) : (u64OfI32 (i32OfU64 x)).toNat =
    if x.toNat % 2 ^ 32 < 2 ^ 31 then x.toNat % 2 ^ 32
    else x.toNat % 2 ^ 32 + (2 ^ 64 - 2 ^ 32) := by
  have hlow : (i32OfU64 x).toUInt32.toNat = x.toNat % 2 ^ 32 := by
    rw [i32OfU64, UInt32.toUInt32_toInt32, UInt64.toNat_toUInt32]
  rw [toNat_u64OfI32_eq, hlow]

/-- The bytes asked for are the low 32 bits of those of the whole count. -/
theorem request_eq (count : UInt64) :
    u64OfI32 (i32OfU64 (u64OfI32 (i32OfU64 count) * UInt64.ofNat sizeofIodet)) =
      u64OfI32 (i32OfU64 (count * UInt64.ofNat sizeofIodet)) := by
  have hsize : (UInt64.ofNat sizeofIodet).toNat = 88 := rfl
  have hbytes : (u64OfI32 (i32OfU64 count) * UInt64.ofNat sizeofIodet).toNat % 2 ^ 32 =
      (count * UInt64.ofNat sizeofIodet).toNat % 2 ^ 32 := by
    rw [UInt64.toNat_mul, UInt64.toNat_mul, hsize, toNat_widen]
    split <;> omega
  rw [← UInt64.toNat_inj, toNat_widen, toNat_widen, hbytes]

theorem i32OfU64_eq_zero : i32OfU64 count = 0 ↔ count.toNat % 2 ^ 32 = 0 := by
  rw [← toNat_toUInt32_eq_zero, i32OfU64, UInt32.toUInt32_toInt32, UInt64.toNat_toUInt32]

theorem iobDetailsInit_eq : iobDetailsInit malloc (i32OfU64 count) =
    if count.toNat % 2 ^ 32 = 0 then some { bytes := 0, niodet := 0 }
    else if malloc (u64OfI32 (i32OfU64 (count * UInt64.ofNat sizeofIodet))) then
      some { bytes := u64OfI32 (i32OfU64 (count * UInt64.ofNat sizeofIodet)),
             niodet := u64OfI32 (i32OfU64 count) }
    else none := by
  unfold iobDetailsInit iobMalloc
  rw [request_eq]
  by_cases hzero : count.toNat % 2 ^ 32 = 0
  · rw [if_neg (not_not.mpr (i32OfU64_eq_zero.mpr hzero)), if_pos hzero]
  · rw [if_pos (fun h => hzero (i32OfU64_eq_zero.mp h)), if_neg hzero]
    split <;> rfl

/-- **When the bytes asked for are enough**: when the number is not a negative `int`, and its
bytes fit an `int` or make a negative one. -/
theorem room_iff :
    sizeofIodet * (u64OfI32 (i32OfU64 count)).toNat ≤
        (u64OfI32 (i32OfU64 (count * UInt64.ofNat sizeofIodet))).toNat ↔
      count.toNat % 2 ^ 32 < 2 ^ 31 ∧
        (sizeofIodet * (count.toNat % 2 ^ 32) < 2 ^ 31 ∨
          2 ^ 31 ≤ sizeofIodet * (count.toNat % 2 ^ 32) % 2 ^ 32) := by
  have hsize : (UInt64.ofNat sizeofIodet).toNat = 88 := rfl
  have hbytes : (count * UInt64.ofNat sizeofIodet).toNat % 2 ^ 32 =
      sizeofIodet * (count.toNat % 2 ^ 32) % 2 ^ 32 := by
    rw [UInt64.toNat_mul, hsize]
    unfold sizeofIodet
    omega
  rw [toNat_widen, toNat_widen, hbytes]
  unfold sizeofIodet
  split <;> split <;> omega

end Inside

/-- The counts for which the log stays inside: `malloc` refuses, or the number is not a negative
`int` and its bytes fit an `int` or make a negative one. -/
def CountFits (malloc : UInt64 → Bool) (count : UInt64) : Prop :=
  malloc (u64OfI32 (i32OfU64 (count * UInt64.ofNat sizeofIodet))) = false ∨
    count.toNat % 2 ^ 32 < 2 ^ 31 ∧
      (sizeofIodet * (count.toNat % 2 ^ 32) < 2 ^ 31 ∨
        2 ^ 31 ≤ sizeofIodet * (count.toNat % 2 ^ 32) % 2 ^ 32)

/-- The log stays inside what is allocated for it, if `iob_details_init` returns. -/
def EntriesInside (malloc : UInt64 → Bool) (count : UInt64) : Prop :=
  ∀ t, iobDetailsInit malloc (i32OfU64 count) = some t → t.Inside

theorem entriesInside_iff (malloc : UInt64 → Bool) (count : UInt64) :
    EntriesInside malloc count ↔ CountFits malloc count := by
  unfold EntriesInside CountFits
  rw [iobDetailsInit_eq]
  by_cases hzero : count.toNat % 2 ^ 32 = 0
  · rw [if_pos hzero, hzero]
    refine iff_of_true (fun t ht => ?_) (.inr ⟨by norm_num, .inl (by norm_num)⟩)
    cases ht
    exact inside_iff.mpr le_rfl
  · rw [if_neg hzero]
    split
    case isTrue hgrant =>
      rw [hgrant, or_iff_right (by decide), ← room_iff]
      constructor
      · intro h
        exact inside_iff.mp (h _ rfl)
      · intro h t ht
        cases ht
        exact inside_iff.mpr h
    case isFalse hrefuse =>
      refine iff_of_true (fun t ht => ?_) (.inl (Bool.eq_false_iff.mpr hrefuse))
      cases ht

/-- **When every entry of the log is inside its allocation**: for every `malloc` and every count
that can be given.

The count goes through two conversions to `int` on its way to `malloc` and one on its way to the
bound of the log. `EntriesInside` asks that what the bound admits has room in what was allocated,
if anything was: a `malloc` that refuses ends the program, and the condition is then empty. The
table is one for the whole program, whatever the number of files and threads. -/
theorem details_inside_iff (malloc : UInt64 → Bool) (count : UInt64) :
    (∃ args c, getopt args = some c ∧ c.cp.iodetcnt = count) ∧
    ((∀ args c, getopt args = some c → c.cp.iodetcnt = count →
      ∀ t, c.cp.detailsInit malloc = some t → t.Inside) ↔ CountFits malloc count) := by
  have hgiven : getopt [.d [.count (some count)]] =
      some { defconfig with cp := { defparams with iodetcnt := count } } := rfl
  refine ⟨⟨_, _, hgiven, rfl⟩, ?_⟩
  rw [← entriesInside_iff]
  constructor
  · intro h
    exact h _ _ hgiven rfl
  · rintro h args c - rfl
    exact h

/-- `-d count=48806447`: 40 bytes are allocated for 48806447 entries, by a `malloc` that grants
what a 47-bit address space has. -/
theorem details_outside : ¬ ∀ (malloc : UInt64 → Bool) (args : List CmdOpt) (c : Config),
    getopt args = some c → ∀ t, c.cp.detailsInit malloc = some t → t.Inside := by
  intro h
  have hinside := h (fun n => n < 0x800000000000) [.d [.count (some 48806447)]] _ rfl
    { bytes := 40, niodet := 48806447 } (by decide)
  exact absurd hinside.room (by decide)

end Iofill
end Blockbench
