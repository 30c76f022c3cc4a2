import Blockbench.Iob.IodataFrame

/-!
# `Iob/Sectors.lean` — what a buffer holds, sector by sector

`iobIodata` is the whole call: the turns of `Iob/Iodata.lean` one after the other, until the loop
is over. What it leaves is said a sector at a time, because a sector is what reaches a disk in
one piece. `SectorData` lists the contents there are for a type: a constant, a constant of its
own choice, or a sector of a page of the pool under a tag. `iobIodata_sectors` is the statement
for a buffer of whole sectors, and it says nothing about what the buffer held before.

The bound on `size` is that of the `int` the loop counts in.
-/

set_option autoImplicit false

namespace Blockbench

open CInt Bytes

/-- Turns of the loop of `iob_iodata`, at most as many as given, until there is none to take.
Turn `n` of a call draws `draws n`. -/
def Call.run (pools : Pools) (dtype : DataType) (dedupblks : UInt64) (draws : ℕ → PageDraws) :
    ℕ → Call → Call
  | 0, c => c
  | n + 1, c =>
    match c.turn pools dtype dedupblks (draws c.turns) with
    | none => c
    | some c => c.run pools dtype dedupblks draws n

/-- `iob_iodata`. Every turn moves `off` on, so `size` of them are enough. -/
def iobIodata (pools : Pools) (size : UInt32) (dtype : DataType) (dedupblks : UInt64)
    (draws : ℕ → PageDraws) (bp : Mem) : Mem :=
  ((newCall dtype size bp).run pools dtype dedupblks draws size.toNat).mem

abbrev Sector := Fin iobSector → UInt8

def sectorOf (mem : Mem) (m : ℕ) : Sector := fun y => mem (iobSector * m + y)

/-- Sector `j` of page `i` of the pool, under the tag of number `v`. -/
def taggedSector (pools : Pools) (dtype : DataType) (i j v : ℕ) : Sector :=
  fun y => pageByte pools dtype i (UInt64.ofNat (2 ^ 56 * dtype.code.toNat + v))
    (iobSector * j + y)

/-- What a sector of a buffer of `iob_iodata` can hold. -/
def SectorData (pools : Pools) (dtype : DataType) (dedupblks : ℕ) (b : Sector) :
    Prop :=
  match dtype with
  | .ones => ∀ y, b y = 0xff
  | .zeros => ∀ y, b y = 0
  | .pattern1 => ∃ v, ∀ y, b y = v
  | _ => ∃ i < iobNdatapages, ∃ j < 8, ∃ v < dedupblks, b = taggedSector pools dtype i j v

/-- Sectors `k` up to `n` of a memory are overwritten with data of the type, and no others. -/
structure Stamped (pools : Pools) (dtype : DataType) (dedupblks : ℕ) (k n : ℕ)
    (mem mem' : Mem) : Prop where
  inside : ∀ m, k ≤ m → m < n → SectorData pools dtype dedupblks (sectorOf mem' m)
  outside : ∀ m, m < k ∨ n ≤ m → sectorOf mem' m = sectorOf mem m

section Turn

variable {pools : Pools} {dtype : DataType} {D : UInt64} {d : PageDraws} {c c' : Call}
  {size : UInt32} {mem : Mem}

theorem sectorOf_copy_outside {a n m : ℕ} {src : ℕ → UInt8} (ha : iobSector ∣ a)
    (hm : iobSector * m < a ∨ a + n ≤ iobSector * m) :
    sectorOf (copy mem a n src) m = sectorOf mem m := by
  funext y
  have hy := y.isLt
  unfold sectorOf
  apply copy_outside
  unfold iobSector at *
  omega

theorem sectorOf_copy_sector {k : ℕ} {src : ℕ → UInt8} :
    sectorOf (copy mem (iobSector * k) iobSector src)
      = Function.update (sectorOf mem) k fun y => src y := by
  funext m
  by_cases hm : m = k
  · subst hm
    rw [Function.update_self]
    funext y
    exact copy_inside y.isLt
  · rw [Function.update_of_ne hm]
    refine sectorOf_copy_outside (Nat.dvd_mul_right _ _) ?_
    unfold iobSector
    omega

theorem sectorData_pageByte {b : Sector} {j : ℕ} (hd : dtype.isDedupable)
    (h1 : 1 ≤ D.toNat) (hD : D.toNat ≤ 2 ^ 50) (hj : j < 8)
    (hb : ∀ y : Fin iobSector, b y = pageByte pools dtype (d.lrand % iobNdatapages)
      (pageHdr dtype D d) (iobSector * j + y)) :
    SectorData pools dtype D.toNat b := by
  have htag : UInt64.ofNat (2 ^ 56 * dtype.code.toNat + d.rand64.toNat % D.toNat)
      = pageHdr dtype D d := by
    rw [← toNat_pageHdr h1 hD, UInt64.ofNat_toNat]
  have hdata : ∃ i < iobNdatapages, ∃ j < 8, ∃ v < D.toNat,
      b = taggedSector pools dtype i j v := by
    refine ⟨d.lrand % iobNdatapages, Nat.mod_lt _ (by decide), j, hj,
      d.rand64.toNat % D.toNat, Nat.mod_lt _ h1, ?_⟩
    funext y
    unfold taggedSector
    rw [htag]
    exact hb y
  cases dtype <;> first | exact hdata | exact absurd hd (by decide)

/-- **A turn of the loop** overwrites the sectors from `off` to where it leaves `off`, or to the
end of the buffer. -/
theorem turn_stamped (h1 : 1 ≤ D.toNat) (hD : D.toNat ≤ 2 ^ 50) (hs : iobSector ∣ c.size.toNat)
    (hoff : iobSector ∣ c.off.toNat) (ht : c.turn pools dtype D d = some c') :
    ∃ k, stride dtype = some k ∧ c'.size = c.size ∧ c'.off = c.off + k ∧
      Stamped pools dtype D.toNat (c.off.toNat / iobSector)
        (min (c.off.toNat + k.toNat) c.size.toNat / iobSector) c.mem c'.mem := by
  by_cases hd : dtype.isDedupable
  · obtain ⟨hlt, rfl⟩ := turn_cases hd ht
    have hbytes := pageBytes_eq hlt
    have hin := UInt32.lt_iff_toNat_lt.mp hlt
    have hn : iobSector ∣ pageBytes c.size c.off := by
      unfold iobSector iobPage at *
      omega
    have hstride : stride dtype = some 4096 := by
      cases dtype <;> first | rfl | exact absurd hd (by decide)
    have hpage : (4096 : UInt32).toNat = 4096 := rfl
    refine ⟨4096, hstride, rfl, rfl, fun m hle hlt => ?_, fun m hm => ?_⟩
    · -- sector `m` is one of the page
      rw [hpage] at hlt
      obtain ⟨j, rfl⟩ := Nat.exists_eq_add_of_le hle
      unfold iobSector iobPage at *
      refine sectorData_pageByte (d := d) (j := j) hd h1 hD (by omega) fun y => ?_
      have hy : y.val < 512 := y.isLt
      have hat : 512 * (c.off.toNat / 512 + j) + y.val = c.off.toNat + (512 * j + y.val) := by
        omega
      unfold sectorOf iobSector
      rw [hat]
      exact fillPage_inside hn (by omega)
    · rw [hpage] at hm
      funext y
      have hy := y.isLt
      unfold sectorOf
      refine fillPage_outside hn ?_
      unfold iobSector iobPage at *
      omega
  · unfold Call.turn at ht
    split at ht
    case isFalse => cases ht
    rename_i hlt
    have hin := UInt32.lt_iff_toNat_lt.mp hlt
    cases dtype with
    | ones => cases ht
    | zeros => cases ht
    | pattern1 =>
      cases ht
      have hstep : (512 : UInt32).toNat = 512 := rfl
      refine ⟨512, rfl, rfl, rfl, fun m hle hlt => ?_, fun m hm => ?_⟩
      · rw [hstep] at hlt
        refine ⟨UInt8.ofNat (d.lrand % 256), fun y => ?_⟩
        have hy := y.isLt
        have hat : iobSector * m + y.val = c.off.toNat + y.val := by
          unfold iobSector at *
          omega
        unfold sectorOf
        dsimp only
        rw [hat, fill, copy_inside hy]
      · rw [hstep] at hm
        dsimp only
        refine sectorOf_copy_outside hoff ?_
        unfold iobSector at *
        omega
    | _ => exact absurd rfl hd

end Turn

/-! ## The call -/

/-- After every turn: the sectors behind `off` hold data, and for the types without a loop all
of them do. -/
structure Call.Sectored (pools : Pools) (dtype : DataType) (D : ℕ) (c : Call) : Prop where
  whole : iobSector ∣ c.size.toNat
  fits : c.size.toNat ≤ 2 ^ 31
  off : iobSector ∣ c.off.toNat
  behind : ∀ m, iobSector * m < c.size.toNat →
    iobSector * m < c.off.toNat ∨ stride dtype = none → SectorData pools dtype D (sectorOf c.mem m)

section Call

variable {pools : Pools} {dtype : DataType} {D : UInt64} {d : PageDraws} {c c' : Call}
  {size : UInt32} {mem : Mem}

theorem newCall_sectored (hs : iobSector ∣ size.toNat) (hle : size.toNat ≤ 2 ^ 31) :
    (newCall dtype size mem).Sectored pools dtype D.toNat where
  whole := hs
  fits := hle
  off := Nat.dvd_zero _
  behind := by
    intro m hm hbehind
    obtain hoff | hnone := hbehind
    · exact absurd hoff (Nat.not_lt_zero _)
    · -- the buffer is one `memset`
      have hset : ∀ v : UInt8, ∀ y : Fin iobSector, sectorOf (fill mem 0 size.toNat v) m y = v := by
        intro v y
        have hy := y.isLt
        have hin : iobSector * m + y.val < size.toNat := by
          change iobSector * m < size.toNat at hm
          unfold iobSector at *
          omega
        unfold sectorOf fill copy
        rw [if_pos ⟨Nat.zero_le _, by omega⟩]
      cases dtype with
      | ones => exact hset 0xff
      | zeros => exact hset 0
      | _ => cases hnone

theorem Call.Sectored.turn (h1 : 1 ≤ D.toNat) (hD : D.toNat ≤ 2 ^ 50)
    (h : c.Sectored pools dtype D.toNat) (ht : c.turn pools dtype D d = some c') :
    c'.Sectored pools dtype D.toNat ∧ c'.size = c.size ∧ c.off < c.size ∧
      c.off.toNat < c'.off.toNat := by
  have hlt : c.off < c.size := by
    by_contra hnot
    rw [turn_eq_none hnot] at ht
    cases ht
  have hin := UInt32.lt_iff_toNat_lt.mp hlt
  have hfits := h.fits
  have hwhole := h.whole
  have haligned := h.off
  obtain ⟨k, hk, hsize, hoff, hstamped⟩ := turn_stamped h1 hD h.whole h.off ht
  have hstep : k.toNat = 512 ∨ k.toNat = 4096 := by
    obtain rfl | rfl := stride_cases hk
    · exact .inl rfl
    · exact .inr rfl
  have hadd : c'.off.toNat = c.off.toNat + k.toNat := by
    rw [hoff, UInt32.toNat_add]
    omega
  unfold iobSector at *
  refine ⟨⟨hsize ▸ h.whole, hsize ▸ h.fits, ?_, fun m hm hbehind => ?_⟩, hsize, hlt, ?_⟩
  · unfold iobSector
    omega
  · unfold iobSector at hm hbehind
    rw [hsize] at hm
    rw [hk] at hbehind
    have hbelow : 512 * m < c'.off.toNat := by
      obtain hbelow | hnone := hbehind
      · exact hbelow
      · cases hnone
    by_cases hold : 512 * m < c.off.toNat
    · rw [hstamped.outside m (by omega)]
      exact h.behind m hm (.inl hold)
    · exact hstamped.inside m (by omega) (by omega)
  · omega

theorem Call.Sectored.run (h1 : 1 ≤ D.toNat) (hD : D.toNat ≤ 2 ^ 50)
    (draws : ℕ → PageDraws) (n : ℕ) (h : c.Sectored pools dtype D.toNat)
    (hn : c.size.toNat ≤ c.off.toNat + n) :
    (c.run pools dtype D draws n).Sectored pools dtype D.toNat ∧
      (c.run pools dtype D draws n).size = c.size ∧
      (¬ (c.run pools dtype D draws n).off < c.size ∨ stride dtype = none) := by
  induction n generalizing c with
  | zero =>
    refine ⟨h, rfl, .inl ?_⟩
    unfold Call.run
    rw [UInt32.lt_iff_toNat_lt]
    omega
  | succ n ih =>
    unfold Call.run
    cases hturn : c.turn pools dtype D (draws c.turns) with
    | none =>
      refine ⟨h, rfl, ?_⟩
      by_cases hin : c.off < c.size
      · rw [stores_effect hin] at hturn
        exact .inr (Option.map_eq_none_iff.mp hturn)
      · exact .inl hin
    | some c' =>
      obtain ⟨h', hsize, -, hgrow⟩ := h.turn h1 hD hturn
      have hrec := ih h' (by rw [hsize]; omega)
      rw [hsize] at hrec
      exact hrec

/-- **A buffer of `iob_iodata` is made of sectors of its type**, whatever it held before and
whatever is drawn. -/
theorem iobIodata_sectors (draws : ℕ → PageDraws) (h1 : 1 ≤ D.toNat) (hD : D.toNat ≤ 2 ^ 50)
    (hs : iobSector ∣ size.toNat) (hle : size.toNat ≤ 2 ^ 31) {m : ℕ}
    (hm : iobSector * m < size.toNat) :
    SectorData pools dtype D.toNat (sectorOf (iobIodata pools size dtype D draws mem) m) := by
  have hnew : (newCall dtype size mem).Sectored pools dtype D.toNat := newCall_sectored hs hle
  obtain ⟨hdone, hsize, hover⟩ := hnew.run h1 hD draws size.toNat (Nat.le_add_left _ _)
  refine hdone.behind m (by rw [hsize]; exact hm) ?_
  obtain hover | hnone := hover
  · have hnot : ¬ (Call.run pools dtype D draws size.toNat (newCall dtype size mem)).off.toNat
        < size.toNat := hover
    left
    omega
  · exact .inr hnone

end Call

end Blockbench
