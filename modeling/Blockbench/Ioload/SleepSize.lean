import Blockbench.Ioload.Init

/-!
# `Ioload/SleepSize.lean` — does a SLEEP type change where the I/Os go?

A SLEEP type keeps its microseconds in `size`, and `init_threads` takes the largest `size` of
the list for the largest I/O, whatever the type. The error it can end with calls that number
the maximum iosize, which a time is not.

Adding a SLEEP type can therefore only raise `maxsize`, and it does when its time is above every
READ and WRITE size. Without a header the range does not depend on `maxsize` and only the check
can change its answer. With a header the range is what `maxsize` leaves of the test range, and
a higher `maxsize` always leaves less or wraps (`room_ne`); then nothing changes only when no
thread gets a range.
-/

set_option autoImplicit false

namespace Blockbench
namespace Ioload

open CInt

/-- The two runs accept alike, and when they do their threads have the same ranges. -/
def SameRanges (run run' : Option (List File)) : Prop :=
  run.isSome = run'.isSome ∧ ∀ files ∈ run, ∀ files' ∈ run',
    files.map (fun f => f.ithreads.map IoThread.rangeoff) =
      files'.map (fun f => f.ithreads.map IoThread.rangeoff)

/-- The check of `init_threads` fails with the largest size `m`. -/
def CmdParams.TooSmall (p : CmdParams) (m : ℕ) : Prop :=
  p.room m < (m + p.headersz.toNat) % 2 ^ 64

instance (p : CmdParams) (m : ℕ) : Decidable (p.TooSmall m) :=
  inferInstanceAs (Decidable (_ < _))

/-! ## What `init_threads` depends on -/

section Init

variable {nfiles : ℕ} {cp : CmdParams} {l l' : List Itype} {files : List File}

theorem isSome_initThreads (nfiles : ℕ) (l : List Itype) (hp : cp.Ranged) :
    (initThreads nfiles cp l).isSome ↔ ¬ cp.TooSmall (msz l) := by
  have hiff : rangeoff cp l < u64OfI32 (maxsize l) + cp.headersz ↔ cp.TooSmall (msz l) := by
    rw [UInt64.lt_iff_toNat_lt, toNat_rangeoff_eq hp, UInt64.toNat_add, CmdParams.TooSmall, msz]
  rw [← hiff]
  simp only [initThreads, reduceHeader_eq]
  split
  · rename_i hlt
    simp only [Option.isSome_none, Bool.false_eq_true, false_iff, not_not]
    exact hlt
  · rename_i hlt
    simp only [Option.isSome_some, true_iff]
    exact hlt

theorem ranges_initThreads (h : initThreads nfiles cp l = some files) :
    files.map (fun f => f.ithreads.map IoThread.rangeoff) =
      List.replicate nfiles (List.replicate cp.maxthreads.toInt.toNat (rangeoff cp l)) := by
  simp only [initThreads, reduceHeader_eq] at h
  split at h
  · cases h
  · cases h
    rw [List.map_map, List.eq_replicate_iff, List.length_map, List.length_range]
    refine ⟨rfl, fun rs hrs => ?_⟩
    obtain ⟨i, -, rfl⟩ := List.mem_map.mp hrs
    rw [Function.comp_apply, List.eq_replicate_iff, List.length_map, List.length_map,
      List.length_range]
    refine ⟨rfl, fun r hr => ?_⟩
    rw [List.map_map] at hr
    obtain ⟨j, -, rfl⟩ := List.mem_map.mp hr
    rfl

/-- **Two lists are treated alike** when the check has the same answer for both, and either no
thread gets a range or both ranges are the same. -/
theorem sameRanges_iff (hp : cp.Ranged) (hfiles : 0 < nfiles) :
    SameRanges (initThreads nfiles cp l) (initThreads nfiles cp l') ↔
      (cp.TooSmall (msz l) ↔ cp.TooSmall (msz l')) ∧
        (cp.TooSmall (msz l) ∨ cp.maxthreads.toInt ≤ 0 ∨ cp.room (msz l) = cp.room (msz l')) := by
  have hl := isSome_initThreads nfiles l hp
  have hl' := isSome_initThreads nfiles l' hp
  rw [SameRanges, Bool.eq_iff_iff, hl, hl', not_iff_not]
  apply and_congr_right
  intro hsame
  by_cases hsmall : cp.TooSmall (msz l)
  · -- a refused configuration has no files
    have hnone : initThreads nfiles cp l = none := by
      rw [← Option.not_isSome_iff_eq_none, hl]
      exact not_not.mpr hsmall
    refine ⟨fun _ => .inl hsmall, fun _ files hmem => ?_⟩
    rw [hnone] at hmem
    cases hmem
  · obtain ⟨files, hfs⟩ := Option.isSome_iff_exists.mp (hl.mpr hsmall)
    obtain ⟨files', hfs'⟩ := Option.isSome_iff_exists.mp (hl'.mpr (mt hsame.mpr hsmall))
    have hranges : (∀ fs ∈ initThreads nfiles cp l, ∀ fs' ∈ initThreads nfiles cp l',
        fs.map (fun f => f.ithreads.map IoThread.rangeoff) =
          fs'.map (fun f => f.ithreads.map IoThread.rangeoff)) ↔
        List.replicate nfiles (List.replicate cp.maxthreads.toInt.toNat (rangeoff cp l)) =
          List.replicate nfiles (List.replicate cp.maxthreads.toInt.toNat (rangeoff cp l')) := by
      rw [← ranges_initThreads hfs, ← ranges_initThreads hfs']
      constructor
      · exact fun h => h files hfs files' hfs'
      · intro h fs hmem fs' hmem'
        rw [Option.mem_unique hmem hfs, Option.mem_unique hmem' hfs']
        exact h
    have hthreads : cp.maxthreads.toInt.toNat = 0 ↔ cp.maxthreads.toInt ≤ 0 := by omega
    rw [hranges, List.replicate_inj, or_iff_right hfiles.ne', List.replicate_inj, hthreads,
      or_iff_right hsmall, ← toNat_rangeoff_eq hp, ← toNat_rangeoff_eq hp, UInt64.toNat_inj]
    exact ⟨fun h => h.2.2, fun h => ⟨rfl, rfl, h⟩⟩

end Init

/-! ## The largest size of a list -/

def largestSize (itlist : List Itype) : ℕ := (itlist.map fun ip => ip.size.toNat).foldr max 0

section Largest

variable {l xs ys : List Itype} {z : Itype}

theorem largestSize_append (xs ys : List Itype) :
    largestSize (xs ++ ys) = max (largestSize xs) (largestSize ys) := by
  induction xs with
  | nil => exact (Nat.zero_max _).symm
  | cons ip xs ih =>
    have hcons : ∀ l, largestSize (ip :: l) = max ip.size.toNat (largestSize l) := fun _ => rfl
    rw [List.cons_append, hcons, hcons, ih, max_assoc]

theorem largestSize_insert (xs ys : List Itype) (z : Itype) :
    largestSize (xs ++ z :: ys) = max z.size.toNat (largestSize (xs ++ ys)) := by
  have hcons : largestSize (z :: ys) = max z.size.toNat (largestSize ys) := rfl
  rw [largestSize_append, largestSize_append, hcons, max_left_comm]

theorem toNat_maxsize (l : List Itype) : (maxsize l).toUInt32.toNat = largestSize l := by
  induction l using List.reverseRecOn with
  | nil => rfl
  | append_singleton l ip ih =>
    have hone : largestSize [ip] = ip.size.toNat := Nat.max_zero _
    rw [toNat_maxsize_append, ih, largestSize_append, hone]

theorem largestSize_dvd (hop : ∀ ip ∈ l, 512 ∣ ip.size.toNat) : 512 ∣ largestSize l := by
  rw [← toNat_maxsize]
  rcases maxsize_mem l with hz | ⟨ip, hip, heq⟩
  · rw [hz]
    exact Nat.dvd_zero _
  · rw [heq]
    exact hop ip hip

theorem msz_of_small (h : largestSize l < 2 ^ 31) : msz l = largestSize l := by
  rw [msz, toNat_u64OfI32_eq, toNat_maxsize, if_pos h]

theorem msz_congr {l' : List Itype} (h : largestSize l = largestSize l') : msz l = msz l' := by
  rw [msz, msz, toNat_u64OfI32_eq, toNat_u64OfI32_eq, toNat_maxsize, toNat_maxsize, h]

end Largest

/-! ## The ranges -/

section Room

variable {p : CmdParams} {m t : ℕ}

/-- With a header, a larger `maxsize` leaves less, in the order of the wrapped numbers. -/
theorem room_ne (hp : p.Ranged) (hh : p.headersz ≠ 0) (hm : 512 ∣ m) (hmt : m < t)
    (ht : t < 2 ^ 31) : p.room m ≠ p.room t := by
  obtain ⟨hmin, hmax, hlt, hbound⟩ := hp.sectors
  rw [CmdParams.room, CmdParams.room, if_neg hh, if_neg hh, CmdParams.span]
  omega

/-- Without a header the check only asks that the size is no larger than the range. -/
theorem tooSmall_headerless (hh : p.headersz = 0) (hm : m < 2 ^ 64) :
    p.TooSmall m ↔ p.span < m := by
  have hz : p.headersz.toNat = 0 := by rw [hh]; rfl
  rw [CmdParams.TooSmall, CmdParams.room, if_pos hh, hz, Nat.add_zero, Nat.mod_eq_of_lt hm]

end Room

/-- When a SLEEP type of `t` microseconds beside READ and WRITE types of at most `m` bytes
changes nothing. -/
def CmdParams.SleepHarmless (p : CmdParams) (m t : ℕ) : Prop :=
  t ≤ m ∨
    if p.headersz = 0 then t ≤ p.span ∨ p.span < m
    else p.TooSmall m ∧ p.TooSmall t ∨
      p.maxthreads.toInt ≤ 0 ∧ (p.TooSmall m ↔ p.TooSmall t)

section Claim

variable {nfiles : ℕ} {cp : CmdParams} {xs ys : List Itype} {z : Itype}

theorem sameRanges_insert_iff (hp : cp.Ranged) (hfiles : 0 < nfiles)
    (hio : ∀ ip ∈ xs ++ ys, 512 ∣ ip.size.toNat) (hz : z.size.toNat < 2 ^ 31) :
    SameRanges (initThreads nfiles cp (xs ++ ys)) (initThreads nfiles cp (xs ++ z :: ys)) ↔
      cp.SleepHarmless (largestSize (xs ++ ys)) z.size.toNat := by
  have hins := largestSize_insert xs ys z
  rw [sameRanges_iff hp hfiles, CmdParams.SleepHarmless]
  rcases le_or_gt z.size.toNat (largestSize (xs ++ ys)) with hle | hlt
  · -- the maximum is what it was
    rw [max_eq_right hle] at hins
    rw [msz_congr hins]
    simp only [hle, iff_self, or_true, and_self, true_or]
  · rw [max_eq_left hlt.le] at hins
    rw [msz_of_small (hlt.trans hz), msz_of_small (hins ▸ hz), hins,
      or_iff_right (Nat.not_le.mpr hlt)]
    split
    · rename_i hh
      have hroom : cp.room (largestSize (xs ++ ys)) = cp.room z.size.toNat := by
        rw [CmdParams.room, CmdParams.room, if_pos hh, if_pos hh]
      rw [tooSmall_headerless hh (by omega), tooSmall_headerless hh (by omega), hroom]
      omega
    · rename_i hh
      have hroom := room_ne hp hh (largestSize_dvd hio) hlt hz
      rw [eq_false hroom, or_false]
      constructor
      · rintro ⟨hsame, hsmall | hnone⟩
        · exact .inl ⟨hsmall, hsame.mp hsmall⟩
        · exact .inr ⟨hnone, hsame⟩
      · rintro (⟨hm, ht⟩ | ⟨hnone, hsame⟩)
        · exact ⟨iff_of_true hm ht, .inl hm⟩
        · exact ⟨hsame, .inr hnone⟩

/-- **When a SLEEP type changes nothing**: when its number of microseconds is not above the
largest READ or WRITE size; or, above it, when there is no header and the check answers alike
for both numbers, or there is one and no thread gets a range either way. -/
theorem sleep_changes_nothing_iff {args : List CmdOpt} {c : Config} (hargs : getopt args = some c)
    (hlist : c.itlist = xs ++ z :: ys) (hfiles : 0 < nfiles)
    (hio : ∀ ip ∈ xs ++ ys, ip.optype ≠ .sleep) (hsleep : z.optype = .sleep) :
    SameRanges (initThreads nfiles c.cp (xs ++ ys)) (initThreads nfiles c.cp (xs ++ z :: ys)) ↔
      c.cp.SleepHarmless (largestSize (xs ++ ys)) z.size.toNat := by
  obtain ⟨hok, -⟩ := ok_of_getopt hargs
  have hio_mem : ∀ ip ∈ xs ++ ys, ip ∈ c.itlist := by
    intro ip hip
    rw [hlist]
    exact List.perm_middle.mem_iff.mpr (List.mem_cons_of_mem _ hip)
  have hz_mem : z ∈ c.itlist := hlist ▸ List.mem_append_right _ List.mem_cons_self
  refine sameRanges_insert_iff hok.ranged hfiles (fun ip hip => ?_) ?_
  · exact ((hok.itypes ip (hio_mem ip hip)).sector (hio ip hip)).2
  · exact ((hok.itypes z hz_mem).sleep hsleep).2

/-- The default SLEEP type, as `-i op=sleep` gives it. -/
def defsleep : Itype := { defitype with optype := .sleep, size := 5000 }

/-- Five milliseconds beside 8 KB reads change nothing. -/
theorem sleep_changes_nothing_small :
    SameRanges (initThreads 1 params ([{ defitype with size := 8192 }] ++ []))
      (initThreads 1 params ([{ defitype with size := 8192 }] ++ defsleep :: [])) := by
  have hargs : getopt [.i [.size (some 8192)], .i [.op .sleep]] = some
      { defconfig with itlist := [{ defitype with size := 8192 }, defsleep] } := rfl
  refine (sleep_changes_nothing_iff hargs rfl (by decide) (fun ip hip => ?_) rfl).mpr (.inl ?_)
  · obtain rfl := List.mem_singleton.mp hip
    decide
  · decide

/-- Beside the default 4 KB reads they take 1024 bytes off every range. -/
theorem sleep_changes_ranges : ¬ ∀ (args : List CmdOpt) (c : Config) (nfiles : ℕ)
    (xs ys : List Itype) (z : Itype), getopt args = some c → c.itlist = xs ++ z :: ys →
    0 < nfiles → (∀ ip ∈ xs ++ ys, ip.optype ≠ .sleep) → z.optype = .sleep →
    SameRanges (initThreads nfiles c.cp (xs ++ ys))
      (initThreads nfiles c.cp (xs ++ z :: ys)) := by
  intro h
  have hargs : getopt [.i [], .i [.op .sleep]] = some
      { defconfig with itlist := [defitype, defsleep] } := rfl
  have hsame := h _ _ 1 [defitype] [] defsleep hargs rfl (by decide) (fun ip hip => ?_) rfl
  · have hnot : ¬ params.SleepHarmless (largestSize ([defitype] ++ [])) defsleep.size.toNat := by
      unfold CmdParams.SleepHarmless
      decide
    refine hnot ((sameRanges_insert_iff params_ranged Nat.one_pos (fun ip hip => ?_)
      (by decide)).mp hsame)
    obtain rfl := List.mem_singleton.mp hip
    decide
  · obtain rfl := List.mem_singleton.mp hip
    decide

end Claim

end Ioload
end Blockbench
