import Blockbench.Lib.Grid
import Blockbench.Ioload.Aligned

/-!
# `Ioload/Grid.lean` — are the I/Os of a type on their own grid?

`do_io` takes the draw down to a multiple of the size before it adds the header, so that two
I/Os of a type are the same I/O or do not overlap. Then it takes the remainder by `rangeoff`,
which `ithreadinit` has computed in sectors from the largest size in the list. A turn of the
range takes off `rangeoff` bytes, so the grid is lost unless the size divides `rangeoff` (or the
range is so large that no draw comes round); and the 64-bit sum with the header may wrap, which
loses it unless the size is a power of two.

`GridOptions` is the condition, in terms of the options; `on_grid_iff` says that it is exact.
The arithmetic is `Lib/Grid.lean`'s.
-/

set_option autoImplicit false

namespace Blockbench
namespace Ioload

open CInt Machine

/-! ## The I/Os of a type -/

/-- Some call of `do_io` comes to issue an I/O of the type that starts at this file offset. One
of `2^31` bytes or more issues nothing. -/
def StartsAt (t : IoThread) (ip : Itype) (offset : UInt64) : Prop :=
  0 < ip.size.toInt32 ∧ ∃ ignErrors finish now start endTime s,
    (doIo ignErrors finish t now start endTime).Reachable always s ∧
      s.pc = .pieces ip offset (pieceLoop t.params.maxiosize ip offset).init

def IoThread.regionOffset (t : IoThread) (offset : UInt64) : ℕ := (offset - t.params.minoff).toNat

/-- The I/Os of a type start on a grid of its size, so two of them are one or do not overlap. -/
structure OnGrid (t : IoThread) (ip : Itype) : Prop where
  aligned : ∀ offset, StartsAt t ip offset →
    t.regionOffset offset ≡ t.params.headersz.toNat [MOD ip.size.toNat]
  apart : ∀ offset offset', StartsAt t ip offset → StartsAt t ip offset' →
    t.regionOffset offset = t.regionOffset offset' ∨
      t.regionOffset offset + ip.size.toNat ≤ t.regionOffset offset' ∨
      t.regionOffset offset' + ip.size.toNat ≤ t.regionOffset offset

/-- The I/Os of every READ and WRITE type of a thread. -/
def AllOnGrid (t : IoThread) : Prop :=
  ∀ ip ∈ t.itlist, ip.optype = .read ∨ ip.optype = .write → OnGrid t ip

def GridOptions (cp : CmdParams) (itlist : List Itype) : Prop :=
  cp.maxthreads.toInt ≤ 0 ∨ RangeEmpty cp itlist ∨
    ∀ ip, Selected itlist ip → ip.optype = .read ∨ ip.optype = .write →
      ip.size.toNat < 2 ^ 31 →
        Grid.Fits (2 ^ 64) (cp.room (msz itlist)) ip.size.toNat cp.headersz.toNat

section OneType

variable {t : IoThread} {ip : Itype} {offset : UInt64}

/-- **The I/Os of a type** start where a draw puts them, when a draw can select the type. -/
theorem startsAt_iff : StartsAt t ip offset ↔ 0 < ip.size.toInt32 ∧ Selected t.itlist ip ∧
    ∃ rand, ioOffset t ip rand = some offset := by
  constructor
  · rintro ⟨hsz, _, _, _, _, _, s, hreach, hpc⟩
    have hok := (draws_of_reachable hreach).pc
    rw [hpc] at hok
    exact ⟨hsz, hok.1, hok.2.1⟩
  · rintro ⟨hsz, hsel, rand, hoff⟩
    obtain ⟨s, hreach, hpc⟩ := reaches_pieces hsel hoff
    exact ⟨hsz, false, 1, 0, 0, 0, s, hreach, hpc⟩

/-- **An I/O starts at a place of the grid** taken through the 64 bits and the range. -/
theorem regionOffset_eq (hmul : t.params.multiplier = 1) (hs : ip.size.toNat ≠ 0)
    (hR : t.rangeoff.toNat ≠ 0) {rand : UInt64} (hoff : ioOffset t ip rand = some offset) :
    t.regionOffset offset = Grid.place (2 ^ 64) t.rangeoff.toNat ip.size.toNat
      t.params.headersz.toNat (rand.toNat / ip.size.toNat) := by
  have hval := toNat_of_ioOffset hmul hs hR hoff
  have hmin := UInt64.toNat_lt t.params.minoff
  have hrange := UInt64.toNat_lt t.rangeoff
  have hlt : Grid.place (2 ^ 64) t.rangeoff.toNat ip.size.toNat t.params.headersz.toNat
      (rand.toNat / ip.size.toNat) < t.rangeoff.toNat := Nat.mod_lt _ (Nat.pos_of_ne_zero hR)
  rw [IoThread.regionOffset, UInt64.toNat_sub, hval]
  unfold Grid.place at hlt ⊢
  omega

theorem aligned_iff_kept (hmul : t.params.multiplier = 1) (hsel : Selected t.itlist ip)
    (hs : 0 < ip.size.toNat) (hlt : ip.size.toNat < 2 ^ 31) (hR : t.rangeoff.toNat ≠ 0) :
    (∀ offset, StartsAt t ip offset →
        t.regionOffset offset ≡ t.params.headersz.toNat [MOD ip.size.toNat]) ↔
      Grid.Kept (2 ^ 64) t.rangeoff.toNat ip.size.toNat t.params.headersz.toNat := by
  constructor
  · intro h k hk
    obtain ⟨rand, hrand⟩ := exists_rand hs hk
    obtain ⟨offset, hoff, -⟩ := toNat_ioOffset hmul hs.ne' hR rand
    have hplace := h offset
      (startsAt_iff.mpr ⟨toInt32_pos_iff.mpr ⟨hs, hlt⟩, hsel, rand, hoff⟩)
    rwa [regionOffset_eq hmul hs.ne' hR hoff, Nat.eq_of_mul_eq_mul_right hs hrand] at hplace
  · intro hkept offset hstarts
    obtain ⟨-, -, rand, hoff⟩ := startsAt_iff.mp hstarts
    rw [regionOffset_eq hmul hs.ne' hR hoff]
    exact hkept _ (lt_of_le_of_lt (Nat.div_mul_le_self _ _) (UInt64.toNat_lt rand))

theorem apart_of_modEq {s h q q' : ℕ} (hq : q ≡ h [MOD s]) (hq' : q' ≡ h [MOD s]) :
    q = q' ∨ q + s ≤ q' ∨ q' + s ≤ q := by
  have hsame : q ≡ q' [MOD s] := hq.trans hq'.symm
  rcases lt_trichotomy q q' with hlt | heq | hgt
  · have hdvd := (Nat.modEq_iff_dvd' hlt.le).mp hsame
    have := Nat.le_of_dvd (by omega) hdvd
    omega
  · exact .inl heq
  · have hdvd := (Nat.modEq_iff_dvd' hgt.le).mp hsame.symm
    have := Nat.le_of_dvd (by omega) hdvd
    omega

theorem onGrid_iff (hmul : t.params.multiplier = 1) (hsel : Selected t.itlist ip)
    (hs : 0 < ip.size.toNat) (hlt : ip.size.toNat < 2 ^ 31) (hR : t.rangeoff.toNat ≠ 0) :
    OnGrid t ip ↔ Grid.Fits (2 ^ 64) t.rangeoff.toNat ip.size.toNat t.params.headersz.toNat := by
  rw [← Grid.kept_iff hs (by omega) (Nat.pos_of_ne_zero hR) (UInt64.toNat_lt _),
    ← aligned_iff_kept hmul hsel hs hlt hR]
  exact ⟨fun h => h.aligned,
    fun h => ⟨h, fun o o' ho ho' => apart_of_modEq (h o ho) (h o' ho')⟩⟩

/-- Without a range, for a size that is a negative `int`, or for a type no draw selects, no I/O
starts. -/
theorem onGrid_of_none (h : ∀ offset, ¬ StartsAt t ip offset) : OnGrid t ip :=
  ⟨fun offset ho => absurd ho (h offset), fun offset _ ho _ => absurd ho (h offset)⟩

end OneType

/-! ## Every thread -/

theorem allOnGrid_iff {t : IoThread} (hp : t.params.Ranged) (hok : ∀ ip ∈ t.itlist, ip.Ok)
    (hmul : t.params.multiplier = 1) (hrange : t.rangeoff = rangeoff t.params t.itlist) :
    AllOnGrid t ↔ RangeEmpty t.params t.itlist ∨
      ∀ ip, Selected t.itlist ip → ip.optype = .read ∨ ip.optype = .write →
        ip.size.toNat < 2 ^ 31 → Grid.Fits (2 ^ 64) (t.params.room (msz t.itlist))
          ip.size.toNat t.params.headersz.toNat := by
  have hroom : t.rangeoff.toNat = t.params.room (msz t.itlist) := by
    rw [hrange, toNat_rangeoff_eq hp]
  rw [← rangeoff_eq_zero_iff hp hok, ← hrange, ← hroom]
  have hsize : ∀ ip ∈ t.itlist, ip.optype = .read ∨ ip.optype = .write → 0 < ip.size.toNat := by
    intro ip hip hrw
    have := ((hok ip hip).sector (awake hrw)).1
    omega
  constructor
  · intro h
    by_cases hz : t.rangeoff = 0
    · exact .inl hz
    · right
      intro ip hsel hrw hlt
      have hR : t.rangeoff.toNat ≠ 0 := fun h0 => hz (eq_zero_iff.mpr h0)
      exact (onGrid_iff hmul hsel (hsize ip hsel.mem hrw) hlt hR).mp (h ip hsel.mem hrw)
  · intro h ip hip hrw
    by_cases hstarts : ∃ offset, StartsAt t ip offset
    · obtain ⟨offset, hstart⟩ := hstarts
      obtain ⟨hsz, hsel, rand, hoff⟩ := startsAt_iff.mp hstart
      obtain ⟨hs, hlt⟩ := toInt32_pos_iff.mp hsz
      have hR : t.rangeoff ≠ 0 := by
        intro hz
        rw [ioOffset, if_pos (.inr hz)] at hoff
        cases hoff
      exact (onGrid_iff hmul hsel hs hlt fun h0 => hR (eq_zero_iff.mpr h0)).mpr
        (h.resolve_left hR ip hsel hrw hlt)
    · exact onGrid_of_none fun offset hstart => hstarts ⟨offset, hstart⟩

/-- **When the I/Os of each type are on a grid of its size.** In an accepted configuration, and
for every thread: the starts of two I/Os of a READ or WRITE type that some draw selects are a
multiple of its size apart, so that the two are one or do not overlap, exactly when `GridOptions`.

An I/O starts at a place of a grid that has been taken through a 64-bit sum and a remainder by the
range. When the grid comes through both is a question about three numbers, and `Grid.kept_iff` has
the answer; here the three are read off the options. -/
theorem on_grid_iff {args : List CmdOpt} {c : Config} {nfiles : ℕ} {files : List File}
    (hargs : getopt args = some c) (hfiles : 0 < nfiles)
    (hinit : initThreads nfiles c.cp c.itlist = some files) (hmul : c.cp.multiplier = 1) :
    (∀ f ∈ files, ∀ t ∈ f.ithreads, AllOnGrid t) ↔ GridOptions c.cp c.itlist := by
  obtain ⟨hok, -⟩ := ok_of_getopt hargs
  apply all_threads_iff hinit hfiles
  intro t hcp hlist hrange
  rw [← hcp, ← hlist] at hrange
  rw [allOnGrid_iff (hcp ▸ hok.ranged) (hlist ▸ hok.itypes) (hcp ▸ hmul) hrange, hcp, hlist]

/-- The default configuration: a power of two that divides the range. -/
theorem on_grid_default : ∃ c files, getopt [] = some c ∧
    initThreads 1 c.cp c.itlist = some files ∧ ∀ f ∈ files, ∀ t ∈ f.ithreads, AllOnGrid t := by
  have hargs : getopt [] = some ⟨params, [defitype], false, false, false, false⟩ := rfl
  refine ⟨_, _, hargs, rfl, (on_grid_iff hargs Nat.one_pos rfl rfl).mpr
    (.inr (.inr fun ip hsel _ _ => ?_))⟩
  obtain rfl := List.mem_singleton.mp hsel.mem
  rw [Grid.Fits, if_pos (by decide)]
  exact ⟨.inl (by decide), .inl (by decide)⟩

def sixKb : Itype := { defitype with size := 6144 }

/-- `-i size=6144`: the range is no multiple of the size, and a draw that comes round it starts
off the grid. -/
theorem off_grid : ¬ ∀ (args : List CmdOpt) (c : Config) (nfiles : ℕ)
    (files : List File), getopt args = some c → 0 < nfiles →
    initThreads nfiles c.cp c.itlist = some files → c.cp.multiplier = 1 →
    ∀ f ∈ files, ∀ t ∈ f.ithreads, AllOnGrid t := by
  intro h
  have hargs : getopt [.i [.size (some 6144)]]
      = some ⟨params, [sixKb], false, false, false, false⟩ := rfl
  obtain ⟨hok, -⟩ := ok_of_getopt hargs
  have hgrid : AllOnGrid (ithreadinit 0 params [sixKb] 6144) :=
    h _ _ 1 _ hargs Nat.one_pos rfl rfl _ List.mem_cons_self _ List.mem_cons_self
  rcases (allOnGrid_iff hok.ranged hok.itypes rfl rfl).mp hgrid with hempty | hfits
  · exact absurd hempty.2.2 (by decide)
  · have hsel : Selected [sixKb] sixKb := ⟨_, _, rfl, 0, rfl⟩
    have hsix := hfits sixKb hsel (.inl rfl) (by decide)
    rw [Grid.Fits, if_pos (by decide)] at hsix
    rcases hsix.1 with hdvd | hlast
    · exact absurd hdvd (by decide)
    · exact absurd hlast (by decide)

end Ioload
end Blockbench
