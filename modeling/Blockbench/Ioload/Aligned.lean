import Blockbench.Ioload.Inside

/-!
# `Ioload/Aligned.lean` — which pieces are whole sectors

The parser checks the size of a READ or WRITE type and nothing else. The offset of an I/O needs
no check: sizes and header are whole sectors, `rangeoff` is a number of sectors whatever it was
computed from — a sleep time in microseconds that is the largest size included — and 512
survives every wrap (`dvd_ioOffset`). What a piece adds to it is another matter. `maxiosize` is
taken as it is given, so an I/O that is split is split at any byte.

`AlignedOptions` is the condition: each type that can be selected and issues anything is either
not split or split at whole sectors. `pieces_aligned_iff` says that it is exact, over every call
of `do_io` in every thread.
-/

set_option autoImplicit false

namespace Blockbench
namespace Ioload

open CInt Machine

/-! ## Where an I/O starts -/

theorem dvd_rangeoff (cp : CmdParams) (itlist : List Itype) :
    512 ∣ (rangeoff cp itlist).toNat :=
  dvd_toNat_mul_right (by norm_num) _ (by decide)

/-- **The offset of an I/O is a whole number of sectors**, for every draw and multiplier. -/
theorem dvd_ioOffset {t : IoThread} {ip : Itype} {rand offset : UInt64}
    (hheader : 512 ∣ t.params.headersz.toNat) (hmin : 512 ∣ t.params.minoff.toNat)
    (hrange : 512 ∣ t.rangeoff.toNat) (hsize : 512 ∣ ip.size.toNat)
    (h : ioOffset t ip rand = some offset) : 512 ∣ offset.toNat := by
  have hsec : 512 ∣ 2 ^ 32 := by norm_num
  unfold ioOffset at h
  split at h
  · cases h
  · cases h
    -- the draw is rounded down to a multiple of the size
    have hle : (rand % ip.size.toUInt64).toNat ≤ rand.toNat := by
      rw [UInt64.toNat_mod]
      exact Nat.mod_le _ _
    have hdown : 512 ∣ (rand - rand % ip.size.toUInt64).toNat := by
      rw [toNat_sub_of_le hle, UInt64.toNat_mod, UInt32.toNat_toUInt64]
      exact hsize.trans (Nat.dvd_sub_mod rand.toNat)
    have hrest := dvd_toNat_mod (dvd_toNat_add hsec hdown hheader) hrange
    exact dvd_toNat_add hsec (dvd_toNat_mul_left hsec hrest _) hmin

/-! ## The pieces of it -/

section Pieces

variable {m : Int32} {ip : Itype} {offset : UInt64} {l : PieceLoop}

def SplitAtSectors (maxiosize : Int32) (ip : Itype) : Prop :=
  ip.size.toNat ≤ maxiosize.toUInt32.toNat ∨ 512 ∣ maxiosize.toUInt32.toNat

theorem dvd_detailSize (hsize : 512 ∣ ip.size.toNat) (hsplit : SplitAtSectors m ip) {d : ℕ}
    (hd : 512 ∣ d) (hafter : After offset ip.size.toNat d l) (hpos : 0 < l.sz.toInt) :
    512 ∣ (detailSize m l.sz).toNat := by
  have hrest := hafter.rest
  have hle := hafter.le
  rw [toNat_detailSize m hpos]
  rcases hsplit with hwhole | hdvd
  · rw [min_eq_right (by omega)]
    omega
  · rcases le_total m.toUInt32.toNat l.sz.toInt.toNat with h | h
    · rw [min_eq_left h]
      exact hdvd
    · rw [min_eq_right h]
      omega

theorem after_sectors (hop : ip.optype ≠ .sleep) (hsize : 512 ∣ ip.size.toNat)
    (hlt : ip.size.toNat < 2 ^ 31) (hsplit : SplitAtSectors m ip)
    (h : (pieceLoop m ip offset).Reachable always l) :
    ∃ d, 512 ∣ d ∧ After offset ip.size.toNat d l := by
  refine h.invariant (I := fun l => ∃ d, 512 ∣ d ∧ After offset ip.size.toNat d l) ?_ ?_
  · refine ⟨0, Nat.dvd_zero _, Nat.zero_le _, ?_, ?_⟩
    · exact (Nat.mod_eq_of_lt (UInt64.toNat_lt offset)).symm
    · show ip.size.toInt32.toInt = _
      rw [toInt_toInt32_eq, if_pos hlt]
      exact (sub_zero _).symm
  · rintro l _ l' ⟨d, hd, hafter⟩ - hst
    obtain ⟨hpos, -, -⟩ := (pieceStep_spec hop).mp hst
    exact ⟨_, Nat.dvd_add hd (dvd_detailSize hsize hsplit hd hafter hpos), hafter.step hop hst⟩

/-- **A piece of such a type is a whole number of sectors**, at a sector of the file. -/
theorem piece_aligned (hop : ip.optype ≠ .sleep) (hsize : 512 ∣ ip.size.toNat)
    (hlt : ip.size.toNat < 2 ^ 31) (hsplit : SplitAtSectors m ip)
    (hoff : 512 ∣ offset.toNat) (h : (pieceLoop m ip offset).Reachable always l)
    (hsz : 0 < l.sz) : 512 ∣ (l.extent m).off ∧ 512 ∣ (l.extent m).len := by
  obtain ⟨d, hd, hafter⟩ := after_sectors hop hsize hlt hsplit h
  constructor
  · show 512 ∣ l.baseoff.toNat
    rw [hafter.base, Nat.dvd_mod_iff (by norm_num)]
    exact Nat.dvd_add hoff hd
  · exact dvd_detailSize hsize hsplit hd hafter (Int32.lt_iff_toInt_lt.mp hsz)

end Pieces

/-! ## The range can be empty -/

/-- The largest size takes the whole range away. `init_threads` can accept this: a header near
`2^64` makes the sum it compares with wrap to zero. -/
def RangeEmpty (cp : CmdParams) (itlist : List Itype) : Prop :=
  cp.headersz ≠ 0 ∧ msz itlist ≤ cp.span ∧ cp.span < msz itlist + 512

theorem rangeoff_eq_zero_iff {cp : CmdParams} {itlist : List Itype} (hp : cp.Ranged)
    (hok : ∀ ip ∈ itlist, ip.Ok) :
    rangeoff cp itlist = 0 ↔ RangeEmpty cp itlist := by
  have hspan : cp.span = cp.maxoff.toNat - cp.minoff.toNat := rfl
  have hlt := hp.lt
  unfold RangeEmpty
  rw [eq_zero_iff]
  by_cases hz : cp.headersz = 0
  · have hwhole := rangeoff_whole (l := itlist) hp hz
    exact iff_of_false (by omega) fun h => h.1 hz
  · by_cases hle : msz itlist ≤ cp.span
    · obtain ⟨hmin, hmax, -, hbound⟩ := hp.sectors
      rw [toNat_rangeoff, if_pos hz]
      constructor
      · intro h
        refine ⟨hz, hle, ?_⟩
        omega
      · rintro ⟨-, -, h⟩
        omega
    · have hwrap := rangeoff_wrapped hp hz (Nat.lt_of_not_le hle) (msz_le hok)
      exact iff_of_false (by omega) fun h => hle h.2.1

/-! ## Over every call of `do_io` -/

/-- Each READ or WRITE request of every call is aligned. -/
def Aligned (t : IoThread) : Prop :=
  ∀ ignErrors finish now start endTime s,
    (doIo ignErrors finish t now start endTime).Reachable always s → ∀ r ∈ s.issued,
      r.type = .read ∨ r.type = .write → 512 ∣ r.offset.toNat ∧ 512 ∣ r.size.toNat

/-- The condition on the options. A READ or WRITE type of `2^31` bytes or more issues nothing. -/
def AlignedOptions (cp : CmdParams) (itlist : List Itype) : Prop :=
  cp.maxthreads.toInt ≤ 0 ∨ RangeEmpty cp itlist ∨
    ∀ ip, Selected itlist ip → ip.optype = .read ∨ ip.optype = .write →
      ip.size.toNat < 2 ^ 31 → SplitAtSectors cp.maxiosize ip

section Thread

variable {t : IoThread}

theorem awake {o : OpType} (h : o = .read ∨ o = .write) : o ≠ .sleep := by
  rcases h with rfl | rfl <;> exact nofun

theorem aligned_of_split (hp : t.params.Ranged) (hok : ∀ ip ∈ t.itlist, ip.Ok)
    (hheader : 512 ∣ t.params.headersz.toNat) (hrange : t.rangeoff = rangeoff t.params t.itlist)
    (h : ∀ ip, Selected t.itlist ip → ip.optype = .read ∨ ip.optype = .write →
      ip.size.toNat < 2 ^ 31 → SplitAtSectors t.params.maxiosize ip) : Aligned t := by
  intro ignErrors finish now start endTime s hreach r hr hrw
  obtain ⟨ip, hsel, htype, rand, hpiece⟩ := doIo_issued_selected hreach r hr
  have hop := awake (htype ▸ hrw)
  by_cases hlt : ip.size.toNat < 2 ^ 31
  · obtain ⟨offset, l, hoff, hloop, hsz, hext⟩ := hpiece
    have hsize := ((hok ip hsel.mem).sector hop).2
    have hmin : 512 ∣ t.params.minoff.toNat := Dvd.dvd.trans (by norm_num) hp.minoff_dvd
    have hdvd := dvd_ioOffset hheader hmin (hrange ▸ dvd_rangeoff _ _) hsize hoff
    have := piece_aligned hop hsize hlt (h ip hsel (htype ▸ hrw) hlt) hdvd hloop hsz
    rwa [← hext] at this
  · exact absurd hpiece (no_piece_of_large hop (Nat.le_of_not_lt hlt) rand _)

theorem aligned_of_empty (h : t.rangeoff = 0) : Aligned t := by
  intro ignErrors finish now start endTime s hreach r hr _
  obtain ⟨ip, -, -, rand, offset, l, hoff, -⟩ := doIo_issued_selected hreach r hr
  rw [ioOffset, if_pos (.inr h)] at hoff
  cases hoff

/-- **A type that can be selected issues its first piece in some call.** -/
theorem issues_first {ip : Itype} (hsel : Selected t.itlist ip) (hsize : ip.size ≠ 0)
    (hrange : t.rangeoff ≠ 0) (hsz : 0 < ip.size.toInt32) (hop : ip.optype ≠ .sleep) :
    ∃ s, (doIo false 1 t 0 0 0).Reachable always s ∧ ∃ r ∈ s.issued, r.type = ip.optype ∧
      r.size = detailSize t.params.maxiosize ip.size.toInt32 := by
  obtain ⟨offset, hoff⟩ := exists_ioOffset hsize hrange 0
  obtain ⟨s, hreach, hpc⟩ := reaches_pieces hsel hoff
  obtain ⟨l', hl'⟩ : ∃ l', pieceStep t.params.maxiosize ip.optype 0
      (pieceLoop t.params.maxiosize ip offset).init = some l' :=
    ⟨⟨_, _⟩, (pieceStep_spec hop).mpr ⟨Int32.lt_iff_toInt_lt.mp hsz, rfl, rfl⟩⟩
  have hio : (doIo false 1 t 0 0 0).step (.io 0 ⟨0, 0, false, 0, 0⟩) s = some { s with
      pc := .pieces ip offset l'
      ionum := s.ionum + 1
      issued := request t ip s.ionum (pieceLoop t.params.maxiosize ip offset).init :: s.issued
      start := 0
      endTime := 0 } := by
    simp only [doIo, doIoStep, hpc, hl', Bool.false_eq_true, false_and, if_false]
    exact if_pos hsz
  exact ⟨_, hreach.run (Run.single trivial hio), _, List.mem_cons_self, rfl, rfl⟩

theorem aligned_iff (hp : t.params.Ranged) (hok : ∀ ip ∈ t.itlist, ip.Ok)
    (hheader : 512 ∣ t.params.headersz.toNat)
    (hrange : t.rangeoff = rangeoff t.params t.itlist) :
    Aligned t ↔ RangeEmpty t.params t.itlist ∨
      ∀ ip, Selected t.itlist ip → ip.optype = .read ∨ ip.optype = .write →
        ip.size.toNat < 2 ^ 31 → SplitAtSectors t.params.maxiosize ip := by
  rw [← rangeoff_eq_zero_iff hp hok, ← hrange]
  constructor
  · intro h
    by_cases hz : t.rangeoff = 0
    · exact .inl hz
    · right
      intro ip hsel hrw hlt
      have hop := awake hrw
      obtain ⟨hge, hdvd⟩ := (hok ip hsel.mem).sector hop
      have hne : ip.size ≠ 0 := fun h0 => by
        rw [h0] at hge
        exact absurd hge (by decide)
      have hint : ip.size.toInt32.toInt = ip.size.toNat := by
        rw [toInt_toInt32_eq, if_pos hlt]
      have hsz : 0 < ip.size.toInt32 := toInt32_pos_iff.mpr ⟨by omega, hlt⟩
      obtain ⟨s, hreach, r, hr, htype, hsize⟩ := issues_first hsel hne hz hsz hop
      have hlen := (h _ _ _ _ _ s hreach r hr (htype ▸ hrw)).2
      rw [hsize, toNat_detailSize _ (Int32.lt_iff_toInt_lt.mp hsz), hint] at hlen
      -- the first piece is the whole I/O or `maxiosize` bytes
      rcases le_total ip.size.toNat t.params.maxiosize.toUInt32.toNat with hle | hle
      · exact .inl hle
      · right
        rwa [Int.toNat_natCast, min_eq_left hle] at hlen
  · rintro (hz | hsplit)
    · exact aligned_of_empty hz
    · exact aligned_of_split hp hok hheader hrange hsplit

end Thread

/-- **When every piece of `ioload` is sector aligned.** In an accepted configuration each READ or
WRITE request of every call is a whole number of sectors at a sector exactly when the options are
such that nothing is split in the middle of one.

Only types that some draw selects count (`Selected`), and the draws are those of the program: a
type whose share is lost when the subtractions in front of it are rounded issues nothing. For the
other direction the first piece of a type that is split badly has to be issued in some call, and
that call is built from a draw that selects it (`issues_first`). -/
theorem pieces_aligned_iff {args : List CmdOpt} {c : Config} {nfiles : ℕ} {files : List File}
    (hargs : getopt args = some c) (hfiles : 0 < nfiles)
    (hinit : initThreads nfiles c.cp c.itlist = some files) :
    (∀ f ∈ files, ∀ t ∈ f.ithreads, Aligned t) ↔ AlignedOptions c.cp c.itlist := by
  obtain ⟨hok, -⟩ := ok_of_getopt hargs
  have hheader := headersz_dvd_of_getopt hargs
  apply all_threads_iff hinit hfiles
  intro t hcp hlist hrange
  rw [← hcp, ← hlist] at hrange
  rw [aligned_iff (hcp ▸ hok.ranged) (hlist ▸ hok.itypes) (hcp ▸ hheader) hrange, hcp, hlist]

/-- The default configuration: one type of 4 KB, never split. -/
theorem pieces_aligned_default : ∃ c files, getopt [] = some c ∧
    initThreads 1 c.cp c.itlist = some files ∧ ∀ f ∈ files, ∀ t ∈ f.ithreads, Aligned t := by
  have hargs : getopt [] = some ⟨params, [defitype], false, false, false, false⟩ := rfl
  refine ⟨_, _, hargs, rfl, (pieces_aligned_iff hargs Nat.one_pos rfl).mpr
    (.inr (.inr fun ip hsel _ _ => .inl ?_))⟩
  obtain rfl := List.mem_singleton.mp hsel.mem
  decide

/-- `-m maxiosize=1000`: the first read of 4 KB is split at byte 1000. -/
theorem piece_misaligned : ¬ ∀ (args : List CmdOpt) (c : Config) (nfiles : ℕ)
    (files : List File), getopt args = some c → 0 < nfiles →
    initThreads nfiles c.cp c.itlist = some files → ∀ f ∈ files, ∀ t ∈ f.ithreads, Aligned t := by
  intro h
  have hall := h [.m [.maxiosize (some 1000)]] _ 1 _ rfl Nat.one_pos rfl
  have haligned : Aligned (ithreadinit 0 { params with maxiosize := 1000 } [defitype] 1000) :=
    hall _ List.mem_cons_self _ List.mem_cons_self
  have hsel : Selected [defitype] defitype := ⟨_, _, rfl, 0, rfl⟩
  obtain ⟨s, hreach, r, hr, htype, hsize⟩ :=
    issues_first (t := ithreadinit 0 { params with maxiosize := 1000 } [defitype] 1000)
      hsel (by decide) (by decide) (by decide) (by decide)
  have hlen := (haligned _ _ _ _ _ s hreach r hr (.inl htype)).2
  rw [hsize] at hlen
  exact absurd hlen (by decide)

end Ioload
end Blockbench
