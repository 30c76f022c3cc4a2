import Blockbench.Iofill.Inside

/-!
# `Iofill/Aligned.lean` — every request is a whole number of sectors

The parsers check only `size`. `minoff`, `seek` and `header` are read in kilobytes, which is
what makes them multiples of the sector, and a product that wraps still is one: 512 divides
`2 ^ 64`. From there on every operation `io_thread` computes an offset or a length with keeps
the divisibility, wrap or no wrap — the header's reduction modulo `size`, the remainder by
`rangeoff`, `multiplier` with its sign extended, the subtraction that cuts a block, and the
store of its result in 32 bits.

So nothing has to be assumed about the region: `sector_aligned` holds of every accepted command
line, `minoff` above `maxoff` included.
-/

set_option autoImplicit false

namespace Blockbench
namespace Iofill

open CInt TicketPool

/-! ## What the parsers guarantee -/

/-- The offsets given in kilobytes are whole sectors. -/
structure CmdParams.Sectored (p : CmdParams) : Prop where
  minoff : 512 ∣ p.minoff.toNat
  seekoff : 512 ∣ p.seekoff.toNat
  headersz : 512 ∣ p.headersz.toNat

theorem sector_dvd : 512 ∣ 2 ^ 32 := by norm_num

/-- A value in kilobytes is a whole number of sectors, also when the product wraps. -/
theorem dvd_kb (v : UInt64) : 512 ∣ (v * 1024).toNat :=
  dvd_toNat_mul_right sector_dvd v (by decide)

theorem defparams_sectored : defparams.Sectored := by
  constructor <;> decide

theorem getmodopt_sectored {p q : CmdParams} {o : ModOpt} (hp : p.Sectored)
    (h : getmodopt p o = some q) : q.Sectored := by
  cases o with
  | unknown => cases h
  | seek value | minoff value | header value | threads value | seed value | maxrun value
  | dtype value | maxoff value | multiplier value | dedupblks value =>
    simp only [getmodopt, Option.bind_eq_bind, Option.bind_eq_some_iff, Option.pure_def,
      Option.some.injEq] at h
    obtain ⟨v, -, rfl⟩ := h
    first
      | exact ⟨hp.minoff, hp.seekoff, hp.headersz⟩
      | exact ⟨hp.minoff, dvd_kb v, hp.headersz⟩
      | exact ⟨dvd_kb v, hp.seekoff, hp.headersz⟩
      | exact ⟨hp.minoff, hp.seekoff, dvd_kb v⟩

theorem gettestopt_sectored {p q : CmdParams} {o : TestOpt} (hp : p.Sectored)
    (h : gettestopt p o = some q) : q.Sectored := by
  cases o with
  | size value =>
    simp only [gettestopt, Option.bind_eq_bind, Option.bind_eq_some_iff] at h
    obtain ⟨v, -, h⟩ := h
    split at h
    · cases h
    · cases h
      exact ⟨hp.minoff, hp.seekoff, hp.headersz⟩
  | unknown => cases h
  | count value | nrep value | skip value =>
    simp only [gettestopt, Option.bind_eq_bind, Option.bind_eq_some_iff, Option.pure_def,
      Option.some.injEq] at h
    obtain ⟨v, -, rfl⟩ := h
    exact ⟨hp.minoff, hp.seekoff, hp.headersz⟩

theorem getdetopt_sectored {p q : CmdParams} {o : DetOpt} (hp : p.Sectored)
    (h : getdetopt p o = some q) : q.Sectored := by
  cases o with
  | unknown => cases h
  | count value | time value =>
    simp only [getdetopt, Option.bind_eq_bind, Option.bind_eq_some_iff, Option.pure_def,
      Option.some.injEq] at h
    obtain ⟨v, -, rfl⟩ := h
    exact ⟨hp.minoff, hp.seekoff, hp.headersz⟩

theorem sectored_of_getopt {args : List CmdOpt} {c : Config} (h : getopt args = some c) :
    c.cp.Sectored :=
  foldlM_keeps (P := fun c => c.cp.Sectored)
    (fun _ _ _ => mainOpt_keeps (fun _ _ _ => getmodopt_sectored)
      (fun _ _ _ => gettestopt_sectored) fun _ _ _ => getdetopt_sectored)
    args defparams_sectored h

/-! ## The request computed from them -/

section Request

variable {p : CmdParams}

theorem CmdParams.Ok.blk_dvd (hp : p.Ok) : 512 ∣ p.blk := by
  have := hp.size_ge
  have := hp.size_mod
  unfold CmdParams.blk
  omega

theorem CmdParams.Ok.size_dvd (hp : p.Ok) : 512 ∣ (u64OfI32 p.size).toNat := by
  rw [hp.toNat_size]
  exact hp.blk_dvd

/-- The range is a number of blocks, whatever the subtraction of their numbers gave. -/
theorem CmdParams.Ok.rangeoff_dvd (hp : p.Ok) : 512 ∣ (blockRange p).2.2.toNat :=
  dvd_toNat_mul_right sector_dvd _ hp.size_dvd

theorem dvd_place (hs : p.Sectored) {rangeoff offset : UInt64} (hr : 512 ∣ rangeoff.toNat)
    (ho : 512 ∣ offset.toNat) : 512 ∣ (place p rangeoff offset).toNat := by
  have hrest : 512 ∣ (offset % rangeoff).toNat := dvd_toNat_mod ho hr
  exact dvd_toNat_add sector_dvd hs.minoff (dvd_toNat_mul_left sector_dvd hrest _)

theorem dvd_headerOffset (hs : p.Sectored) {rangeoff : UInt64} (hr : 512 ∣ rangeoff.toNat) :
    512 ∣ (headerOffset p rangeoff).toNat :=
  dvd_place hs hr hs.seekoff

theorem dvd_blockOffset (hp : p.Ok) (hs : p.Sectored) {rangeoff : UInt64}
    (hr : 512 ∣ rangeoff.toNat) (bno : UInt64) :
    512 ∣ (blockOffset p rangeoff bno).toNat := by
  refine dvd_place hs hr (dvd_toNat_add sector_dvd ?_ ?_)
  · exact dvd_toNat_add sector_dvd hs.seekoff hs.headersz
  · have hstep := dvd_toNat_mul_left sector_dvd hp.size_dvd (u64OfI32 (1 + p.skip))
    exact dvd_toNat_mul_left sector_dvd hstep bno

theorem dvd_blockSize (hp : p.Ok) (hs : p.Sectored) {rangeoff offset : UInt64}
    (hr : 512 ∣ rangeoff.toNat) (ho : 512 ∣ offset.toNat) :
    512 ∣ (blockSize p rangeoff offset p.size).toNat := by
  unfold blockSize
  dsimp only
  split
  · -- the cut: the distance to the region's end, kept in 32 bits
    have hend : 512 ∣ (p.minoff + rangeoff * u64OfI32 p.multiplier).toNat :=
      dvd_toNat_add sector_dvd hs.minoff (dvd_toNat_mul_left sector_dvd hr _)
    exact dvd_toNat_toUInt32 sector_dvd (dvd_toNat_sub sector_dvd hend ho)
  · rw [hp.toNat_size32]
    exact hp.blk_dvd

/-- `ithreadinit` leaves what it copies aligned: the header is reduced modulo the size. -/
theorem threadParams_sectored (hp : p.Ok) (hs : p.Sectored) (threadid : ℕ) :
    (threadParams p threadid).Sectored := by
  rw [hp.threadParams_eq threadid]
  refine ⟨hs.minoff, hs.seekoff, ?_⟩
  dsimp only
  split
  · exact dvd_toNat_mod hs.headersz hp.size_dvd
  · exact hs.headersz

/-- In thread 0 the copy differs from the file's parameters in the header alone. -/
theorem CmdParams.Ok.thread_zero (hp : p.Ok) : (threadParams p 0).Ok := by
  rw [hp.threadParams_eq 0]
  exact { hp with injectintervalIo := hp.injectintervalIo }

end Request

/-! ## Over every run -/

variable {cp : CmdParams} {endtime : UInt64} {T : ℕ} {s : FillState T}

theorem dvd_ticketWork (hp : cp.Ok) (hs : cp.Sectored) {k : ℕ} {e : Extent}
    (he : e ∈ ticketWork cp k) : 512 ∣ e.off ∧ 512 ∣ e.len := by
  have hok := hp.thread_zero
  have hsec := threadParams_sectored hp hs 0
  have hr := hok.rangeoff_dvd
  have hsize : (threadParams cp 0).size = cp.size := by rw [hp.threadParams_eq 0]
  rcases mem_blockWork.mp he with rfl | ⟨rfl, -, -⟩
  · have hoff := dvd_blockOffset hok hsec hr (UInt64.ofNat k % cp.nio)
    have hlen := dvd_blockSize hok hsec hr hoff
    rw [hsize] at hlen
    exact ⟨hoff, hlen⟩
  · exact ⟨dvd_headerOffset hsec hr, dvd_toNat_toUInt32 sector_dvd hsec.headersz⟩

/-- **Every request of `iofill` is sector aligned**: its offset and its length are multiples of
512 in every run of every accepted command line, whatever wraps on the way.

Nothing is asked of the region, the multiplier or the number of threads. All that the parsers
check is `size`; the offsets are sectors because they are given in kilobytes
(`CmdParams.Sectored`), and no operation on them loses a factor of 512 that its operands have, a
wrap in 64 bits or a cut to 32 included. -/
theorem sector_aligned {args : List CmdOpt} {c : Config} (h : getopt args = some c)
    (hr : (fill c.cp endtime T).Reachable Machine.always s) :
    ∀ d ∈ s.issued, 512 ∣ d.2.offset.toNat ∧ 512 ∣ d.2.size.toNat := by
  intro d hd
  have hok := ok_of_getopt h
  obtain ⟨k, -, he⟩ := (placed_of_reachable hok hr).issued d hd
  exact dvd_ticketWork hok (sectored_of_getopt h) he

/-- A multiplier of `2 ^ 32 - 1`, which the sign extension makes -1, and a region that starts
above its end. -/
theorem sector_aligned_wraps : ∃ c s, getopt [.m [.minoff (some 8192), .maxoff (some 1),
      .multiplier (some 4294967295)]] = some c ∧
    (fill c.cp 5 1).Reachable Machine.always s ∧ s.issued ≠ [] ∧
    ∀ d ∈ s.issued, 512 ∣ d.2.offset.toNat ∧ 512 ∣ d.2.size.toNat := by
  have hargs : getopt [.m [.minoff (some 8192), .maxoff (some 1),
      .multiplier (some 4294967295)]] = some ⟨{ defparams with
        minoff := 8388608, maxoff := 1024, multiplier := -1 }, (4096 : UInt64) <<< 20⟩ := rfl
  obtain ⟨s, hr, d, hd, -⟩ := issued_of_ticket (T := 1) 5 (ok_of_getopt hargs) Nat.one_pos
    (k := 0) (by decide) (mem_blockWork.mpr (.inl rfl))
  exact ⟨_, s, hargs, hr, List.ne_nil_of_mem hd, sector_aligned hargs hr⟩

end Iofill
end Blockbench
