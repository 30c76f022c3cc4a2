import Blockbench.Iob.Iodata
import Blockbench.Iob.Rand64

/-!
# `Iob/HcData.lean` — the pool of highly compressible data

`iob_initdata` fills each sector of `hcdata` with one byte, and the byte goes up by one from a
sector to the next. So it comes round after 256 sectors, which are 32 pages: of the
`IOB_NDATAPAGES` pages of the pool only 32 are different, and with `dedupblks` numbers for the
tag there are `32 * dedupblks` pages that `iob_iodata` can write for this type, and all of them
can be drawn. The manual promises a thousand for each number (`hc_dedup_set`).

The other pools are parameters: nothing of them is read for this type.
-/

set_option autoImplicit false

namespace Blockbench

open CInt Finset Bytes Machine

/-- The loop over the sectors, for `hcdata`: the pool and `pbyte` after `n` turns. -/
def hcSectors : ℕ → Mem × UInt8
  | 0 => (fun _ => 0, 0x5E)
  | n + 1 =>
    let (hcdata, pbyte) := hcSectors n
    (fill hcdata (iobSector * n) iobSector pbyte, pbyte + 1)

/-- `hcdata`, as `iob_initdata` leaves it. -/
def initHcdata : Mem := (hcSectors (iobNdatapages * iobPage / iobSector)).1

def Pools.withHcdata (pools : Pools) : Pools := { pools with hcdata := initHcdata }

section Pool

variable {pools : Pools} {n j y i : ℕ} {w : UInt64}

theorem hcSectors_pbyte (n : ℕ) : (hcSectors n).2 = 0x5E + UInt8.ofNat n := by
  induction n with
  | zero => rfl
  | succ n ih =>
    show (hcSectors n).2 + 1 = _
    rw [ih, UInt8.add_assoc, UInt8.ofNat_add]
    rfl

theorem hcSectors_inside (hj : j < n) (hy : y < iobSector) :
    (hcSectors n).1 (iobSector * j + y) = 0x5E + UInt8.ofNat j := by
  induction n with
  | zero => omega
  | succ n ih =>
    show fill (hcSectors n).1 (iobSector * n) iobSector (hcSectors n).2 _ = _
    unfold iobSector at *
    by_cases hlast : j = n
    · subst hlast
      rw [fill, copy_inside hy]
      exact hcSectors_pbyte j
    · rw [fill, copy_outside (by omega)]
      exact ih (by omega)

theorem initHcdata_eq (hi : i < iobNdatapages) (hy : y < iobPage) :
    initHcdata (i * iobPage + y) = 0x5E + UInt8.ofNat (8 * i + y / iobSector) := by
  have hmod : y % iobSector < iobSector := Nat.mod_lt _ (by decide)
  have hsplit : i * iobPage + y = iobSector * (8 * i + y / iobSector) + y % iobSector := by
    unfold iobPage iobSector
    omega
  rw [initHcdata, hsplit]
  refine hcSectors_inside ?_ hmod
  unfold iobNdatapages iobPage iobSector at *
  omega

theorem dbuf_hcdata (hcdata : Mem) :
    { pools with hcdata := hcdata }.dbuf .hcompressible = hcdata := rfl

theorem pageByte_hc : pageByte pools.withHcdata .hcompressible i w y =
    if y % iobSector < 8 then byteOf w (y % iobSector) else initHcdata (i * iobPage + y) := by
  rw [pageByte, Pools.withHcdata, dbuf_hcdata]

/-- **Pages come round after 32.** -/
theorem pageByte_mod (hi : i < iobNdatapages) (hy : y < iobPage) :
    pageByte pools.withHcdata .hcompressible i w y =
      pageByte pools.withHcdata .hcompressible (i % 32) w y := by
  have hlow : i % 32 < iobNdatapages := Nat.lt_of_le_of_lt (Nat.mod_le _ _) hi
  have hbyte : initHcdata (i * iobPage + y) = initHcdata (i % 32 * iobPage + y) := by
    rw [initHcdata_eq hi hy, initHcdata_eq hlow hy, UInt8.add_right_inj, ← UInt8.toNat_inj,
      UInt8.toNat_ofNat', UInt8.toNat_ofNat']
    omega
  rw [pageByte_hc, pageByte_hc, hbyte]

/-- The byte after the first tag tells 32 pages apart, and the tag is read back. -/
theorem pairPage_inj {i' : ℕ} {w' : UInt64} (hi : i < 32) (hi' : i' < 32)
    (h : pairPage pools.withHcdata .hcompressible i w =
      pairPage pools.withHcdata .hcompressible i' w') : i = i' ∧ w = w' := by
  have hpage : ∀ y < iobPage, pageByte pools.withHcdata .hcompressible i w y =
      pageByte pools.withHcdata .hcompressible i' w' y := fun y hy => congrFun h ⟨y, hy⟩
  constructor
  · have hbyte := hpage 8 (by decide)
    rw [pageByte_hc, pageByte_hc, if_neg (by decide), if_neg (by decide),
      initHcdata_eq (by unfold iobNdatapages; omega) (by decide),
      initHcdata_eq (by unfold iobNdatapages; omega) (by decide), UInt8.add_right_inj,
      ← UInt8.toNat_inj, UInt8.toNat_ofNat', UInt8.toNat_ofNat'] at hbyte
    unfold iobSector at hbyte
    omega
  · apply word_ext
    intro y hy
    have hbyte := hpage y (by unfold iobPage; omega)
    have hmod : y % iobSector = y := Nat.mod_eq_of_lt (by unfold iobSector; omega)
    rwa [pageByte_hc, pageByte_hc, hmod, if_pos hy, if_pos hy] at hbyte

end Pool

/-! ## The pages of a run

The calls are of any size: a page is full when the buffer goes on to its end. -/

/-- The full pages some run of calls of any size writes. -/
def fullPages (pools : Pools) (dtype : DataType) (D : UInt64) : Set (Fin iobPage → UInt8) :=
  {p | ∃ s, (iodata pools dtype D).Reachable always s ∧
    ∃ c ∈ s, ∃ k, c.FullPage k ∧ c.page k = p}

/-- The full pages behind `off` are made of a page of the pool and a tag. -/
structure Call.Drawn (pools : Pools) (dtype : DataType) (D : UInt64) (c : Call) : Prop where
  off : c.off.toNat = iobPage * c.turns % 2 ^ 32
  pages : ∀ k, c.FullPage k → ∃ d : PageDraws,
    c.page k = pairPage pools dtype (d.lrand % iobNdatapages) (pageHdr dtype D d)

section Drawn

variable {pools : Pools} {dtype : DataType} {D : UInt64} {d : PageDraws} {c c' : Call} {x : ℕ}

theorem fillPage_other {size off : UInt32} {mem : Mem} (hin : off < size)
    (hx : x < off.toNat ∨ off.toNat + iobPage ≤ x) :
    fillPage pools dtype D size off d mem x = mem x := by
  have hbytes := pageBytes_eq hin
  unfold fillPage stampSectors
  unfold iobPage iobSector at *
  rw [foldl_stamp, if_neg (by unfold iobSector; omega), copy_outside (by omega)]

theorem page_of_turn (hd : dtype.isDedupable) (ht : c.turn pools dtype D d = some c') {k : ℕ}
    (hcur : iobPage * k = c.off.toNat) (hfit : iobPage * k + iobPage ≤ c.size.toNat) :
    c'.page k = pairPage pools dtype (d.lrand % iobNdatapages) (pageHdr dtype D d) := by
  obtain ⟨hin, rfl⟩ := turn_cases hd ht
  have hbytes : pageBytes c.size c.off = iobPage := by
    rw [pageBytes_eq hin]
    omega
  funext y
  unfold Call.page pairPage
  dsimp only
  rw [hcur, fillPage_inside]
  · rw [hbytes]
    decide
  · rw [hbytes]
    exact y.isLt

theorem newCall_drawn {size : UInt32} {mem : Mem} :
    (newCall dtype size mem).Drawn pools dtype D where
  off := rfl
  pages k h := absurd h.1 k.not_lt_zero

/-- **A turn keeps the full pages**, and the one it writes is made of what it draws. -/
theorem Call.Drawn.turn (hd : dtype.isDedupable) (h : c.Drawn pools dtype D)
    (ht : c.turn pools dtype D d = some c') : c'.Drawn pools dtype D := by
  obtain ⟨hoff, hpages⟩ := h
  have hnew : ∀ k, iobPage * k = c.off.toNat → iobPage * k + iobPage ≤ c.size.toNat →
      c'.page k = pairPage pools dtype (d.lrand % iobNdatapages) (pageHdr dtype D d) :=
    fun k => page_of_turn hd ht
  obtain ⟨hin, rfl⟩ := turn_cases hd ht
  have hlt := UInt32.lt_iff_toNat_lt.mp hin
  have hsize := c.size.toNat_lt
  refine ⟨off_add_page hoff, ?_⟩
  rintro k ⟨hk, hfit⟩
  dsimp only at hk hfit
  by_cases hcur : iobPage * k = c.off.toNat
  · exact ⟨d, hnew k hcur hfit⟩
  · have hold : c.FullPage k := by
      refine ⟨?_, hfit⟩
      unfold iobPage at *
      omega
    obtain ⟨e, he⟩ := hpages k hold
    refine ⟨e, ?_⟩
    rw [← he]
    funext y
    have hy := y.isLt
    apply fillPage_other hin
    unfold iobPage at *
    omega

theorem reachable_drawn (hd : dtype.isDedupable) {s : List Call}
    (h : (iodata pools dtype D).Reachable always s) : ∀ c ∈ s, c.Drawn pools dtype D := by
  refine reachable_calls ?new ?turn h
  case new =>
    intro s size mem _
    exact newCall_drawn
  case turn =>
    intro c d c' hc ht
    exact hc.turn hd ht

theorem mem_fullPages (hd : dtype.isDedupable) (d : PageDraws) :
    pairPage pools dtype (d.lrand % iobNdatapages) (pageHdr dtype D d) ∈
      fullPages pools dtype D := by
  let c := newCall dtype 4096 fun _ => 0
  let c' : Call :=
    { c with
      off := c.off + 4096
      mem := fillPage pools dtype D c.size c.off d c.mem
      turns := c.turns + 1 }
  have hturn : c.turn pools dtype D d = some c' := by
    rw [turn_of_dedupable hd]
    rfl
  have hstep : (iodata pools dtype D).step (.turn 0 d) [c] = some [c'] := by
    show (c.turn pools dtype D d).map ([c].set 0) = some [c']
    rw [hturn]
    rfl
  have hreach : (iodata pools dtype D).Reachable always [c'] :=
    ⟨[.call 4096 fun _ => 0, .turn 0 d], Run.cons trivial rfl (Run.single trivial hstep)⟩
  have hfull : c'.FullPage 0 := ⟨Nat.one_pos, le_rfl⟩
  exact ⟨[c'], hreach, c', List.mem_singleton_self _, 0, hfull, page_of_turn hd hturn rfl le_rfl⟩

end Drawn

/-! ## The dedup set -/

section Count

variable {pools : Pools} {D : UInt64}

theorem tag_of_draw (h1 : 1 ≤ D.toNat) (hD : D.toNat ≤ 2 ^ 50) (dtype : DataType)
    (d : PageDraws) :
    pageHdr dtype D d =
      UInt64.ofNat (2 ^ 56 * dtype.code.toNat + d.rand64.toNat % D.toNat) := by
  rw [← toNat_pageHdr h1 hD, UInt64.ofNat_toNat]

/-- **The full pages are those of 32 pages of the pool and `D` numbers.** -/
theorem fullPages_hc (h1 : 1 ≤ D.toNat) (hD : D.toNat ≤ 2 ^ 50) :
    fullPages pools.withHcdata .hcompressible D =
      (fun q : ℕ × ℕ => pairPage pools.withHcdata .hcompressible q.1
        (UInt64.ofNat (2 ^ 56 * DataType.hcompressible.code.toNat + q.2))) ''
        (range 32 ×ˢ range D.toNat : Finset (ℕ × ℕ)) := by
  apply Set.Subset.antisymm
  · rintro p ⟨s, hs, c, hc, k, hk, rfl⟩
    obtain ⟨d, hd⟩ := (reachable_drawn rfl hs c hc).pages k hk
    have hi : d.lrand.val % iobNdatapages < iobNdatapages := Nat.mod_lt _ (by decide)
    refine ⟨(d.lrand % iobNdatapages % 32, d.rand64.toNat % D.toNat), ?_, ?_⟩
    · rw [mem_coe, mem_product]
      exact ⟨mem_range.mpr (Nat.mod_lt _ (by norm_num)), mem_range.mpr (Nat.mod_lt _ h1)⟩
    · rw [hd, tag_of_draw h1 hD]
      funext y
      exact (pageByte_mod hi y.isLt).symm
  · rintro p ⟨⟨i, v⟩, hq, rfl⟩
    obtain ⟨hi, hv⟩ := mem_product.mp (mem_coe.mp hq)
    rw [mem_range] at hi hv
    obtain ⟨hi32, lo32, hdraw⟩ := exists_iobRand64 (UInt64.ofNat v)
    let d : PageDraws := ⟨⟨i, by omega⟩, hi32, lo32⟩
    have hrand : d.rand64.toNat % D.toNat = v := by
      have hval : d.rand64 = UInt64.ofNat v := hdraw
      rw [hval, UInt64.toNat_ofNat_of_lt' (by show v < 2 ^ 64; omega), Nat.mod_eq_of_lt hv]
    have hpage : d.lrand.val % iobNdatapages = i :=
      Nat.mod_eq_of_lt (by unfold iobNdatapages; show i < 1000; omega)
    have hmem := @mem_fullPages pools.withHcdata .hcompressible D rfl d
    rwa [tag_of_draw h1 hD, hrand, hpage] at hmem

theorem encard_fullPages_hc (h1 : 1 ≤ D.toNat) (hD : D.toNat ≤ 2 ^ 50) :
    (fullPages pools.withHcdata .hcompressible D).encard = (32 * D.toNat : ℕ) := by
  rw [fullPages_hc h1 hD, Set.InjOn.encard_image]
  · rw [Set.encard_coe_eq_coe_finsetCard, card_product, card_range, card_range]
  · rintro ⟨i, v⟩ hq ⟨i', v'⟩ hq' hsame
    obtain ⟨hi, hv⟩ := mem_product.mp (mem_coe.mp hq)
    obtain ⟨hi', hv'⟩ := mem_product.mp (mem_coe.mp hq')
    rw [mem_range] at hi hv hi' hv'
    obtain ⟨rfl, hword⟩ := pairPage_inj hi hi' hsame
    have hcode := toNat_code_lt .hcompressible
    have hof : ∀ u < D.toNat,
        (UInt64.ofNat (2 ^ 56 * DataType.hcompressible.code.toNat + u)).toNat =
          2 ^ 56 * DataType.hcompressible.code.toNat + u := fun u hu =>
      UInt64.toNat_ofNat_of_lt'
        (by show 2 ^ 56 * DataType.hcompressible.code.toNat + u < 2 ^ 64; omega)
    have hnat := congrArg UInt64.toNat hword
    rw [hof v hv, hof v' hv'] at hnat
    rw [Nat.add_left_cancel hnat]

/-- **The dedup set of highly compressible data is never as large as asked for**: there are 32
pages for each number of the tag, and not `IOB_NDATAPAGES`.

The byte a sector is filled with goes up by one from sector to sector, so it comes round after 256
of them. Two pages of the pool that are 32 apart are therefore equal, and under one tag they make
one page of the file. The 32 that are different are told apart by the byte behind the tag, and all
of them are drawn, so the count is exact. -/
theorem hc_dedup_set (pools : Pools) (h1 : 1 ≤ D.toNat) (hD : D.toNat ≤ 2 ^ 50) :
    (fullPages pools.withHcdata .hcompressible D).encard = (32 * D.toNat : ℕ) ∧
      (fullPages pools.withHcdata .hcompressible D).encard ≠ (iobNdatapages * D.toNat : ℕ) := by
  refine ⟨encard_fullPages_hc h1 hD, ?_⟩
  rw [encard_fullPages_hc h1 hD, Ne, Nat.cast_inj]
  unfold iobNdatapages
  omega

/-- `dedupblks=1`. -/
theorem hc_dedup_set_one :
    (fullPages countingPools.withHcdata .hcompressible 1).encard = (32 : ℕ) :=
  (hc_dedup_set countingPools (by decide) (by decide)).1

/-- `dedupblks=200` does not make for 200,000 pages. -/
theorem hc_dedup_200 : ¬ ∀ (pools : Pools) (D : UInt64), 1 ≤ D.toNat → D.toNat ≤ 2 ^ 50 →
    (fullPages pools.withHcdata .hcompressible D).encard = (iobNdatapages * D.toNat : ℕ) := by
  intro h
  have hall := h countingPools 200 (by decide) (by decide)
  rw [encard_fullPages_hc (by decide) (by decide), Nat.cast_inj] at hall
  exact absurd hall (by decide)

end Count

end Blockbench
