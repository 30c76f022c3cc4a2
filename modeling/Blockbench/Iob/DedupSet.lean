import Blockbench.Iob.Initdata

/-!
# `Iob/DedupSet.lean` — how many pages there are

With the pools of `iob_initdata` the full pages that `iob_iodata` can write are counted. Each is a
page of the pool under a tag, and the tag is read back; so the question is how many pages of a
pool are different where the tags are not. In five of the six pools all `IOB_NDATAPAGES` are: a
page shows enough of the generator's output to tell where in the run it was filled
(`Drand48.position`), and the run is shorter than the period. The sixth is `hcdata`, with 32.
-/

set_option autoImplicit false

namespace Blockbench

open CInt Finset Bytes

/-- The types whose pool `iob_initdata` fills. -/
def DataType.generated : DataType → Bool
  | .uncompressible | .compressible | .hcompressible => true
  | .h20compressible | .h10compressible | .h40compressible => true
  | _ => false

def DataType.distinctPages (dtype : DataType) : ℕ :=
  if dtype = .hcompressible then 32 else iobNdatapages

/-! ## Pages of any pools -/

section Pages

variable {pools pools' : Pools} {dtype : DataType} {D : UInt64} {i i' y : ℕ} {w w' : UInt64}

theorem pairPage_tag (h : pairPage pools dtype i w = pairPage pools dtype i' w') : w = w' := by
  apply word_ext
  intro y hy
  have hmod : y % iobSector = y := Nat.mod_eq_of_lt (by unfold iobSector; omega)
  have hbyte : pageByte pools dtype i w y = pageByte pools dtype i' w' y :=
    congrFun h ⟨y, by unfold iobPage; omega⟩
  rwa [pageByte, pageByte, hmod, if_pos hy, if_pos hy] at hbyte

theorem pairPage_data (h : pairPage pools dtype i w = pairPage pools dtype i' w') (h8 : 8 ≤ y)
    (hy : y < iobSector) :
    pools.dbuf dtype (i * iobPage + y) = pools.dbuf dtype (i' * iobPage + y) := by
  have hbyte : pageByte pools dtype i w y = pageByte pools dtype i' w' y :=
    congrFun h ⟨y, by unfold iobPage iobSector at *; omega⟩
  have hnot : ¬ y % iobSector < 8 := by
    rw [Nat.mod_eq_of_lt hy]
    omega
  rwa [pageByte, pageByte, if_neg hnot, if_neg hnot] at hbyte

/-- **The full pages are those of the pages of the pool and `D` numbers.** -/
theorem mem_fullPages_iff (hd : dtype.isDedupable) (h1 : 1 ≤ D.toNat) (hD : D.toNat ≤ 2 ^ 50)
    (p : Fin iobPage → UInt8) : p ∈ fullPages pools dtype D ↔
      ∃ i < iobNdatapages, ∃ v < D.toNat,
        pairPage pools dtype i (UInt64.ofNat (2 ^ 56 * dtype.code.toNat + v)) = p := by
  constructor
  · rintro ⟨s, hs, c, hc, k, hk, rfl⟩
    obtain ⟨d, hpage⟩ := (reachable_drawn hd hs c hc).pages k hk
    refine ⟨d.lrand % iobNdatapages, Nat.mod_lt _ (by simp), d.rand64.toNat % D.toNat,
      Nat.mod_lt _ h1, ?_⟩
    rw [hpage, tag_of_draw h1 hD]
  · rintro ⟨i, hi, v, hv, rfl⟩
    have hi31 : i < 2 ^ 31 := hi.trans (by unfold iobNdatapages; norm_num)
    obtain ⟨hi32, lo32, hdraw⟩ := exists_iobRand64 (UInt64.ofNat v)
    let d : PageDraws := ⟨⟨i, hi31⟩, hi32, lo32⟩
    have hrand : d.rand64.toNat % D.toNat = v := by
      have hval : d.rand64 = UInt64.ofNat v := hdraw
      have hlt : v < 2 ^ 64 := hv.trans D.toNat_lt
      rw [hval, UInt64.toNat_ofNat_of_lt' hlt, Nat.mod_eq_of_lt hv]
    have hpage : d.lrand.val % iobNdatapages = i := Nat.mod_eq_of_lt hi
    have hmem := @mem_fullPages pools dtype D hd d
    rwa [tag_of_draw h1 hD, hrand, hpage] at hmem

/-- Pools that agree where pages are taken from make the same full pages. -/
theorem fullPages_congr (hd : dtype.isDedupable) (h1 : 1 ≤ D.toNat) (hD : D.toNat ≤ 2 ^ 50)
    (h : ∀ i < iobNdatapages, ∀ y < iobPage,
      pools.dbuf dtype (i * iobPage + y) = pools'.dbuf dtype (i * iobPage + y)) :
    fullPages pools dtype D = fullPages pools' dtype D := by
  have hpage : ∀ i < iobNdatapages, ∀ w, pairPage pools dtype i w = pairPage pools' dtype i w := by
    intro i hi w
    funext y
    unfold pairPage pageByte
    rw [h i hi y y.isLt]
  ext p
  rw [mem_fullPages_iff hd h1 hD, mem_fullPages_iff hd h1 hD]
  apply exists_congr
  intro i
  apply and_congr_right
  intro hi
  simp only [hpage i hi]

theorem encard_eq_mul {α : Type*} {A : Set α} {f : ℕ → ℕ → α} {m n : ℕ}
    (hA : ∀ x, x ∈ A ↔ ∃ i < m, ∃ v < n, f i v = x)
    (hinj : ∀ i < m, ∀ v < n, ∀ i' < m, ∀ v' < n, f i v = f i' v' → i = i' ∧ v = v') :
    A.encard = (m * n : ℕ) := by
  have himage : A = (fun q : ℕ × ℕ => f q.1 q.2) '' (range m ×ˢ range n : Finset (ℕ × ℕ)) := by
    ext x
    rw [hA]
    constructor
    · rintro ⟨i, hi, v, hv, rfl⟩
      exact ⟨(i, v), mem_coe.mpr (mk_mem_product (mem_range.mpr hi) (mem_range.mpr hv)), rfl⟩
    · rintro ⟨q, hq, rfl⟩
      obtain ⟨hi, hv⟩ := mem_product.mp (mem_coe.mp hq)
      exact ⟨q.1, mem_range.mp hi, q.2, mem_range.mp hv, rfl⟩
  rw [himage, Set.InjOn.encard_image]
  · rw [Set.encard_coe_eq_coe_finsetCard, card_product, card_range, card_range]
  · intro q hq q' hq' hsame
    rw [mem_coe, mem_product, mem_range, mem_range] at hq hq'
    obtain ⟨hi, hv⟩ := hinj q.1 hq.1 q.2 hq.2 q'.1 hq'.1 q'.2 hq'.2 hsame
    exact Prod.ext hi hv

/-- Where the pages of the pool are told apart, there are as many full pages as pairs. -/
theorem encard_fullPages (hd : dtype.isDedupable) (h1 : 1 ≤ D.toNat) (hD : D.toNat ≤ 2 ^ 50)
    (hinj : ∀ i < iobNdatapages, ∀ i' < iobNdatapages, ∀ w w',
      pairPage pools dtype i w = pairPage pools dtype i' w' → i = i') :
    (fullPages pools dtype D).encard = (iobNdatapages * D.toNat : ℕ) := by
  refine encard_eq_mul (mem_fullPages_iff hd h1 hD) ?_
  intro i hi v hv i' hi' v' hv' hsame
  have hcode := toNat_code_lt dtype
  have hof : ∀ u < D.toNat, (UInt64.ofNat (2 ^ 56 * dtype.code.toNat + u)).toNat =
      2 ^ 56 * dtype.code.toNat + u := fun u hu =>
    UInt64.toNat_ofNat_of_lt' (by show 2 ^ 56 * dtype.code.toNat + u < 2 ^ 64; omega)
  have hnat := congrArg UInt64.toNat (pairPage_tag hsame)
  rw [hof v hv, hof v' hv'] at hnat
  exact ⟨hinj i hi i' hi' _ _ hsame, Nat.add_left_cancel hnat⟩

end Pages

/-! ## The pages of the pools -/

section Generated

variable {pst vm : Mem} {i i' : ℕ} {w w' : UInt64}

theorem word32_ext {u v : UInt32} (h : ∀ y < 4, byteOf u.toUInt64 y = byteOf v.toUInt64 y) :
    u = v := by
  have hword : u.toUInt64 = v.toUInt64 := by
    apply word_ext
    intro y hy
    by_cases hlow : y < 4
    · exact h y hlow
    · have hzero : ∀ x : UInt32, byteOf x.toUInt64 y = 0 := by
        intro x
        have hx := x.toNat_lt
        have hpow : 256 ^ 4 ≤ 256 ^ y := Nat.pow_le_pow_right (by norm_num) (by omega)
        unfold byteOf
        rw [UInt32.toNat_toUInt64, Nat.div_eq_of_lt (by omega)]
        rfl
      rw [hzero, hzero]
  exact UInt32.toUInt64_inj.mp hword

theorem bits_of_masked {u v : UInt32}
    (h : byteOf (u &&& 0x3c3c3c3c).toUInt64 0 = byteOf (v &&& 0x3c3c3c3c).toUInt64 0) :
    u.toNat / 4 % 16 = v.toNat / 4 % 16 := by
  have hbits : ∀ x : UInt32,
      (byteOf (x &&& 0x3c3c3c3c).toUInt64 0).toNat / 4 % 16 = x.toNat / 4 % 16 := by
    intro x
    have hmask : (0x3c3c3c3c : UInt32).toNat / 2 ^ 2 % 2 ^ 4 = 2 ^ 4 - 1 := rfl
    have hsplit : (x &&& 0x3c3c3c3c).toNat / 2 ^ 2 % 2 ^ 4 = x.toNat / 2 ^ 2 % 2 ^ 4 := by
      rw [UInt32.toNat_and, Nat.and_div_two_pow, Nat.and_mod_two_pow, hmask,
        Nat.and_two_pow_sub_one_eq_mod, Nat.mod_mod]
    unfold byteOf
    rw [UInt8.toNat_ofNat', UInt32.toNat_toUInt64]
    omega
  rw [← hbits u, ← hbits v, h]

theorem uncdata_page (hi : i < iobNdatapages) (hi' : i' < iobNdatapages)
    (h : pairPage (iobInitdata pst vm) .uncompressible i w =
      pairPage (iobInitdata pst vm) .uncompressible i' w') : i = i' := by
  have hword : ∀ j ≤ 1, initSeed.draw (2 * (1024 * i + 2 + j)) =
      initSeed.draw (2 * (1024 * i' + 2 + j)) := by
    intro j hj
    apply word32_ext
    intro y hy
    have hdata := pairPage_data (y := 4 * (2 + j) + y) h (by omega) (by unfold iobSector; omega)
    have hat : ∀ n, n * iobPage + (4 * (2 + j) + y) = 4 * (1024 * n + 2 + j) + y := by
      intro n
      unfold iobPage
      omega
    have hin : ∀ n < iobNdatapages, 1024 * n + 2 + j < poolSize / 4 := by
      intro n hn
      unfold poolSize iobPage iobNdatapages at *
      omega
    have hleft := (@initdata_words pst vm _ y (hin i hi) hy).1
    have hright := (@initdata_words pst vm _ y (hin i' hi') hy).1
    rw [hat, hat] at hdata
    exact hleft.symm.trans (hdata.trans hright)
  have hplace : 2 * (1024 * i + 2) + 1 ≡ 2 * (1024 * i' + 2) + 1 [MOD 2 ^ 48] := by
    apply Drand48.position (x := initSeed) wordWindow (by norm_num) le_rfl
    intro j hj
    have hdraw := congrArg UInt32.toNat (hword j hj)
    rw [Drand48.toNat_draw, Drand48.toNat_draw] at hdraw
    have hat : ∀ n, 2 * (1024 * n + 2 + j) + 1 = 2 * (1024 * n + 2) + 1 + 2 * j := by omega
    rw [hat, hat] at hdraw
    rw [hdraw]
  have heq := hplace.eq_of_lt_of_lt (by unfold iobNdatapages at *; omega)
    (by unfold iobNdatapages at *; omega)
  omega

theorem cdata_page (hi : i < iobNdatapages) (hi' : i' < iobNdatapages)
    (h : pairPage (iobInitdata pst vm) .compressible i w =
      pairPage (iobInitdata pst vm) .compressible i' w') : i = i' := by
  have hbits : ∀ j ≤ 12, (initSeed.draw (2 * (1024 * i + 2 + j) + 1)).toNat / 4 % 16 =
      (initSeed.draw (2 * (1024 * i' + 2 + j) + 1)).toNat / 4 % 16 := by
    intro j hj
    apply bits_of_masked
    have hdata := pairPage_data (y := 4 * (2 + j)) h (by omega) (by unfold iobSector; omega)
    have hat : ∀ n, n * iobPage + 4 * (2 + j) = 4 * (1024 * n + 2 + j) + 0 := by
      intro n
      unfold iobPage
      omega
    have hin : ∀ n < iobNdatapages, 1024 * n + 2 + j < poolSize / 4 := by
      intro n hn
      unfold poolSize iobPage iobNdatapages at *
      omega
    have hleft := (@initdata_words pst vm _ 0 (hin i hi) (by norm_num)).2
    have hright := (@initdata_words pst vm _ 0 (hin i' hi') (by norm_num)).2
    rw [hat, hat] at hdata
    exact hleft.symm.trans (hdata.trans hright)
  have hplace : 2 * (1024 * i + 2) + 2 ≡ 2 * (1024 * i' + 2) + 2 [MOD 2 ^ 22] := by
    apply Drand48.position (x := initSeed) maskWindow (by norm_num) (by norm_num)
    intro j hj
    have hdraw := hbits j hj
    rw [Drand48.toNat_draw, Drand48.toNat_draw, Nat.div_div_eq_div_mul,
      Nat.div_div_eq_div_mul] at hdraw
    have hat : ∀ n, 2 * (1024 * n + 2 + j) + 1 + 1 = 2 * (1024 * n + 2) + 2 + 2 * j := by omega
    rw [hat, hat] at hdraw
    exact hdraw
  have heq := hplace.eq_of_lt_of_lt (by unfold iobNdatapages at *; omega)
    (by unfold iobNdatapages at *; omega)
  omega

theorem runs_page (k : RunPool) (hi : i < iobNdatapages) (hi' : i' < iobNdatapages)
    (h : pairPage (iobInitdata pst vm) k.dtype i w =
      pairPage (iobInitdata pst vm) k.dtype i' w') : i = i' := by
  have hcount : 6 ≤ k.count ∧ k.count ≤ 24 ∧ k.first ≤ 74 := by
    cases k <;> decide
  obtain ⟨h6, h24, hfirst⟩ := hcount
  -- a place in the middle of run `1 + j` is behind the tag
  have hbyte : ∀ j ≤ 3,
      drawByte initSeed (2 * (poolSize / 4) + (160 * (8 * i) + (k.first + (1 + j)))) =
        drawByte initSeed (2 * (poolSize / 4) + (160 * (8 * i') + (k.first + (1 + j)))) := by
    intro j hj
    have hrun : (k.count * (1 + j) + 2) / k.count = 1 + j := by
      rw [Nat.mul_add_div (by omega), Nat.div_eq_of_lt (by omega), Nat.add_zero]
    have hlow : 6 * (1 + j) ≤ k.count * (1 + j) := Nat.mul_le_mul_right _ h6
    have hhigh : k.count * (1 + j) ≤ 24 * (1 + j) := Nat.mul_le_mul_right _ h24
    have hy : k.count * (1 + j) + 2 < iobSector := by
      unfold iobSector
      omega
    have hdata := pairPage_data (y := k.count * (1 + j) + 2) h (by omega) hy
    have hat : ∀ n, n * iobPage + (k.count * (1 + j) + 2) =
        iobSector * (8 * n) + (k.count * (1 + j) + 2) := by
      intro n
      unfold iobPage iobSector
      omega
    have hin : ∀ n < iobNdatapages, 8 * n < poolSize / iobSector := by
      intro n hn
      unfold poolSize iobPage iobNdatapages iobSector at *
      omega
    have hleft := (@initdata_sectors pst vm _ _ (hin i hi) hy).2 k
    have hright := (@initdata_sectors pst vm _ _ (hin i' hi') hy).2 k
    rw [hrun] at hleft hright
    rw [hat, hat] at hdata
    exact hleft.symm.trans (hdata.trans hright)
  have hplace : 2 * (poolSize / 4) + (160 * (8 * i) + (k.first + 1)) + 1 ≡
      2 * (poolSize / 4) + (160 * (8 * i') + (k.first + 1)) + 1 [MOD 2 ^ 24] := by
    apply Drand48.position (x := initSeed) byteWindow (by norm_num) (by norm_num)
    intro j hj
    have hdraw := congrArg UInt8.toNat (hbyte j hj)
    unfold drawByte at hdraw
    rw [UInt32.toNat_toUInt8, UInt32.toNat_toUInt8, Drand48.toNat_draw,
      Drand48.toNat_draw] at hdraw
    have hat : ∀ n, 2 * (poolSize / 4) + (160 * (8 * n) + (k.first + (1 + j))) + 1 =
        2 * (poolSize / 4) + (160 * (8 * n) + (k.first + 1)) + 1 + 1 * j := by omega
    rw [hat, hat] at hdraw
    exact hdraw
  have hlt : ∀ n < iobNdatapages,
      2 * (poolSize / 4) + (160 * (8 * n) + (k.first + 1)) + 1 < 2 ^ 24 := by
    intro n hn
    unfold poolSize iobPage iobNdatapages at *
    omega
  have heq := hplace.eq_of_lt_of_lt (hlt i hi) (hlt i' hi')
  omega

theorem initdata_hcdata (pools : Pools) {y : ℕ} (hi : i < iobNdatapages) (hy : y < iobPage) :
    (iobInitdata pst vm).dbuf .hcompressible (i * iobPage + y) =
      pools.withHcdata.dbuf .hcompressible (i * iobPage + y) := by
  have hmod : y % iobSector < iobSector := Nat.mod_lt _ (by decide)
  have hsplit : i * iobPage + y = iobSector * (8 * i + y / iobSector) + y % iobSector := by
    unfold iobPage iobSector
    omega
  have hin : 8 * i + y / iobSector < poolSize / iobSector := by
    unfold poolSize iobPage iobNdatapages iobSector at *
    omega
  have hpool : pools.withHcdata.dbuf .hcompressible = initHcdata := dbuf_hcdata initHcdata
  rw [hpool, initHcdata_eq hi hy, hsplit]
  exact (initdata_sectors hin hmod).1

end Generated

/-- **The dedup set of generated data.** With the pools of `iob_initdata` it is as large as asked
for, a page of the pool for each number of the tag, and each of them is drawn; only `hcdata` has
no more than 32 pages. -/
theorem dedup_set_generated (pst vm : Mem) {dtype : DataType} {D : UInt64}
    (hgen : dtype.generated) (h1 : 1 ≤ D.toNat) (hD : D.toNat ≤ 2 ^ 50) :
    (fullPages (iobInitdata pst vm) dtype D).encard = (dtype.distinctPages * D.toNat : ℕ) := by
  cases dtype with
  | uncompressible => exact encard_fullPages rfl h1 hD fun i hi i' hi' _ _ => uncdata_page hi hi'
  | compressible => exact encard_fullPages rfl h1 hD fun i hi i' hi' _ _ => cdata_page hi hi'
  | h10compressible =>
    exact encard_fullPages rfl h1 hD fun i hi i' hi' _ _ => runs_page .hc10 hi hi'
  | h20compressible =>
    exact encard_fullPages rfl h1 hD fun i hi i' hi' _ _ => runs_page .hc20 hi hi'
  | h40compressible =>
    exact encard_fullPages rfl h1 hD fun i hi i' hi' _ _ => runs_page .hc40 hi hi'
  | hcompressible =>
    rw [fullPages_congr rfl h1 hD fun i hi y hy => initdata_hcdata countingPools hi hy]
    exact encard_fullPages_hc h1 hD
  | zeros | ones | pattern1 | pst | vm => exact absurd hgen (by decide)

/-- Uncompressible data with `dedupblks=200`: 200,000 pages. -/
theorem dedup_set_unc :
    (fullPages (iobInitdata UInt8.ofNat UInt8.ofNat) .uncompressible 200).encard =
      (200000 : ℕ) :=
  dedup_set_generated UInt8.ofNat UInt8.ofNat rfl (by decide) (by decide)

end Blockbench
