import Mathlib.Data.Set.Card
import Blockbench.Lib.Bytes
import Blockbench.Lib.Machine
import Blockbench.Iob.Types

/-!
# `Iob/Iodata.lean` — the data that is written

`iob_iodata` fills a buffer. For a dedupable type it goes through it page by page: it copies a
random page of the type's pool and then overwrites the first word of each sector with a tag, the
type in the top byte and a random number below `dedupblks` under it. So a full page is one of
`IOB_NDATAPAGES * dedupblks`, and this is what the option promises (`dedup_bounded`).

The run is any number of calls, each on a buffer of its own, taking turns of their loops in any
order; the draws are inputs. `off` is an `int` that is compared with the unsigned `size`, so it
is kept as the unsigned number of the same 32 bits, and so are the places in the buffer: past
`2 ^ 31` they are those before `bp`. A `size` of which the last page ends at `2 ^ 32` is never
reached by `off`, and such a call goes on for ever; what is proved holds after every turn.

`Call.turns` is not the program's. The eight pools are parameters: two are tables, six are
filled by `iob_initdata` with random bytes, and nothing here depends on them.
-/

set_option autoImplicit false

namespace Blockbench

open CInt Finset Bytes Machine

/-- `IOB_SECTOR`, `IOB_PAGE` and `IOB_NDATAPAGES`. -/
abbrev iobSector : ℕ := 512
abbrev iobPage : ℕ := 4096
abbrev iobNdatapages : ℕ := 1000

def DataType.code : DataType → UInt64
  | .zeros => 0x01
  | .ones => 0x02
  | .pattern1 => 0x03
  | .uncompressible => 0x10
  | .compressible => 0x11
  | .hcompressible => 0x12
  | .pst => 0x13
  | .vm => 0x14
  | .h20compressible => 0x15
  | .h10compressible => 0x16
  | .h40compressible => 0x17

def DataType.isDedupable (dtype : DataType) : Bool := dtype.code &&& 0x10 ≠ 0

structure Pools where
  uncdata : ℕ → UInt8
  pstData : ℕ → UInt8
  vmData : ℕ → UInt8
  cdata : ℕ → UInt8
  hc40data : ℕ → UInt8
  hc20data : ℕ → UInt8
  hc10data : ℕ → UInt8
  hcdata : ℕ → UInt8

def Pools.dbuf (pools : Pools) : DataType → ℕ → UInt8
  | .uncompressible => pools.uncdata
  | .pst => pools.pstData
  | .vm => pools.vmData
  | .compressible => pools.cdata
  | .h40compressible => pools.hc40data
  | .h20compressible => pools.hc20data
  | .h10compressible => pools.hc10data
  | _ => pools.hcdata

/-- What one turn of a loop draws: `lrand48()`, and `mrand48()` twice. -/
structure PageDraws where
  lrand : Fin (2 ^ 31)
  hi : Int32
  lo : Int32

def PageDraws.rand64 (d : PageDraws) : UInt64 := (u64OfI32 d.hi <<< 32) + u64OfI32 d.lo

def pageHdr (dtype : DataType) (dedupblks : UInt64) (d : PageDraws) : UInt64 :=
  (dtype.code <<< 56) + d.rand64 % dedupblks

/-- The loop over the sectors of a page at `a`. -/
def stampSectors (mem : Mem) (a nbytes : ℕ) (hdr : UInt64) : Mem :=
  (List.range ((nbytes + (iobSector - 1)) / iobSector)).foldl
    (fun mem j => store64 mem (a + iobSector * j) hdr) mem

/-- `nbytes`: a page, or what is left of the buffer. -/
def pageBytes (size off : UInt32) : ℕ :=
  if size - off < 4096 then (size - off).toNat else iobPage

/-- The body of the loop over the pages. -/
def fillPage (pools : Pools) (dtype : DataType) (dedupblks : UInt64) (size off : UInt32)
    (d : PageDraws) (mem : Mem) : Mem :=
  let doff := d.lrand % iobNdatapages * iobPage
  let nbytes := pageBytes size off
  let mem := copy mem off.toNat nbytes fun y => pools.dbuf dtype (doff + y)
  stampSectors mem off.toNat nbytes (pageHdr dtype dedupblks d)

/-- A call of `iob_iodata`, with how many turns its loop has taken. -/
structure Call where
  size : UInt32
  off : UInt32
  mem : Mem
  turns : ℕ

/-- `iob_iodata` as far as its loop; for two of the types there is none. -/
def newCall (dtype : DataType) (size : UInt32) (mem : Mem) : Call where
  size := size
  off := 0
  mem :=
    match dtype with
    | .ones => fill mem 0 size.toNat 0xff
    | .zeros => fill mem 0 size.toNat 0
    | _ => mem
  turns := 0

/-- One turn of its loop, `none` when the loop is over. -/
def Call.turn (pools : Pools) (dtype : DataType) (dedupblks : UInt64) (d : PageDraws)
    (c : Call) : Option Call :=
  if c.off < c.size then
    match dtype with
    | .ones => none
    | .zeros => none
    | .pattern1 =>
      some { c with
        off := c.off + 512
        mem := fill c.mem c.off.toNat iobSector (UInt8.ofNat (d.lrand % 256))
        turns := c.turns + 1 }
    | _ =>
      some { c with
        off := c.off + 4096
        mem := fillPage pools dtype dedupblks c.size c.off d c.mem
        turns := c.turns + 1 }
  else none

inductive IodataStep
  | call (size : UInt32) (mem : Mem)
  | turn (i : ℕ) (d : PageDraws)

/-- The calls of a run, for one type and one `dedupblks`. -/
def iodata (pools : Pools) (dtype : DataType) (dedupblks : UInt64) :
    Machine (List Call) IodataStep where
  init := []
  step
    | .call size mem, s => some (newCall dtype size mem :: s)
    | .turn i d, s => (s[i]?).bind fun c => (c.turn pools dtype dedupblks d).map (s.set i)

def wholeSectors : List Call → IodataStep → Prop
  | _, .call size _ => iobSector ∣ size.toNat
  | _, .turn _ _ => True

/-! ## What a page holds -/

/-- Byte `y` of a page made of page `i` of the pool and the tag `w`. -/
def pageByte (pools : Pools) (dtype : DataType) (i : ℕ) (w : UInt64) (y : ℕ) : UInt8 :=
  if y % iobSector < 8 then byteOf w (y % iobSector)
  else pools.dbuf dtype (i * iobPage + y)

section Page

variable {pools : Pools} {dtype : DataType} {dedupblks : UInt64} {d : PageDraws} {c c' : Call}
  {mem : Mem} {a nbytes x y : ℕ} {hdr : UInt64}

theorem foldl_stamp (mem : Mem) (a n : ℕ) (hdr : UInt64) (x : ℕ) :
    ((List.range n).foldl (fun mem j => store64 mem (a + iobSector * j) hdr) mem) x =
      if a ≤ x ∧ x < a + iobSector * n ∧ (x - a) % iobSector < 8 then
        byteOf hdr ((x - a) % iobSector)
      else mem x := by
  unfold iobSector
  induction n with
  | zero => rw [if_neg (by omega)]; rfl
  | succ n ih =>
    rw [List.range_succ, List.foldl_append, List.foldl_cons, List.foldl_nil]
    by_cases hin : a + 512 * n ≤ x ∧ x < a + 512 * n + 8
    · obtain ⟨i, rfl⟩ := Nat.exists_eq_add_of_le hin.1
      have hmod : (a + 512 * n + i - a) % 512 = i := by omega
      rw [store64_inside (by omega), if_pos ⟨by omega, by omega, by omega⟩, hmod]
    · rw [store64_outside (by omega), ih]
      refine if_congr ?_ rfl rfl
      omega

theorem stampSectors_eq (hn : iobSector ∣ nbytes) :
    stampSectors mem a nbytes hdr x =
      if a ≤ x ∧ x < a + nbytes ∧ (x - a) % iobSector < 8 then
        byteOf hdr ((x - a) % iobSector)
      else mem x := by
  obtain ⟨n, rfl⟩ := hn
  have hcount : (iobSector * n + (iobSector - 1)) / iobSector = n := by
    unfold iobSector
    omega
  unfold stampSectors
  rw [hcount, foldl_stamp]

theorem stampSectors_inside (hn : iobSector ∣ nbytes) (hy : y < nbytes) :
    stampSectors mem a nbytes hdr (a + y) =
      if y % iobSector < 8 then byteOf hdr (y % iobSector) else mem (a + y) := by
  rw [stampSectors_eq hn, Nat.add_sub_cancel_left]
  refine if_congr ?_ rfl rfl
  omega

theorem stampSectors_outside (hn : iobSector ∣ nbytes) (hx : x < a ∨ a + nbytes ≤ x) :
    stampSectors mem a nbytes hdr x = mem x := by
  rw [stampSectors_eq hn, if_neg (by omega)]

theorem pageBytes_eq {size off : UInt32} (h : off < size) :
    pageBytes size off = min iobPage (size.toNat - off.toNat) := by
  have hlt := UInt32.lt_iff_toNat_lt.mp h
  have hsub : (size - off).toNat = size.toNat - off.toNat :=
    UInt32.toNat_sub_of_le _ _ (UInt32.le_of_lt h)
  have hpage : (4096 : UInt32).toNat = 4096 := rfl
  unfold pageBytes iobPage
  split
  case isTrue hlast =>
    rw [UInt32.lt_iff_toNat_lt, hsub, hpage] at hlast
    omega
  case isFalse hpart =>
    rw [UInt32.lt_iff_toNat_lt, hsub, hpage] at hpart
    omega

/-- **What a turn writes**: a page, or the sectors of one that are left, and nothing else. -/
theorem fillPage_inside {size off : UInt32}
    (hn : iobSector ∣ pageBytes size off) (hy : y < pageBytes size off) :
    fillPage pools dtype dedupblks size off d mem (off.toNat + y)
      = pageByte pools dtype (d.lrand % iobNdatapages) (pageHdr dtype dedupblks d) y := by
  unfold fillPage pageByte
  rw [stampSectors_inside hn hy, copy_inside hy]

theorem fillPage_outside {size off : UInt32} (hn : iobSector ∣ pageBytes size off)
    (hx : x < off.toNat ∨ off.toNat + pageBytes size off ≤ x) :
    fillPage pools dtype dedupblks size off d mem x = mem x := by
  unfold fillPage
  rw [stampSectors_outside hn hx, copy_outside hx]

theorem turn_of_dedupable (h : dtype.isDedupable) :
    c.turn pools dtype dedupblks d =
      if c.off < c.size then
        some { c with
          off := c.off + 4096
          mem := fillPage pools dtype dedupblks c.size c.off d c.mem
          turns := c.turns + 1 }
      else none := by
  unfold Call.turn
  refine if_congr Iff.rfl ?_ rfl
  cases dtype <;> first | exact absurd h (by decide) | rfl

/-- A turn of a type with a pool: `off` is in the buffer, and a page is filled. -/
theorem turn_cases (hd : dtype.isDedupable) (ht : c.turn pools dtype dedupblks d = some c') :
    c.off < c.size ∧ c' = { c with
      off := c.off + 4096
      mem := fillPage pools dtype dedupblks c.size c.off d c.mem
      turns := c.turns + 1 } := by
  rw [turn_of_dedupable hd] at ht
  split at ht
  case isTrue hin =>
    cases ht
    exact ⟨hin, rfl⟩
  case isFalse => cases ht

end Page

/-! ## The tag

The remainder is below `2 ^ 50`, so the sum does not reach the byte of the type. -/

section Tag

variable {dtype : DataType} {D : UInt64} {d : PageDraws}

theorem toNat_code_shift (dtype : DataType) :
    (dtype.code <<< 56).toNat = 2 ^ 56 * dtype.code.toNat := by
  cases dtype <;> rfl

theorem toNat_code_lt (dtype : DataType) : dtype.code.toNat < 2 ^ 8 := by
  cases dtype <;> decide

theorem toNat_pageHdr (h1 : 1 ≤ D.toNat) (hD : D.toNat ≤ 2 ^ 50) :
    (pageHdr dtype D d).toNat = 2 ^ 56 * dtype.code.toNat + d.rand64.toNat % D.toNat := by
  have hcode := toNat_code_lt dtype
  have hdraw : d.rand64.toNat % D.toNat < D.toNat := Nat.mod_lt _ h1
  unfold pageHdr
  rw [toNat_add_of_lt, toNat_code_shift, UInt64.toNat_mod]
  rw [toNat_code_shift, UInt64.toNat_mod]
  omega

theorem pageHdr_shift (h1 : 1 ≤ D.toNat) (hD : D.toNat ≤ 2 ^ 50) :
    pageHdr dtype D d >>> 56 = dtype.code := by
  have hdraw : d.rand64.toNat % D.toNat < D.toNat := Nat.mod_lt _ h1
  have hshift : (56 : UInt64).toNat % 64 = 56 := rfl
  rw [← UInt64.toNat_inj, UInt64.toNat_shiftRight, hshift, Nat.shiftRight_eq_div_pow,
    toNat_pageHdr h1 hD]
  omega

theorem toNat_pageHdr_mod (h1 : 1 ≤ D.toNat) (hD : D.toNat ≤ 2 ^ 50) :
    (pageHdr dtype D d).toNat % 2 ^ 56 < D.toNat := by
  have hdraw : d.rand64.toNat % D.toNat < D.toNat := Nat.mod_lt _ h1
  rw [toNat_pageHdr h1 hD]
  omega

end Tag

/-! ## The calls of a run -/

section Calls

variable {pools : Pools} {dtype : DataType} {D : UInt64} {ok : List Call → IodataStep → Prop}

/-- What a new call has and a turn keeps, every call of every run has. -/
theorem reachable_calls {P : Call → Prop}
    (hnew : ∀ s size mem, ok s (.call size mem) → P (newCall dtype size mem))
    (hturn : ∀ c d c', P c → c.turn pools dtype D d = some c' → P c') {s : List Call}
    (h : (iodata pools dtype D).Reachable ok s) : ∀ c ∈ s, P c := by
  refine h.invariant (I := fun s => ∀ c ∈ s, P c) ?start ?step
  case start =>
    intro c hc
    cases hc
  case step =>
    intro s a t hI hok hst
    cases a with
    | call size mem =>
      cases hst
      intro c hc
      obtain rfl | hc := List.mem_cons.mp hc
      · exact hnew s size mem hok
      · exact hI c hc
    | turn i d =>
      obtain ⟨c, hc, hmap⟩ := Option.bind_eq_some_iff.mp hst
      obtain ⟨c', hc', rfl⟩ := Option.map_eq_some_iff.mp hmap
      intro x hx
      obtain hx | rfl := List.mem_or_eq_of_mem_set hx
      · exact hI x hx
      · exact hturn c d x (hI c (List.mem_of_getElem? hc)) hc'

end Calls

/-! ## What a call has written -/

/-- The pages behind `off` are made of a page of the pool and a tag. -/
structure Call.Filled (pools : Pools) (dtype : DataType) (D : UInt64) (c : Call) : Prop where
  whole : iobSector ∣ c.size.toNat
  off : c.off.toNat = iobPage * c.turns % 2 ^ 32
  pages : ∀ k < c.turns, iobPage * k < c.size.toNat → ∃ d : PageDraws, ∀ y < iobPage,
    iobPage * k + y < c.size.toNat →
      c.mem (iobPage * k + y)
        = pageByte pools dtype (d.lrand % iobNdatapages) (pageHdr dtype D d) y

section Filled

variable {pools : Pools} {dtype : DataType} {D : UInt64} {d : PageDraws} {c c' : Call}

theorem newCall_filled {size : UInt32} {mem : Mem} (hs : iobSector ∣ size.toNat) :
    (newCall dtype size mem).Filled pools dtype D where
  whole := hs
  off := rfl
  pages k hk := absurd hk k.not_lt_zero

theorem off_add_page {off : UInt32} {n : ℕ} (h : off.toNat = iobPage * n % 2 ^ 32) :
    (off + 4096).toNat = iobPage * (n + 1) % 2 ^ 32 := by
  have hpage : (4096 : UInt32).toNat = iobPage := rfl
  rw [UInt32.toNat_add, hpage, h, Nat.mul_succ, Nat.mod_add_mod]

/-- **A turn keeps the pages**: it writes the one at `off` and leaves the others as they are. -/
theorem Call.Filled.turn (hd : dtype.isDedupable) (h : c.Filled pools dtype D)
    (ht : c.turn pools dtype D d = some c') : c'.Filled pools dtype D := by
  obtain ⟨hwhole, hoff, hpages⟩ := h
  obtain ⟨hlt, rfl⟩ := turn_cases hd ht
  have hbytes := pageBytes_eq hlt
  have hsize := c.size.toNat_lt
  have hin := UInt32.lt_iff_toNat_lt.mp hlt
  refine ⟨hwhole, off_add_page hoff, fun k hk hks => ?_⟩
  unfold iobSector iobPage at *
  have hn : iobSector ∣ pageBytes c.size c.off := by
    unfold iobSector
    omega
  dsimp only at hk hks ⊢
  by_cases hcur : 4096 * k = c.off.toNat
  · refine ⟨d, fun y hy hys => ?_⟩
    rw [hcur]
    exact fillPage_inside hn (by omega)
  · obtain ⟨e, he⟩ := hpages k (by omega) hks
    refine ⟨e, fun y hy hys => ?_⟩
    rw [← he y hy hys]
    exact fillPage_outside hn (by omega)

theorem reachable_filled (hd : dtype.isDedupable) {s : List Call}
    (h : (iodata pools dtype D).Reachable wholeSectors s) : ∀ c ∈ s, c.Filled pools dtype D := by
  refine reachable_calls ?new ?turn h
  case new =>
    intro s size mem hok
    exact newCall_filled hok
  case turn =>
    intro c d c' hc ht
    exact hc.turn hd ht

theorem Call.Filled.written (h : c.Filled pools dtype D) (hover : ¬ c.off < c.size) {k : ℕ}
    (hk : iobPage * k < c.size.toNat) : k < c.turns := by
  have hoff := h.off
  rw [UInt32.lt_iff_toNat_lt] at hover
  unfold iobPage at *
  omega

end Filled

/-! ## The dedup set -/

/-- Sector `j` of page `k` is in the buffer and the loop is past it. -/
def Call.Sector (c : Call) (k j : ℕ) : Prop :=
  k < c.turns ∧ j < 8 ∧ iobPage * k + iobSector * j < c.size.toNat

def Call.word (c : Call) (k j : ℕ) : UInt64 := load64 c.mem (iobPage * k + iobSector * j)

/-- The loop is past page `k`, and it is not a short one. -/
def Call.FullPage (c : Call) (k : ℕ) : Prop :=
  k < c.turns ∧ iobPage * k + iobPage ≤ c.size.toNat

def Call.page (c : Call) (k : ℕ) : Fin iobPage → UInt8 := fun y => c.mem (iobPage * k + y)

def pairPage (pools : Pools) (dtype : DataType) (i : ℕ) (w : UInt64) : Fin iobPage → UInt8 :=
  fun y => pageByte pools dtype i w y

def writtenPages (pools : Pools) (dtype : DataType) (D : UInt64) : Set (Fin iobPage → UInt8) :=
  {p | ∃ s, (iodata pools dtype D).Reachable wholeSectors s ∧
    ∃ c ∈ s, ∃ k, c.FullPage k ∧ c.page k = p}

structure Call.DedupBounded (pools : Pools) (dtype : DataType) (D : UInt64) (c : Call) :
    Prop where
  every : ¬ c.off < c.size → ∀ k j, j < 8 → iobPage * k + iobSector * j < c.size.toNat →
    c.Sector k j
  tag : ∀ k j, c.Sector k j →
    c.word k j >>> 56 = dtype.code ∧ (c.word k j).toNat % 2 ^ 56 < D.toNat
  same : ∀ k i j, c.Sector k i → c.Sector k j → c.word k i = c.word k j
  determined : ∀ k, c.FullPage k →
    ∃ i < iobNdatapages, c.page k = pairPage pools dtype i (c.word k 0)

section Dedup

variable {pools : Pools} {dtype : DataType} {D : UInt64} {c : Call}

theorem Call.FullPage.sector {k : ℕ} (h : c.FullPage k) : c.Sector k 0 := by
  obtain ⟨hk, hfit⟩ := h
  refine ⟨hk, by decide, ?_⟩
  unfold iobPage at *
  omega

theorem Call.Filled.word (h : c.Filled pools dtype D) {k j : ℕ} (hs : c.Sector k j) :
    ∃ d : PageDraws, (∀ j, c.Sector k j → c.word k j = pageHdr dtype D d) ∧
      (c.FullPage k → c.page k = pairPage pools dtype (d.lrand % iobNdatapages)
        (pageHdr dtype D d)) := by
  obtain ⟨d, hd⟩ := h.pages k hs.1 (Nat.lt_of_le_of_lt (Nat.le_add_right _ _) hs.2.2)
  have hwhole := h.whole
  refine ⟨d, fun j hj => ?_, fun hfull => ?_⟩
  · obtain ⟨-, hj8, hjs⟩ := hj
    apply load64_eq
    intro i hi
    unfold iobPage iobSector at *
    rw [Nat.add_assoc, hd (512 * j + i) (by omega) (by omega)]
    have hmod : (512 * j + i) % 512 = i := by omega
    unfold pageByte iobSector
    rw [hmod, if_pos hi]
  · obtain ⟨-, hfit⟩ := hfull
    funext y
    have hy := y.isLt
    exact hd y hy (by omega)

theorem Call.Filled.dedupBounded (h : c.Filled pools dtype D) (h1 : 1 ≤ D.toNat)
    (hD : D.toNat ≤ 2 ^ 50) : c.DedupBounded pools dtype D where
  every hover k j hj hs := ⟨h.written hover (by unfold iobPage at *; omega), hj, hs⟩
  tag k j hj := by
    obtain ⟨d, hword, -⟩ := h.word hj
    rw [hword j hj]
    exact ⟨pageHdr_shift h1 hD, toNat_pageHdr_mod h1 hD⟩
  same k i j hi hj := by
    obtain ⟨d, hword, -⟩ := h.word hj
    rw [hword i hi, hword j hj]
  determined k hk := by
    obtain ⟨d, hword, hpage⟩ := h.word hk.sector
    refine ⟨d.lrand % iobNdatapages, Nat.mod_lt _ (by decide), ?_⟩
    rw [hpage hk, hword 0 hk.sector]

theorem eq_of_tag {w : UInt64} (h : w >>> 56 = dtype.code) :
    w = UInt64.ofNat (2 ^ 56 * dtype.code.toNat + w.toNat % 2 ^ 56) := by
  have hshift : (56 : UInt64).toNat % 64 = 56 := rfl
  have hdiv : w.toNat / 2 ^ 56 = dtype.code.toNat := by
    rw [← h, UInt64.toNat_shiftRight, hshift, Nat.shiftRight_eq_div_pow]
  rw [← hdiv, Nat.div_add_mod, UInt64.ofNat_toNat]

theorem encard_le_mul {α : Type*} {A : Set α} {f : ℕ → ℕ → α} {m n : ℕ}
    (h : ∀ x ∈ A, ∃ i < m, ∃ v < n, f i v = x) : A.encard ≤ (m * n : ℕ) := by
  have hsub : A ⊆ (fun q : ℕ × ℕ => f q.1 q.2) '' (range m ×ˢ range n : Finset (ℕ × ℕ)) := by
    intro x hx
    obtain ⟨i, hi, v, hv, rfl⟩ := h x hx
    exact ⟨(i, v), mem_coe.mpr (mk_mem_product (mem_range.mpr hi) (mem_range.mpr hv)), rfl⟩
  calc A.encard
      ≤ _ := Set.encard_le_encard hsub
    _ ≤ ((range m ×ˢ range n : Finset (ℕ × ℕ)) : Set (ℕ × ℕ)).encard := Set.encard_image_le _ _
    _ = (m * n : ℕ) := by
      rw [Set.encard_coe_eq_coe_finsetCard, card_product, card_range, card_range]

theorem encard_writtenPages_le
    (h : ∀ s, (iodata pools dtype D).Reachable wholeSectors s →
      ∀ c ∈ s, c.DedupBounded pools dtype D) :
    (writtenPages pools dtype D).encard ≤ (iobNdatapages * D.toNat : ℕ) := by
  refine encard_le_mul (f := fun i v => pairPage pools dtype i
    (UInt64.ofNat (2 ^ 56 * dtype.code.toNat + v))) ?_
  rintro p ⟨s, hs, c, hc, k, hk, rfl⟩
  have hbound := h s hs c hc
  obtain ⟨i, hi, hpage⟩ := hbound.determined k hk
  obtain ⟨hcode, hlow⟩ := hbound.tag k 0 hk.sector
  refine ⟨i, hi, _, hlow, ?_⟩
  rw [hpage, ← eq_of_tag hcode]

/-- **The dedup set is as large as asked for**: in every run of calls the sectors start with a tag
of the type and of one of `D` numbers, a page has one tag, and there are no more than
`IOB_NDATAPAGES * D` full pages.

`D` is what the clamp leaves of `dedupblks`, so that `IOB_RAND64() % dedupblks` is below it and
the number does not run into the byte of the tag that holds the type. The bound on the pages is a
bound on the pairs a page is made of, one of the pool's pages and one number (`pairPage`); that it
is reached is a question about the pool, for `Iob/DedupSet.lean` and `Iob/HcData.lean`. A page cut
short by the end of the buffer is not counted, for it is part of a full one. -/
theorem dedup_bounded (hd : dtype.isDedupable) (h1 : 1 ≤ D.toNat) (hD : D.toNat ≤ 2 ^ 50) :
    (∀ s, (iodata pools dtype D).Reachable wholeSectors s →
      ∀ c ∈ s, c.DedupBounded pools dtype D) ∧
    (writtenPages pools dtype D).encard ≤ (iobNdatapages * D.toNat : ℕ) := by
  have hcalls : ∀ s, (iodata pools dtype D).Reachable wholeSectors s →
      ∀ c ∈ s, c.DedupBounded pools dtype D := fun s hs c hc =>
    (reachable_filled hd hs c hc).dedupBounded h1 hD
  exact ⟨hcalls, encard_writtenPages_le hcalls⟩

/-- Pages of which byte `y` is `y`, and the draws of one turn. -/
def countingPools : Pools where
  uncdata := UInt8.ofNat
  pstData := UInt8.ofNat
  vmData := UInt8.ofNat
  cdata := UInt8.ofNat
  hc40data := UInt8.ofNat
  hc20data := UInt8.ofNat
  hc10data := UInt8.ofNat
  hcdata := UInt8.ofNat

def someDraws : PageDraws := ⟨7, 0, 5⟩

/-- One page of uncompressible data, of two numbers the second. -/
theorem dedup_bounded_page : ∃ c : Call,
    (iodata countingPools .uncompressible 2).Reachable wholeSectors [c] ∧
    c.FullPage 0 ∧ c.DedupBounded countingPools .uncompressible 2 ∧
    (writtenPages countingPools .uncompressible 2).encard ≤ (2000 : ℕ) := by
  have hbound := @dedup_bounded countingPools .uncompressible 2 rfl (by decide) (by decide)
  let c : Call :=
    { size := 4096
      off := 4096
      mem := fillPage countingPools .uncompressible 2 4096 0 someDraws fun _ => 0
      turns := 1 }
  have hreach : (iodata countingPools .uncompressible 2).Reachable wholeSectors [c] :=
    ⟨[.call 4096 fun _ => 0, .turn 0 someDraws],
      Run.cons (by decide : iobSector ∣ (4096 : UInt32).toNat) rfl (Run.single trivial rfl)⟩
  have hcall := hbound.1 _ hreach c (List.mem_singleton.mpr rfl)
  exact ⟨c, hreach, ⟨by decide, by decide⟩, hcall, hbound.2⟩

end Dedup

end Blockbench
