import Blockbench.Lib.Stores
import Blockbench.Iob.Iodata

/-!
# `Iob/IodataFrame.lean` — what `iob_iodata` touches

A call of `iob_iodata` is run with a log of its stores: the one `memset` of the types without a
loop, a `memset` of a sector a turn for `IOB_DT_PATTERN1`, and for the types with a pool a copy
of a page, or of what is left of the buffer, and a word over the start of each of its sectors.
The log accounts for the memory (`stores_effect`), so where its stores lie is where the call
writes and reads: the rest of the memory stays, the buffer a call leaves is its own work, and of
a pool it takes no byte past the end.

The sectors of the last page are counted upwards, so the last word can be past `size`, as the
last sector of `IOB_DT_PATTERN1` can: both stay below `size` rounded up to whole sectors, and
that is below what `iob_align_shmem` has mapped for any buffer of `size` bytes or more. Up to
`2 ^ 31 - 4096` bytes the `int` the loop counts in does not get past its largest number, so
the comparison with the unsigned `size` is that of the two numbers.
-/

set_option autoImplicit false

namespace Blockbench

open CInt Bytes Machine

abbrev poolBytes : ℕ := iobNdatapages * iobPage

def sectorsUp (n : ℕ) : ℕ := (n + (iobSector - 1)) / iobSector * iobSector

/-- The `size_t` that `iob_align_shmem` maps: `nbytes` rounded up to whole pages, as an `int`. -/
def alignShmem (nbytes : Int32) : UInt64 := u64OfI32 ((nbytes + 4095) &&& ~~~4095)

/-! ## The log -/

def newStores (dtype : DataType) (size : UInt32) : List Store :=
  match dtype with
  | .ones => [⟨0, size.toNat, .byte 0xff⟩]
  | .zeros => [⟨0, size.toNat, .byte 0⟩]
  | _ => []

def stampStores (a nbytes : ℕ) (hdr : UInt64) : List Store :=
  (List.range ((nbytes + (iobSector - 1)) / iobSector)).map fun j =>
    ⟨a + iobSector * j, 8, .word hdr⟩

/-- The stores of a turn of the loop over the pages. -/
def pageStores (dtype : DataType) (dedupblks : UInt64) (size off : UInt32) (d : PageDraws) :
    List Store :=
  let doff := d.lrand % iobNdatapages * iobPage
  let nbytes := pageBytes size off
  ⟨off.toNat, nbytes, .object doff⟩ ::
    stampStores off.toNat nbytes (pageHdr dtype dedupblks d)

def Call.stores (dtype : DataType) (dedupblks : UInt64) (d : PageDraws) (c : Call) :
    List Store :=
  match dtype with
  | .ones => []
  | .zeros => []
  | .pattern1 => [⟨c.off.toNat, iobSector, .byte (UInt8.ofNat (d.lrand % 256))⟩]
  | _ => pageStores dtype dedupblks c.size c.off d

structure LoggedCall where
  call : Call
  log : List Store

/-- One call of `iob_iodata`, with the log of its stores. -/
def iodataCall (pools : Pools) (dtype : DataType) (dedupblks : UInt64) (size : UInt32)
    (mem : Mem) : Machine LoggedCall PageDraws where
  init := ⟨newCall dtype size mem, newStores dtype size⟩
  step d s := (s.call.turn pools dtype dedupblks d).map fun c =>
    ⟨c, s.log ++ s.call.stores dtype dedupblks d⟩

/-- The step of the loop, `none` for the types without one. -/
def stride : DataType → Option UInt32
  | .ones => none
  | .zeros => none
  | .pattern1 => some 512
  | _ => some 4096

section Turn

variable {pools : Pools} {dtype : DataType} {D : UInt64} {d : PageDraws} {c : Call} {mem : Mem}
  {size off k : UInt32} {st : Store} {x : ℕ}

theorem newStores_effect :
    runAll (pools.dbuf dtype) mem (newStores dtype size) = (newCall dtype size mem).mem := by
  cases dtype <;> rfl

theorem pageStores_effect : runAll (pools.dbuf dtype) mem (pageStores dtype D size off d) =
    fillPage pools dtype D size off d mem := by
  unfold pageStores fillPage stampStores stampSectors
  rw [runAll_cons, runAll, List.foldl_map]
  rfl

/-- **The log accounts for the memory**: what a turn does to it is what its stores do, one after
the other. The stores are not the program's, so it is this that makes a statement about them one
about the call. -/
theorem stores_effect (hin : c.off < c.size) : c.turn pools dtype D d =
    (stride dtype).map fun k => { c with
      off := c.off + k
      mem := runAll (pools.dbuf dtype) c.mem (c.stores dtype D d)
      turns := c.turns + 1 } := by
  cases dtype with
  | ones => exact if_pos hin
  | zeros => exact if_pos hin
  | pattern1 => exact if_pos hin
  | _ =>
    unfold Call.turn Call.stores
    rw [if_pos hin]
    dsimp only [stride, Option.map_some]
    rw [pageStores_effect]

theorem turn_eq_none (hin : ¬ c.off < c.size) : c.turn pools dtype D d = none := if_neg hin

/-! ## Where the stores lie -/

theorem mem_stampStores {a nbytes : ℕ} {hdr : UInt64} (h : st ∈ stampStores a nbytes hdr) :
    ∃ j, iobSector * j < nbytes ∧ st = ⟨a + iobSector * j, 8, .word hdr⟩ := by
  obtain ⟨j, hj, rfl⟩ := List.mem_map.mp h
  rw [List.mem_range] at hj
  refine ⟨j, ?_, rfl⟩
  unfold iobSector at *
  omega

/-- A turn writes nothing past the buffer in whole sectors: `off` is at a sector, and so are the
words of the page. -/
theorem stores_within (hin : c.off < c.size) (hoff : iobSector ∣ c.off.toNat)
    (hst : st ∈ c.stores dtype D d) (hx : st.Writes x) : x < sectorsUp c.size.toNat := by
  have hlt := UInt32.lt_iff_toNat_lt.mp hin
  have hbytes := pageBytes_eq hin
  obtain ⟨hle, hend⟩ := hx
  have hpage : st ∈ pageStores dtype D c.size c.off d → x < sectorsUp c.size.toNat := by
    intro hmem
    unfold pageStores at hmem
    obtain rfl | hstamp := List.mem_cons.mp hmem
    · unfold sectorsUp iobSector iobPage at *
      dsimp only at hend
      omega
    · obtain ⟨j, hj, rfl⟩ := mem_stampStores hstamp
      unfold sectorsUp iobSector iobPage at *
      dsimp only at hend
      omega
  cases dtype with
  | ones => exact absurd hst List.not_mem_nil
  | zeros => exact absurd hst List.not_mem_nil
  | pattern1 =>
    obtain rfl := List.mem_singleton.mp hst
    unfold sectorsUp iobSector at *
    dsimp only at hend
    omega
  | _ => exact hpage hst

theorem stores_reads (hin : c.off < c.size) (hst : st ∈ c.stores dtype D d) (hx : st.Reads x) :
    x < poolBytes := by
  have hbytes := pageBytes_eq hin
  have hpage : st ∈ pageStores dtype D c.size c.off d → x < poolBytes := by
    intro hmem
    unfold pageStores at hmem
    obtain rfl | hstamp := List.mem_cons.mp hmem
    · obtain ⟨-, hend⟩ := hx
      have hdraw : d.lrand.val % iobNdatapages < iobNdatapages := Nat.mod_lt _ (by decide)
      unfold poolBytes iobNdatapages iobPage at *
      dsimp only at hend
      omega
    · obtain ⟨j, -, rfl⟩ := mem_stampStores hstamp
      exact hx.elim
  cases dtype with
  | ones => exact absurd hst List.not_mem_nil
  | zeros => exact absurd hst List.not_mem_nil
  | pattern1 =>
    obtain rfl := List.mem_singleton.mp hst
    exact hx.elim
  | _ => exact hpage hst

/-- A turn writes all of the buffer from `off` to where it leaves `off`. -/
theorem stores_cover (hin : c.off < c.size) (hk : stride dtype = some k) (hle : c.off.toNat ≤ x)
    (hlt : x < c.off.toNat + k.toNat) (hx : x < c.size.toNat) :
    ∃ st ∈ c.stores dtype D d, st.Writes x := by
  have hbytes := pageBytes_eq hin
  have hpage : some (4096 : UInt32) = some k →
      ∃ st ∈ pageStores dtype D c.size c.off d, st.Writes x := by
    intro hk
    cases hk
    have hstep : (4096 : UInt32).toNat = 4096 := rfl
    refine ⟨_, List.mem_cons_self, hle, ?_⟩
    unfold iobPage at hbytes
    dsimp only
    omega
  cases dtype with
  | ones => cases hk
  | zeros => cases hk
  | pattern1 =>
    cases hk
    exact ⟨_, List.mem_singleton_self _, hle, hlt⟩
  | _ => exact hpage hk

theorem newStores_writes (hst : st ∈ newStores dtype size) (hx : st.Writes x) :
    x < size.toNat := by
  obtain ⟨-, hend⟩ := hx
  cases dtype with
  | ones =>
    obtain rfl := List.mem_singleton.mp hst
    simpa using hend
  | zeros =>
    obtain rfl := List.mem_singleton.mp hst
    simpa using hend
  | _ => exact absurd hst List.not_mem_nil

theorem newStores_reads (hst : st ∈ newStores dtype size) : ¬ st.Reads x := by
  intro hx
  cases dtype with
  | ones =>
    obtain rfl := List.mem_singleton.mp hst
    exact hx.elim
  | zeros =>
    obtain rfl := List.mem_singleton.mp hst
    exact hx.elim
  | _ => exact absurd hst List.not_mem_nil

theorem newStores_cover (hk : stride dtype = none) (hx : x < size.toNat) :
    ∃ st ∈ newStores dtype size, st.Writes x := by
  have hend : x < 0 + size.toNat := by rwa [Nat.zero_add]
  cases dtype with
  | ones => exact ⟨_, List.mem_singleton_self _, x.zero_le, hend⟩
  | zeros => exact ⟨_, List.mem_singleton_self _, x.zero_le, hend⟩
  | _ => cases hk

end Turn

/-! ## A call -/

/-- After every turn: the log accounts for the memory, nothing in it is outside the buffer or the
pool, and the buffer is written up to `off`. -/
structure LoggedCall.Inside (pools : Pools) (dtype : DataType) (size : UInt32) (mem : Mem)
    (s : LoggedCall) : Prop where
  off : s.call.off.toNat ≤ 2 ^ 31 - 4096
  aligned : ∀ k ∈ stride dtype, k.toNat ∣ s.call.off.toNat
  effect : s.call.mem = runAll (pools.dbuf dtype) mem s.log
  writes : ∀ st ∈ s.log, ∀ x, st.Writes x → x < sectorsUp size.toNat
  reads : ∀ st ∈ s.log, ∀ x, st.Reads x → x < poolBytes
  behind : ∀ x < size.toNat, x < s.call.off.toNat ∨ stride dtype = none →
    ∃ st ∈ s.log, st.Writes x
  size : s.call.size = size

section Call

variable {pools : Pools} {dtype : DataType} {D : UInt64} {d : PageDraws} {size : UInt32}
  {mem : Mem} {s s' : LoggedCall}

theorem stride_cases {k : UInt32} (hk : stride dtype = some k) : k = 512 ∨ k = 4096 := by
  cases dtype with
  | ones => cases hk
  | zeros => cases hk
  | pattern1 => exact .inl (Option.some.inj hk).symm
  | _ => exact .inr (Option.some.inj hk).symm

theorem le_sectorsUp (n : ℕ) : n ≤ sectorsUp n := by
  unfold sectorsUp iobSector
  omega

theorem newCall_inside : LoggedCall.Inside pools dtype size mem
    ⟨newCall dtype size mem, newStores dtype size⟩ where
  off := by
    show 0 ≤ 2 ^ 31 - 4096
    norm_num
  aligned k _ := Nat.dvd_zero _
  effect := newStores_effect.symm
  writes st hst x hx := Nat.lt_of_lt_of_le (newStores_writes hst hx) (le_sectorsUp _)
  reads st hst x hx := absurd hx (newStores_reads hst)
  behind x hx h := by
    obtain h | h := h
    · exact absurd h (Nat.not_lt_zero _)
    · exact newStores_cover h hx
  size := rfl

theorem step_cases (h : (iodataCall pools dtype D size mem).step d s = some s') :
    s.call.off < s.call.size ∧ ∃ k, stride dtype = some k ∧
      s' = ⟨{ s.call with
        off := s.call.off + k
        mem := runAll (pools.dbuf dtype) s.call.mem (s.call.stores dtype D d)
        turns := s.call.turns + 1 }, s.log ++ s.call.stores dtype D d⟩ := by
  obtain ⟨c, hturn, rfl⟩ := Option.map_eq_some_iff.mp h
  by_cases hin : s.call.off < s.call.size
  · rw [stores_effect hin] at hturn
    obtain ⟨k, hk, rfl⟩ := Option.map_eq_some_iff.mp hturn
    exact ⟨hin, k, hk, rfl⟩
  · rw [turn_eq_none hin] at hturn
    cases hturn

theorem LoggedCall.Inside.off_add (h : s.Inside pools dtype size mem) {k : UInt32}
    (hin : s.call.off < s.call.size) (hsize : size.toNat ≤ 2 ^ 31 - 4096)
    (hk : stride dtype = some k) :
    (s.call.off + k).toNat = s.call.off.toNat + k.toNat ∧
      s.call.off.toNat + k.toNat ≤ 2 ^ 31 - 4096 := by
  have hlt := UInt32.lt_iff_toNat_lt.mp hin
  have hdvd := h.aligned k hk
  rw [h.size] at hlt
  rw [UInt32.toNat_add]
  obtain rfl | rfl := stride_cases hk
  · have hstep : (512 : UInt32).toNat = 512 := rfl
    rw [hstep] at hdvd ⊢
    omega
  · have hstep : (4096 : UInt32).toNat = 4096 := rfl
    rw [hstep] at hdvd ⊢
    omega

/-- **A turn stays inside.** -/
theorem LoggedCall.Inside.step (h : s.Inside pools dtype size mem)
    (hsize : size.toNat ≤ 2 ^ 31 - 4096)
    (hst : (iodataCall pools dtype D size mem).step d s = some s') :
    s'.Inside pools dtype size mem := by
  obtain ⟨hin, k, hk, rfl⟩ := step_cases hst
  obtain ⟨hadd, hle⟩ := h.off_add hin hsize hk
  have hdvd := h.aligned k hk
  have hsector : iobSector ∣ s.call.off.toNat := by
    refine Nat.dvd_trans ?_ hdvd
    obtain rfl | rfl := stride_cases hk <;> decide
  refine ⟨?_, ?_, ?_, ?_, ?_, ?_, h.size⟩
  · dsimp only
    rw [hadd]
    exact hle
  · intro k' hk'
    obtain rfl : k = k' := Option.some.inj (hk.symm.trans hk')
    dsimp only
    rw [hadd]
    exact Nat.dvd_add hdvd (Nat.dvd_refl _)
  · dsimp only
    rw [runAll_append, ← h.effect]
  · intro st hmem x hx
    obtain hmem | hmem := List.mem_append.mp hmem
    · exact h.writes st hmem x hx
    · rw [← h.size]
      exact stores_within hin hsector hmem hx
  · intro st hmem x hx
    obtain hmem | hmem := List.mem_append.mp hmem
    · exact h.reads st hmem x hx
    · exact stores_reads hin hmem hx
  · intro x hx hbehind
    dsimp only at hbehind
    by_cases hold : x < s.call.off.toNat
    · obtain ⟨st, hmem, hw⟩ := h.behind x hx (.inl hold)
      exact ⟨st, List.mem_append_left _ hmem, hw⟩
    · rw [hadd, hk] at hbehind
      have hlt : x < s.call.off.toNat + k.toNat := by
        obtain hlt | hnone := hbehind
        · exact hlt
        · cases hnone
      rw [← h.size] at hx
      obtain ⟨st, hmem, hw⟩ := stores_cover (D := D) (d := d) hin hk (by omega) hlt hx
      exact ⟨st, List.mem_append_right _ hmem, hw⟩

theorem reachable_inside (hsize : size.toNat ≤ 2 ^ 31 - 4096)
    (h : (iodataCall pools dtype D size mem).Reachable always s) :
    s.Inside pools dtype size mem :=
  h.invariant newCall_inside fun _ _ _ hI _ hst => hI.step hsize hst

/-- The call has returned: its loop has no further turn. -/
def Returned (pools : Pools) (dtype : DataType) (D : UInt64) (s : LoggedCall) : Prop :=
  ∀ d, s.call.turn pools dtype D d = none

theorem returned_iff : Returned pools dtype D s ↔
    ¬ s.call.off < s.call.size ∨ stride dtype = none := by
  constructor
  · intro h
    by_cases hin : s.call.off < s.call.size
    · have hnone := h ⟨0, 0, 0⟩
      rw [stores_effect hin] at hnone
      exact .inr (Option.map_eq_none_iff.mp hnone)
    · exact .inl hin
  · rintro (hin | hk) d
    · exact turn_eq_none hin
    · by_cases hin : s.call.off < s.call.size
      · rw [stores_effect hin, hk]
        rfl
      · exact turn_eq_none hin

theorem LoggedCall.Inside.covered (h : s.Inside pools dtype size mem)
    (hret : Returned pools dtype D s) {x : ℕ} (hx : x < size.toNat) :
    ∃ st ∈ s.log, st.Writes x := by
  apply h.behind x hx
  obtain hover | hnone := returned_iff.mp hret
  · rw [UInt32.lt_iff_toNat_lt, h.size] at hover
    left
    omega
  · exact .inr hnone

/-- **The rest of the memory stays.** -/
theorem LoggedCall.Inside.outside (h : s.Inside pools dtype size mem) {x : ℕ}
    (hx : sectorsUp size.toNat ≤ x) : s.call.mem x = mem x := by
  rw [h.effect]
  apply runAll_outside
  intro st hst hw
  have hlt := h.writes st hst x hw
  omega

/-- **The buffer is what the call makes of it**: once the call has returned, what was there
before is nowhere in it. -/
theorem LoggedCall.Inside.filled (h : s.Inside pools dtype size mem)
    (hret : Returned pools dtype D s) {x : ℕ} (hx : x < size.toNat) (mem' : Mem) :
    s.call.mem x = runAll (pools.dbuf dtype) mem' s.log x := by
  rw [h.effect]
  exact runAll_inside (h.covered hret hx)

/-- **Only the pool is read**: memory past its end makes no difference. -/
theorem LoggedCall.Inside.pool (h : s.Inside pools dtype size mem) {dbuf : ℕ → UInt8}
    (hsame : ∀ x < poolBytes, pools.dbuf dtype x = dbuf x) :
    s.call.mem = runAll dbuf mem s.log := by
  rw [h.effect]
  apply runAll_congr
  intro st hst x hx
  exact hsame x (h.reads st hst x hx)

/-- **The call returns**, whatever is drawn. The loop counts in an `int` and compares it with an
unsigned size; up to the bound on `size` the counter stays positive, so the comparison is of the
two numbers and each turn takes it a page or a sector further. -/
theorem iodataCall_returns (hsize : size.toNat ≤ 2 ^ 31 - 4096) (draws : ℕ → PageDraws) :
    ∃ n s, Run (iodataCall pools dtype D size mem) always
      (iodataCall pools dtype D size mem).init ((List.range n).map draws) s ∧
      Returned pools dtype D s := by
  refine finishes_of_stream (I := LoggedCall.Inside pools dtype size mem)
    (μ := fun s => size.toNat - s.call.off.toNat) ?keep ?dec ?prog draws _ newCall_inside
  case keep =>
    intro s d s' h _ hst
    exact h.step hsize hst
  case dec =>
    intro s d s' h _ hst
    obtain ⟨hin, k, hk, rfl⟩ := step_cases hst
    obtain ⟨hadd, -⟩ := h.off_add hin hsize hk
    have hpos : 0 < k.toNat := by
      obtain rfl | rfl := stride_cases hk <;> decide
    rw [UInt32.lt_iff_toNat_lt, h.size] at hin
    dsimp only
    omega
  case prog =>
    intro s h hnot d
    rw [returned_iff, not_or, not_not] at hnot
    obtain ⟨hin, hloop⟩ := hnot
    obtain ⟨k, hk⟩ := Option.ne_none_iff_exists'.mp hloop
    have hsome : ((iodataCall pools dtype D size mem).step d s).isSome := by
      unfold iodataCall
      dsimp only
      rw [stores_effect hin, hk]
      rfl
    obtain ⟨s', hst⟩ := Option.isSome_iff_exists.mp hsome
    exact ⟨s', trivial, hst⟩

end Call

/-! ## The buffer -/

section Shmem

/-- What is mapped for `nbytes` has room for as many bytes in whole sectors. When rounding up
passes the largest `int`, what `mmap` is asked for is larger than any buffer. -/
theorem sectorsUp_le_alignShmem {nbytes : Int32} {size : ℕ} (h : (size : ℤ) ≤ nbytes.toInt) :
    sectorsUp size ≤ (alignShmem nbytes).toNat := by
  have hnonneg : 0 ≤ nbytes.toInt := Int.le_trans (Int.natCast_nonneg size) h
  have hbits : nbytes.toBitVec.toNat = nbytes.toInt.toNat := toNat_toUInt32_of_nonneg hnonneg
  have hlt : nbytes.toInt < 2 ^ 31 := nbytes.toInt_lt
  have hround : ((nbytes + 4095) &&& ~~~4095).toUInt32.toNat =
      (nbytes.toInt.toNat + 4095) % 2 ^ 32 / 4096 * 4096 := by
    have hval : ((nbytes + 4095) &&& ~~~4095).toUInt32.toNat =
        ((nbytes.toBitVec + 4095#32) &&& ~~~BitVec.ofNat 32 (2 ^ 12 - 1)).toNat := rfl
    rw [hval, toNat_and_not_mask, BitVec.toNat_add, hbits]
    rfl
  rw [alignShmem, toNat_u64OfI32_eq, hround]
  unfold sectorsUp iobSector
  split <;> omega

end Shmem

/-- **`iob_iodata` fills its buffer and no more.** With any draws the call returns. Its stores
account for the memory, every byte of the buffer is in one of them, and none of them writes past
the buffer in whole sectors or reads past the pool; and a buffer of `iob_align_shmem` has room
for that. -/
theorem iodata_fills (pools : Pools) (dtype : DataType) (D : UInt64) {size : UInt32} (mem : Mem)
    (hsize : size.toNat ≤ 2 ^ 31 - 4096) :
    (∀ draws : ℕ → PageDraws, ∃ n s, Run (iodataCall pools dtype D size mem) always
      (iodataCall pools dtype D size mem).init ((List.range n).map draws) s ∧
      Returned pools dtype D s) ∧
    (∀ s, (iodataCall pools dtype D size mem).Reachable always s →
      s.call.off.toNat < 2 ^ 31 ∧
      s.call.mem = runAll (pools.dbuf dtype) mem s.log ∧
      (∀ st ∈ s.log, ∀ x, st.Writes x → x < sectorsUp size.toNat) ∧
      (∀ st ∈ s.log, ∀ x, st.Reads x → x < poolBytes) ∧
      (Returned pools dtype D s → ∀ x < size.toNat, ∃ st ∈ s.log, st.Writes x)) ∧
    ∀ nbytes : Int32, (size.toNat : ℤ) ≤ nbytes.toInt →
      sectorsUp size.toNat ≤ (alignShmem nbytes).toNat := by
  refine ⟨iodataCall_returns hsize, fun s hs => ?_, fun nbytes => sectorsUp_le_alignShmem⟩
  have h := reachable_inside hsize hs
  refine ⟨?_, h.effect, h.writes, h.reads, fun hret x => h.covered hret⟩
  have hoff := h.off
  omega

/-- 700 bytes of compressible data, of which the second sector is cut short. -/
theorem iodata_fills_700 :
    (∃ s, (iodataCall countingPools .compressible 1 700 fun _ => 0).Reachable always s ∧
      ∀ x < 700, ∃ st ∈ s.log, st.Writes x) ∧
    sectorsUp 700 ≤ (alignShmem 700).toNat := by
  obtain ⟨hret, hall, hroom⟩ :=
    @iodata_fills countingPools .compressible 1 700 (fun _ => 0) (by decide)
  obtain ⟨n, s, hrun, hdone⟩ := hret fun _ => someDraws
  have hreach : (iodataCall countingPools .compressible 1 700 fun _ => 0).Reachable always s :=
    ⟨_, hrun⟩
  obtain ⟨-, -, -, -, hcover⟩ := hall s hreach
  exact ⟨⟨s, hreach, hcover hdone⟩, hroom 700 (by decide)⟩

end Blockbench
