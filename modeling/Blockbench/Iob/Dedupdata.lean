import Blockbench.Iob.Iodata

/-!
# `Iob/Dedupdata.lean` — numbered dedup data

`iob_dedupdata` fills a buffer with the blocks of a numbered stream. For a type with a pool,
block `srcbno` is the sector of the pool at its number, modulo the sectors of the pool, with the
type and the number written over its first word. So a block is a function of its type and its
number (`numberedSector`), a longer run of blocks is two shorter ones (`fillSectors_add`), and
the first word alone tells two blocks apart: the pool comes round every 8000 sectors, the tag
does not below `2 ^ 56`.

The call is a machine that takes a turn of its loop at a time, with a draw of `lrand48` that
only the one-byte patterns look at. Addresses are absolute, so that two calls can share a
buffer.
-/

set_option autoImplicit false

namespace Blockbench

open CInt Bytes Machine

abbrev poolSectors : ℕ := iobNdatapages * iobPage / iobSector

structure DedupCall where
  size : UInt32
  off : UInt32
  srcbno : UInt64
  mem : Mem

/-- `iob_dedupdata` as far as its loop; for two of the types there is none. -/
def newDedup (dtype : DataType) (bp : ℕ) (size : UInt32) (srcbno : UInt64) (mem : Mem) :
    DedupCall where
  size := size
  off := 0
  srcbno := srcbno
  mem :=
    match dtype with
    | .ones => fill mem bp size.toNat 0xff
    | .zeros => fill mem bp size.toNat 0
    | _ => mem

/-- The body of the loop over the sectors: `doff`, `hdr`, the copy and the tag. -/
def putSector (pools : Pools) (dtype : DataType) (a : ℕ) (srcbno : UInt64) (mem : Mem) : Mem :=
  let doff := (srcbno % UInt64.ofNat poolSectors).toNat * iobSector
  let hdr := (dtype.code <<< 56) + srcbno
  store64 (copy mem a iobSector fun y => pools.dbuf dtype (doff + y)) a hdr

/-- One turn of its loop, `none` when the loop is over. -/
def DedupCall.turn (pools : Pools) (dtype : DataType) (bp : ℕ) (lrand : Fin (2 ^ 31))
    (c : DedupCall) : Option DedupCall :=
  if c.off < c.size then
    match dtype with
    | .ones => none
    | .zeros => none
    | .pattern1 =>
      some { c with
        off := c.off + 512
        mem := fill c.mem (bp + c.off.toNat) iobSector (UInt8.ofNat (lrand % 256)) }
    | _ =>
      some { c with
        off := c.off + 512
        srcbno := c.srcbno + 1
        mem := putSector pools dtype (bp + c.off.toNat) c.srcbno c.mem }
  else none

def dedupdata (pools : Pools) (dtype : DataType) (bp : ℕ) (size : UInt32) (srcbno : UInt64)
    (mem : Mem) : Machine DedupCall (Fin (2 ^ 31)) where
  init := newDedup dtype bp size srcbno mem
  step := DedupCall.turn pools dtype bp

/-- The call of `n` sectors returns, with the memory `mem'`. -/
def Returns (pools : Pools) (dtype : DataType) (bp n : ℕ) (srcbno : UInt64) (mem mem' : Mem) :
    Prop :=
  ∃ c, (dedupdata pools dtype bp (UInt32.ofNat (iobSector * n)) srcbno mem).Reachable always c ∧
    ¬ c.off < c.size ∧ c.mem = mem'

/-! ## Blocks -/

def numberedSector (pools : Pools) (dtype : DataType) (bno : UInt64) (y : ℕ) : UInt8 :=
  if y < 8 then byteOf ((dtype.code <<< 56) + bno) y
  else pools.dbuf dtype ((bno % UInt64.ofNat poolSectors).toNat * iobSector + y)

/-- The loop, as a function: `n` blocks from `srcbno` on. -/
def fillSectors (pools : Pools) (dtype : DataType) (bp : ℕ) (srcbno : UInt64) : ℕ → Mem → Mem
  | 0, mem => mem
  | n + 1, mem =>
    putSector pools dtype (bp + iobSector * n) (srcbno + UInt64.ofNat n)
      (fillSectors pools dtype bp srcbno n mem)

section Blocks

variable {pools : Pools} {dtype : DataType} {bp a n k x y : ℕ} {srcbno : UInt64} {mem : Mem}

theorem putSector_inside (hy : y < iobSector) :
    putSector pools dtype a srcbno mem (a + y) = numberedSector pools dtype srcbno y := by
  unfold putSector numberedSector
  split
  · rename_i hy8
    exact store64_inside hy8
  · rw [store64_outside (by omega), copy_inside hy]

theorem putSector_outside (hx : x < a ∨ a + iobSector ≤ x) :
    putSector pools dtype a srcbno mem x = mem x := by
  unfold putSector
  unfold iobSector at *
  rw [store64_outside (by omega), copy_outside hx]

/-- **More blocks are two runs of blocks**, the second from the number the first has come to. -/
theorem fillSectors_add (a b : ℕ) (mem : Mem) :
    fillSectors pools dtype bp srcbno (a + b) mem =
      fillSectors pools dtype (bp + iobSector * a) (srcbno + UInt64.ofNat a) b
        (fillSectors pools dtype bp srcbno a mem) := by
  induction b with
  | zero => rfl
  | succ b ih =>
    rw [← Nat.add_assoc, fillSectors, fillSectors, ih, Nat.mul_add, Nat.add_assoc bp,
      UInt64.ofNat_add, UInt64.add_assoc]

theorem fillSectors_inside (hk : k < n) (hy : y < iobSector) :
    fillSectors pools dtype bp srcbno n mem (bp + iobSector * k + y) =
      numberedSector pools dtype (srcbno + UInt64.ofNat k) y := by
  induction n with
  | zero => omega
  | succ n ih =>
    rw [fillSectors]
    by_cases hlast : k = n
    · subst hlast
      exact putSector_inside hy
    · have hlt : k < n := by omega
      rw [putSector_outside]
      · exact ih hlt
      · left
        unfold iobSector at *
        omega

end Blocks

/-! ## A call -/

section Call

variable {pools : Pools} {dtype : DataType} {bp n k : ℕ} {srcbno : UInt64} {mem mem' : Mem}

def sectorsDone (pools : Pools) (dtype : DataType) (bp n : ℕ) (srcbno : UInt64) (mem : Mem)
    (k : ℕ) : DedupCall where
  size := UInt32.ofNat (iobSector * n)
  off := UInt32.ofNat (iobSector * k)
  srcbno := srcbno + UInt64.ofNat k
  mem := fillSectors pools dtype bp srcbno k mem

theorem toNat_sectors (hn : iobSector * n < 2 ^ 31) :
    (UInt32.ofNat (iobSector * n)).toNat = iobSector * n :=
  UInt32.toNat_ofNat_of_lt' (by show iobSector * n < 2 ^ 32; omega)

theorem newDedup_eq (h : dtype.isDedupable) :
    newDedup dtype bp (UInt32.ofNat (iobSector * n)) srcbno mem =
      sectorsDone pools dtype bp n srcbno mem 0 := by
  have hbno : srcbno + UInt64.ofNat 0 = srcbno := UInt64.add_zero _
  unfold newDedup sectorsDone
  rw [hbno]
  cases dtype <;> first | exact absurd h (by decide) | rfl

theorem off_lt_iff (hn : iobSector * n < 2 ^ 31) (hk : k ≤ n) :
    (sectorsDone pools dtype bp n srcbno mem k).off <
      (sectorsDone pools dtype bp n srcbno mem k).size ↔ k < n := by
  have hle : iobSector * k ≤ iobSector * n := Nat.mul_le_mul_left _ hk
  rw [UInt32.lt_iff_toNat_lt, sectorsDone, toNat_sectors hn, toNat_sectors (by omega)]
  exact Nat.mul_lt_mul_left (by decide)

/-- **A turn does the next sector.** -/
theorem turn_sectorsDone (h : dtype.isDedupable) (hn : iobSector * n < 2 ^ 31) (hk : k < n)
    (lrand : Fin (2 ^ 31)) :
    (sectorsDone pools dtype bp n srcbno mem k).turn pools dtype bp lrand =
      some (sectorsDone pools dtype bp n srcbno mem (k + 1)) := by
  have hlt : (sectorsDone pools dtype bp n srcbno mem k).off <
      (sectorsDone pools dtype bp n srcbno mem k).size := (off_lt_iff hn hk.le).mpr hk
  have hle : iobSector * k ≤ iobSector * n := Nat.mul_le_mul_left _ hk.le
  have hoff : (UInt32.ofNat (iobSector * k)).toNat = iobSector * k := toNat_sectors (by omega)
  have hnext : UInt32.ofNat (iobSector * k) + 512 = UInt32.ofNat (iobSector * (k + 1)) := by
    rw [Nat.mul_succ, UInt32.ofNat_add]
    rfl
  have hbno : srcbno + UInt64.ofNat k + 1 = srcbno + UInt64.ofNat (k + 1) := by
    rw [UInt64.ofNat_add, UInt64.add_assoc]
    rfl
  have hgo : (sectorsDone pools dtype bp n srcbno mem k).turn pools dtype bp lrand =
      some { sectorsDone pools dtype bp n srcbno mem k with
        off := UInt32.ofNat (iobSector * k) + 512
        srcbno := srcbno + UInt64.ofNat k + 1
        mem := putSector pools dtype (bp + (UInt32.ofNat (iobSector * k)).toNat)
          (srcbno + UInt64.ofNat k) (fillSectors pools dtype bp srcbno k mem) } := by
    unfold DedupCall.turn
    rw [if_pos hlt]
    cases dtype <;> first | exact absurd h (by decide) | rfl
  rw [hgo, hnext, hbno, hoff]
  rfl

theorem run_sectorsDone (h : dtype.isDedupable) (hn : iobSector * n < 2 ^ 31) (hk : k ≤ n) :
    Run (dedupdata pools dtype bp (UInt32.ofNat (iobSector * n)) srcbno mem) always
      (sectorsDone pools dtype bp n srcbno mem 0) (List.replicate k 0)
      (sectorsDone pools dtype bp n srcbno mem k) := by
  induction k with
  | zero => exact .nil
  | succ k ih =>
    rw [List.replicate_succ']
    exact (ih (by omega)).snoc trivial (turn_sectorsDone h hn (by omega) 0)

theorem sectorsDone_of_reachable (h : dtype.isDedupable) (hn : iobSector * n < 2 ^ 31)
    {c : DedupCall}
    (hc : (dedupdata pools dtype bp (UInt32.ofNat (iobSector * n)) srcbno mem).Reachable
      always c) : ∃ k ≤ n, c = sectorsDone pools dtype bp n srcbno mem k := by
  refine hc.invariant (I := fun c => ∃ k ≤ n, c = sectorsDone pools dtype bp n srcbno mem k)
    ⟨0, n.zero_le, newDedup_eq h⟩ ?_
  rintro c lrand c' ⟨k, hk, rfl⟩ - hst
  have hlt : k < n := by
    by_contra hge
    have hturn : (sectorsDone pools dtype bp n srcbno mem k).turn pools dtype bp lrand
        = none := if_neg fun hlt => hge ((off_lt_iff hn hk).mp hlt)
    exact absurd (hturn.symm.trans hst) nofun
  exact ⟨k + 1, hlt, Option.some.inj (hst.symm.trans (turn_sectorsDone h hn hlt lrand))⟩

/-- **The call returns, and always with the same data.** -/
theorem returns_iff (h : dtype.isDedupable) (hn : iobSector * n < 2 ^ 31) :
    Returns pools dtype bp n srcbno mem mem' ↔
      mem' = fillSectors pools dtype bp srcbno n mem := by
  constructor
  · rintro ⟨c, hc, hover, rfl⟩
    obtain ⟨k, hk, rfl⟩ := sectorsDone_of_reachable h hn hc
    rw [off_lt_iff hn hk] at hover
    obtain rfl : k = n := by omega
    rfl
  · rintro rfl
    have hreach : (dedupdata pools dtype bp (UInt32.ofNat (iobSector * n)) srcbno mem).Reachable
        always (sectorsDone pools dtype bp n srcbno mem n) :=
      ⟨_, newDedup_eq h ▸ run_sectorsDone h hn le_rfl⟩
    refine ⟨_, hreach, ?_, rfl⟩
    rw [off_lt_iff hn le_rfl]
    exact lt_irrefl n

end Call

/-! ## The block numbers -/

section Numbers

variable {pools : Pools} {dtype dtype' : DataType} {bno bno' : UInt64}

theorem code_inj (h : dtype.code = dtype'.code) : dtype = dtype' := by
  cases dtype <;> cases dtype' <;> first | rfl | exact absurd h (by decide)

theorem toNat_blockHdr (h : bno.toNat < 2 ^ 56) :
    ((dtype.code <<< 56) + bno).toNat = 2 ^ 56 * dtype.code.toNat + bno.toNat := by
  have hcode := toNat_code_lt dtype
  rw [toNat_add_of_lt, toNat_code_shift]
  rw [toNat_code_shift]
  omega

/-- **The first word tells two blocks apart.** -/
theorem numberedSector_inj (h : bno.toNat < 2 ^ 56) (h' : bno'.toNat < 2 ^ 56)
    (hsame : ∀ y < 8, numberedSector pools dtype bno y = numberedSector pools dtype' bno' y) :
    dtype = dtype' ∧ bno = bno' := by
  have hword : (dtype.code <<< 56) + bno = (dtype'.code <<< 56) + bno' := by
    apply word_ext
    intro y hy
    have := hsame y hy
    rwa [numberedSector, numberedSector, if_pos hy, if_pos hy] at this
  have hnat := congrArg UInt64.toNat hword
  rw [toNat_blockHdr h, toNat_blockHdr h'] at hnat
  constructor
  · apply code_inj
    rw [← UInt64.toNat_inj]
    omega
  · rw [← UInt64.toNat_inj]
    omega

end Numbers

/-- Some call, of blocks numbered below `2 ^ 56`, has written the sector `p` as its block
`bno`. -/
def Numbered (pools : Pools) (dtype : DataType) (bno : ℕ) (p : Fin iobSector → UInt8) : Prop :=
  ∃ bp n srcbno mem mem', ∃ k < n, iobSector * n < 2 ^ 31 ∧ srcbno.toNat + n ≤ 2 ^ 56 ∧
    Returns pools dtype bp n srcbno mem mem' ∧ srcbno.toNat + k = bno ∧
    p = fun y : Fin iobSector => mem' (bp + iobSector * k + y)

theorem Numbered.eq {pools : Pools} {dtype : DataType} {bno : ℕ} {p : Fin iobSector → UInt8}
    (hd : dtype.isDedupable) (h : Numbered pools dtype bno p) :
    bno < 2 ^ 56 ∧
      p = fun y : Fin iobSector => numberedSector pools dtype (UInt64.ofNat bno) y := by
  obtain ⟨bp, n, srcbno, mem, mem', k, hk, hn, htop, hret, rfl, rfl⟩ := h
  refine ⟨by omega, ?_⟩
  rw [returns_iff hd hn] at hret
  subst hret
  funext y
  rw [fillSectors_inside hk y.isLt, UInt64.ofNat_add, UInt64.ofNat_toNat]

/-- **Numbered dedup data is a function of the block number.** A call of `a + b` sectors returns
the memory that a call of the first `a` and then one of the other `b`, from the number the
first has come to, return; and of the sectors such calls write, two are equal exactly when they
have the same type and the same number. -/
theorem dedup_numbered (pools : Pools) :
    (∀ dtype : DataType, dtype.isDedupable → ∀ (a b bp : ℕ) (s : UInt64) (mem : Mem),
      iobSector * (a + b) < 2 ^ 31 →
      ∃ first all, (∀ mem', Returns pools dtype bp a s mem mem' ↔ mem' = first) ∧
        (∀ mem', Returns pools dtype (bp + iobSector * a) b (s + UInt64.ofNat a) first mem' ↔
          mem' = all) ∧
        ∀ mem', Returns pools dtype bp (a + b) s mem mem' ↔ mem' = all) ∧
    ∀ dtype dtype' : DataType, dtype.isDedupable → dtype'.isDedupable →
      ∀ bno bno' p p', Numbered pools dtype bno p → Numbered pools dtype' bno' p' →
        (p = p' ↔ dtype = dtype' ∧ bno = bno') := by
  constructor
  · intro dtype hd a b bp s mem hn
    refine ⟨fillSectors pools dtype bp s a mem, fillSectors pools dtype bp s (a + b) mem,
      fun mem' => ?_, fun mem' => ?_, fun mem' => ?_⟩
    · exact returns_iff hd (by unfold iobSector at *; omega)
    · rw [returns_iff hd (by unfold iobSector at *; omega), fillSectors_add]
    · exact returns_iff hd hn
  · intro dtype dtype' hd hd' bno bno' p p' h h'
    obtain ⟨hlt, hp⟩ := h.eq hd
    obtain ⟨hlt', hp'⟩ := h'.eq hd'
    have hof : ∀ m < 2 ^ 56, (UInt64.ofNat m).toNat = m := fun m hm =>
      UInt64.toNat_ofNat_of_lt' (by show m < 2 ^ 64; omega)
    constructor
    · intro hsame
      rw [hp, hp'] at hsame
      have hbytes : ∀ y < 8, numberedSector pools dtype (UInt64.ofNat bno) y =
          numberedSector pools dtype' (UInt64.ofNat bno') y := fun y hy =>
        congrFun hsame ⟨y, by unfold iobSector; omega⟩
      obtain ⟨htype, hbno⟩ :=
        numberedSector_inj (by rwa [hof bno hlt]) (by rwa [hof bno' hlt']) hbytes
      refine ⟨htype, ?_⟩
      rw [← hof bno hlt, hbno, hof bno' hlt']
    · rintro ⟨rfl, rfl⟩
      rw [hp, hp']

/-- Three sectors of virtual machine data from block 7, as two and one. -/
theorem dedup_numbered_three : ∃ first all,
    (∀ mem', Returns countingPools .vm 0 2 7 (fun _ => 0) mem' ↔ mem' = first) ∧
    (∀ mem', Returns countingPools .vm 1024 1 9 first mem' ↔ mem' = all) ∧
    ∀ mem', Returns countingPools .vm 0 3 7 (fun _ => 0) mem' ↔ mem' = all :=
  (dedup_numbered countingPools).1 .vm rfl 2 1 0 7 (fun _ => 0) (by decide)

end Blockbench
