import Blockbench.Lib.Blocks
import Blockbench.Lib.Extent
import Blockbench.Iofill.Init

/-!
# `Iofill/WriteInject.lean` — the segments of `do_write_inject`

Write injection puts a burst of writes into the fill. Each of `nsegments` slots works through a
segment of the file at a time: `ithreadinit` lays the segment out as chunks of `writesize` bytes
and shuffles their order once, by whole groups of chunks, and a slot that has written its segment
to the end draws the place of the next one. A burst is `writeinject` writes a slot, wherever in
its segment the slot is by then, so a segment goes over several bursts.

`doWriteInject` is the body of the function between `io_stop` and `io_restart`, as the list of
what it asks of `io_start`. What comes out over all the bursts of a run is `Laps`: write `k` of a
slot is chunk `k % nsegoffs`, in the order of `segofflist`, of segment `k / nsegoffs`.

No option sets any of `InjectParams`, nor `writeinject`. The sleeps of `do_flush_cache` are left
out, and so is the data of the writes.
-/

set_option autoImplicit false

namespace Blockbench
namespace Iofill

open CInt Blocks

/-! ## The parameters and the tables -/

inductive FlushMode
  | off
  | aft
  | bef
  | seg
  | only
  deriving DecidableEq, Repr

inductive PostFlush
  | off
  | sleep
  | read
  | mixed
  deriving DecidableEq, Repr

/-- The fields of `struct cmdparams` that only the write injection reads. -/
structure InjectParams where
  writesize : Int32
  segsize : Int32
  nsegments : Int32
  nsubseg : Int32
  randinject : Int32
  flush : FlushMode
  flushcount : Int32
  postflushtype : PostFlush
  flushalign : Int32
  flushinterval : UInt64
  injectinterval : UInt64

/-- `IOB_MAXSEG`, the length of the slots' tables. -/
abbrev iobMaxseg : ℕ := 4

abbrev nswaps : ℕ := 100

/-- The fields of `struct iothread` that only the write injection uses. `cursegoff` and
`segwrite` have `IOB_MAXSEG` entries, `segofflist` has `nsegoffs`. -/
structure Segments where
  cursegoff : ℕ → UInt64
  segwrite : ℕ → ℕ
  nsegoffs : ℕ
  segofflist : ℕ → ℕ
  maxsegs : UInt64
  writenum : Int32
  flushnum : Int32
  pflushnum : Int32

/-- The shuffle of `segofflist` by groups of `gsize` chunks; a swap draws `lrand48` twice. -/
def shuffle (nsubseg gsize : ℕ) (draws : ℕ → ℕ × ℕ) : ℕ → ℕ → ℕ
  | 0 => id
  | i + 1 => exchangeRun (shuffle nsubseg gsize draws i) ((draws i).1 % nsubseg * gsize)
      ((draws i).2 % nsubseg * gsize) gsize

/-- `segsize / writesize`. -/
def InjectParams.nsegoffs (ip : InjectParams) : ℕ := (ip.segsize / ip.writesize).toInt.toNat

/-- `(maxoff - minoff) / segsize`, and at least one. -/
def maxsegs (p : CmdParams) (ip : InjectParams) : UInt64 :=
  let m := (p.maxoff - p.minoff) / u64OfI32 ip.segsize
  if m = 0 then 1 else m

/-- What `ithreadinit` does for a thread with the parameters `p`; `iob_malloc` zeroes the rest. -/
def segInit (p : CmdParams) (ip : InjectParams) (draws : ℕ → ℕ × ℕ) : Segments :=
  let nsegoffs := if p.writeinject ≠ 0 then ip.nsegoffs else 0
  let nsubseg := ip.nsubseg.toInt.toNat
  { cursegoff := fun _ => 0
    segwrite := fun _ => nsegoffs
    nsegoffs := nsegoffs
    segofflist :=
      if p.writeinject ≠ 0 then shuffle nsubseg (nsegoffs / nsubseg) draws nswaps else fun _ => 0
    maxsegs := maxsegs p ip
    writenum := 0
    flushnum := 0
    pflushnum := 0 }

/-! ## A burst -/

/-- What the function asks of `io_start`, or does to the thread in between. -/
inductive InjectOp
  | write (j : ℕ) (ionum : Int32) (offset : UInt64)
  | flush (ionum writenum : Int32)
  | recoverStart
  | recover
  deriving DecidableEq, Repr

/-- What one call draws: `lrand48()` for the length of a slot's burst, and `IOB_RAND64()` at each
of its writes, which is read where a new segment is due. -/
structure BurstDraws where
  count : ℕ → ℕ
  seg : ℕ → ℕ → UInt64

/-- Where a call is: the tables, whether a slot has flushed, and what it has asked for. -/
structure Burst where
  seg : Segments
  didflush : Bool
  ops : List InjectOp

/-- The `flushcount` zero-length writes of `do_flush_cache`. -/
def flushes (g : Segments) : ℕ → List InjectOp
  | 0 => []
  | n + 1 => flushes g n ++ [.flush (g.flushnum + Int32.ofNat n) g.writenum]

/-- `do_flush_cache`; bit 0 of `prepost` only sleeps. -/
def doFlushCache (ip : InjectParams) (prepost : ℕ) (b : Burst) : Burst :=
  let n := if prepost &&& 0x2 ≠ 0 then ip.flushcount.toInt.toNat else 0
  let b := { b with
    ops := b.ops ++ flushes b.seg n
    seg := { b.seg with flushnum := b.seg.flushnum + Int32.ofNat n } }
  if prepost &&& 0x4 ≠ 0 ∧ (ip.postflushtype = .read ∨ ip.postflushtype = .mixed) then
    { b with ops := b.ops ++ [.recoverStart, .recover] }
  else b

/-- A slot that has written its segment to the end draws the next one. -/
def nextSegment (p : CmdParams) (ip : InjectParams) (j : ℕ) (rand : UInt64) (b : Burst) : Burst :=
  if b.seg.segwrite j = b.seg.nsegoffs then
    let b := { b with
      seg := { b.seg with
        cursegoff := Function.update b.seg.cursegoff j
          (p.minoff + rand % b.seg.maxsegs * u64OfI32 ip.segsize)
        segwrite := Function.update b.seg.segwrite j 0 } }
    if ip.flush = .seg then { doFlushCache ip 0x2 b with didflush := true } else b
  else b

/-- `segofflist[i] * writesize`, in `int`, as it is added to `cursegoff`. -/
def chunk (ip : InjectParams) (order : ℕ → ℕ) (i : ℕ) : UInt64 :=
  u64OfI32 (Int32.ofNat (order i) * ip.writesize)

def injectWrite (p : CmdParams) (ip : InjectParams) (j : ℕ) (rand : UInt64) (b : Burst) : Burst :=
  let b := nextSegment p ip j rand b
  let offset := b.seg.cursegoff j + chunk ip b.seg.segofflist (b.seg.segwrite j)
  { b with
    ops := b.ops ++ [.write j b.seg.writenum offset]
    seg := { b.seg with
      writenum := b.seg.writenum + 1
      segwrite := Function.update b.seg.segwrite j (b.seg.segwrite j + 1) } }

def injectSlot (p : CmdParams) (ip : InjectParams) (j : ℕ) (rand : ℕ → UInt64) :
    ℕ → Burst → Burst
  | 0, b => b
  | n + 1, b => injectWrite p ip j (rand n) (injectSlot p ip j rand n b)

def burstCount (p : CmdParams) (ip : InjectParams) (draw : ℕ) : ℕ :=
  if ip.randinject ≠ 0 then draw % (p.writeinject.toInt.toNat * 2) + 1
  else p.writeinject.toInt.toNat

def injectSlots (p : CmdParams) (ip : InjectParams) (draws : BurstDraws) : ℕ → Burst → Burst
  | 0, b => b
  | j + 1, b => injectSlot p ip j (draws.seg j) (burstCount p ip (draws.count j))
      (injectSlots p ip draws j b)

/-- `do_write_inject`, between `io_stop` and `io_restart`. -/
def doWriteInject (p : CmdParams) (ip : InjectParams) (flush : Bool) (draws : BurstDraws)
    (g : Segments) : Burst :=
  let b : Burst := { seg := g, didflush := false, ops := [] }
  if flush ∧ ip.flush = .only then doFlushCache ip 0x7 b
  else
    let b := if flush ∧ ip.flush = .bef then doFlushCache ip 0x7 b else b
    let b := if ip.flush = .seg then doFlushCache ip 0x1 b else b
    let b := injectSlots p ip draws ip.nsegments.toInt.toNat b
    let b := if b.didflush then doFlushCache ip 0x6 b else b
    if flush ∧ ip.flush = .aft then doFlushCache ip 0x7 b else b

/-! ## The order of the chunks -/

section Shuffle

variable {nsubseg gsize : ℕ}

theorem permuted_shuffle (hsub : 0 < nsubseg) (draws : ℕ → ℕ × ℕ) (n : ℕ) :
    Permuted nsubseg gsize (shuffle nsubseg gsize draws n) := by
  induction n with
  | zero => exact permuted_id
  | succ n ih =>
    exact ih.exchange ⟨(draws n).1 % nsubseg, Nat.mod_lt _ hsub⟩
      ⟨(draws n).2 % nsubseg, Nat.mod_lt _ hsub⟩

/-- **Each chunk of a segment is in the order once.** -/
theorem shuffle_bijOn (hsub : 0 < nsubseg) (draws : ℕ → ℕ × ℕ) (n swaps : ℕ) :
    Set.BijOn (shuffle nsubseg (n / nsubseg) draws swaps) (Set.Iio n) (Set.Iio n) :=
  (permuted_shuffle hsub draws swaps).bijOn (Nat.mul_div_le n nsubseg)

end Shuffle

/-! ## The writes of a slot -/

/-- The offsets a slot has written to, first to last. -/
def slotWrites (j : ℕ) (ops : List InjectOp) : List UInt64 :=
  ops.filterMap fun
    | .write i _ offset => if i = j then some offset else none
    | _ => none

def IsSegment (p : CmdParams) (ip : InjectParams) (off : UInt64) : Prop :=
  ∃ d < (maxsegs p ip).toNat, off = p.minoff + UInt64.ofNat d * u64OfI32 ip.segsize

def Laps (p : CmdParams) (ip : InjectParams) (order : ℕ → ℕ) (n : ℕ) (ws : List UInt64) : Prop :=
  ∃ base : ℕ → UInt64, (∀ q, IsSegment p ip (base q)) ∧
    ∀ (k : ℕ) (h : k < ws.length), ws[k] = base (k / n) + chunk ip order (k % n)

/-- What holds of a slot that has written to `ws`: it is at chunk `segwrite` of the last of the
`q` segments it has drawn. -/
structure AtChunk (p : CmdParams) (ip : InjectParams) (g : Segments) (j : ℕ) (ws : List UInt64)
    (base : ℕ → UInt64) (q : ℕ) : Prop where
  segment : ∀ i, IsSegment p ip (base i)
  count : ws.length + g.nsegoffs = g.nsegoffs * q + g.segwrite j
  segwrite_le : g.segwrite j ≤ g.nsegoffs
  current : 0 < q → g.cursegoff j = base (q - 1)
  laps : ∀ (k : ℕ) (h : k < ws.length),
    ws[k] = base (k / g.nsegoffs) + chunk ip g.segofflist (k % g.nsegoffs)

structure SameTables (g g' : Segments) : Prop where
  nsegoffs : g'.nsegoffs = g.nsegoffs
  segofflist : g'.segofflist = g.segofflist
  maxsegs : g'.maxsegs = g.maxsegs

/-- What is known of a slot over all the bursts so far: `old` are the writes of the bursts before
this one. -/
structure Follows (p : CmdParams) (ip : InjectParams) (g₀ : Segments) (j : ℕ) (old : List UInt64)
    (b : Burst) : Prop where
  same : SameTables g₀ b.seg
  slot : ∃ base q, AtChunk p ip b.seg j (old ++ slotWrites j b.ops) base q

section Writes

variable {p : CmdParams} {ip : InjectParams} {g g' g₀ : Segments} {b : Burst} {j : ℕ}
  {old ws : List UInt64}

@[simp] theorem slotWrites_nil : slotWrites j [] = [] := rfl

@[simp] theorem slotWrites_append (l l' : List InjectOp) :
    slotWrites j (l ++ l') = slotWrites j l ++ slotWrites j l' :=
  List.filterMap_append

@[simp] theorem slotWrites_flushes (n : ℕ) : slotWrites j (flushes g n) = [] := by
  induction n with
  | zero => rfl
  | succ n ih =>
    rw [flushes, slotWrites_append, ih]
    rfl

theorem slotWrites_write (i : ℕ) (ionum : Int32) (offset : UInt64) :
    slotWrites j [.write i ionum offset] = if i = j then [offset] else [] := by
  unfold slotWrites
  by_cases hij : i = j <;> simp [hij]

theorem doFlushCache_keeps (ip : InjectParams) (j prepost : ℕ) (b : Burst) :
    (doFlushCache ip prepost b).seg.cursegoff = b.seg.cursegoff ∧
    (doFlushCache ip prepost b).seg.segwrite = b.seg.segwrite ∧
    SameTables b.seg (doFlushCache ip prepost b).seg ∧
    (doFlushCache ip prepost b).didflush = b.didflush ∧
    slotWrites j (doFlushCache ip prepost b).ops = slotWrites j b.ops := by
  unfold doFlushCache
  dsimp only
  split
  · refine ⟨rfl, rfl, ⟨rfl, rfl, rfl⟩, rfl, ?_⟩
    rw [slotWrites_append, slotWrites_append, slotWrites_flushes, List.append_nil]
    exact List.append_nil _
  · refine ⟨rfl, rfl, ⟨rfl, rfl, rfl⟩, rfl, ?_⟩
    rw [slotWrites_append, slotWrites_flushes, List.append_nil]

theorem SameTables.refl (g : Segments) : SameTables g g := ⟨rfl, rfl, rfl⟩

theorem SameTables.trans {g'' : Segments} (h : SameTables g g') (h' : SameTables g' g'') :
    SameTables g g'' :=
  ⟨h'.nsegoffs.trans h.nsegoffs, h'.segofflist.trans h.segofflist, h'.maxsegs.trans h.maxsegs⟩

theorem AtChunk.congr {base : ℕ → UInt64} {q : ℕ} (h : AtChunk p ip g j ws base q)
    (hsame : SameTables g g') (hoff : g'.cursegoff j = g.cursegoff j)
    (hwrite : g'.segwrite j = g.segwrite j) : AtChunk p ip g' j ws base q := by
  obtain ⟨hsegment, hcount, hle, hcurrent, hlaps⟩ := h
  refine ⟨hsegment, ?_, ?_, ?_, ?_⟩
  · rw [hsame.nsegoffs, hwrite]
    exact hcount
  · rw [hsame.nsegoffs, hwrite]
    exact hle
  · rw [hoff]
    exact hcurrent
  · rw [hsame.nsegoffs, hsame.segofflist]
    exact hlaps

theorem Follows.flushed (h : Follows p ip g₀ j old b) (prepost : ℕ) :
    Follows p ip g₀ j old (doFlushCache ip prepost b) := by
  obtain ⟨hoff, hwrite, hsame, -, hops⟩ := doFlushCache_keeps ip j prepost b
  obtain ⟨hsame₀, base, q, hat⟩ := h
  refine ⟨hsame₀.trans hsame, base, q, ?_⟩
  rw [hops]
  exact hat.congr hsame (congrFun hoff j) (congrFun hwrite j)

theorem isSegment_draw (p : CmdParams) (ip : InjectParams) (rand : UInt64) :
    IsSegment p ip (p.minoff + rand % maxsegs p ip * u64OfI32 ip.segsize) := by
  have hpos : 0 < (maxsegs p ip).toNat := by
    rw [Nat.pos_iff_ne_zero]
    intro hz
    have hzero : maxsegs p ip = 0 := eq_zero_iff.mpr hz
    unfold maxsegs at hzero
    dsimp only at hzero
    split at hzero
    · exact absurd hzero (by decide)
    · contradiction
  refine ⟨(rand % maxsegs p ip).toNat, ?_, ?_⟩
  · rw [UInt64.toNat_mod]
    exact Nat.mod_lt _ hpos
  · rw [UInt64.ofNat_toNat]

theorem AtChunk.redraw {base : ℕ → UInt64} {q : ℕ} (h : AtChunk p ip g j ws base q)
    (hfull : g.segwrite j = g.nsegoffs) {off : UInt64} (hoff : IsSegment p ip off)
    (hsame : SameTables g g') (hcur : g'.cursegoff j = off) (hwrite : g'.segwrite j = 0) :
    AtChunk p ip g' j ws (Function.update base q off) (q + 1) := by
  obtain ⟨hsegment, hcount, hle, hcurrent, hlaps⟩ := h
  have hlen : ws.length = g.nsegoffs * q := by omega
  refine ⟨?_, ?_, ?_, ?_, ?_⟩
  · intro i
    by_cases hiq : i = q
    · subst hiq
      rwa [Function.update_self]
    · rw [Function.update_of_ne hiq]
      exact hsegment i
  · rw [hsame.nsegoffs, hwrite, Nat.mul_succ]
    omega
  · rw [hwrite]
    exact Nat.zero_le _
  · intro _
    rw [hcur, Nat.add_sub_cancel, Function.update_self]
  · intro k hk
    -- the writes made so far are in the segments before
    have hkq : k / g.nsegoffs < q := Nat.div_lt_of_lt_mul (hlen ▸ hk)
    rw [hsame.nsegoffs, hsame.segofflist, Function.update_of_ne (Nat.ne_of_lt hkq)]
    exact hlaps k hk

theorem AtChunk.write {base : ℕ → UInt64} {q : ℕ} (h : AtChunk p ip g j ws base q)
    (hroom : g.segwrite j < g.nsegoffs) (hsame : SameTables g g')
    (hcur : g'.cursegoff j = g.cursegoff j) (hwrite : g'.segwrite j = g.segwrite j + 1) :
    AtChunk p ip g' j (ws ++ [g.cursegoff j + chunk ip g.segofflist (g.segwrite j)]) base q := by
  obtain ⟨hsegment, hcount, hle, hcurrent, hlaps⟩ := h
  have hqpos : 0 < q := Nat.pos_of_ne_zero fun hz => by
    subst hz
    omega
  refine ⟨hsegment, ?_, ?_, ?_, ?_⟩
  · rw [List.length_append, List.length_singleton, hsame.nsegoffs, hwrite]
    omega
  · rw [hsame.nsegoffs, hwrite]
    omega
  · rw [hcur]
    exact hcurrent
  · intro k hk
    rw [hsame.nsegoffs, hsame.segofflist]
    rw [List.length_append, List.length_singleton] at hk
    by_cases hlast : k = ws.length
    · subst hlast
      have hsplit : ws.length = g.nsegoffs * (q - 1) + g.segwrite j := by
        have hmul : g.nsegoffs * q = g.nsegoffs * (q - 1) + g.nsegoffs := by
          rw [← Nat.mul_succ]
          congr
          omega
        omega
      have hquot : ws.length / g.nsegoffs = q - 1 := by
        rw [hsplit, Nat.mul_add_div (by omega), Nat.div_eq_of_lt hroom, Nat.add_zero]
      have hrem : ws.length % g.nsegoffs = g.segwrite j := by
        rw [hsplit, Nat.mul_add_mod, Nat.mod_eq_of_lt hroom]
      rw [List.getElem_append_right (Nat.le_refl _), hquot, hrem, ← hcurrent hqpos]
      simp
    · have hlt : k < ws.length := by omega
      rw [List.getElem_append_left hlt]
      exact hlaps k hlt

/-- The slot that writes has room for a chunk, once it has drawn its next segment. -/
theorem Follows.nextSegment (h : Follows p ip g₀ j old b) (hpos : 0 < g₀.nsegoffs)
    (hmax : g₀.maxsegs = maxsegs p ip) (rand : UInt64) :
    Follows p ip g₀ j old (nextSegment p ip j rand b) ∧
      (Iofill.nextSegment p ip j rand b).seg.segwrite j
        < (Iofill.nextSegment p ip j rand b).seg.nsegoffs := by
  obtain ⟨hsame, base, q, hat⟩ := h
  unfold Iofill.nextSegment
  split
  · rename_i hfull
    dsimp only
    have hdraw := isSegment_draw p ip rand
    rw [← hmax, ← hsame.maxsegs] at hdraw
    -- the tables with the draw in them, whether the segment is flushed or not
    have hnew : ∀ b' : Burst, b'.seg.cursegoff j = p.minoff + rand % b.seg.maxsegs
        * u64OfI32 ip.segsize → b'.seg.segwrite j = 0 → SameTables b.seg b'.seg →
        slotWrites j b'.ops = slotWrites j b.ops →
        Follows p ip g₀ j old b' ∧ b'.seg.segwrite j < b'.seg.nsegoffs := by
      intro b' hcur hzero htables hops
      refine ⟨⟨hsame.trans htables, Function.update base q
        (p.minoff + rand % b.seg.maxsegs * u64OfI32 ip.segsize), q + 1, ?_⟩, ?_⟩
      · rw [hops]
        exact hat.redraw hfull hdraw htables hcur hzero
      · rw [hzero, htables.nsegoffs, hsame.nsegoffs]
        exact hpos
    split
    · obtain ⟨hoff, hwrite, htables, -, hops⟩ := doFlushCache_keeps ip j 0x2
        { b with seg := { b.seg with
          cursegoff := Function.update b.seg.cursegoff j
            (p.minoff + rand % b.seg.maxsegs * u64OfI32 ip.segsize)
          segwrite := Function.update b.seg.segwrite j 0 } }
      refine hnew _ ?_ ?_ ⟨htables.nsegoffs, htables.segofflist, htables.maxsegs⟩ hops
      · exact (congrFun hoff j).trans (Function.update_self ..)
      · exact (congrFun hwrite j).trans (Function.update_self ..)
    · exact hnew _ (Function.update_self ..) (Function.update_self ..) ⟨rfl, rfl, rfl⟩ rfl
  · rename_i hfull
    exact ⟨⟨hsame, base, q, hat⟩, Nat.lt_of_le_of_ne hat.segwrite_le hfull⟩

/-- **One write of the slot itself.** -/
theorem Follows.injectWrite (h : Follows p ip g₀ j old b) (hpos : 0 < g₀.nsegoffs)
    (hmax : g₀.maxsegs = maxsegs p ip) (rand : UInt64) :
    Follows p ip g₀ j old (injectWrite p ip j rand b) := by
  obtain ⟨⟨hsame, base, q, hat⟩, hroom⟩ := h.nextSegment hpos hmax rand
  refine ⟨hsame.trans ⟨rfl, rfl, rfl⟩, base, q, ?_⟩
  unfold Iofill.injectWrite
  dsimp only
  rw [slotWrites_append, slotWrites_write, if_pos rfl, ← List.append_assoc]
  exact hat.write hroom ⟨rfl, rfl, rfl⟩ rfl (Function.update_self ..)

theorem Follows.otherWrite {i : ℕ} (h : Follows p ip g₀ j old b) (hij : j ≠ i) (rand : UInt64) :
    Follows p ip g₀ j old (Iofill.injectWrite p ip i rand b) := by
  have hnext : Follows p ip g₀ j old (Iofill.nextSegment p ip i rand b) := by
    unfold Iofill.nextSegment
    split
    · dsimp only
      -- the other slot's entries are not this one's
      have hmoved : Follows p ip g₀ j old { b with seg := { b.seg with
          cursegoff := Function.update b.seg.cursegoff i
            (p.minoff + rand % b.seg.maxsegs * u64OfI32 ip.segsize)
          segwrite := Function.update b.seg.segwrite i 0 } } := by
        obtain ⟨hsame, base, q, hat⟩ := h
        exact ⟨hsame.trans ⟨rfl, rfl, rfl⟩, base, q, hat.congr ⟨rfl, rfl, rfl⟩
          (Function.update_of_ne hij _ _) (Function.update_of_ne hij _ _)⟩
      split
      · exact ⟨(hmoved.flushed 0x2).same, (hmoved.flushed 0x2).slot⟩
      · exact hmoved
    · exact h
  obtain ⟨hsame, base, q, hat⟩ := hnext
  refine ⟨hsame.trans ⟨rfl, rfl, rfl⟩, base, q, ?_⟩
  unfold Iofill.injectWrite
  dsimp only
  rw [slotWrites_append, slotWrites_write, if_neg (Ne.symm hij), List.append_nil]
  exact hat.congr ⟨rfl, rfl, rfl⟩ rfl (Function.update_of_ne hij _ _)

theorem Follows.injectSlot (h : Follows p ip g₀ j old b) (hpos : 0 < g₀.nsegoffs)
    (hmax : g₀.maxsegs = maxsegs p ip) (i : ℕ) (rand : ℕ → UInt64) (n : ℕ) :
    Follows p ip g₀ j old (injectSlot p ip i rand n b) := by
  induction n with
  | zero => exact h
  | succ n ih =>
    by_cases hij : j = i
    · subst hij
      exact ih.injectWrite hpos hmax (rand n)
    · exact ih.otherWrite hij (rand n)

theorem Follows.injectSlots (h : Follows p ip g₀ j old b) (hpos : 0 < g₀.nsegoffs)
    (hmax : g₀.maxsegs = maxsegs p ip) (draws : BurstDraws) (n : ℕ) :
    Follows p ip g₀ j old (injectSlots p ip draws n b) := by
  induction n with
  | zero => exact h
  | succ n ih => exact ih.injectSlot hpos hmax n (draws.seg n) _

/-- **A burst carries each slot on from where the last one left it.** -/
theorem Follows.doWriteInject
    (h : Follows p ip g₀ j old { seg := g, didflush := false, ops := [] })
    (hpos : 0 < g₀.nsegoffs) (hmax : g₀.maxsegs = maxsegs p ip) (flush : Bool)
    (draws : BurstDraws) : Follows p ip g₀ j old (doWriteInject p ip flush draws g) := by
  have hflush : ∀ (c : Prop) [Decidable c] (prepost : ℕ) (b : Burst), Follows p ip g₀ j old b →
      Follows p ip g₀ j old (if c then doFlushCache ip prepost b else b) := by
    intro c _ prepost b hb
    split
    · exact hb.flushed prepost
    · exact hb
  unfold Iofill.doWriteInject
  dsimp only
  split
  · exact h.flushed 0x7
  · exact hflush _ 0x7 _ (hflush _ 0x6 _ ((hflush _ 0x1 _ (hflush _ 0x7 _ h)).injectSlots hpos
      hmax draws _))

end Writes

end Iofill
end Blockbench
