import Blockbench.Iofill.Rendezvous

/-!
# `Iofill/Bursts.lean` — what the bursts of a run write

The tables of thread 0 go from one burst to the next, so `Follows` of `Iofill/WriteInject.lean`,
which is about one burst, becomes an invariant of the runs of `Iofill/Handshake.lean`: what a slot
has written and what it still has to write in this burst are at chunk `segwrite` of its segment
(`Carried`). Requests only move from the one list to the other, so it holds of what is written at
every moment that write `k` of a slot is chunk `k % nsegoffs` of segment `k / nsegoffs`.

Since the order of the chunks has each of them once, a slot that has been through a segment has
written every byte of it once (`injected_laps`).
-/

set_option autoImplicit false

namespace Blockbench
namespace Iofill

open CInt Finset

variable {T : ℕ}

/-! ## The tables, from burst to burst -/

/-- What thread `z` still has to ask for in its burst. -/
@[simp] def Place.todo : Place → List InjectOp
  | .inject _ todo | .injectIo _ todo => todo
  | .top | .check | .answer | .parked | .loop | .stop _ _ _ | .restart _ _ => []

/-- What slot `j` of thread `z` has written in the run. -/
def InjectState.written (s : InjectState T) (j : ℕ) : List UInt64 :=
  slotWrites j s.injected.reverse

/-- Slot `j` of thread `z` is where its writes so far and those of its burst leave it. -/
structure Carried (p : CmdParams) (ip : InjectParams) (g₀ : Segments) (z : Fin T) (j : ℕ)
    (s : InjectState T) : Prop where
  same : SameTables g₀ (s.seg z)
  slot : ∃ base q, AtChunk p ip (s.seg z) j
    (s.written j ++ slotWrites j (s.place z).todo) base q

section Carried

variable {cp : CmdParams} {p : CmdParams} {ip : InjectParams} {g₀ : Segments}
  {endtime : UInt64} {starttime : Fin T → UInt64} {draws : Fin T → ℕ → ℕ × ℕ}
  {s t : InjectState T} {i z : Fin T} {j : ℕ}

theorem Carried.congr (h : Carried p ip g₀ z j s) (hseg : t.seg z = s.seg z)
    (hinj : t.injected = s.injected)
    (htodo : slotWrites j (t.place z).todo = slotWrites j (s.place z).todo) :
    Carried p ip g₀ z j t := by
  obtain ⟨hsame, base, q, hat⟩ := h
  refine ⟨hseg ▸ hsame, base, q, ?_⟩
  rw [hseg, InjectState.written, hinj, htodo]
  exact hat

theorem Carried.quiet (h : Carried p ip g₀ z j s) (honly : OnlyMoved i s t)
    (hseg : t.seg = s.seg) (hinj : t.injected = s.injected)
    (htodo : slotWrites j (t.place i).todo = slotWrites j (s.place i).todo) :
    Carried p ip g₀ z j t := by
  refine h.congr (congrFun hseg z) hinj ?_
  by_cases hzi : z = i
  · subst hzi
    exact htodo
  · rw [honly.place z hzi]

/-- **Every step carries the slots on.** -/
theorem Carried.move (hr : Rendezvous cp s) (hz : (z : ℕ) = 0)
    (hp : p = threadParams cp z) (hpos : 0 < g₀.nsegoffs) (hmax : g₀.maxsegs = maxsegs p ip)
    (h : Carried p ip g₀ z j s) (hmove : InjectMove cp ip endtime s i t) :
    Carried p ip g₀ z j t := by
  have honly := hmove.onlyMoved
  -- only thread 0 is in a burst
  have hzero : (s.place i).leader ≠ .free → i = z := fun hl => fin_eq_zero (hr.zero_of_leads hl) hz
  cases hmove with
  | @stopped _ site flush k d b hplace hk hb =>
    obtain rfl := hzero (by simp [hplace])
    obtain ⟨hsame, base, q, hat⟩ := h
    have hip : injectParams ip i = ip := if_neg (not_not.mpr hz)
    rw [hr.params i, ← hp, hip] at hb
    have hfollows : Follows p ip g₀ j (s.written j) b := by
      rw [hb]
      refine Follows.doWriteInject ⟨hsame, base, q, ?_⟩ hpos hmax flush d
      rw [hplace] at hat
      exact hat
    obtain ⟨hsame', base', q', hat'⟩ := hfollows
    refine ⟨?_, base', q', ?_⟩
    · simpa using hsame'
    · simpa [InjectState.written] using hat'
  | @request _ site op todo d hplace =>
    obtain rfl := hzero (by simp [hplace])
    obtain ⟨hsame, base, q, hat⟩ := h
    refine ⟨hsame, base, q, ?_⟩
    rw [hplace] at hat
    simpa [InjectState.written, ← slotWrites_append] using hat
  | @recover _ site todo d g hplace hg =>
    obtain rfl := hzero (by simp [hplace])
    obtain ⟨hsame, base, q, hat⟩ := h
    rw [hplace] at hat
    refine ⟨?_, base, q, ?_⟩
    · simp only [Function.update_self, hg]
      exact ⟨hsame.nsegoffs, hsame.segofflist, hsame.maxsegs⟩
    · have hkeeps : SameTables (s.seg i) g := ⟨by simp [hg], by simp [hg], by simp [hg]⟩
      simpa [InjectState.written] using hat.congr hkeeps (by simp [hg]) (by simp [hg])
  | recoverStart hplace => exact h.quiet honly rfl rfl (by simp [hplace, slotWrites])
  | recovered hplace => exact h.quiet honly rfl rfl (by simp [hplace, slotWrites])
  | finish hplace => exact h.quiet honly rfl rfl (by simp [hplace])
  | @returned _ site k hplace hk =>
    refine h.quiet honly rfl rfl ?_
    cases site <;> simp [hplace, Site.next]
  | @bottom _ f hplace | due hplace | early hplace | see hplace | pass hplace | answer hplace
  | wake hplace | number hplace | skipStop hplace | collect hplace | startRestart hplace
  | skipRestart hplace | release hplace => exact h.quiet honly rfl rfl (by simp [hplace])
  | fill hplace => exact h.quiet honly rfl rfl rfl

theorem carried_init :
    Carried (threadParams cp z) ip (segInit (threadParams cp z) ip (draws z)) z j
      (injectInit cp ip starttime draws) where
  same := SameTables.refl _
  slot := by
    refine ⟨fun _ => (threadParams cp z).minoff + 0 % maxsegs (threadParams cp z) ip
      * u64OfI32 ip.segsize, 0, ?_⟩
    refine ⟨fun _ => isSegment_draw _ _ 0, ?_, Nat.le_refl _, fun h => absurd h (Nat.lt_irrefl 0),
      fun k h => absurd h (Nat.not_lt_zero k)⟩
    simp [injectInit, InjectState.written, segInit]

theorem writeinject_leader (cp : CmdParams) (hz : (z : ℕ) = 0) :
    (threadParams cp z).writeinject = cp.writeinject := by
  unfold threadParams
  dsimp only
  rw [if_neg (not_not.mpr hz)]
  split <;> split <;> rfl

theorem carried_of_reachable (hz : (z : ℕ) = 0) (hon : cp.writeinject ≠ 0)
    (hpos : 0 < ip.nsegoffs)
    (h : (inject cp ip endtime starttime draws).Reachable Machine.always s) :
    Carried (threadParams cp z) ip (segInit (threadParams cp z) ip (draws z)) z j s := by
  have hon' : (threadParams cp z).writeinject ≠ 0 := by
    rw [writeinject_leader cp hz]
    exact hon
  have hpos' : 0 < (segInit (threadParams cp z) ip (draws z)).nsegoffs := by
    simpa [segInit, hon'] using hpos
  have hkeep := h.invariant (I := fun s => Rendezvous cp s ∧ Carried (threadParams cp z) ip
    (segInit (threadParams cp z) ip (draws z)) z j s) ⟨rendezvous_init, carried_init⟩ ?_
  · exact hkeep.2
  · rintro s a t ⟨hr, hc⟩ - hst
    obtain ⟨-, i, hmove⟩ := injectMove_of_step hst
    exact ⟨hr.move hmove, hc.move hr hz rfl hpos' rfl hmove⟩

end Carried

/-! ## Where the writes are -/

def InjectParams.wsize (ip : InjectParams) : ℕ := ip.writesize.toInt.toNat

def InjectParams.ssize (ip : InjectParams) : ℕ := ip.segsize.toInt.toNat

/-- What the code relies on: the segments are cut into at least one chunk and one group, there are
tables for all the slots, and the segments end below `2 ^ 64`. -/
structure InjectParams.Ok (ip : InjectParams) (p : CmdParams) : Prop where
  writesize_pos : 0 < ip.writesize.toInt
  writesize_le : ip.writesize.toInt ≤ ip.segsize.toInt
  nsubseg_pos : 0 < ip.nsubseg.toInt
  nsegments_le : ip.nsegments.toInt ≤ iobMaxseg
  fits : p.minoff.toNat + (maxsegs p ip).toNat * ip.ssize ≤ 2 ^ 64

section Places

variable {p : CmdParams} {ip : InjectParams}

theorem InjectParams.Ok.nsegoffs_eq (h : ip.Ok p) : ip.nsegoffs = ip.ssize / ip.wsize := by
  have hpos := h.writesize_pos
  have hle := h.writesize_le
  have hone : ip.writesize ≠ -1 := by
    intro he
    rw [he] at hpos
    exact absurd hpos (by decide)
  have hw : ip.writesize.toInt = (ip.wsize : ℤ) := by
    rw [InjectParams.wsize]
    omega
  have hs : ip.segsize.toInt = (ip.ssize : ℤ) := by
    rw [InjectParams.ssize]
    omega
  rw [InjectParams.nsegoffs, Int32.toInt_div_of_ne_right _ _ hone,
    Int.tdiv_eq_ediv_of_nonneg (by omega), hw, hs, ← Int.natCast_ediv, Int.toNat_natCast]

theorem InjectParams.Ok.wsize_pos (h : ip.Ok p) : 0 < ip.wsize := by
  have hpos := h.writesize_pos
  rw [InjectParams.wsize]
  omega

theorem InjectParams.Ok.wsize_le (h : ip.Ok p) : ip.wsize ≤ ip.ssize := by
  have hle := h.writesize_le
  rw [InjectParams.wsize, InjectParams.ssize]
  omega

theorem InjectParams.Ok.nsegoffs_pos (h : ip.Ok p) : 0 < ip.nsegoffs := by
  rw [h.nsegoffs_eq]
  exact Nat.div_pos h.wsize_le h.wsize_pos

theorem InjectParams.Ok.chunks_le (h : ip.Ok p) : ip.nsegoffs * ip.wsize ≤ ip.ssize := by
  rw [h.nsegoffs_eq]
  exact Nat.div_mul_le_self _ _

theorem InjectParams.Ok.chunk_le (h : ip.Ok p) {c : ℕ} (hc : c < ip.nsegoffs) :
    c * ip.wsize + ip.wsize ≤ ip.ssize := by
  have hmul := Nat.mul_le_mul_right ip.wsize hc
  have hall := h.chunks_le
  rw [Nat.succ_mul] at hmul
  omega

theorem InjectParams.Ok.toNat_chunk (h : ip.Ok p) {order : ℕ → ℕ} {i : ℕ}
    (hi : order i < ip.nsegoffs) : (chunk ip order i).toNat = order i * ip.wsize := by
  have hpos := h.wsize_pos
  have hle := h.chunk_le hi
  have hlt : ip.ssize < 2 ^ 31 := by
    have := Int32.toInt_lt ip.segsize
    rw [InjectParams.ssize]
    omega
  have hsmall : order i ≤ order i * ip.wsize := Nat.le_mul_of_pos_right _ hpos
  have hint : (Int32.ofNat (order i) * ip.writesize).toInt = (order i * ip.wsize : ℕ) := by
    have hw : ip.writesize.toInt = (ip.wsize : ℤ) := by
      have := h.writesize_pos
      rw [InjectParams.wsize]
      omega
    rw [Int32.toInt_mul, Int32.toInt_ofNat_of_lt (by omega), hw, ← Nat.cast_mul,
      Int.bmod_eq_of_le (by omega) (by omega)]
  rw [chunk, toNat_u64OfI32 (by omega), hint]
  rfl

theorem InjectParams.Ok.toNat_segment (h : ip.Ok p) {off : UInt64} (hoff : IsSegment p ip off) :
    ∃ d < (maxsegs p ip).toNat, off.toNat = p.minoff.toNat + d * ip.ssize ∧
      off.toNat + ip.ssize ≤ p.minoff.toNat + (maxsegs p ip).toNat * ip.ssize := by
  obtain ⟨d, hd, rfl⟩ := hoff
  have hfits := h.fits
  have hpos := h.wsize_pos
  have hle := h.wsize_le
  have hmul := Nat.mul_le_mul_right ip.ssize hd
  rw [Nat.succ_mul] at hmul
  have hsize : (u64OfI32 ip.segsize).toNat = ip.ssize := by
    rw [toNat_u64OfI32 (by have := h.writesize_pos; have := h.writesize_le; omega)]
    rfl
  have hnat : (UInt64.ofNat d).toNat = d := by
    have htop := UInt64.toNat_lt (maxsegs p ip)
    rw [UInt64.toNat_ofNat', Nat.mod_eq_of_lt (by omega)]
  have hprod : (UInt64.ofNat d * u64OfI32 ip.segsize).toNat = d * ip.ssize := by
    rw [toNat_mul_of_lt (by rw [hnat, hsize]; omega), hnat, hsize]
  have heq : (p.minoff + UInt64.ofNat d * u64OfI32 ip.segsize).toNat
      = p.minoff.toNat + d * ip.ssize := by
    rw [toNat_add_of_lt (by rw [hprod]; omega), hprod]
  exact ⟨d, hd, heq, by omega⟩

/-- The extents of the chunks, in whatever order, cover the segment once. -/
theorem sum_covers_chunks {order : ℕ → ℕ} {n w : ℕ}
    (horder : Set.BijOn order (Set.Iio n) (Set.Iio n)) (b x : ℕ) :
    ∑ k ∈ range n, (Extent.mk (b + order k * w) w).covers x = (Extent.mk b (n * w)).covers x := by
  have hreindex : ∑ k ∈ range n, (Extent.mk (b + order k * w) w).covers x
      = ∑ k ∈ range n, (Extent.mk (b + k * w) w).covers x := by
    refine sum_bij (fun k _ => order k) ?_ ?_ ?_ ?_
    · intro k hk
      exact mem_range.mpr (horder.mapsTo (mem_range.mp hk))
    · intro k hk l hl hkl
      exact horder.injOn (mem_range.mp hk) (mem_range.mp hl) hkl
    · intro l hl
      obtain ⟨k, hk, rfl⟩ := horder.surjOn (mem_range.mp hl)
      exact ⟨k, mem_range.mpr hk, rfl⟩
    · intro k _
      rfl
  have hcuts := Extent.sum_covers_cuts (c := fun k => b + k * w)
    (fun k => by rw [Nat.succ_mul]; omega) n x
  rw [hreindex]
  calc ∑ k ∈ range n, (Extent.mk (b + k * w) w).covers x
      = ∑ k ∈ range n, (Extent.between (b + k * w) (b + (k + 1) * w)).covers x := by
        refine sum_congr rfl fun k _ => ?_
        rw [Extent.between, Nat.succ_mul]
        congr 2
        omega
    _ = (Extent.between (b + 0 * w) (b + n * w)).covers x := hcuts
    _ = (Extent.mk b (n * w)).covers x := by
        rw [Extent.between, Nat.zero_mul]
        congr 2
        omega

end Places

section Laps

variable {cp : CmdParams} {ip : InjectParams} {endtime : UInt64} {starttime : Fin T → UInt64}
  {draws : Fin T → ℕ → ℕ × ℕ} {s : InjectState T} {z : Fin T}

/-- **What the bursts of a run have written**, at any moment of any run. The writes of a slot go
through one segment after the other, each at a multiple of `segsize` in the region: write `k` is
chunk `order (k % nsegoffs)` of segment `k / nsegoffs`, where `order` is the shuffled order of the
chunks, and by the time the slot has left a segment it has written each byte of its chunks once.

The chunks are as many as fit into a segment whole. Where `writesize` does not divide `segsize`
what is left behind them is never written, so the bytes are those below `nsegoffs * writesize`. -/
theorem injected_laps (hz : (z : ℕ) = 0) (hon : cp.writeinject ≠ 0)
    (hok : ip.Ok (threadParams cp z))
    (h : (inject cp ip endtime starttime draws).Reachable Machine.always s) (j : ℕ) :
    let p := threadParams cp z
    let n := ip.nsegoffs
    let order := (segInit p ip (draws z)).segofflist
    let ws := s.written j
    Set.BijOn order (Set.Iio n) (Set.Iio n) ∧
    ∃ base : ℕ → ℕ, (∀ q, ∃ d < (maxsegs p ip).toNat, base q = p.minoff.toNat + d * ip.ssize) ∧
      (∀ (k : ℕ) (hk : k < ws.length),
        ws[k].toNat = base (k / n) + order (k % n) * ip.wsize ∧
        ws[k].toNat + ip.wsize ≤ base (k / n) + ip.ssize) ∧
      ∀ q, n * (q + 1) ≤ ws.length → ∀ x,
        ∑ k ∈ range n, (Extent.mk (ws.getD (n * q + k) 0).toNat ip.wsize).covers x
          = (Extent.mk (base q) (n * ip.wsize)).covers x := by
  intro p n order ws
  have hpos : 0 < n := hok.nsegoffs_pos
  have hon' : p.writeinject ≠ 0 := by
    show (threadParams cp z).writeinject ≠ 0
    rw [writeinject_leader cp hz]
    exact hon
  have hn : (segInit p ip (draws z)).nsegoffs = n := if_pos hon'
  have horder : Set.BijOn order (Set.Iio n) (Set.Iio n) := by
    have hsub : 0 < ip.nsubseg.toInt.toNat := by
      have := hok.nsubseg_pos
      omega
    have heq : order = shuffle ip.nsubseg.toInt.toNat (n / ip.nsubseg.toInt.toNat) (draws z)
        nswaps := by
      show (segInit p ip (draws z)).segofflist = _
      simp only [segInit, if_pos hon']
      rfl
    rw [heq]
    exact shuffle_bijOn hsub (draws z) n nswaps
  obtain ⟨hsame, base, q₀, hat⟩ := carried_of_reachable (j := j) hz hon hpos h
  have hmem : ∀ k, order (k % n) < n := fun k => horder.mapsTo (Nat.mod_lt k hpos)
  have hword : ∀ (k : ℕ) (hk : k < ws.length),
      ws[k].toNat = (base (k / n)).toNat + order (k % n) * ip.wsize ∧
      ws[k].toNat + ip.wsize ≤ (base (k / n)).toNat + ip.ssize := by
    intro k hk
    have hlap := hat.laps k (by rw [List.length_append]; exact Nat.lt_add_right _ hk)
    rw [List.getElem_append_left hk, hsame.nsegoffs, hsame.segofflist, hn] at hlap
    obtain ⟨d, hd, hbase, htop⟩ := hok.toNat_segment (hat.segment (k / n))
    have hchunk := hok.toNat_chunk (hmem k)
    have hle := hok.chunk_le (hmem k)
    have hfits := hok.fits
    have hpos' := hok.wsize_pos
    have hval : ws[k].toNat = (base (k / n)).toNat + order (k % n) * ip.wsize := by
      rw [hlap, toNat_add_of_lt (by rw [hchunk]; omega), hchunk]
    exact ⟨hval, by omega⟩
  refine ⟨horder, fun q => (base q).toNat, ?_, hword, ?_⟩
  · intro q
    obtain ⟨d, hd, hbase, -⟩ := hok.toNat_segment (hat.segment q)
    exact ⟨d, hd, hbase⟩
  · intro q hq x
    rw [← sum_covers_chunks horder]
    refine sum_congr rfl fun k hk => ?_
    have hkn := mem_range.mp hk
    have hlt : n * q + k < ws.length := by
      rw [Nat.mul_succ] at hq
      omega
    rw [List.getD_eq_getElem?_getD, List.getElem?_eq_getElem hlt, Option.getD_some,
      (hword _ hlt).1, Nat.mul_add_div hpos, Nat.div_eq_of_lt hkn, Nat.add_zero,
      Nat.mul_add_mod, Nat.mod_eq_of_lt hkn]

end Laps

/-- A burst of one thread that goes through a segment of two chunks. -/
def oneInject : CmdParams := { smallFill with writeinject := 2 }

def oneBurst : InjectParams := { smallBurst with segsize := 1024 }

def oneMachine : Machine (InjectState 1) (InjectAct 1) :=
  inject oneInject oneBurst 5 (fun _ => 0) fun _ _ => (0, 1)

theorem oneBurst_ok : oneBurst.Ok (threadParams oneInject 0) := by
  constructor <;> decide

def lapSchedule (z : Fin 1) (d : BurstDraws) (r : IoResult) : List (InjectAct 1) :=
  [.top z 0, .ioStop z d, .ioStop z d, .request z 0, .finish z r, .request z 0]

theorem injected_laps_small : ∃ s, oneMachine.Reachable Machine.always s ∧
    ∃ b : ℕ, ∀ x, ∑ k ∈ range 2, (Extent.mk ((s.written 0).getD k 0).toNat 512).covers x
      = (Extent.mk b 1024).covers x := by
  obtain ⟨s, hexec, hlen⟩ : ∃ s, oneMachine.exec
      (lapSchedule 0 ⟨fun _ => 0, fun _ _ => 1⟩ ⟨0, 0, true, efbig, 0⟩) oneMachine.init = some s ∧
      (s.written 0).length = 2 := ⟨_, rfl, rfl⟩
  have hs : oneMachine.Reachable Machine.always s := ⟨_, Machine.run_of_exec hexec⟩
  obtain ⟨-, base, -, -, hcover⟩ := @injected_laps 1 oneInject oneBurst 5 (fun _ => 0)
    (fun _ _ => (0, 1)) s ⟨0, by decide⟩ rfl (by decide) oneBurst_ok hs 0
  have hn : oneBurst.nsegoffs = 2 := by decide
  refine ⟨s, hs, base 0, ?_⟩
  intro x
  have hone := hcover 0 (by rw [hn, hlen]) x
  rw [hn] at hone
  simpa [oneBurst, smallBurst, InjectParams.wsize] using hone

end Iofill
end Blockbench
