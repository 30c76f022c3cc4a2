import Blockbench.Iofill.Region

/-!
# `Iofill/Inside.lean` — which requests leave `[minoff, maxoff)`

Three things can put a request outside. `rangeoff` counts whole blocks between two roundings and
may be larger than `maxoff - minoff`; the header is not cut; and the test that cuts a block is
itself a 64-bit sum, which can wrap. `StaysInside` is what is left when all three are excluded,
and `stays_inside_iff` says that it is exact: in a configuration that does not satisfy it some
run issues a request outside the region.

For that the requests of all runs have to be known, whatever `count` is. `Placed` is the upper
bound, an invariant of every step: a request issued belongs to a block number below `totalio`.
`issued_of_ticket` is the lower bound: one thread alone gets to every such number.
-/

set_option autoImplicit false

namespace Blockbench
namespace Iofill

open CInt Finset TicketPool

variable {cp : CmdParams} {endtime : UInt64} {T : ℕ} {s t : FillState T}

/-! ## The requests of all runs -/

/-- What a worker has still to do belongs to a ticket below `totalio`. -/
def OnTicket (cp : CmdParams) : Worker Extent → Prop
  | .busy k todo | .closing k _ todo => k < total cp ∧ ∀ e ∈ todo, e ∈ ticketWork cp k
  | .idle | .done => True

/-- Every request issued belongs to a block number below `totalio`, and so does every one to
come. -/
structure Placed (cp : CmdParams) (s : FillState T) : Prop where
  shape : Shape cp s
  todo : ∀ i, OnTicket cp (absWorker cp (s.thread i).pc)
  issued : ∀ e ∈ s.issued, ∃ k < total cp, extent e.2 ∈ ticketWork cp k

theorem placed_init (hp : cp.Ok) : Placed cp (fillInit cp T) where
  shape := shape_init hp
  todo _ := trivial
  issued := nofun

theorem Placed.update (h : Placed cp s) {i : Fin T} {l : LoopState}
    (hl : OnTicket cp (absWorker cp l.pc)) (j : Fin T) :
    OnTicket cp (absWorker cp (Function.update s.thread i l j).pc) := by
  by_cases hji : j = i
  · subst hji
    rwa [Function.update_self]
  · rw [Function.update_of_ne hji]
    exact h.todo j

theorem Placed.step (hp : cp.Ok) (h : Placed cp s) {a : Act T}
    (hst : (fill cp endtime T).step a s = some t) : Placed cp t := by
  have hshape := (step_sim hp h.shape hst).1
  obtain ⟨-, hmove⟩ := fillMove_of_step hst
  cases hmove with
  | inject => exact ⟨hshape, h.update trivial, h.issued⟩
  | @claim i rand nextbno hpc =>
    refine ⟨hshape, h.update ?_, h.issued⟩
    by_cases hk : (fthreadinit cp).totalio ≤ s.threadBno
    · rw [claimed_leave hk]
      trivial
    · rw [(claimed_busy hp (h.shape.thread i) rand nextbno hk).2]
      exact ⟨Nat.lt_of_not_le fun hle => hk (UInt64.le_iff_toNat_le.mpr hle), fun _ he => he⟩
  | @issue i u l hl =>
    obtain ⟨-, -, todo, hbusy, hclosing⟩ := issued_spec hp (h.shape.thread i) hl
    have htodo := h.todo i
    rw [hbusy] at htodo
    obtain ⟨hk, hmem⟩ := htodo
    refine ⟨hshape, h.update ?_, fun e he => ?_⟩
    · rw [hclosing]
      exact ⟨hk, fun e he => hmem e (List.mem_cons_of_mem _ he)⟩
    · rcases List.mem_cons.mp he with rfl | he
      · exact ⟨_, hk, hmem _ List.mem_cons_self⟩
      · exact h.issued e he
  | exit => exact ⟨hshape, h.todo, h.issued⟩
  | @finish i r pc itp idp stop long hret hfin =>
    obtain ⟨-, k, b, todo, hclosing, hbusy⟩ := returned_spec cp hret
    have htodo := h.todo i
    rw [hclosing] at htodo
    refine ⟨hshape, h.update ?_, h.issued⟩
    rw [hbusy]
    exact htodo
  | @bottom i k hpc =>
    refine ⟨hshape, h.update ?_, h.issued⟩
    rw [loopEnd_eq hp (h.shape.thread i)]
    trivial

theorem placed_of_reachable (hp : cp.Ok)
    (h : (fill cp endtime T).Reachable Machine.always s) : Placed cp s :=
  h.invariant (placed_init hp) fun _ _ _ hs _ hst => hs.step hp hst

/-! ## One thread alone -/

theorem fill_step_of_live (hlive : s.exited = false) (a : Act T) :
    (fill cp endtime T).step a s = fillStep (fthreadinit cp).totalio endtime a s := by
  simp only [fill, hlive]
  rfl

theorem issued_isSome {l : LoopState} {k : ℕ} {b : Extent} {todo : List Extent}
    (h : absWorker cp l.pc = .busy k (b :: todo)) (u : Drand48) : (issued u l).isSome := by
  unfold issued
  cases hpc : l.pc with
  | header k b | block k b => rfl
  | claim | inject | headerIo k b | blockIo k b | loopEnd k | done =>
    rw [hpc] at h
    simp [absWorker] at h

theorem returned_isSome {pc : Pc} {k : ℕ} {b : Extent} {todo : List Extent}
    (h : absWorker cp pc = .closing k b todo) : pc.returned.isSome := by
  cases pc with
  | headerIo k b | blockIo k b => rfl
  | claim | inject | header k b | block k b | loopEnd k | done => simp [absWorker] at h

/-- A run of one thread through the jobs it has at hand, back to the top of its loop. -/
theorem drain (hp : cp.Ok) {i : Fin T} {k : ℕ} : ∀ (todo : List Extent) {s : FillState T},
    Shape cp s → s.exited = false → absWorker cp (s.thread i).pc = .busy k todo →
    ∃ as t, Machine.Run (fill cp endtime T) Machine.always s as t ∧ Shape cp t ∧
      t.exited = false ∧ (t.thread i).pc = .claim ∧ t.threadBno = s.threadBno ∧
      ∀ e ∈ todo, ∃ d ∈ t.issued, extent d.2 = e := by
  intro todo
  induction todo with
  | nil =>
    intro s hs hlive hbusy
    have hpc : ∃ b, (s.thread i).pc = .loopEnd b := by
      cases hc : (s.thread i).pc with
      | loopEnd b => exact ⟨b, rfl⟩
      | claim | inject | header _ _ | headerIo _ _ | block _ _ | blockIo _ _ | done =>
        rw [hc] at hbusy
        simp [absWorker] at hbusy
    obtain ⟨b, hb⟩ := hpc
    have hstep : (fill cp endtime T).step (.bottom i) s
        = some (s.set i (loopEnd (s.thread i))) := by
      rw [fill_step_of_live hlive]
      simp only [fillStep, hb]
    refine ⟨_, _, Machine.Run.single trivial hstep, (step_sim hp hs hstep).1, hlive, ?_, rfl,
      fun e he => absurd he List.not_mem_nil⟩
    rw [FillState.set_thread, Function.update_self, loopEnd_eq hp (hs.thread i)]
  | cons b todo ih =>
    intro s hs hlive hbusy
    -- the system call starts
    obtain ⟨l, hl⟩ := Option.isSome_iff_exists.mp (issued_isSome hbusy 0)
    obtain ⟨-, -, rest, hbusy', hclosing⟩ := issued_spec hp (hs.thread i) hl
    rw [hbusy] at hbusy'
    obtain ⟨hk, hb, rfl⟩ : k = l.pc.ftotBno ∧ b = extent l.detail ∧ todo = rest := by
      simpa using hbusy'
    have hissue : (fill cp endtime T).step (.issue i 0) s
        = some { s.set i l with issued := (l.pc.ftotBno, l.detail) :: s.issued } := by
      rw [fill_step_of_live hlive]
      simp only [fillStep, hl, Option.map_some]
    generalize hs₁ : { s.set i l with issued := (l.pc.ftotBno, l.detail) :: s.issued } = s₁
      at hissue
    have hl₁ : s₁.thread i = l := by
      subst hs₁
      exact Function.update_self i l s.thread
    have hlive₁ : s₁.exited = false := by
      subst hs₁
      exact hlive
    -- and returns
    obtain ⟨pc, hret⟩ := Option.isSome_iff_exists.mp (returned_isSome hclosing)
    obtain ⟨itp, idp, long, hfin⟩ : ∃ itp idp long, ioFinish endtime l.itp l.detail
        ⟨0, 0, false, 0, 0⟩ = .ret itp idp false long :=
      ioFinish_success l.itp l.detail rfl UInt64.zero_le
    have hfinish : (fill cp endtime T).step (.finish i ⟨0, 0, false, 0, 0⟩) s₁
        = some (s₁.set i { l with itp := itp, detail := idp, pc := pc }) := by
      rw [fill_step_of_live hlive₁]
      simp only [fillStep, hl₁, hret, Option.map_some, hfin]
      rfl
    obtain ⟨-, k', b', rest', hclosing', hbusy₂⟩ := returned_spec cp hret
    rw [hclosing] at hclosing'
    obtain ⟨rfl, rfl, rfl⟩ := Worker.closing.inj hclosing'
    obtain ⟨as, t, hrun, hshape, hlive', hpc, hbno, hmem⟩ := ih
      (step_sim hp (step_sim hp hs hissue).1 hfinish).1 hlive₁
      (by rw [FillState.set_thread, Function.update_self]; exact hk ▸ hbusy₂)
    refine ⟨_, t, .cons trivial hissue (.cons trivial hfinish hrun), hshape, hlive', hpc, ?_, ?_⟩
    · rw [hbno]
      subst hs₁
      rfl
    · intro e he
      rcases List.mem_cons.mp he with rfl | he
      · obtain ⟨new, hnew⟩ := issued_grows hrun
        refine ⟨(l.pc.ftotBno, l.detail), ?_, hb.symm⟩
        rw [hnew]
        apply List.mem_append_right _
        subst hs₁
        exact List.mem_cons_self
      · exact hmem e he

/-- One turn of the loop: the claim, and the jobs of the number claimed. -/
theorem one_iteration (hp : cp.Ok) {i : Fin T} (hs : Shape cp s) (hlive : s.exited = false)
    (hpc : (s.thread i).pc = .claim) (hlt : s.threadBno.toNat < total cp) :
    ∃ t u as, (fill cp endtime T).step (.claim i 0 0) s = some t ∧
      Machine.Run (fill cp endtime T) Machine.always t as u ∧ Shape cp u ∧ u.exited = false ∧
      (u.thread i).pc = .claim ∧ u.threadBno.toNat = s.threadBno.toNat + 1 ∧
      ∀ e ∈ ticketWork cp s.threadBno.toNat, ∃ d ∈ u.issued, extent d.2 = e := by
  have hk : ¬ (fthreadinit cp).totalio ≤ s.threadBno := fun hle =>
    absurd (UInt64.le_iff_toNat_le.mp hle) (Nat.not_le.mpr hlt)
  have htop : total cp < 2 ^ 64 := (fthreadinit cp).totalio.toNat_lt
  have hbusy := (claimed_busy hp (hs.thread i) 0 0 hk).2
  have hclaim : (fill cp endtime T).step (.claim i 0 0) s
      = some { s.set i (claimed (fthreadinit cp).totalio 0 0 (s.thread i) s.threadBno) with
          threadBno := s.threadBno + 1
          claims := if (fthreadinit cp).totalio ≤ s.threadBno then s.claims
            else s.claims + 1 } := by
    rw [fill_step_of_live hlive]
    simp only [fillStep, if_pos hpc]
  generalize hs₁ : { s.set i (claimed (fthreadinit cp).totalio 0 0 (s.thread i) s.threadBno) with
      threadBno := s.threadBno + 1
      claims := if (fthreadinit cp).totalio ≤ s.threadBno then s.claims
        else s.claims + 1 } = s₁ at hclaim
  have hbusy₁ : absWorker cp (s₁.thread i).pc
      = .busy s.threadBno.toNat (ticketWork cp s.threadBno.toNat) := by
    subst hs₁
    show absWorker cp (Function.update s.thread i _ i).pc = _
    rw [Function.update_self, hbusy]
  obtain ⟨as, u, hrun, hshape, hlive', hpc', hbno, hmem⟩ :=
    drain hp _ (step_sim hp hs hclaim).1 (by subst hs₁; exact hlive) hbusy₁
  refine ⟨s₁, u, as, hclaim, hrun, hshape, hlive', hpc', ?_, hmem⟩
  rw [hbno]
  subst hs₁
  exact toNat_add_of_lt (by show _ + 1 < _; omega)

/-- One thread alone gets to the claim of every block number up to `totalio`. -/
theorem reaches_claim (endtime : UInt64) (hp : cp.Ok) (i : Fin T) (k : ℕ) (hk : k ≤ total cp) :
    ∃ s, (fill cp endtime T).Reachable Machine.always s ∧ Shape cp s ∧ s.exited = false ∧
      (s.thread i).pc = .claim ∧ s.threadBno.toNat = k := by
  induction k with
  | zero => exact ⟨_, .start, shape_init hp, rfl, rfl, rfl⟩
  | succ k ih =>
    obtain ⟨s, hreach, hshape, hlive, hpc, hbno⟩ := ih (by omega)
    obtain ⟨t, u, as, hclaim, hrun, hshape', hlive', hpc', hbno', -⟩ :=
      one_iteration hp hshape hlive hpc (by omega : s.threadBno.toNat < total cp)
    exact ⟨u, (hreach.run (.single trivial hclaim)).run hrun, hshape', hlive', hpc', by omega⟩

/-- **Every request of a block number below `totalio` is issued in some run.**

One thread does all the work: it claims the numbers in order, carries out the jobs of each and
comes back to the top of its loop (`one_iteration`), and the others stay at their first claim. No
I/O of it fails and the clock stands still, so neither an error nor the deadline is in the way. -/
theorem issued_of_ticket (endtime : UInt64) (hp : cp.Ok) (hT : 0 < T) {k : ℕ}
    (hk : k < total cp) {e : Extent} (he : e ∈ ticketWork cp k) :
    ∃ s, (fill cp endtime T).Reachable Machine.always s ∧ ∃ d ∈ s.issued, extent d.2 = e := by
  obtain ⟨s, hreach, hshape, hlive, hpc, hbno⟩ :=
    reaches_claim endtime hp ⟨0, hT⟩ k hk.le
  obtain ⟨t, u, as, hclaim, hrun, -, -, -, -, hmem⟩ :=
    one_iteration hp hshape hlive hpc (by omega : s.threadBno.toNat < total cp)
  rw [hbno] at hmem
  exact ⟨u, (hreach.run (.single trivial hclaim)).run hrun, hmem e he⟩

/-! ## The condition -/

def CmdParams.span (p : CmdParams) : ℕ := p.maxoff.toNat - p.minoff.toNat

/-- A block placed `r` bytes into the region leaves nothing outside `[minoff, maxoff)`. In a
region of whole blocks that is no longer than asked for, only a wrap of the test that cuts the
block can do harm; in a longer one the block must not come near the end. -/
def BlockFits (p : CmdParams) (r : ℕ) : Prop :=
  if p.range ≤ p.span then r + p.blk ≤ p.range ∨ p.minoff.toNat + r + p.blk < 2 ^ 64
  else if p.minoff.toNat + p.range < 2 ^ 64 then r + p.blk ≤ p.span
  else r + 2 ^ 32 ≤ p.range

instance (p : CmdParams) (r : ℕ) : Decidable (BlockFits p r) :=
  inferInstanceAs (Decidable (if p.range ≤ p.span then _ ∨ _
    else if p.minoff.toNat + p.range < 2 ^ 64 then _ ≤ _ else _ ≤ _))

/-- The header fits where `seek` puts it, and so does every block whose number comes up. -/
def StaysInside (p : CmdParams) : Prop :=
  (total p = 0 ∨ p.hdr = 0 ∨ p.seekoff.toNat % p.range + p.hdr ≤ p.span) ∧
    ∀ b < min (total p) p.nio.toNat, BlockFits p (p.pos b)

instance (p : CmdParams) : Decidable (StaysInside p) := inferInstanceAs (Decidable (_ ∧ _))

section Place

variable (hp : cp.Ok) (hmul : cp.multiplier = 1) (hlt : cp.minoff.toNat < cp.maxoff.toNat)
include hp hlt

omit hp in
theorem ends_ordered : cp.minoff.toNat / cp.blk ≤ cp.maxoff.toNat / cp.blk :=
  Nat.div_le_div_right hlt.le

/-- The region computed is less than one block longer than the region asked for. -/
theorem range_lt_span : cp.range < cp.span + cp.blk := by
  have hblk : 0 < cp.blk := by
    have := hp.blk_ge
    omega
  have hmax := Nat.div_add_mod' cp.maxoff.toNat cp.blk
  have hmin := Nat.div_add_mod' cp.minoff.toNat cp.blk
  have hres := Nat.mod_lt cp.minoff.toNat hblk
  have hord := Nat.mul_le_mul_right cp.blk (ends_ordered hlt)
  unfold CmdParams.range CmdParams.nblks CmdParams.span
  rcases le_total (cp.maxoff.toNat / cp.blk - cp.minoff.toNat / cp.blk) 1 with h | h
  · rw [max_eq_right h]
    omega
  · rw [max_eq_left h, Nat.sub_mul]
    omega

include hmul

theorem header_within_iff : (headerExtent cp).Within cp.minoff.toNat cp.maxoff.toNat ↔
    cp.hdr = 0 ∨ cp.seekoff.toNat % cp.range + cp.hdr ≤ cp.span := by
  have hmax := cp.maxoff.toNat_lt
  have hq := Nat.mod_lt cp.seekoff.toNat hp.range_pos
  have hfit := hp.nblks_mul_lt
  have hrange : cp.range < 2 ^ 64 := hfit
  rw [headerExtent_eq hp hmul (region_eq_range_of_le (ends_ordered hlt)), Extent.within_iff]
  unfold CmdParams.span
  generalize cp.seekoff.toNat % cp.range = q at hq ⊢
  simp only
  omega

theorem block_within_iff (bno : UInt64) :
    (blockExtent cp bno).Within cp.minoff.toNat cp.maxoff.toNat ↔
      BlockFits cp (cp.pos bno.toNat) := by
  have hreg := region_eq_range_of_le (ends_ordered hlt)
  have hmax := cp.maxoff.toNat_lt
  have hr := hp.pos_lt bno.toNat
  have hblk := hp.blk_ge
  have hblk' := cp.blk_lt
  have hrange : cp.range < 2 ^ 64 := hp.nblks_mul_lt
  have hspan := range_lt_span hp hlt
  have hS := cp.blk_le_range
  rw [Extent.within_iff, blockExtent_len hp hmul hreg, blockExtent_off hp hmul hreg]
  unfold BlockFits
  unfold CmdParams.span at *
  generalize cp.pos bno.toNat = r at hr ⊢
  split_ifs <;> omega

end Place

theorem ticket_iff (P : UInt64 → Prop) :
    (∀ k < total cp, P (UInt64.ofNat k % cp.nio)) ↔
      ∀ b < min (total cp) cp.nio.toNat, P (UInt64.ofNat b) := by
  have htop : total cp < 2 ^ 64 := (fthreadinit cp).totalio.toNat_lt
  have hmod : ∀ k < total cp, UInt64.ofNat k % cp.nio = UInt64.ofNat (k % cp.nio.toNat) := by
    intro k hk
    have hle := Nat.mod_le k cp.nio.toNat
    rw [← UInt64.toNat_inj, UInt64.toNat_mod, UInt64.toNat_ofNat', UInt64.toNat_ofNat',
      Nat.mod_eq_of_lt (by omega : k < 2 ^ 64),
      Nat.mod_eq_of_lt (by omega : k % cp.nio.toNat < 2 ^ 64)]
  constructor
  · intro h b hb
    obtain ⟨hb₁, hb₂⟩ := lt_min_iff.mp hb
    have := h b hb₁
    rwa [hmod b hb₁, Nat.mod_eq_of_lt hb₂] at this
  · intro h k hk
    have hpos : 0 < cp.nio.toNat := Nat.pos_of_ne_zero fun hz => by
      have hzero : cp.nio = 0 := eq_zero_iff.mpr hz
      have : total cp = 0 := by
        unfold total fthreadinit
        dsimp only
        rw [hzero, UInt64.zero_mul]
        rfl
      omega
    rw [hmod k hk]
    exact h _ (lt_min_iff.mpr ⟨lt_of_le_of_lt (Nat.mod_le _ _) hk, Nat.mod_lt _ hpos⟩)

/-- The requests of a block number are its block and, for block 0, the header. -/
theorem mem_blockWork {bno : UInt64} {e : Extent} : e ∈ blockWork cp bno ↔
    e = blockExtent cp bno ∨
      e = headerExtent cp ∧ bno = 0 ∧ (threadParams cp 0).headersz ≠ 0 := by
  unfold blockWork
  split
  · rename_i h
    simp [h, or_comm]
  · rename_i h
    simp [h]

theorem all_requests_iff (hp : cp.Ok) (hT : 0 < T) (P : Extent → Prop) :
    (∀ s, (fill cp endtime T).Reachable Machine.always s → ∀ d ∈ s.issued, P (extent d.2)) ↔
    ∀ k < total cp, ∀ e ∈ ticketWork cp k, P e := by
  constructor
  · intro h k hk e he
    obtain ⟨s, hreach, d, hd, rfl⟩ := issued_of_ticket endtime hp hT hk he
    exact h s hreach d hd
  · intro h s hreach d hd
    obtain ⟨k, hk, he⟩ := (placed_of_reachable hp hreach).issued d hd
    exact h k hk _ he

/-- **When `iofill` stays inside its region.** Every request of every run lies in `[minoff,
maxoff)` exactly when the header fits and every block that comes up does.

From right to left this is an invariant of the runs (`Placed`). From left to right a request that
does not fit has to be issued by some run, and one thread that works through the numbers by itself
gets to each of them (`issued_of_ticket`); so the condition speaks of all numbers below `totalio`
and `count`, and not of what a particular schedule comes to before the deadline. -/
theorem stays_inside_iff (hp : cp.Ok) (hmul : cp.multiplier = 1)
    (hlt : cp.minoff.toNat < cp.maxoff.toNat) (hT : 0 < T) :
    (∀ s, (fill cp endtime T).Reachable Machine.always s → ∀ d ∈ s.issued,
      (extent d.2).Within cp.minoff.toNat cp.maxoff.toNat) ↔ StaysInside cp := by
  obtain ⟨-, hheader⟩ := hp.geometry
  have htop : total cp < 2 ^ 64 := (fthreadinit cp).totalio.toNat_lt
  have hblocks : (∀ k < total cp, (blockExtent cp (UInt64.ofNat k % cp.nio)).Within
      cp.minoff.toNat cp.maxoff.toNat) ↔
      ∀ b < min (total cp) cp.nio.toNat, BlockFits cp (cp.pos b) := by
    rw [ticket_iff fun b => (blockExtent cp b).Within cp.minoff.toNat cp.maxoff.toNat]
    apply forall₂_congr
    intro b hb
    have := (lt_min_iff.mp hb).1
    rw [block_within_iff hp hmul hlt, UInt64.toNat_ofNat', Nat.mod_eq_of_lt (by omega)]
  rw [all_requests_iff hp hT fun e => e.Within cp.minoff.toNat cp.maxoff.toNat, StaysInside,
    ← hblocks]
  constructor
  · intro h
    refine ⟨?_, fun k hk => h k hk _ (mem_blockWork.mpr (.inl rfl))⟩
    rcases Nat.eq_zero_or_pos (total cp) with hzero | hpos
    · exact .inl hzero
    by_cases hhdr : cp.hdr = 0
    · exact .inr (.inl hhdr)
    · have hmem : headerExtent cp ∈ ticketWork cp 0 :=
        mem_blockWork.mpr (.inr ⟨rfl, by simp, fun hz => hhdr (by rw [← hheader, hz]; rfl)⟩)
      exact .inr ((header_within_iff hp hmul hlt).mp (h 0 hpos _ hmem))
  · rintro ⟨hhdr, hblk⟩ k hk e he
    rcases mem_blockWork.mp he with rfl | ⟨rfl, -, -⟩
    · exact hblk k hk
    · exact (header_within_iff hp hmul hlt).mpr (hhdr.resolve_left (by omega))

/-- Filling a region that starts at a multiple of the size stays inside it. -/
theorem stays_inside_small : StaysInside smallFill ∧
    ∀ s, (fill smallFill 5 2).Reachable Machine.always s → ∀ d ∈ s.issued,
      (extent d.2).Within 0 4096 :=
  have hfits : StaysInside smallFill := ⟨by decide, by decide⟩
  ⟨hfits, (stays_inside_iff smallFill_ok rfl (by decide) (by decide)).mpr hfits⟩

/-- 16 KB blocks from 4 KB to 4096 KB. -/
def offsetFill : CmdParams := { defparams with size := 16384, minoff := 4096, maxoff := 4194304 }

theorem offsetFill_ok : offsetFill.Ok := by
  constructor <;> first | rfl | decide

/-- The region computed for `offsetFill` is 4 KB longer than the one asked for, and block 255
runs over the end of it. -/
theorem leaves_region_offset : ¬ ∀ (cp : CmdParams) (endtime : UInt64) (T : ℕ), cp.Ok →
    cp.multiplier = 1 → cp.minoff.toNat < cp.maxoff.toNat → 0 < T →
    ∀ s, (fill cp endtime T).Reachable Machine.always s → ∀ d ∈ s.issued,
      (extent d.2).Within cp.minoff.toNat cp.maxoff.toNat := by
  intro h
  have hall := (all_requests_iff offsetFill_ok Nat.one_pos fun e =>
    e.Within offsetFill.minoff.toNat offsetFill.maxoff.toNat).mp
    (h offsetFill 5 1 offsetFill_ok rfl (by decide) Nat.one_pos)
  have hmem : blockExtent offsetFill (UInt64.ofNat 255 % offsetFill.nio)
      ∈ ticketWork offsetFill 255 := mem_blockWork.mpr (.inl rfl)
  exact absurd (hall 255 (by decide) _ hmem) (by decide)

end Iofill
end Blockbench
