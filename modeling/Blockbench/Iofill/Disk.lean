import Blockbench.Iob.Compress
import Blockbench.Iob.Write
import Blockbench.Iofill.Cover
import Blockbench.Iofill.Length

/-!
# `Iofill/Disk.lean` — what a fill leaves on the disk

The machine of `Iofill/Fill.lean` issues requests; here they carry data. Each thread has its
`writebp`, which `iob_iodata` fills before the call of `io_start`, and `io_start` passes it to
`iob_write` on the file of `Iob/Write.lean`. `DiskAct.store` is the disk at work. A write that
fails may have stored any part of its data; `honest` says of the others that they are not reported
before all of it is there.

Every step of the program or of the disk leaves the file alone or is a `Volume.Move` of it
(`Backed.step`). The offsets are whole sectors (`dvd_ticketWork`), and a request that is no longer
than the buffer writes only what `iob_iodata` has put there.
-/

set_option autoImplicit false

namespace Blockbench
namespace Iofill

open CInt Bytes Finset TicketPool

variable {T : ℕ}

/-- The fill, and the file with what the threads are writing to it. -/
structure DiskState (T : ℕ) where
  fill : FillState T
  disk : WriteFile (Fin T)

/-- A step of a thread, with what `iob_iodata` draws in it, or a sector stored. -/
inductive DiskAct (T : ℕ)
  | io (a : Act T) (draws : ℕ → PageDraws)
  | store (i : Fin T) (j : ℕ)

/-- What a step of a thread that leads to `f` does to the file: before it calls `io_start` for a
write it has `iob_iodata` fill its buffer, and `io_finish` runs when `iob_write` has returned. -/
def ioDisk (pools : Pools) (draws : ℕ → PageDraws) (w : WriteFile (Fin T)) (f : FillState T) :
    Act T → WriteFile (Fin T)
  | .issue i _ =>
    let l := f.thread i
    if l.detail.type = .write then
      w.write i (extent l.detail) (iobIodata pools l.cursize.toUInt32 l.itp.params.datatype
        l.itp.params.dedupblks draws (w.bp i))
    else w
  | .finish i _ => w.finish i
  | _ => w

/-- The state once a step of a thread has led the fill to `f`. -/
def DiskState.next (pools : Pools) (draws : ℕ → PageDraws) (s : DiskState T) (f : FillState T)
    (a : Act T) : DiskState T where
  fill := f
  disk := ioDisk pools draws s.disk f a

def diskStep (pools : Pools) (cp : CmdParams) (endtime : UInt64) :
    DiskAct T → DiskState T → Option (DiskState T)
  | .io a draws, s =>
    ((fill cp endtime T).step a s.fill).map fun f => s.next pools draws f a
  | .store i j, s => (s.disk.store i j).map fun w => { s with disk := w }

/-- The fill of a file that held `before`; `iob_align_shmem` has zeroed the buffers. -/
def disk (pools : Pools) (cp : CmdParams) (endtime : UInt64) (T : ℕ) (before : Mem) :
    Machine (DiskState T) (DiskAct T) where
  init := { fill := fillInit cp T, disk := .init before }
  step := diskStep pools cp endtime

/-- A write that is reported as done has been done. -/
def honest (s : DiskState T) : DiskAct T → Prop
  | .io (.finish i r) _ => r.error = false → s.disk.Whole i
  | _ => True

/-- Runs in which no I/O fails, `endtime` is not passed and the disk is honest. -/
def quietDisk (endtime : UInt64) (s : DiskState T) : DiskAct T → Prop
  | .io a draws => quiet endtime s.fill a ∧ honest s (.io a draws)
  | .store _ _ => True

/-- No request is longer than the buffers. -/
def Buffered (cp : CmdParams) : Prop := ∀ k < total cp, ∀ e ∈ ticketWork cp k, e.len ≤ cp.blk

/-- What a thread that has called `io_start` asked for. -/
def LoopState.written (l : LoopState) : Option Extent := l.pc.returned.map fun _ => extent l.detail

/-- What a state of the fill of an accepted command line looks like: the calls under way are those
the threads are in, as long as they step, and the calls made are the requests of the log. -/
structure Backed (cp : CmdParams) (s : DiskState T) : Prop where
  placed : Placed cp s.fill
  sectored : s.disk.Sectored
  call : s.fill.exited = false → ∀ i, s.disk.call i = (s.fill.thread i).written
  begun : s.disk.begun = s.fill.issued.map fun d => extent d.2

section Step

variable {pools : Pools} {cp : CmdParams} {endtime : UInt64} {s t : DiskState T} {before : Mem}

@[simp] theorem DiskState.next_fill {draws : ℕ → PageDraws} (f : FillState T) (a : Act T) :
    (s.next pools draws f a).fill = f := rfl

/-- Blocks whose lengths fit leave no request longer than the buffers. -/
theorem buffered_of_fits (hp : cp.Ok) (h : ∀ b < min (total cp) cp.nio.toNat, LengthFits cp b) :
    Buffered cp := by
  have hblocks : ∀ k < total cp, (blockExtent cp (UInt64.ofNat k % cp.nio)).len ≤ cp.blk :=
    (ticket_iff fun b => (blockExtent cp b).len ≤ cp.blk).mpr fun b hb => by
      have htop : total cp < 2 ^ 64 := (fthreadinit cp).totalio.toNat_lt
      have hlt := (lt_min_iff.mp hb).1
      rw [blockExtent_len_le_iff hp, UInt64.toNat_ofNat', Nat.mod_eq_of_lt (by omega)]
      exact h b hb
  intro k hk e he
  rcases mem_blockWork.mp he with rfl | ⟨rfl, -, -⟩
  · exact hblocks k hk
  · exact headerExtent_len_le hp

theorem Placed.request {f : FillState T} (hp : cp.Ok) (hsec : cp.Sectored) (hbuf : Buffered cp)
    (h : Placed cp f) {d : ℕ × Iodet} (hd : d ∈ f.issued) :
    d.2.type = .write ∧ AtSectors (extent d.2) ∧ (extent d.2).len ≤ cp.blk := by
  obtain ⟨k, hk, hmem⟩ := h.issued d hd
  exact ⟨h.shape.writes d hd, dvd_ticketWork hp hsec hmem, hbuf k hk _ hmem⟩

theorem filled_sectors (hp : cp.Ok) {i : ℕ} {l : LoopState} (hl : LoopShape cp i l)
    (draws : ℕ → PageDraws) (bp : Mem) {m : ℕ} (hm : iobSector * m < cp.blk) :
    SectorData pools cp.datatype cp.dedupblks.toNat (sectorOf (iobIodata pools
      l.cursize.toUInt32 l.itp.params.datatype l.itp.params.dedupblks draws bp) m) := by
  have hparams : l.itp.params.datatype = cp.datatype ∧ l.itp.params.dedupblks = cp.dedupblks := by
    rw [hl.params, hp.threadParams_eq i]
    exact ⟨rfl, rfl⟩
  rw [hparams.1, hparams.2, hl.cursize]
  have hsize := hp.toNat_size32
  have hlt := cp.blk_lt
  refine iobIodata_sectors draws hp.dedupblks_pos hp.dedupblks_le ?_ ?_ ?_
  · rw [hsize]
    exact hp.blk_dvd
  · rw [hsize]
    exact hlt.le
  · rw [hsize]
    exact hm

/-! ## Calls begin and end with those of the threads -/

theorem claimed_idle {totalio rand nextbno : UInt64} {l : LoopState} (k : UInt64) :
    (claimed totalio rand nextbno l k).written = none := by
  unfold claimed LoopState.written
  dsimp only
  split
  · rfl
  · split
    · rfl
    · split <;> rfl

theorem returned_idle {pc pc' : Pc} (h : pc.returned = some pc') : pc'.returned = none := by
  cases pc <;> cases h <;> rfl

theorem issued_call {u : Drand48} {l l' : LoopState} (h : issued u l = some l') :
    l.written = none ∧ l'.written = some (extent l'.detail) := by
  unfold issued at h
  split at h
  case h_1 k b hpc =>
    cases h
    refine ⟨?_, rfl⟩
    rw [LoopState.written, hpc]
    rfl
  case h_2 k b hpc =>
    cases h
    refine ⟨?_, rfl⟩
    rw [LoopState.written, hpc]
    rfl
  case h_3 => cases h

theorem calls_update {f : FillState T} {i : Fin T} {l : LoopState} {c : Fin T → Option Extent}
    (h : ∀ j, c j = (s.fill.thread j).written)
    (hf : f.thread = Function.update s.fill.thread i l) (j : Fin T) :
    Function.update c i l.written j = (f.thread j).written := by
  rw [hf]
  by_cases hji : j = i
  · subst hji
    rw [Function.update_self, Function.update_self]
  · rw [Function.update_of_ne hji, Function.update_of_ne hji]
    exact h j

theorem Backed.idle {f : FillState T} {i : Fin T} {l : LoopState} (h : Backed cp s)
    (hlive : s.fill.exited = false) (hplaced : Placed cp f)
    (hf : f.thread = Function.update s.fill.thread i l)
    (hold : (s.fill.thread i).written = none) (hnew : l.written = none)
    (hissued : f.issued = s.fill.issued) : Backed cp { s with fill := f } where
  placed := hplaced
  sectored := h.sectored
  call _ j := by
    have hcalls := calls_update (h.call hlive) hf j
    rwa [hnew, ← hold, ← h.call hlive i, Function.update_eq_self] at hcalls
  begun := by
    rw [hissued]
    exact h.begun

theorem Backed.issue (pools : Pools) (whole : Prop) (hp : cp.Ok) (hsec : cp.Sectored)
    (hbuf : Buffered cp) (h : Backed cp s) (hlive : s.fill.exited = false)
    {f : FillState T} {i : Fin T} {l : LoopState} {k : ℕ} {u : Drand48} {draws : ℕ → PageDraws}
    (hplaced : Placed cp f)
    (hf : f.thread = Function.update s.fill.thread i l)
    (hold : (s.fill.thread i).written = none) (hnew : l.written = some (extent l.detail))
    (hissued : f.issued = (k, l.detail) :: s.fill.issued) :
    Backed cp (s.next pools draws f (.issue i u)) ∧
      Volume.Move (SectorData pools cp.datatype cp.dedupblks.toNat) whole s.disk.volume
        (s.next pools draws f (.issue i u)).disk.volume := by
  have hself : f.thread i = l := by rw [hf, Function.update_self]
  have hmem : (k, l.detail) ∈ f.issued := by
    rw [hissued]
    exact List.mem_cons_self
  obtain ⟨hwrite, haligned, hlen⟩ := hplaced.request hp hsec hbuf hmem
  have hdisk : (s.next pools draws f (.issue i u)).disk = s.disk.write i (extent l.detail)
      (iobIodata pools l.cursize.toUInt32 l.itp.params.datatype l.itp.params.dedupblks draws
        (s.disk.bp i)) := by
    unfold DiskState.next ioDisk
    dsimp only
    rw [hself, if_pos hwrite]
  constructor
  · refine ⟨hplaced, ?_, fun _ j => ?_, ?_⟩
    · rw [hdisk]
      exact h.sectored.write haligned
    · rw [hdisk, DiskState.next_fill, ← calls_update (h.call hlive) hf j, hnew]
      rfl
    · rw [hdisk, DiskState.next_fill, hissued, List.map_cons, ← h.begun]
      rfl
  · rw [hdisk]
    refine WriteFile.write_move ?_ fun j hj => ?_
    · rw [h.call hlive i, hold]
    · exact filled_sectors hp (hself ▸ hplaced.shape.thread i) draws _ (hj.trans_le hlen)

/-- **A step** of the program or of the disk leaves the file alone, or is a move of its volume. -/
theorem Backed.step (whole : Prop) (hp : cp.Ok) (hsec : cp.Sectored) (hbuf : Buffered cp)
    (h : Backed cp s) {a : DiskAct T} (hw : whole → quietDisk endtime s a)
    (hst : diskStep pools cp endtime a s = some t) :
    Backed cp t ∧ (t.disk = s.disk ∨
      Volume.Move (SectorData pools cp.datatype cp.dedupblks.toNat) whole s.disk.volume
        t.disk.volume) := by
  cases a with
  | store i j =>
    obtain ⟨w, hstore, rfl⟩ := Option.map_eq_some_iff.mp hst
    obtain ⟨e, -, -, hw⟩ := WriteFile.store_cases hstore
    refine ⟨⟨h.placed, h.sectored.store hstore, ?_, ?_⟩,
      .inr (WriteFile.store_move h.sectored hstore)⟩
    · rw [hw]
      exact h.call
    · rw [hw]
      exact h.begun
  | io a draws =>
    obtain ⟨f, hf, rfl⟩ := Option.map_eq_some_iff.mp hst
    have hplaced : Placed cp f := h.placed.step hp hf
    obtain ⟨hlive, hmove⟩ := fillMove_of_step hf
    -- the two ways a call returns
    have hreturn : ∀ {i r pc}, a = .finish i r → (s.fill.thread i).pc.returned = some pc →
        Volume.Move (SectorData pools cp.datatype cp.dedupblks.toNat) whole s.disk.volume
          (s.disk.finish i).volume := by
      rintro i r pc rfl hret
      have hcall : s.disk.call i = some (extent (s.fill.thread i).detail) := by
        rw [h.call hlive i, LoopState.written, hret]
        rfl
      refine WriteFile.finish_move hcall fun hwhole => ?_
      obtain ⟨hq, hhonest⟩ := hw hwhole
      exact hhonest hq.1
    cases hmove with
    | @inject i hpc _ =>
      have hold : (s.fill.thread i).written = none := by
        rw [LoopState.written, hpc]
        rfl
      exact ⟨h.idle hlive hplaced rfl hold rfl rfl, .inl rfl⟩
    | @claim i rand nextbno hpc =>
      have hold : (s.fill.thread i).written = none := by
        rw [LoopState.written, hpc]
        rfl
      exact ⟨h.idle hlive hplaced rfl hold (claimed_idle _) rfl, .inl rfl⟩
    | @bottom i k hpc =>
      have hold : (s.fill.thread i).written = none := by
        rw [LoopState.written, hpc]
        rfl
      have hnew : (loopEnd (s.fill.thread i)).written = none := by
        rw [loopEnd_eq hp (h.placed.shape.thread i)]
        rfl
      exact ⟨h.idle hlive hplaced rfl hold hnew rfl, .inl rfl⟩
    | exit hret hfin =>
      refine ⟨⟨hplaced, h.sectored.finish, fun hexit => ?_, h.begun⟩, .inr (hreturn rfl hret)⟩
      cases hexit
    | @finish i r pc itp idp stop long hret hfin =>
      refine ⟨⟨hplaced, h.sectored.finish, fun _ j => ?_, h.begun⟩, .inr (hreturn rfl hret)⟩
      have hnew : ({ s.fill.thread i with itp := itp, detail := idp, pc := pc } :
          LoopState).written = none := by
        rw [LoopState.written, returned_idle hret]
        rfl
      rw [DiskState.next_fill, ← calls_update (h.call hlive) rfl j, hnew]
      rfl
    | @issue i u l hl =>
      obtain ⟨hold, hnew⟩ := issued_call hl
      obtain ⟨hbacked, hmove⟩ :=
        h.issue pools whole hp hsec hbuf hlive hplaced rfl hold hnew rfl
      exact ⟨hbacked, .inr hmove⟩

end Step

/-! ## Over every run -/

section Runs

variable {pools : Pools} {cp : CmdParams} {endtime : UInt64} {s : DiskState T} {before : Mem}

theorem backed_init (endtime : UInt64) (before : Mem) (hp : cp.Ok) :
    Backed cp (disk pools cp endtime T before).init where
  placed := placed_init hp
  sectored := WriteFile.sectored_init before
  call _ _ := rfl
  begun := rfl

theorem disk_kept (hp : cp.Ok) (hsec : cp.Sectored) (hbuf : Buffered cp)
    (hr : (disk pools cp endtime T before).Reachable Machine.always s) :
    Backed cp s ∧ s.disk.volume.Kept (SectorData pools cp.datatype cp.dedupblks.toNat)
      (sectorOf before) := by
  refine hr.invariant (I := fun s => Backed cp s ∧
    s.disk.volume.Kept (SectorData pools cp.datatype cp.dedupblks.toNat) (sectorOf before))
    ⟨backed_init endtime before hp, WriteFile.kept_init⟩ ?_
  rintro s a t ⟨hs, hkept⟩ - hst
  obtain ⟨ht, hmove⟩ := hs.step False hp hsec hbuf False.elim hst
  obtain hsame | hmove := hmove
  · exact ⟨ht, hsame ▸ hkept⟩
  · exact ⟨ht, hkept.move hmove⟩

theorem disk_settled (hp : cp.Ok) (hsec : cp.Sectored) (hbuf : Buffered cp)
    (hr : (disk pools cp endtime T before).Reachable (quietDisk endtime) s) :
    s.disk.volume.Settled (SectorData pools cp.datatype cp.dedupblks.toNat) := by
  have h := hr.invariant (I := fun s => (Backed cp s ∧
    s.disk.volume.Kept (SectorData pools cp.datatype cp.dedupblks.toNat) (sectorOf before)) ∧
    s.disk.volume.Settled (SectorData pools cp.datatype cp.dedupblks.toNat))
    ⟨⟨backed_init endtime before hp, WriteFile.kept_init⟩, WriteFile.settled_init⟩ ?_
  · exact h.2
  rintro s a t ⟨⟨hs, hkept⟩, hsettled⟩ hok hst
  obtain ⟨ht, hmove⟩ := hs.step True hp hsec hbuf (fun _ => hok) hst
  obtain hsame | hmove := hmove
  · rw [hsame]
    exact ⟨⟨ht, hkept⟩, hsettled⟩
  · exact ⟨⟨ht, hkept.move hmove⟩, hsettled.move hkept trivial hmove⟩

theorem fill_reachable (hr : (disk pools cp endtime T before).Reachable (quietDisk endtime) s) :
    (fill cp endtime T).Reachable (quiet endtime) s.fill := by
  refine hr.invariant (I := fun s => (fill cp endtime T).Reachable (quiet endtime) s.fill)
    .start ?_
  intro s a t hs hok hst
  cases a with
  | io a draws =>
    obtain ⟨f, hf, rfl⟩ := Option.map_eq_some_iff.mp hst
    exact hs.run (.single hok.1 hf)
  | store i j =>
    obtain ⟨w, -, rfl⟩ := Option.map_eq_some_iff.mp hst
    exact hs

theorem store_all (pools : Pools) (cp : CmdParams) (endtime : UInt64) (before : Mem)
    (s : DiskState T) {i : Fin T} {e : Extent} (he : s.disk.call i = some e) (n : ℕ) :
    ∃ as t, Machine.Run (disk pools cp endtime T before) (quietDisk endtime) s as t ∧
      t.fill = s.fill ∧ t.disk.call = s.disk.call ∧
      ∀ j < n, iobSector * j < e.len → j ∈ t.disk.stored i := by
  induction n with
  | zero => exact ⟨[], s, .nil, rfl, rfl, fun j hj => absurd hj j.not_lt_zero⟩
  | succ n ih =>
    obtain ⟨as, t, hrun, hfill, hcall, hstored⟩ := ih
    by_cases hn : iobSector * n < e.len
    · obtain ⟨w, hw⟩ := Option.isSome_iff_exists.mp
        (WriteFile.store_isSome (by rw [hcall]; exact he) hn)
      have hstep : (disk pools cp endtime T before).step (.store i n) t
          = some { t with disk := w } := Option.map_eq_some_iff.mpr ⟨w, hw, rfl⟩
      have hok : quietDisk endtime t (.store i n) := trivial
      obtain ⟨_, -, -, hdisk⟩ := WriteFile.store_cases hw
      have hcall' : w.call = t.disk.call := by rw [hdisk]
      have hstored' : w.stored i = n :: t.disk.stored i := by
        rw [hdisk]
        exact Function.update_self i _ _
      refine ⟨_, _, hrun.snoc hok hstep, hfill, hcall'.trans hcall, fun j hj hsize => ?_⟩
      dsimp only
      rw [hstored']
      obtain hlt | rfl := Nat.lt_succ_iff_lt_or_eq.mp hj
      · exact List.mem_cons_of_mem _ (hstored j hlt hsize)
      · exact List.mem_cons_self
    · refine ⟨as, t, hrun, hfill, hcall, fun j hj hsize => ?_⟩
      obtain hlt | rfl := Nat.lt_succ_iff_lt_or_eq.mp hj
      · exact hstored j hlt hsize
      · exact absurd hsize hn

/-- **The disk can carry out every quiet run of the threads.** -/
theorem disk_of_fill (pools : Pools) (before : Mem) (hp : cp.Ok) (hsec : cp.Sectored)
    (hbuf : Buffered cp) (hs : Backed cp s) {as : List (Act T)} {f : FillState T}
    (hr : Machine.Run (fill cp endtime T) (quiet endtime) s.fill as f) :
    ∃ bs t, Machine.Run (disk pools cp endtime T before) (quietDisk endtime) s bs t ∧
      t.fill = f := by
  have hkeep : ∀ (s : DiskState T) a t, Backed cp s → quietDisk endtime s a →
      (disk pools cp endtime T before).step a s = some t → Backed cp t :=
    fun s a t h _ hst => (h.step False hp hsec hbuf False.elim hst).1
  induction hr with
  | nil => exact ⟨[], s, .nil, rfl⟩
  | @snoc f g as a _ hq hst ih =>
    obtain ⟨bs, t, hrun, rfl⟩ := ih
    have ht := hrun.keeps hkeep hs
    -- before a call returns, its sectors are stored
    have hready : ∃ bs u, Machine.Run (disk pools cp endtime T before) (quietDisk endtime) t bs u ∧
        u.fill = t.fill ∧ honest u (.io a fun _ => someDraws) := by
      cases a with
      | finish i r =>
        cases hcall : t.disk.call i with
        | none =>
          refine ⟨[], t, .nil, rfl, fun _ e he => ?_⟩
          rw [hcall] at he
          cases he
        | some e =>
          obtain ⟨cs, u, hcs, hu, hsame, hstored⟩ :=
            store_all pools cp endtime before t hcall e.len
          refine ⟨cs, u, hcs, hu, fun _ e' he' j hj => ?_⟩
          rw [hsame, hcall] at he'
          cases he'
          refine hstored j ?_ hj
          unfold iobSector at hj
          omega
      | inject i | claim i rand nextbno | issue i d | bottom i => exact ⟨[], t, .nil, rfl, trivial⟩
    obtain ⟨cs, u, hcs, hu, hhonest⟩ := hready
    have hstep : (disk pools cp endtime T before).step (.io a fun _ => someDraws) u =
        some (u.next pools (fun _ => someDraws) g a) := by
      unfold disk diskStep
      dsimp only
      rw [hu, hst]
      rfl
    have hok : quietDisk endtime u (.io a fun _ => someDraws) := by
      refine ⟨?_, hhonest⟩
      rw [hu]
      exact hq
    exact ⟨_, _, (hrun.trans hcs).snoc hok hstep, DiskState.next_fill g a⟩

/-- `-t size=2048,count=2,nrep=3 -m maxoff=4`. -/
def smallArgs : List CmdOpt :=
  [.t [.size (some 2048), .count (some 2), .nrep (some 3)], .m [.maxoff (some 4)]]

theorem getopt_smallArgs : getopt smallArgs = some ⟨smallFill, (4096 : UInt64) <<< 20⟩ := rfl

/-- The threads can finish any fill whose requests fit, and the disk with them. -/
theorem disk_finishes (pools : Pools) (endtime : UInt64) (T : ℕ) (before : Mem) (hp : cp.Ok)
    (hsec : cp.Sectored) (hbuf : Buffered cp) (hsum : total cp + T < 2 ^ 64) :
    ∃ s, (disk pools cp endtime T before).Reachable (quietDisk endtime) s ∧ s.fill.Finished := by
  obtain ⟨as, f, hrun, hfin⟩ := (quiet_ends endtime hp hsum).2 _
    (Machine.Reachable.start (M := fill cp endtime T))
  have hinit : Backed cp (disk pools cp endtime T before).init := backed_init endtime before hp
  obtain ⟨bs, s, hs, rfl⟩ := disk_of_fill pools before hp hsec hbuf hinit hrun
  exact ⟨s, ⟨bs, hs⟩, hfin⟩

theorem small_finishes (pools : Pools) (before : Mem) : ∃ s,
    (disk pools smallFill 5 2 before).Reachable (quietDisk 5) s ∧ s.fill.Finished :=
  disk_finishes pools 5 2 before smallFill_ok (sectored_of_getopt getopt_smallArgs)
    (buffered_of_fits smallFill_ok (by decide)) (by decide)

/-! ## What the file holds -/

/-- **The file holds old sectors and data of the type, and nothing else.** Whatever the schedule
of the threads and of the disk, and whichever writes fail half way: a sector of the file is as it
was before, or a request covers it and it is one that `iob_iodata` makes for the type.

A write that fails may have stored any of its sectors and in any order, and two threads may write
to the same sector; neither matters, since every sector that reaches the file at all comes out of
the buffer of some call. -/
theorem file_holds_data {args : List CmdOpt} {c : Config} (h : getopt args = some c)
    (hfit : ∀ b < min (total c.cp) c.cp.nio.toNat, LengthFits c.cp b)
    (hr : (disk pools c.cp endtime T before).Reachable Machine.always s) (m : ℕ) :
    sectorOf s.disk.file m = sectorOf before m ∨
      SectorData pools c.cp.datatype c.cp.dedupblks.toNat (sectorOf s.disk.file m) ∧
        ∃ d ∈ s.fill.issued, (extent d.2).Holds (iobSector * m) := by
  have hp := ok_of_getopt h
  obtain ⟨hs, hkept⟩ := disk_kept hp (sectored_of_getopt h) (buffered_of_fits hp hfit) hr
  obtain hsame | ⟨hdata, e, he, hin⟩ := WriteFile.sector_of_kept hs.sectored hkept
  · exact .inl hsame
  · rw [hs.begun] at he
    obtain ⟨d, hd, rfl⟩ := List.mem_map.mp he
    exact .inr ⟨hdata, d, hd, hin⟩

theorem file_holds_data_small : ∃ s : DiskState 2, s.fill.Finished ∧
    (sectorOf s.disk.file 7 = sectorOf (fun _ => 7) 7 ∨
      SectorData countingPools .vm (2 ^ 50) (sectorOf s.disk.file 7) ∧
        ∃ d ∈ s.fill.issued, (extent d.2).Holds 3584) := by
  obtain ⟨s, hr, hfin⟩ := small_finishes countingPools fun _ => 7
  exact ⟨s, hfin, file_holds_data getopt_smallArgs (by decide)
    (hr.mono fun _ _ _ => trivial) 7⟩

/-- **What is not old compresses as its type says**: with the pools of `iob_initdata` a sector of
the file is as it was before, or it has the shape of the data type.

`hfit` is the condition of `lengths_fit_iff`. A request that is longer than the thread's buffer
writes what is in memory behind it, of which there is nothing to say; under `hfit` all that is
written was put into the buffer by `iob_iodata`, and has the shape of the pools. -/
theorem file_compressible {pst vm : Mem} {args : List CmdOpt} {c : Config}
    (h : getopt args = some c)
    (hfit : ∀ b < min (total c.cp) c.cp.nio.toNat, LengthFits c.cp b)
    (hr : (disk (iobInitdata pst vm) c.cp endtime T before).Reachable Machine.always s) (m : ℕ) :
    sectorOf s.disk.file m = sectorOf before m ∨
      Compressible c.cp.datatype (sectorOf s.disk.file m) := by
  have hp := ok_of_getopt h
  obtain ⟨hs, hkept⟩ := disk_kept hp (sectored_of_getopt h) (buffered_of_fits hp hfit) hr
  obtain hsame | ⟨hdata, -⟩ := WriteFile.sector_of_kept hs.sectored hkept
  · exact .inl hsame
  · exact .inr (compressible_of_data hdata)

/-- `-t size=2048,count=2,nrep=3 -m maxoff=4,dtype=h10`. -/
def runsArgs : List CmdOpt :=
  [.t [.size (some 2048), .count (some 2), .nrep (some 3)],
    .m [.maxoff (some 4), .dtype (some .h10compressible)]]

def runsFill : CmdParams := { smallFill with datatype := .h10compressible }

theorem getopt_runsArgs : getopt runsArgs = some ⟨runsFill, (4096 : UInt64) <<< 20⟩ := rfl

theorem file_compressible_runs : ∃ s : DiskState 2, s.fill.Finished ∧
    (sectorOf s.disk.file 7 = sectorOf (fun _ => 7) 7 ∨ RunsOf 24 (sectorOf s.disk.file 7)) := by
  have hp : runsFill.Ok := ok_of_getopt getopt_runsArgs
  obtain ⟨s, hr, hfin⟩ := disk_finishes (iobInitdata UInt8.ofNat UInt8.ofNat) 5 2 (fun _ => 7)
    hp (sectored_of_getopt getopt_runsArgs) (buffered_of_fits hp (by decide)) (by decide)
  exact ⟨s, hfin, file_compressible getopt_runsArgs (by decide) (hr.mono fun _ _ _ => trivial) 7⟩

/-! ## A finished fill -/

theorem timesWritten_pos_iff {f : FillState T} {x : ℕ} : 0 < timesWritten f x ↔
    ∃ d ∈ f.issued, d.2.type = .write ∧ (extent d.2).Holds x := by
  unfold timesWritten
  rw [Nat.pos_iff_ne_zero, ne_eq, List.sum_eq_zero_iff, not_forall]
  constructor
  · rintro ⟨n, hn⟩
    obtain ⟨hmem, hne⟩ := Classical.not_imp.mp hn
    obtain ⟨d, hd, rfl⟩ := List.mem_map.mp hmem
    obtain ⟨hd, hwrite⟩ := List.mem_filter.mp hd
    refine ⟨d, hd, of_decide_eq_true hwrite, ?_⟩
    by_contra hout
    exact hne (Extent.covers_eq_zero hout)
  · rintro ⟨d, hd, hwrite, hin⟩
    refine ⟨(extent d.2).covers x, fun h => ?_⟩
    have hzero := h (List.mem_map.mpr
      ⟨d, List.mem_filter.mpr ⟨hd, decide_eq_true hwrite⟩, rfl⟩)
    unfold Extent.covers at hzero
    rw [if_pos hin] at hzero
    exact absurd hzero Nat.one_ne_zero

/-- **A sector of a finished fill**: data when some request was for it, and otherwise as it was. -/
theorem finished_sector (hp : cp.Ok) (hsec : cp.Sectored) (hbuf : Buffered cp)
    (hr : (disk pools cp endtime T before).Reachable (quietDisk endtime) s)
    (hlive : s.fill.exited = false) (hfin : s.fill.Finished) (m : ℕ) :
    if 0 < timesWritten s.fill (iobSector * m) then
      SectorData pools cp.datatype cp.dedupblks.toNat (sectorOf s.disk.file m)
    else sectorOf s.disk.file m = sectorOf before m := by
  obtain ⟨hs, hkept⟩ := disk_kept hp hsec hbuf (hr.mono fun _ _ _ => trivial)
  split
  case isTrue hpos =>
    obtain ⟨d, hd, -, hin⟩ := timesWritten_pos_iff.mp hpos
    have hidle : ∀ i, s.disk.call i = none := fun i => by
      rw [hs.call hlive i, LoopState.written, hfin i]
      rfl
    refine WriteFile.sector_of_settled hs.sectored (disk_settled hp hsec hbuf hr) hidle
      (e := extent d.2) ?_ hin
    rw [hs.begun]
    exact List.mem_map.mpr ⟨d, hd, rfl⟩
  case isFalse hzero =>
    obtain hsame | ⟨-, e, he, hin⟩ := WriteFile.sector_of_kept (m := m) hs.sectored hkept
    · exact hsame
    · rw [hs.begun] at he
      obtain ⟨d, hd, rfl⟩ := List.mem_map.mp he
      exact absurd (timesWritten_pos_iff.mpr ⟨d, hd, hs.placed.shape.writes d hd, hin⟩) hzero

/-- Where the region does not run over the top of the 64-bit range no request is longer than the
buffers. -/
theorem buffered_of_lt (hp : cp.Ok) (hmul : cp.multiplier = 1) (hreg : cp.region = cp.range)
    (hfit : cp.minoff.toNat + cp.range < 2 ^ 64) : Buffered cp := by
  intro k hk e he
  rcases mem_blockWork.mp he with rfl | ⟨rfl, -, -⟩
  · rw [blockExtent_len_of_lt hp hmul hreg hfit]
    split <;> omega
  · exact headerExtent_len_le hp

theorem live_of_quiet {f : FillState T} (hr : (fill cp endtime T).Reachable (quiet endtime) f) :
    f.exited = false :=
  hr.invariant (I := fun f => f.exited = false) rfl fun _ _ _ _ hq hst => (quiet_step hq hst).2

/-- **A fill of `count` blocks leaves its region full of data and the rest of the file as it
was.** The conditions are those under which the requests cover the region: `count` is the number
of blocks `ithreadinit` finds in it, and nothing wraps.

It takes both layers. `fills_region` counts the requests that hold a byte, and `Volume` says that
a sector some finished write was for holds what a write made of it. That every write has finished
is the end of the run (`hfin`), and that a finished write is one that is in the file is what
`honest` asks of the system. -/
theorem fill_leaves_data {args : List CmdOpt} {c : Config} (h : getopt args = some c)
    (hmul : c.cp.multiplier = 1) (hseek : c.cp.seekoff = 0) (hskip : c.cp.skip = 0)
    (hle : c.cp.minoff.toNat / c.cp.blk ≤ c.cp.maxoff.toNat / c.cp.blk)
    (hcount : c.cp.nio.toNat * c.cp.blk = (ithreadinit c.cp 0).rangeoff.toNat)
    (hsum : c.cp.nio.toNat * c.cp.nrep.toNat + T < 2 ^ 64)
    (hroom : c.cp.minoff.toNat + (c.cp.nio.toNat + 1) * c.cp.blk < 2 ^ 64)
    (hhdr : (ithreadinit c.cp 0).params.headersz.toNat ≠ c.cp.blk) (hT : 1 ≤ T)
    (hnrep : 1 ≤ c.cp.nrep.toNat)
    (hr : (disk pools c.cp endtime T before).Reachable (quietDisk endtime) s)
    (hfin : s.fill.Finished) (m : ℕ) :
    if c.cp.minoff.toNat ≤ iobSector * m ∧
        iobSector * m < c.cp.minoff.toNat + c.cp.nio.toNat * c.cp.blk then
      SectorData pools c.cp.datatype c.cp.dedupblks.toNat (sectorOf s.disk.file m)
    else sectorOf s.disk.file m = sectorOf before m := by
  have hp := ok_of_getopt h
  obtain ⟨hrange, hheader⟩ := hp.geometry
  have hblk := hp.blk_ge
  have hreg := region_eq_range_of_le hle
  have hn : c.cp.nio.toNat = c.cp.nblks :=
    Nat.eq_of_mul_eq_mul_right (by omega) (hcount.trans (hrange.trans hreg))
  have hlt : c.cp.hdr < c.cp.blk := by
    have hle' := hp.hdr_le
    have hne : c.cp.hdr ≠ c.cp.blk := hheader ▸ hhdr
    omega
  have htotal : total c.cp = c.cp.nblks * c.cp.nrep.toNat := by
    rw [← hn]
    exact toNat_mul_of_lt (by omega)
  have hfit : c.cp.minoff.toNat + c.cp.range < 2 ^ 64 := by
    rw [hn, Nat.succ_mul] at hroom
    unfold CmdParams.range
    omega
  have hwritten : timesWritten s.fill (iobSector * m) = c.cp.nrep.toNat *
      ∑ b ∈ range c.cp.nblks,
        weigh (Extent.covers (iobSector * m)) (blockWork c.cp (UInt64.ofNat b)) := by
    rw [timesWritten_eq hp (by rw [htotal, ← hn]; exact hsum) hT (fill_reachable hr) hfin, htotal]
    refine sum_ticketWork (fun b => weigh (Extent.covers (iobSector * m)) (blockWork c.cp b)) hn ?_
    rw [← hn]
    omega
  have hsector := finished_sector hp (sectored_of_getopt h) (buffered_of_lt hp hmul hreg hfit)
    hr (live_of_quiet (fill_reachable hr)) hfin m
  rw [hwritten] at hsector
  rw [hn] at hroom ⊢
  by_cases hx : c.cp.minoff.toNat ≤ iobSector * m ∧
      iobSector * m < c.cp.minoff.toNat + c.cp.nblks * c.cp.blk
  · rw [round_covers hp hmul hseek hskip hreg hfit hlt hx.1 hx.2, if_pos (by omega)] at hsector
    rw [if_pos hx]
    exact hsector
  · rw [round_outside hp hmul hseek hreg hlt hroom hx, if_neg (by omega)] at hsector
    rw [if_neg hx]
    exact hsector

theorem fill_leaves_data_small : ∃ s : DiskState 2, s.fill.Finished ∧
    SectorData countingPools .vm (2 ^ 50) (sectorOf s.disk.file 7) ∧
    sectorOf s.disk.file 8 = sectorOf (fun _ => 7) 8 := by
  obtain ⟨s, hr, hfin⟩ := small_finishes countingPools fun _ => 7
  have hall := fill_leaves_data getopt_smallArgs rfl rfl rfl (by decide) (by decide) (by decide)
    (by decide) (by decide) (by decide) (by decide) hr hfin
  exact ⟨s, hfin, hall 7, hall 8⟩

end Runs

end Iofill
end Blockbench
