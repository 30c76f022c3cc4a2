import Blockbench.Iob.Write
import Blockbench.Ioload.Aligned

/-!
# `Ioload/Disk.lean` — what a load leaves on the disk

The threads of one file, each in a call of `do_io` or between two of them, and the file of
`Iob/Write.lean` they write to. A turn of the piece loop is two steps here: `LoadAct.write` has
`iob_iodata` fill the buffer for a WRITE type and calls `iob_write`, and the step of `do_io` that
records the request is the call's return. In between come the sectors it stores.

When a thread begins a call, for which round and with which `finish`, is left open: every order of
calls is a run here, those `runtest` makes among them.

A sector is written in one piece only if the pieces are whole sectors, so the condition is
`AlignedOptions`. Then a sector of the file is as it was or holds data of a WRITE type of the
command line, and where the pieces stay in the range (`Fits`) it is in the range.
-/

set_option autoImplicit false

namespace Blockbench
namespace Ioload

open CInt Bytes Machine

variable {T : ℕ}

/-- A thread, with `current->finish` of the round it is in. -/
structure LoadThread where
  io : DoIo
  finish : UInt64

/-- The threads of a file, and the file with what they are writing to it. -/
structure LoadState (T : ℕ) where
  thread : Fin T → LoadThread
  disk : WriteFile (Fin T)

/-- `io_thread` calls `do_io`; a WRITE piece is begun; a step of `do_io`; a sector is stored. -/
inductive LoadAct (T : ℕ)
  | call (i : Fin T) (finish now : UInt64)
  | write (i : Fin T) (draws : ℕ → PageDraws)
  | io (i : Fin T) (a : Act)
  | store (i : Fin T) (j : ℕ)

/-- The piece a thread is about to issue, when it is one of a WRITE type. -/
def DoIo.writing (itp : IoThread) (s : DoIo) : Option (Itype × Request) :=
  match s.pc with
  | .pieces ip _ l =>
    if 0 < l.sz ∧ ip.optype = .write then some (ip, request itp ip s.ionum l) else none
  | _ => none

/-- The file after a step of `do_io` from `s`: `none` when the step is the return of a call of
`iob_write` that has not been made. -/
def ioReturn (itp : IoThread) (s : DoIo) (a : Act) (i : Fin T) (w : WriteFile (Fin T)) :
    Option (WriteFile (Fin T)) :=
  match a, s.writing itp with
  | .io _ _, some _ => if (w.call i).isSome then some (w.finish i) else none
  | _, _ => some w

def LoadState.set (s : LoadState T) (i : Fin T) (l : LoadThread) : Fin T → LoadThread :=
  Function.update s.thread i l

def loadStep (pools : Pools) (ignErrors : Bool) (itp : Fin T → IoThread) :
    LoadAct T → LoadState T → Option (LoadState T)
  | .call i finish now, s =>
    match (s.thread i).io.pc with
    | .returned =>
      let io := (s.thread i).io
      some { s with thread := s.set i ⟨doIoInit (itp i) now io.start io.endTime, finish⟩ }
    | _ => none
  | .write i draws, s =>
    match (s.thread i).io.writing (itp i), s.disk.call i with
    | some (ip, r), none =>
      some { s with
        disk := s.disk.write i r.extent
          (iobIodata pools r.size ip.dtype ip.dedupblks draws (s.disk.bp i)) }
    | _, _ => none
  | .io i a, s => do
    let io ← doIoStep ignErrors (s.thread i).finish (itp i) a (s.thread i).io
    let disk ← ioReturn (itp i) (s.thread i).io a i s.disk
    return { thread := s.set i { s.thread i with io := io }, disk := disk }
  | .store i j, s => (s.disk.store i j).map fun w => { s with disk := w }

/-- A thread before its first call; `iob_malloc` has zeroed `rp->detail`. -/
def newThread : LoadThread where
  io :=
    { pc := .returned
      ionum := 1
      start := 0
      endTime := 0
      iotime := 0
      nextio := 0
      issued := [] }
  finish := 0

/-- The load of a file that held `before` by the threads `itp`. -/
def load (pools : Pools) (ignErrors : Bool) (itp : Fin T → IoThread) (before : Mem) :
    Machine (LoadState T) (LoadAct T) where
  init := { thread := fun _ => newThread, disk := .init before }
  step := loadStep pools ignErrors itp

/-- No I/O fails, and a write that is reported as done has been done. -/
def sound (s : LoadState T) : LoadAct T → Prop
  | .io i (.io _ r) => r.error = false ∧ s.disk.Whole i
  | _ => True

/-! ## What `dedupblks` can be -/

/-- The clamp of `getitypeopts`, or the default. -/
def Itype.Clamped (ip : Itype) : Prop := 1 ≤ ip.dedupblks.toNat ∧ ip.dedupblks.toNat ≤ 2 ^ 50

theorem defitype_clamped : defitype.Clamped := by
  constructor <;> decide

theorem getitypeopt_clamped {a b : ItypeAcc} {o : ItypeOpt} (ha : a.ip.Clamped)
    (h : getitypeopt a o = some b) : b.ip.Clamped := by
  cases o with
  | size value =>
    simp only [getitypeopt, Option.bind_eq_bind, Option.bind_eq_some_iff] at h
    obtain ⟨v, -, h⟩ := h
    split at h
    · cases h
    · cases h
      exact ha
  | sleeptm value =>
    simp only [getitypeopt, Option.bind_eq_bind, Option.bind_eq_some_iff] at h
    obtain ⟨v, -, h⟩ := h
    split at h
    · cases h
    · cases h
      exact ha
  | op value =>
    cases value with
    | write | read | sleep =>
      cases h
      exact ha
    | other | missing => cases h
  | dedupblks value =>
    simp only [getitypeopt, Option.bind_eq_bind, Option.bind_eq_some_iff, Option.pure_def,
      Option.some.injEq] at h
    obtain ⟨v, -, rfl⟩ := h
    exact clampDedupblks_bounds v
  | pct value | dtype value | longlat value | repwrite value =>
    simp only [getitypeopt, Option.bind_eq_bind, Option.bind_eq_some_iff, Option.pure_def,
      Option.some.injEq] at h
    obtain ⟨v, -, rfl⟩ := h
    exact ha
  | unknown => cases h

theorem mainOpt_clamped {c d : Config} {opt : CmdOpt} (hc : ∀ ip ∈ c.itlist, ip.Clamped)
    (h : mainOpt c opt = some d) : ∀ ip ∈ d.itlist, ip.Clamped := by
  cases opt with
  | n | v | l | o =>
    cases h
    exact hc
  | m options =>
    simp only [mainOpt, Option.bind_eq_bind, Option.bind_eq_some_iff, Option.pure_def,
      Option.some.injEq] at h
    obtain ⟨p, -, rfl⟩ := h
    exact hc
  | i options =>
    simp only [mainOpt, getitypeopts, Option.bind_eq_bind, Option.bind_eq_some_iff,
      Option.pure_def, Option.some.injEq] at h
    obtain ⟨a, ha, rfl⟩ := h
    have hnew : a.ip.Clamped := foldlM_keeps (P := fun a => a.ip.Clamped)
      (fun _ _ _ => getitypeopt_clamped) options defitype_clamped ha
    intro ip hip
    obtain hip | hip := List.mem_append.mp hip
    · exact hc ip hip
    · obtain rfl := List.mem_singleton.mp hip
      unfold setSleepSize
      split <;> exact hnew
  | unknown => cases h

theorem clamped_of_getopt {args : List CmdOpt} {c : Config} (h : getopt args = some c) :
    ∀ ip ∈ c.itlist, ip.Clamped := by
  rw [getopt, Option.map_eq_some_iff] at h
  obtain ⟨d, hd, rfl⟩ := h
  have hall : ∀ ip ∈ d.itlist, ip.Clamped :=
    foldlM_keeps (P := fun c => ∀ ip ∈ c.itlist, ip.Clamped) (fun _ _ _ => mainOpt_clamped) args
      (fun _ h => absurd h List.not_mem_nil) hd
  unfold useDefitype
  split
  · intro ip hip
    obtain rfl := List.mem_singleton.mp hip
    exact defitype_clamped
  · exact hall

/-! ## The pieces and the calls -/

def LoadData (pools : Pools) (itlist : List Itype) (b : Sector) : Prop :=
  ∃ ip ∈ itlist, ip.optype = .write ∧ SectorData pools ip.dtype ip.dedupblks.toNat b

def WritePiece (t : IoThread) (e : Extent) : Prop :=
  ∃ ip ∈ t.itlist, ip.optype = .write ∧ ∃ rand, IsPiece t ip rand e

/-- What a state looks like: a thread that is in a call of `do_io` is somewhere in a run of it,
and the calls of `iob_write` are for whole sectors and for pieces. -/
structure Backed (ignErrors : Bool) (itp : Fin T → IoThread) (s : LoadState T) : Prop where
  running : ∀ i, (s.thread i).io.pc = .returned ∨ ∃ now start endTime,
    (doIo ignErrors (s.thread i).finish (itp i) now start endTime).Reachable always (s.thread i).io
  sectored : s.disk.Sectored
  pieces : ∀ e ∈ s.disk.begun, ∃ i, WritePiece (itp i) e

section Step

variable {pools : Pools} {ignErrors : Bool} {itp : Fin T → IoThread} {s t : LoadState T}
  {whole : Prop} {i : Fin T}

theorem writing_cases {itp : IoThread} {s : DoIo} {ip : Itype} {r : Request}
    (h : s.writing itp = some (ip, r)) : ∃ offset l, s.pc = .pieces ip offset l ∧ 0 < l.sz ∧
      ip.optype = .write ∧ r = request itp ip s.ionum l := by
  unfold DoIo.writing at h
  split at h
  case h_1 ip' offset l hpc =>
    split at h
    case isTrue hw =>
      cases h
      exact ⟨offset, l, hpc, hw.1, hw.2, rfl⟩
    case isFalse => cases h
  case h_2 => cases h

theorem records_piece (ignErrors : Bool) (finish : UInt64) {itp : IoThread} {s : DoIo}
    {ip : Itype} {r : Request} (h : s.writing itp = some (ip, r)) :
    ∃ t, doIoStep ignErrors finish itp (.io 0 ⟨0, 0, false, 0, 0⟩) s = some t ∧ r ∈ t.issued := by
  obtain ⟨offset, l, hpc, hsz, hop, rfl⟩ := writing_cases h
  have hawake : ip.optype ≠ .sleep := by
    rw [hop]
    exact nofun
  obtain ⟨l', hl'⟩ : ∃ l', pieceStep itp.params.maxiosize ip.optype 0 l = some l' :=
    ⟨⟨_, _⟩, (pieceStep_spec hawake).mpr ⟨Int32.lt_iff_toInt_lt.mp hsz, rfl, rfl⟩⟩
  have hstep : doIoStep ignErrors finish itp (.io 0 ⟨0, 0, false, 0, 0⟩) s = some { s with
      pc := .pieces ip offset l'
      ionum := s.ionum + 1
      issued := request itp ip s.ionum l :: s.issued
      start := 0
      endTime := 0 } := by
    simp only [doIoStep, hpc, hl', Bool.false_eq_true, false_and, if_false]
    exact if_pos hsz
  exact ⟨_, hstep, List.mem_cons_self⟩

/-- **A WRITE piece about to be issued** is one of the thread's, and a whole number of sectors at
a sector. -/
theorem Backed.writing (h : Backed ignErrors itp s) (hal : Aligned (itp i)) {ip : Itype}
    {r : Request} (hw : (s.thread i).io.writing (itp i) = some (ip, r)) :
    ip ∈ (itp i).itlist ∧ ip.optype = .write ∧ WritePiece (itp i) r.extent ∧
      AtSectors r.extent ∧ r.size.toNat < 2 ^ 31 := by
  obtain ⟨offset, l, hpc, hsz, hop, hr⟩ := writing_cases hw
  obtain hidle | ⟨now, start, endTime, hreach⟩ := h.running i
  · rw [hidle] at hpc
    cases hpc
  have hdraws := (draws_of_reachable hreach).pc
  rw [hpc] at hdraws
  obtain ⟨hsel, ⟨rand, hoff⟩, hloop⟩ := hdraws
  obtain ⟨u, hstep, hmem⟩ := records_piece ignErrors (s.thread i).finish hw
  have hst : (doIo ignErrors (s.thread i).finish (itp i) now start endTime).step
      (.io 0 ⟨0, 0, false, 0, 0⟩) (s.thread i).io = some u := hstep
  have hreach' := hreach.run (Run.single trivial hst)
  have htype : r.type = .write := by
    rw [hr]
    exact hop
  have haligned := hal _ _ _ _ _ u hreach' r hmem (.inr htype)
  have hpiece : WritePiece (itp i) r.extent := by
    refine ⟨ip, hsel.mem, hop, rand, offset, l, hoff, hloop, hsz, ?_⟩
    rw [hr]
    rfl
  refine ⟨hsel.mem, hop, hpiece, haligned, ?_⟩
  have hpos := Int32.lt_iff_toInt_lt.mp hsz
  have hlt := Int32.toInt_lt l.sz
  have hsize : r.size.toNat = min (itp i).params.maxiosize.toUInt32.toNat l.sz.toInt.toNat := by
    rw [hr]
    exact toNat_detailSize _ hpos
  change 0 < l.sz.toInt at hpos
  omega

theorem Backed.thread (h : Backed ignErrors itp s) {l : LoadThread}
    (hl : l.io.pc = .returned ∨ ∃ now start endTime,
      (doIo ignErrors l.finish (itp i) now start endTime).Reachable always l.io) (j : Fin T) :
    (s.set i l j).io.pc = .returned ∨ ∃ now start endTime,
      (doIo ignErrors (s.set i l j).finish (itp j) now start endTime).Reachable always
        (s.set i l j).io := by
  unfold LoadState.set
  by_cases hji : j = i
  · subst hji
    rw [Function.update_self]
    exact hl
  · rw [Function.update_of_ne hji]
    exact h.running j

/-- What a step of `do_io` does to the file: nothing, or it is the return of a call. -/
theorem ioReturn_cases {itp : IoThread} {io : DoIo} {a : Act} {w v : WriteFile (Fin T)}
    (h : ioReturn itp io a i w = some v) :
    v = w ∨ (∃ mrand r, a = .io mrand r) ∧ (∃ e, w.call i = some e) ∧ v = w.finish i := by
  unfold ioReturn at h
  split at h
  case h_1 mrand r _ _ =>
    split at h
    case isTrue hcall =>
      cases h
      exact .inr ⟨⟨mrand, r, rfl⟩, Option.isSome_iff_exists.mp hcall, rfl⟩
    case isFalse => cases h
  case h_2 =>
    cases h
    exact .inl rfl

/-- **A step** of the program or of the disk leaves the file alone, or is a move of its volume. -/
theorem Backed.step (whole : Prop) {itlist : List Itype} (hlist : ∀ i, (itp i).itlist = itlist)
    (hclamp : ∀ ip ∈ itlist, ip.Clamped) (hal : ∀ i, Aligned (itp i))
    (h : Backed ignErrors itp s) {a : LoadAct T} (hw : whole → sound s a)
    (hst : loadStep pools ignErrors itp a s = some t) :
    Backed ignErrors itp t ∧ (t.disk = s.disk ∨
      Volume.Move (LoadData pools itlist) whole s.disk.volume t.disk.volume) := by
  cases a with
  | call i finish now =>
    unfold loadStep at hst
    dsimp only at hst
    split at hst
    case h_1 =>
      cases hst
      exact ⟨⟨h.thread (.inr ⟨now, _, _, .start⟩), h.sectored, h.pieces⟩, .inl rfl⟩
    case h_2 => cases hst
  | write i draws =>
    unfold loadStep at hst
    dsimp only at hst
    split at hst
    case h_1 ip r hwriting hidle =>
      cases hst
      obtain ⟨hmem, hop, hpiece, hat, hlt⟩ := h.writing (hal i) hwriting
      obtain ⟨h1, hD⟩ := hclamp ip (hlist i ▸ hmem)
      have hlen : r.extent.len = r.size.toNat := rfl
      refine ⟨⟨h.running, h.sectored.write hat, fun e he => ?_⟩,
        .inr (WriteFile.write_move hidle fun j hj => ?_)⟩
      · obtain rfl | he := List.mem_cons.mp he
        · exact ⟨i, hpiece⟩
        · exact h.pieces e he
      · exact ⟨ip, hlist i ▸ hmem, hop,
          iobIodata_sectors draws h1 hD hat.2 hlt.le (by rw [← hlen]; exact hj)⟩
    case h_2 => cases hst
  | io i a =>
    simp only [loadStep, Option.bind_eq_bind, Option.bind_eq_some_iff, Option.pure_def,
      Option.some.injEq] at hst
    obtain ⟨io, hio, v, hv, rfl⟩ := hst
    have hrunning : io.pc = .returned ∨ ∃ now start endTime,
        (doIo ignErrors (s.thread i).finish (itp i) now start endTime).Reachable always io := by
      obtain hidle | ⟨now, start, endTime, hreach⟩ := h.running i
      · -- between two calls there is no step to take
        cases a <;> simp [doIoStep, hidle] at hio
      · have hst : (doIo ignErrors (s.thread i).finish (itp i) now start endTime).step a
            (s.thread i).io = some io := hio
        exact .inr ⟨now, start, endTime, hreach.run (Run.single trivial hst)⟩
    obtain rfl | ⟨⟨mrand, r, rfl⟩, ⟨e, he⟩, rfl⟩ := ioReturn_cases hv
    · exact ⟨⟨h.thread hrunning, h.sectored, h.pieces⟩, .inl rfl⟩
    · exact ⟨⟨h.thread hrunning, h.sectored.finish, h.pieces⟩,
        .inr (WriteFile.finish_move he fun hwhole => (hw hwhole).2)⟩
  | store i j =>
    obtain ⟨w, hstore, rfl⟩ := Option.map_eq_some_iff.mp hst
    obtain ⟨_, -, -, hdisk⟩ := WriteFile.store_cases hstore
    refine ⟨⟨h.running, h.sectored.store hstore, ?_⟩,
      .inr (WriteFile.store_move h.sectored hstore)⟩
    rw [hdisk]
    exact h.pieces

end Step

/-! ## Over every run -/

section Runs

variable {pools : Pools} {ignErrors : Bool} {itp : Fin T → IoThread} {s : LoadState T}
  {before : Mem} {ok : LoadState T → LoadAct T → Prop} {itlist : List Itype}

theorem load_kept (hlist : ∀ i, (itp i).itlist = itlist) (hclamp : ∀ ip ∈ itlist, ip.Clamped)
    (hal : ∀ i, Aligned (itp i)) (hr : (load pools ignErrors itp before).Reachable ok s) :
    Backed ignErrors itp s ∧ s.disk.volume.Kept (LoadData pools itlist) (sectorOf before) ∧
      ((∀ s a, ok s a → sound s a) → s.disk.volume.Settled (LoadData pools itlist)) := by
  refine hr.invariant (I := fun s => Backed ignErrors itp s ∧
    s.disk.volume.Kept (LoadData pools itlist) (sectorOf before) ∧
    ((∀ s a, ok s a → sound s a) → s.disk.volume.Settled (LoadData pools itlist))) ?start ?step
  case start =>
    refine ⟨⟨fun _ => .inl rfl, WriteFile.sectored_init before, ?_⟩, WriteFile.kept_init,
      fun _ => WriteFile.settled_init⟩
    intro e he
    cases he
  case step =>
    rintro s a t ⟨hs, hkept, hsettled⟩ hok hst
    obtain ⟨ht, hmove⟩ := hs.step (∀ s a, ok s a → sound s a) hlist hclamp hal
      (fun hsound => hsound s a hok) hst
    obtain hsame | hmove := hmove
    · rw [hsame]
      exact ⟨ht, hkept, hsettled⟩
    · exact ⟨ht, hkept.move hmove, fun hsound => (hsettled hsound).move hkept hsound hmove⟩

theorem threads_of_getopt {args : List CmdOpt} {c : Config} {nfiles : ℕ} {files : List File}
    {f : File} (hargs : getopt args = some c) (hfiles : 0 < nfiles)
    (hinit : initThreads nfiles c.cp c.itlist = some files) (hf : f ∈ files)
    (hsplit : AlignedOptions c.cp c.itlist) (i : Fin f.ithreads.length) :
    (f.ithreads.get i).params = c.cp ∧ (f.ithreads.get i).itlist = c.itlist ∧
      (f.ithreads.get i).rangeoff = rangeoff c.cp c.itlist ∧ Aligned (f.ithreads.get i) := by
  obtain ⟨hok, -⟩ := ok_of_getopt hargs
  have hheader := headersz_dvd_of_getopt hargs
  obtain ⟨hcp, hlist, hrange⟩ := thread_of_initThreads hinit hf (f.ithreads.get_mem i)
  refine ⟨hcp, hlist, hrange, ?_⟩
  refine (all_threads_iff (P := Aligned) hinit hfiles ?_).mpr hsplit f hf _ (f.ithreads.get_mem i)
  intro t hcp hlist hrange
  rw [← hcp, ← hlist] at hrange
  rw [aligned_iff (hcp ▸ hok.ranged) (hlist ▸ hok.itypes) (hcp ▸ hheader) hrange, hcp, hlist]

/-- `-m maxoff=1,header=0,maxthreads=1 -i size=1024,op=write`. -/
def oneWriter : List CmdOpt :=
  [.m [.maxoff (some 1), .header (some 0), .maxthreads (some 1)],
    .i [.size (some 1024), .op .write]]

def oneWriterConfig : Config where
  cp := { params with maxoff := 1048576, headersz := 0, maxthreads := 1 }
  itlist := [{ defitype with size := 1024, optype := .write }]
  ignErrors := false
  verbose := false
  latDetails := false
  longlats := false

def oneWriterFile : File where
  fileno := 1
  params := oneWriterConfig.cp
  itlist := oneWriterConfig.itlist
  ithreads := [ithreadinit 0 oneWriterConfig.cp oneWriterConfig.itlist 1024]

theorem oneWriter_accepted : getopt oneWriter = some oneWriterConfig ∧
    initThreads 1 oneWriterConfig.cp oneWriterConfig.itlist = some [oneWriterFile] ∧
    AlignedOptions oneWriterConfig.cp oneWriterConfig.itlist := by
  refine ⟨rfl, rfl, .inr (.inr fun ip hsel _ _ => .inl ?_)⟩
  obtain rfl := List.mem_singleton.mp hsel.mem
  decide

def oneWriterThread : Fin oneWriterFile.ithreads.length := ⟨0, by decide⟩

/-- It writes the first kilobyte of the file, the second sector before the first. -/
def oneWrite : List (LoadAct oneWriterFile.ithreads.length) :=
  [.call oneWriterThread 1 0, .io oneWriterThread (.top ⟨0, by decide⟩ 0),
    .write oneWriterThread fun _ => someDraws, .store oneWriterThread 1, .store oneWriterThread 0]

theorem oneWrite_ends (pools : Pools) (before : Mem) : ∃ s,
    (load pools false oneWriterFile.ithreads.get before).Reachable sound s ∧
      (∀ i, s.disk.call i = none) ∧ s.disk.begun = [⟨0, 1024⟩] := by
  have hstored : ∃ s, (load pools false oneWriterFile.ithreads.get before).exec oneWrite
      (load pools false oneWriterFile.ithreads.get before).init = some s ∧
      s.disk.call oneWriterThread = some ⟨0, 1024⟩ ∧ s.disk.stored oneWriterThread = [0, 1] ∧
      ∃ t, (load pools false oneWriterFile.ithreads.get before).step
        (.io oneWriterThread (.io 0 ⟨0, 0, false, 0, 0⟩)) s = some t ∧
      t.disk.call oneWriterThread = none ∧ t.disk.begun = [⟨0, 1024⟩] :=
    ⟨_, rfl, rfl, rfl, _, rfl, rfl, rfl⟩
  obtain ⟨s, hexec, hcall, hsectors, t, hst, hidle, hbegun⟩ := hstored
  have hquiet : ∀ a ∈ oneWrite, ∀ s, sound s a := by
    intro a ha s
    simp only [oneWrite, List.mem_cons, List.not_mem_nil, or_false] at ha
    obtain rfl | rfl | rfl | rfl | rfl := ha <;> trivial
  have hrun := (run_of_exec hexec).of_actions hquiet
  have hwhole : s.disk.Whole oneWriterThread := by
    intro e he j hj
    rw [hcall] at he
    cases he
    rw [hsectors]
    unfold Blockbench.iobSector at hj
    have hj' : j = 0 ∨ j = 1 := by
      dsimp only at hj
      omega
    simp [hj']
  have hlast : sound s (.io oneWriterThread (.io 0 ⟨0, 0, false, 0, 0⟩)) := ⟨rfl, hwhole⟩
  refine ⟨t, ⟨_, hrun.snoc hlast hst⟩, fun i => ?_, hbegun⟩
  obtain rfl : i = oneWriterThread := Fin.ext (Nat.lt_one_iff.mp i.isLt)
  exact hidle

/-! ## What the file holds -/

/-- **The file of a load holds old sectors and data of its WRITE types, and nothing else.**
Whatever the rounds, the schedule of the threads and of the disk, and whichever writes fail: a
sector is as it was before, or a piece of a WRITE type covers it and it is one that `iob_iodata`
makes for a WRITE type of the command line.

`AlignedOptions` is needed for the second half. A piece that ends in the middle of a sector leaves
half of it as it was, which is neither the old sector nor one that any call of `iob_iodata` made.
-/
theorem load_holds_data {args : List CmdOpt} {c : Config} {nfiles : ℕ} {files : List File}
    {f : File} (hargs : getopt args = some c) (hfiles : 0 < nfiles)
    (hinit : initThreads nfiles c.cp c.itlist = some files) (hf : f ∈ files)
    (hsplit : AlignedOptions c.cp c.itlist) {s : LoadState f.ithreads.length}
    (hr : (load pools c.ignErrors f.ithreads.get before).Reachable always s) (m : ℕ) :
    sectorOf s.disk.file m = sectorOf before m ∨
      LoadData pools c.itlist (sectorOf s.disk.file m) ∧
        ∃ t ∈ f.ithreads, ∃ e, WritePiece t e ∧ e.Holds (512 * m) := by
  have hthreads := threads_of_getopt hargs hfiles hinit hf hsplit
  obtain ⟨hs, hkept, -⟩ := load_kept (fun i => (hthreads i).2.1) (clamped_of_getopt hargs)
    (fun i => (hthreads i).2.2.2) hr
  obtain hsame | ⟨hdata, e, he, hin⟩ := WriteFile.sector_of_kept hs.sectored hkept
  · exact .inl hsame
  · obtain ⟨i, hpiece⟩ := hs.pieces e he
    exact .inr ⟨hdata, _, f.ithreads.get_mem i, e, hpiece, hin⟩

theorem load_holds_data_one : ∃ s : LoadState oneWriterFile.ithreads.length,
    s.disk.begun = [⟨0, 1024⟩] ∧
    (sectorOf s.disk.file 1 = sectorOf (fun _ => 7) 1 ∨
      LoadData countingPools oneWriterConfig.itlist (sectorOf s.disk.file 1) ∧
        ∃ t ∈ oneWriterFile.ithreads, ∃ e, WritePiece t e ∧ e.Holds 512) := by
  obtain ⟨hargs, hinit, hsplit⟩ := oneWriter_accepted
  obtain ⟨s, hr, -, hbegun⟩ := oneWrite_ends countingPools fun _ => 7
  exact ⟨s, hbegun, load_holds_data hargs Nat.one_pos hinit List.mem_cons_self hsplit
    (hr.mono fun _ _ _ => trivial) 1⟩

/-- **When no write is under way and none has failed, the file is what the writes made of it**: a
sector that a call was for holds data of a WRITE type, and every other is as it was.

Which data it is depends on the order in which the disk stored what, and is left open: two threads
may write to one sector, and the later call need not be the one whose sector stays. -/
theorem load_leaves_data {args : List CmdOpt} {c : Config} {nfiles : ℕ} {files : List File}
    {f : File} (hargs : getopt args = some c) (hfiles : 0 < nfiles)
    (hinit : initThreads nfiles c.cp c.itlist = some files) (hf : f ∈ files)
    (hsplit : AlignedOptions c.cp c.itlist) {s : LoadState f.ithreads.length}
    (hr : (load pools c.ignErrors f.ithreads.get before).Reachable sound s)
    (hidle : ∀ i, s.disk.call i = none) (m : ℕ) :
    ((∃ e ∈ s.disk.begun, e.Holds (512 * m)) → LoadData pools c.itlist (sectorOf s.disk.file m)) ∧
      ((∀ e ∈ s.disk.begun, ¬ e.Holds (512 * m)) →
        sectorOf s.disk.file m = sectorOf before m) := by
  have hthreads := threads_of_getopt hargs hfiles hinit hf hsplit
  obtain ⟨hs, hkept, hsettled⟩ := load_kept (fun i => (hthreads i).2.1) (clamped_of_getopt hargs)
    (fun i => (hthreads i).2.2.2) hr
  constructor
  · rintro ⟨e, he, hin⟩
    exact WriteFile.sector_of_settled hs.sectored (hsettled fun _ _ h => h) hidle he hin
  · intro hout
    obtain hsame | ⟨-, e, he, hin⟩ := WriteFile.sector_of_kept (m := m) hs.sectored hkept
    · exact hsame
    · exact absurd hin (hout e he)

theorem load_leaves_data_one : ∃ s : LoadState oneWriterFile.ithreads.length,
    LoadData countingPools oneWriterConfig.itlist (sectorOf s.disk.file 1) ∧
    sectorOf s.disk.file 2 = sectorOf (fun _ => 7) 2 := by
  obtain ⟨hargs, hinit, hsplit⟩ := oneWriter_accepted
  obtain ⟨s, hr, hidle, hbegun⟩ := oneWrite_ends countingPools fun _ => 7
  have hall := load_leaves_data hargs Nat.one_pos hinit List.mem_cons_self hsplit hr hidle
  refine ⟨s, (hall 1).1 ?_, (hall 2).2 ?_⟩
  · rw [hbegun]
    exact ⟨⟨0, 1024⟩, List.mem_cons_self, by decide⟩
  · rw [hbegun]
    decide

end Runs

end Ioload
end Blockbench
