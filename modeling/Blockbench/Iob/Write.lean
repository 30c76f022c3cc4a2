import Blockbench.Lib.Volume
import Blockbench.Iob.Sectors

/-!
# `Iob/Write.lean` — `iob_write`, and the file it writes to

A call of `iob_write` lasts: between its start and its return the bytes of the buffer go into the
file a sector at a time, in any order, along with what other threads write. `WriteFile` is a file
with the calls under way on it. A thread has one buffer, so there is one call for each thread, and
`WriteFile.store` is the one thing the disk does.

`volume` reads the file sector by sector. For calls of whole sectors every operation is a
`Volume.Move`, and the rules of `Lib/Volume.lean` apply: what the buffers held is all that the file
can have come to hold.
-/

set_option autoImplicit false

namespace Blockbench

open Bytes

/-- The file, each thread's buffer, the bytes it has asked to write while it is in a call, the
sectors of them that have reached the file, and all calls made. -/
structure WriteFile (ι : Type) where
  file : Mem
  bp : ι → Mem
  call : ι → Option Extent
  stored : ι → List ℕ
  begun : List Extent

def AtSectors (e : Extent) : Prop := iobSector ∣ e.off ∧ iobSector ∣ e.len

def sectors (e : Extent) : Extent := ⟨e.off / iobSector, e.len / iobSector⟩

theorem AtSectors.holds_iff {e : Extent} (h : AtSectors e) {m : ℕ} :
    e.Holds (iobSector * m) ↔ (sectors e).Holds m := by
  obtain ⟨hoff, hlen⟩ := h
  unfold sectors Extent.Holds iobSector at *
  dsimp only
  omega

theorem lt_sectors {e : Extent} {j : ℕ} (h : j < (sectors e).len) : iobSector * j < e.len := by
  unfold sectors iobSector at *
  dsimp only at h
  omega

namespace WriteFile

variable {ι : Type}

def init (file : Mem) : WriteFile ι where
  file := file
  bp _ _ := 0
  call _ := none
  stored _ := []
  begun := []

def Whole (w : WriteFile ι) (i : ι) : Prop :=
  ∀ e, w.call i = some e → ∀ j, iobSector * j < e.len → j ∈ w.stored i

variable [DecidableEq ι]

/-- Thread `i` fills its buffer and calls `iob_write`. -/
def write (w : WriteFile ι) (i : ι) (e : Extent) (bp : Mem) : WriteFile ι :=
  { w with
    bp := Function.update w.bp i bp
    call := Function.update w.call i (some e)
    stored := Function.update w.stored i []
    begun := e :: w.begun }

/-- Sector `j` of what thread `i` asked for reaches the file. -/
def store (w : WriteFile ι) (i : ι) (j : ℕ) : Option (WriteFile ι) :=
  (w.call i).bind fun e =>
    if iobSector * j < e.len then
      some { w with
        file := copy w.file (e.off + iobSector * j) (min iobSector (e.len - iobSector * j))
          fun y => w.bp i (iobSector * j + y)
        stored := Function.update w.stored i (j :: w.stored i) }
    else none

def finish (w : WriteFile ι) (i : ι) : WriteFile ι :=
  { w with call := Function.update w.call i none }

/-! ## The volume behind it -/

omit [DecidableEq ι] in
def volume (w : WriteFile ι) : Volume ι Sector where
  cell := sectorOf w.file
  flight i := (w.call i).map fun e => ⟨sectors e, sectorOf (w.bp i), w.stored i⟩
  begun := w.begun.map sectors

/-- The calls are for whole sectors, and those under way are among them. -/
structure Sectored (w : WriteFile ι) : Prop where
  begun : ∀ e ∈ w.begun, AtSectors e
  call : ∀ i e, w.call i = some e → e ∈ w.begun

section Moves

variable {w v : WriteFile ι} {i : ι} {e : Extent} {bp : Mem} {whole : Prop}
  {good : Sector → Prop}

omit [DecidableEq ι] in
theorem sectored_init (file : Mem) : (init file : WriteFile ι).Sectored where
  begun e he := by cases he
  call i e he := by cases he

theorem Sectored.write (h : w.Sectored) (he : AtSectors e) : (w.write i e bp).Sectored where
  begun e' he' := by
    obtain rfl | he' := List.mem_cons.mp he'
    · exact he
    · exact h.begun e' he'
  call j e' hj := by
    by_cases hji : j = i
    · subst hji
      unfold WriteFile.write at hj
      dsimp only at hj
      rw [Function.update_self] at hj
      cases hj
      exact List.mem_cons_self
    · refine List.mem_cons_of_mem _ (h.call j e' ?_)
      rwa [← Function.update_of_ne hji (some e) w.call]

theorem Sectored.finish (h : w.Sectored) : (w.finish i).Sectored where
  begun := h.begun
  call j e hj := by
    by_cases hji : j = i
    · subst hji
      unfold WriteFile.finish at hj
      dsimp only at hj
      rw [Function.update_self] at hj
      cases hj
    · refine h.call j e ?_
      rwa [← Function.update_of_ne hji none w.call]

theorem store_cases {j : ℕ} (h : w.store i j = some v) : ∃ e, w.call i = some e ∧
    iobSector * j < e.len ∧ v = { w with
      file := copy w.file (e.off + iobSector * j) (min iobSector (e.len - iobSector * j))
        fun y => w.bp i (iobSector * j + y)
      stored := Function.update w.stored i (j :: w.stored i) } := by
  obtain ⟨e, he, h⟩ := Option.bind_eq_some_iff.mp h
  split at h
  · rename_i hj
    cases h
    exact ⟨e, he, hj, rfl⟩
  · cases h

theorem Sectored.store {j : ℕ} (h : w.Sectored) (hst : w.store i j = some v) : v.Sectored := by
  obtain ⟨e, -, -, rfl⟩ := store_cases hst
  exact ⟨h.begun, h.call⟩

theorem flight_update (i : ι) (f : ι → Option Extent) (b : ι → Mem) (s : ι → List ℕ)
    (c : Option Extent) (bp : Mem) (t : List ℕ) : (fun k => (Function.update f i c k).map fun e =>
      (⟨sectors e, sectorOf (Function.update b i bp k), Function.update s i t k⟩ : Flight _)) =
      Function.update (fun k => (f k).map fun e => ⟨sectors e, sectorOf (b k), s k⟩) i
        (c.map fun e => ⟨sectors e, sectorOf bp, t⟩) := by
  funext k
  by_cases hk : k = i
  · subst hk
    rw [Function.update_self, Function.update_self, Function.update_self, Function.update_self]
  · rw [Function.update_of_ne hk, Function.update_of_ne hk, Function.update_of_ne hk,
      Function.update_of_ne hk]

/-- **A call begins a write** of what is in the buffer. -/
theorem write_move (hidle : w.call i = none)
    (hgood : ∀ j, iobSector * j < e.len → good (sectorOf bp j)) :
    Volume.Move good whole w.volume (w.write i e bp).volume := by
  refine (Volume.Move.start i ⟨sectors e, sectorOf bp, []⟩ ?_ rfl fun j hj =>
    hgood j (lt_sectors hj)).of_eq rfl
    (flight_update i w.call w.bp w.stored (some e) bp []) rfl
  show (w.call i).map _ = none
  rw [hidle]
  rfl

/-- **A sector stored** is a cell stored. -/
theorem store_move (h : w.Sectored) {j : ℕ} (hst : w.store i j = some v) :
    Volume.Move good whole w.volume v.volume := by
  obtain ⟨e, he, hj, rfl⟩ := store_cases hst
  obtain ⟨hoff, hlen⟩ := h.begun e (h.call i e he)
  have hfull : min iobSector (e.len - iobSector * j) = iobSector := by
    unfold iobSector at *
    omega
  have hat : e.off + iobSector * j = iobSector * ((sectors e).off + j) := by
    unfold sectors iobSector at *
    dsimp only
    omega
  have hin : j < (sectors e).len := by
    unfold sectors iobSector at *
    dsimp only
    omega
  rw [hfull, hat]
  have hf : w.volume.flight i = some ⟨sectors e, sectorOf (w.bp i), w.stored i⟩ := by
    show (w.call i).map _ = _
    rw [he]
    rfl
  have hcell : sectorOf (copy w.file (iobSector * ((sectors e).off + j)) iobSector
      fun y => w.bp i (iobSector * j + y)) =
      Function.update (sectorOf w.file) ((sectors e).off + j) (sectorOf (w.bp i) j) :=
    sectorOf_copy_sector
  refine (Volume.Move.store i _ j hf hin).of_eq hcell ?_ rfl
  have hflight := flight_update i w.call w.bp w.stored (w.call i) (w.bp i) (j :: w.stored i)
  rw [Function.update_eq_self, Function.update_eq_self, he] at hflight
  exact hflight

/-- **A return ends the write**, and before it does everything has been stored if the disk is
honest about it. -/
theorem finish_move (he : w.call i = some e) (hall : whole → w.Whole i) :
    Volume.Move good whole w.volume (w.finish i).volume := by
  have hf : w.volume.flight i = some ⟨sectors e, sectorOf (w.bp i), w.stored i⟩ := by
    show (w.call i).map _ = _
    rw [he]
    rfl
  refine (Volume.Move.finish i _ hf fun hwhole j hj =>
    hall hwhole e he j (lt_sectors hj)).of_eq rfl ?_ rfl
  have hflight := flight_update i w.call w.bp w.stored none (w.bp i) (w.stored i)
  rw [Function.update_eq_self, Function.update_eq_self] at hflight
  exact hflight

end Moves

/-! ## What the file holds -/

section Holds

variable {w : WriteFile ι} {good : Sector → Prop} {before : Mem} {m : ℕ}

omit [DecidableEq ι] in
theorem kept_init : (init before : WriteFile ι).volume.Kept good (sectorOf before) :=
  Volume.Kept.init

omit [DecidableEq ι] in
theorem settled_init : (init before : WriteFile ι).volume.Settled good := Volume.Settled.init

omit [DecidableEq ι] in
theorem sector_of_kept (h : w.Sectored) (hkept : w.volume.Kept good (sectorOf before)) :
    sectorOf w.file m = sectorOf before m ∨
      good (sectorOf w.file m) ∧ ∃ e ∈ w.begun, e.Holds (iobSector * m) := by
  obtain hsame | ⟨hgood, e, he, hin⟩ := hkept.cell m
  · exact .inl hsame
  · obtain ⟨b, hb, rfl⟩ := List.mem_map.mp he
    exact .inr ⟨hgood, b, hb, (h.begun b hb).holds_iff.mpr hin⟩

omit [DecidableEq ι] in
theorem sector_of_settled (h : w.Sectored) (hsettled : w.volume.Settled good)
    (hidle : ∀ i, w.call i = none) {e : Extent} (he : e ∈ w.begun)
    (hin : e.Holds (iobSector * m)) : good (sectorOf w.file m) := by
  have hflight : ∀ i, w.volume.flight i = none := by
    intro i
    show (w.call i).map _ = none
    rw [hidle i]
    rfl
  exact hsettled.done hflight (List.mem_map.mpr ⟨e, he, rfl⟩) ((h.begun e he).holds_iff.mp hin)

theorem store_isSome {i : ι} {e : Extent} {j : ℕ} (he : w.call i = some e)
    (hj : iobSector * j < e.len) : (w.store i j).isSome := by
  unfold store
  rw [he, Option.bind_some, if_pos hj]
  rfl

end Holds

end WriteFile

end Blockbench
