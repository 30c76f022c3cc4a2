import Mathlib.Logic.Function.Basic
import Blockbench.Lib.Extent

/-!
# `Volume` — writers at work on a volume of cells

A volume is what its cells hold. Writers put contents into runs of cells, a cell at a time, in any
order, any cell more than once, and several writers at once: a cell is what reaches the volume in
one piece, and nothing is assumed of two writes under way to the same cell.

`Move good whole` is what can happen, one thing at a time. `good` is asked of the contents of every
write as it is begun; `whole` says that a write does not end before each of its cells has been
stored, and leaving it out admits writes that fail half way. Two invariants are kept by every move:

* `Kept` — a cell is as it was before, or some write covers it and what it holds is good;
* `Settled` — of the moves that are whole: a cell of a write begun holds something good, or the
  write is still under way.

Once no write is under way `Settled.done` says so of every cell a write was begun for.
-/

set_option autoImplicit false

universe u

/-- A write under way: its cells, their contents by position, and the positions stored. -/
structure Flight (α : Type u) where
  range : Extent
  data : ℕ → α
  stored : List ℕ

/-- The cells, the write each writer has under way, and the ranges of the writes begun. -/
@[ext]
structure Volume (ι α : Type u) where
  cell : ℕ → α
  flight : ι → Option (Flight α)
  begun : List Extent

namespace Volume

variable {ι α : Type u} [DecidableEq ι]

inductive Move (good : α → Prop) (whole : Prop) (v : Volume ι α) : Volume ι α → Prop
  | start (i : ι) (f : Flight α) (hidle : v.flight i = none) (hnew : f.stored = [])
      (hgood : ∀ j < f.range.len, good (f.data j)) :
      Move good whole v
        { v with flight := Function.update v.flight i (some f), begun := f.range :: v.begun }
  | store (i : ι) (f : Flight α) (j : ℕ) (hf : v.flight i = some f) (hj : j < f.range.len) :
      Move good whole v
        { v with
          cell := Function.update v.cell (f.range.off + j) (f.data j)
          flight := Function.update v.flight i (some { f with stored := j :: f.stored }) }
  | finish (i : ι) (f : Flight α) (hf : v.flight i = some f)
      (hall : whole → ∀ j < f.range.len, j ∈ f.stored) :
      Move good whole v { v with flight := Function.update v.flight i none }

structure Kept (good : α → Prop) (before : ℕ → α) (v : Volume ι α) : Prop where
  cell : ∀ m, v.cell m = before m ∨ good (v.cell m) ∧ ∃ e ∈ v.begun, e.Holds m
  data : ∀ i f, v.flight i = some f → f.range ∈ v.begun ∧ ∀ j < f.range.len, good (f.data j)

def Waits (v : Volume ι α) (m : ℕ) : Prop :=
  ∃ i f j, v.flight i = some f ∧ j < f.range.len ∧ f.range.off + j = m ∧ j ∉ f.stored

/-- The cells of the writes begun hold something good, or wait for it. -/
def Settled (good : α → Prop) (v : Volume ι α) : Prop :=
  ∀ e ∈ v.begun, ∀ m, e.Holds m → good (v.cell m) ∨ v.Waits m

variable {good : α → Prop} {whole : Prop} {before : ℕ → α} {v w : Volume ι α}

omit [DecidableEq ι] in
theorem Kept.init : Kept good before (⟨before, fun _ => none, []⟩ : Volume ι α) where
  cell _ := .inl rfl
  data _ _ h := by cases h

omit [DecidableEq ι] in
theorem Settled.init : Settled good (⟨before, fun _ => none, []⟩ : Volume ι α) := by
  intro e he
  cases he

omit [DecidableEq ι] in
theorem Move.of_eq [DecidableEq ι] (h : Move good whole v w) {w' : Volume ι α}
    (hcell : w'.cell = w.cell) (hflight : w'.flight = w.flight) (hbegun : w'.begun = w.begun) :
    Move good whole v w' :=
  Volume.ext hcell hflight hbegun ▸ h

theorem flight_update {f : Option (Flight α)} {i j : ι} {g : Flight α}
    (h : Function.update v.flight i f j = some g) : j = i ∧ f = some g ∨ v.flight j = some g := by
  by_cases hji : j = i
  · subst hji
    rw [Function.update_self] at h
    exact .inl ⟨rfl, h⟩
  · rw [Function.update_of_ne hji] at h
    exact .inr h

/-- **Every move keeps what the volume held, or replaces it by something good.** A cell changes
only when a part of a write under way is stored, and what is stored was fixed, and good, when the
write began; so it is enough to know the contents of the writes, and not when they are carried
out. -/
theorem Kept.move (h : Kept good before v) (hm : Move good whole v w) : Kept good before w := by
  cases hm with
  | start i f hidle hnew hgood =>
    refine ⟨fun m => ?_, fun j g hg => ?_⟩
    · obtain hsame | ⟨hm, e, he, hin⟩ := h.cell m
      · exact .inl hsame
      · exact .inr ⟨hm, e, List.mem_cons_of_mem _ he, hin⟩
    · obtain ⟨-, hf⟩ | hg := flight_update hg
      · cases hf
        exact ⟨List.mem_cons_self, hgood⟩
      · obtain ⟨hmem, hdata⟩ := h.data j g hg
        exact ⟨List.mem_cons_of_mem _ hmem, hdata⟩
  | store i f j hf hj =>
    obtain ⟨hmem, hdata⟩ := h.data i f hf
    refine ⟨fun m => ?_, fun k g hg => ?_⟩
    · by_cases hm : m = f.range.off + j
      · subst hm
        dsimp only
        rw [Function.update_self]
        exact .inr ⟨hdata j hj, f.range, hmem, Nat.le_add_right _ _, by omega⟩
      · dsimp only
        rw [Function.update_of_ne hm]
        exact h.cell m
    · obtain ⟨-, hg⟩ | hg := flight_update hg
      · cases hg
        exact ⟨hmem, hdata⟩
      · exact h.data k g hg
  | finish i f hf hall =>
    refine ⟨h.cell, fun k g hg => ?_⟩
    obtain ⟨-, hnone⟩ | hg := flight_update hg
    · cases hnone
    · exact h.data k g hg

theorem Waits.update {f : Option (Flight α)} {i k : ι} {g : Flight α} {j : ℕ}
    {cell : ℕ → α} {begun : List Extent} (hk : k ≠ i) (hg : v.flight k = some g)
    (hj : j < g.range.len) (hm : j ∉ g.stored) :
    (⟨cell, Function.update v.flight i f, begun⟩ : Volume ι α).Waits (g.range.off + j) :=
  ⟨k, g, j, (Function.update_of_ne hk _ _).trans hg, hj, rfl, hm⟩

/-- **Whole writes settle**: a write that ends has stored each of its cells. -/
theorem Settled.move (hkept : Kept good before v) (h : Settled good v) (hw : whole)
    (hm : Move good whole v w) : Settled good w := by
  cases hm with
  | start i f hidle hnew hgood =>
    intro e he m hin
    obtain rfl | he := List.mem_cons.mp he
    · -- the write that begins has everything before it
      obtain ⟨hle, hlt⟩ := hin
      refine .inr ⟨i, f, m - f.range.off, Function.update_self i _ _, by omega, by omega, ?_⟩
      rw [hnew]
      exact List.not_mem_nil
    · obtain hgood | ⟨k, g, j, hg, hj, rfl, hwait⟩ := h e he m hin
      · exact .inl hgood
      · have hk : k ≠ i := by
          rintro rfl
          rw [hidle] at hg
          cases hg
        exact .inr (Waits.update hk hg hj hwait)
  | store i f j hf hj =>
    obtain ⟨-, hdata⟩ := hkept.data i f hf
    intro e he m hin
    by_cases hm : m = f.range.off + j
    · subst hm
      left
      dsimp only
      rw [Function.update_self]
      exact hdata j hj
    · obtain hgood | ⟨k, g, l, hg, hl, rfl, hwait⟩ := h e he m hin
      · left
        dsimp only
        rw [Function.update_of_ne hm]
        exact hgood
      · right
        by_cases hk : k = i
        · subst hk
          rw [hf] at hg
          cases hg
          refine ⟨k, { f with stored := j :: f.stored }, l, Function.update_self k _ _, hl, rfl, ?_⟩
          rintro (_ | ⟨_, hmem⟩)
          · exact hm rfl
          · exact hwait hmem
        · exact Waits.update hk hg hl hwait
  | finish i f hf hall =>
    intro e he m hin
    obtain hgood | ⟨k, g, j, hg, hj, rfl, hwait⟩ := h e he m hin
    · exact .inl hgood
    · have hk : k ≠ i := by
        rintro rfl
        rw [hf] at hg
        cases hg
        exact hwait (hall hw j hj)
      exact .inr (Waits.update hk hg hj hwait)

omit [DecidableEq ι] in
/-- **With no write under way** every cell a write was begun for holds something good. It is the
writes under way that a cell may still be waiting for, and there are none. -/
theorem Settled.done (h : Settled good v) (hidle : ∀ i, v.flight i = none) {e : Extent}
    (he : e ∈ v.begun) {m : ℕ} (hin : e.Holds m) : good (v.cell m) := by
  obtain hgood | ⟨i, f, -, hf, -⟩ := h e he m hin
  · exact hgood
  · rw [hidle i] at hf
    cases hf

end Volume
