import Blockbench.Lib.Bytes

/-!
# `Stores` — what a piece of code touches

A store writes a run of bytes: one byte over and over (`memset`), a word, or bytes read from
another object (`memcpy`). The stores a piece of code makes, in order, are a log of what it
touches, and they are all there is to know about its effect (`runAll`): a byte no store writes
stays (`runAll_outside`), what a written byte holds does not depend on what was there before
(`runAll_inside`), and only the bytes of the object that a store reads matter (`runAll_congr`).
-/

set_option autoImplicit false

namespace Bytes

inductive Source
  | byte (b : UInt8)
  | word (w : UInt64)
  | object (doff : ℕ)
  deriving DecidableEq, Repr

/-- Byte `y` of what a store writes; `obj` is the object it may read from. -/
def Source.bytes (obj : ℕ → UInt8) : Source → ℕ → UInt8
  | .byte b, _ => b
  | .word w, y => byteOf w y
  | .object doff, y => obj (doff + y)

structure Store where
  addr : ℕ
  len : ℕ
  src : Source
  deriving DecidableEq, Repr

namespace Store

def Writes (st : Store) (x : ℕ) : Prop := st.addr ≤ x ∧ x < st.addr + st.len

def Reads (st : Store) (x : ℕ) : Prop :=
  match st.src with
  | .byte _ => False
  | .word _ => False
  | .object doff => doff ≤ x ∧ x < doff + st.len

def run (obj : ℕ → UInt8) (mem : Mem) (st : Store) : Mem :=
  copy mem st.addr st.len (st.src.bytes obj)

end Store

def runAll (obj : ℕ → UInt8) (mem : Mem) (log : List Store) : Mem := log.foldl (Store.run obj) mem

section Run

variable {obj obj' : ℕ → UInt8} {mem mem' : Mem} {log log' : List Store} {st : Store} {x : ℕ}

@[simp] theorem runAll_nil : runAll obj mem [] = mem := rfl

@[simp] theorem runAll_cons : runAll obj mem (st :: log) = runAll obj (st.run obj mem) log := rfl

theorem runAll_append : runAll obj mem (log ++ log') = runAll obj (runAll obj mem log) log' :=
  List.foldl_append

theorem Store.run_inside (h : st.Writes x) :
    st.run obj mem x = st.src.bytes obj (x - st.addr) := if_pos h

theorem Store.run_outside (h : ¬ st.Writes x) : st.run obj mem x = mem x := if_neg h

/-- **What is not written stays.** -/
theorem runAll_outside (h : ∀ st ∈ log, ¬ st.Writes x) : runAll obj mem log x = mem x := by
  induction log generalizing mem with
  | nil => rfl
  | cons st log ih =>
    rw [runAll_cons, ih]
    · exact Store.run_outside (h st List.mem_cons_self)
    · intro st' hst'
      exact h st' (List.mem_cons_of_mem _ hst')

theorem runAll_eq (h : mem x = mem' x) : runAll obj mem log x = runAll obj mem' log x := by
  induction log generalizing mem mem' with
  | nil => exact h
  | cons st log ih =>
    rw [runAll_cons, runAll_cons]
    apply ih
    by_cases hw : st.Writes x
    · rw [Store.run_inside hw, Store.run_inside hw]
    · rw [Store.run_outside hw, Store.run_outside hw, h]

/-- **What is written is written over.** -/
theorem runAll_inside (h : ∃ st ∈ log, st.Writes x) :
    runAll obj mem log x = runAll obj mem' log x := by
  obtain ⟨st, hst, hw⟩ := h
  obtain ⟨before, after, rfl⟩ := List.append_of_mem hst
  rw [runAll_append, runAll_append, runAll_cons, runAll_cons]
  apply runAll_eq
  rw [Store.run_inside hw, Store.run_inside hw]

theorem Store.run_congr (h : ∀ x, st.Reads x → obj x = obj' x) :
    st.run obj mem = st.run obj' mem := by
  funext x
  by_cases hw : st.Writes x
  · rw [Store.run_inside hw, Store.run_inside hw]
    obtain ⟨addr, len, src⟩ := st
    cases src with
    | byte b => rfl
    | word w => rfl
    | object doff =>
      obtain ⟨hle, hlt⟩ := hw
      dsimp only at hle hlt
      refine h _ ⟨by omega, ?_⟩
      dsimp only
      omega
  · rw [Store.run_outside hw, Store.run_outside hw]

/-- **What is not read does not matter.** -/
theorem runAll_congr (h : ∀ st ∈ log, ∀ x, st.Reads x → obj x = obj' x) :
    runAll obj mem log = runAll obj' mem log := by
  induction log generalizing mem with
  | nil => rfl
  | cons st log ih =>
    rw [runAll_cons, runAll_cons, Store.run_congr (h st List.mem_cons_self)]
    apply ih
    intro st' hst'
    exact h st' (List.mem_cons_of_mem _ hst')

end Run

end Bytes
