import Mathlib.Data.Fintype.Basic
import Blockbench.Lib.Machine
import Blockbench.Lib.ForkJoin

/-!
# `Iofill/Barrier.lean` — the two-level start/stop barrier

`runtest` forks one `file_thread` a file, and each of them forks the file's `io_thread`s. Both
levels run the same protocol on a pair of semaphores a child, which is `ForkJoin`'s: the states
here are the program points of the three functions, `MainPc.parent`, `FilePc.parent`,
`FilePc.child` and `IoPc.child` say where each is in the protocol, and the invariant `Barrier`
is that every child of either level is `Linked` to its parent.

What an `io_thread` does between its two waits is an I/O or not (`Act.io`), any number of times:
the loop is `Iofill/Fill.lean`'s. The semaphores `iostart` and `iostop` belong to the write
injection and are never touched.
-/

set_option autoImplicit false

namespace Blockbench
namespace Iofill

open ForkJoin

/-! ## The program points -/

/-- `runtest`, at file `k` of one of its four loops, or at the call of `output`, or behind it. -/
inductive MainPc
  | create (k : ℕ)
  | waitReady (k : ℕ)
  | postStart (k : ℕ)
  | waitStop (k : ℕ)
  | output
  | done
  deriving DecidableEq

/-- `file_thread`, at thread `k` of one of its four loops, or at a statement between them. -/
inductive FilePc
  | unborn
  | create (k : ℕ)
  | waitReady (k : ℕ)
  | postReady
  | waitStart
  | setTimes
  | postStart (k : ℕ)
  | waitStop (k : ℕ)
  | postStop
  | exited
  deriving DecidableEq

/-- `io_thread`: its initialisation, the two semaphore calls in front of its loop, the loop, and
the post behind it. -/
inductive IoPc
  | unborn
  | init
  | postReady
  | waitStart
  | loop
  | postStop
  | exited
  deriving DecidableEq

/-- `ftp` is a file, `itp` one of its threads. `timesSet` records that `file_thread` has set
`starttime` and `endtime`. -/
structure RunState (F T : ℕ) where
  main : MainPc
  file : Fin F → FilePc
  io : Fin F → Fin T → IoPc
  ftpStart : Fin F → ℕ
  ftpStop : Fin F → ℕ
  itpStart : Fin F → Fin T → ℕ
  itpStop : Fin F → Fin T → ℕ
  timesSet : Fin F → Bool

variable {F T : ℕ}

/-- A thread takes its next step; an `io_thread` in its loop issues an I/O (`io`) or claims a
number that is too large and leaves (`leave`). -/
inductive Step (F T : ℕ)
  | main
  | file (f : Fin F)
  | thread (f : Fin F) (t : Fin T)
  | io (f : Fin F) (t : Fin T)
  | leave (f : Fin F) (t : Fin T)

/-! ## The steps -/

def setIo {α : Type} (g : Fin F → Fin T → α) (f : Fin F) (t : Fin T) (v : α) :
    Fin F → Fin T → α :=
  Function.update g f (Function.update (g f) t v)

/-- `iob_sema_wait` on one semaphore of a table: it blocks at zero. -/
def semaWait {n : ℕ} (sem : Fin n → ℕ) (i : Fin n) : Option (Fin n → ℕ) :=
  if 0 < sem i then some (Function.update sem i (sem i - 1)) else none

def semaPost {n : ℕ} (sem : Fin n → ℕ) (i : Fin n) : Fin n → ℕ :=
  Function.update sem i (sem i + 1)

/-- `runtest`. -/
def mainStep (s : RunState F T) : Option (RunState F T) :=
  match s.main with
  | .create k =>
    if h : k < F then
      some { s with
        main := .create (k + 1), file := Function.update s.file ⟨k, h⟩ (.create 0) }
    else some { s with main := .waitReady 0 }
  | .waitReady k =>
    if h : k < F then do
      return { s with main := .waitReady (k + 1), ftpStop := ← semaWait s.ftpStop ⟨k, h⟩ }
    else some { s with main := .postStart 0 }
  | .postStart k =>
    if h : k < F then
      some { s with main := .postStart (k + 1), ftpStart := semaPost s.ftpStart ⟨k, h⟩ }
    else some { s with main := .waitStop 0 }
  | .waitStop k =>
    if h : k < F then do
      return { s with main := .waitStop (k + 1), ftpStop := ← semaWait s.ftpStop ⟨k, h⟩ }
    else some { s with main := .output }
  | .output => some { s with main := .done }
  | .done => none

def fileStep (s : RunState F T) (f : Fin F) : Option (RunState F T) :=
  let goto (pc : FilePc) := Function.update s.file f pc
  match s.file f with
  | .unborn => none
  | .create k =>
    if h : k < T then
      some { s with file := goto (.create (k + 1)), io := setIo s.io f ⟨k, h⟩ .init }
    else some { s with file := goto (.waitReady 0) }
  | .waitReady k =>
    if h : k < T then do
      let sem ← semaWait (s.itpStop f) ⟨k, h⟩
      return { s with
        file := goto (.waitReady (k + 1)), itpStop := Function.update s.itpStop f sem }
    else some { s with file := goto .postReady }
  | .postReady => some { s with file := goto .waitStart, ftpStop := semaPost s.ftpStop f }
  | .waitStart => do
    return { s with file := goto .setTimes, ftpStart := ← semaWait s.ftpStart f }
  | .setTimes =>
    some { s with file := goto (.postStart 0), timesSet := Function.update s.timesSet f true }
  | .postStart k =>
    if h : k < T then
      some { s with
        file := goto (.postStart (k + 1))
        itpStart := Function.update s.itpStart f (semaPost (s.itpStart f) ⟨k, h⟩) }
    else some { s with file := goto (.waitStop 0) }
  | .waitStop k =>
    if h : k < T then do
      let sem ← semaWait (s.itpStop f) ⟨k, h⟩
      return { s with
        file := goto (.waitStop (k + 1)), itpStop := Function.update s.itpStop f sem }
    else some { s with file := goto .postStop }
  | .postStop => some { s with file := goto .exited, ftpStop := semaPost s.ftpStop f }
  | .exited => none

/-- `io_thread`, outside its loop. -/
def ioStep (s : RunState F T) (f : Fin F) (t : Fin T) : Option (RunState F T) :=
  match s.io f t with
  | .init => some { s with io := setIo s.io f t .postReady }
  | .postReady =>
    some { s with
      io := setIo s.io f t .waitStart
      itpStop := Function.update s.itpStop f (semaPost (s.itpStop f) t) }
  | .waitStart => do
    let sem ← semaWait (s.itpStart f) t
    return { s with io := setIo s.io f t .loop, itpStart := Function.update s.itpStart f sem }
  | .postStop =>
    some { s with
      io := setIo s.io f t .exited
      itpStop := Function.update s.itpStop f (semaPost (s.itpStop f) t) }
  | .unborn | .loop | .exited => none

/-- `main`, the `file_thread`s and the `io_thread`s of `F` files with `T` threads each. -/
def runtest (F T : ℕ) : Machine (RunState F T) (Step F T) where
  init :=
    { main := .create 0
      file := fun _ => .unborn
      io := fun _ _ => .unborn
      ftpStart := fun _ => 0
      ftpStop := fun _ => 0
      itpStart := fun _ _ => 0
      itpStop := fun _ _ => 0
      timesSet := fun _ => false }
  step
    | .main, s => mainStep s
    | .file f, s => fileStep s f
    | .thread f t, s => ioStep s f t
    | .io f t, s => if s.io f t = .loop then some s else none
    | .leave f t, s =>
      if s.io f t = .loop then some { s with io := setIo s.io f t .postStop } else none

/-! ## What a step can do

The branches of the three functions, with what each one found. -/

section Moves

variable {s t : RunState F T} {f : Fin F} {u : Fin T}

inductive MainMove (s : RunState F T) : RunState F T → Prop
  | create {k : ℕ} (hpc : s.main = .create k) (hk : k < F) :
      MainMove s { s with
        main := .create (k + 1), file := Function.update s.file ⟨k, hk⟩ (.create 0) }
  | created {k : ℕ} (hpc : s.main = .create k) (hk : ¬ k < F) :
      MainMove s { s with main := .waitReady 0 }
  | collect {k : ℕ} {sem : Fin F → ℕ} (hpc : s.main = .waitReady k) (hk : k < F)
      (hsem : semaWait s.ftpStop ⟨k, hk⟩ = some sem) :
      MainMove s { s with main := .waitReady (k + 1), ftpStop := sem }
  | collected {k : ℕ} (hpc : s.main = .waitReady k) (hk : ¬ k < F) :
      MainMove s { s with main := .postStart 0 }
  | release {k : ℕ} (hpc : s.main = .postStart k) (hk : k < F) :
      MainMove s { s with main := .postStart (k + 1), ftpStart := semaPost s.ftpStart ⟨k, hk⟩ }
  | released {k : ℕ} (hpc : s.main = .postStart k) (hk : ¬ k < F) :
      MainMove s { s with main := .waitStop 0 }
  | join {k : ℕ} {sem : Fin F → ℕ} (hpc : s.main = .waitStop k) (hk : k < F)
      (hsem : semaWait s.ftpStop ⟨k, hk⟩ = some sem) :
      MainMove s { s with main := .waitStop (k + 1), ftpStop := sem }
  | joined {k : ℕ} (hpc : s.main = .waitStop k) (hk : ¬ k < F) :
      MainMove s { s with main := .output }
  | output (hpc : s.main = .output) : MainMove s { s with main := .done }

theorem mainMove_of_step (hst : mainStep s = some t) : MainMove s t := by
  unfold mainStep at hst
  split at hst
  · rename_i k hpc
    split at hst
    · rename_i hk
      cases hst
      exact .create hpc hk
    · rename_i hk
      cases hst
      exact .created hpc hk
  · rename_i k hpc
    split at hst
    · rename_i hk
      obtain ⟨sem, hsem, hst⟩ := Option.bind_eq_some_iff.mp hst
      cases hst
      exact .collect hpc hk hsem
    · rename_i hk
      cases hst
      exact .collected hpc hk
  · rename_i k hpc
    split at hst
    · rename_i hk
      cases hst
      exact .release hpc hk
    · rename_i hk
      cases hst
      exact .released hpc hk
  · rename_i k hpc
    split at hst
    · rename_i hk
      obtain ⟨sem, hsem, hst⟩ := Option.bind_eq_some_iff.mp hst
      cases hst
      exact .join hpc hk hsem
    · rename_i hk
      cases hst
      exact .joined hpc hk
  · rename_i hpc
    cases hst
    exact .output hpc
  · cases hst

inductive FileMove (s : RunState F T) (f : Fin F) : RunState F T → Prop
  | create {k : ℕ} (hpc : s.file f = .create k) (hk : k < T) :
      FileMove s f { s with
        file := Function.update s.file f (.create (k + 1)), io := setIo s.io f ⟨k, hk⟩ .init }
  | created {k : ℕ} (hpc : s.file f = .create k) (hk : ¬ k < T) :
      FileMove s f { s with file := Function.update s.file f (.waitReady 0) }
  | collect {k : ℕ} {sem : Fin T → ℕ} (hpc : s.file f = .waitReady k) (hk : k < T)
      (hsem : semaWait (s.itpStop f) ⟨k, hk⟩ = some sem) :
      FileMove s f { s with
        file := Function.update s.file f (.waitReady (k + 1))
        itpStop := Function.update s.itpStop f sem }
  | collected {k : ℕ} (hpc : s.file f = .waitReady k) (hk : ¬ k < T) :
      FileMove s f { s with file := Function.update s.file f .postReady }
  | getReady (hpc : s.file f = .postReady) :
      FileMove s f { s with
        file := Function.update s.file f .waitStart, ftpStop := semaPost s.ftpStop f }
  | begin {sem : Fin F → ℕ} (hpc : s.file f = .waitStart)
      (hsem : semaWait s.ftpStart f = some sem) :
      FileMove s f { s with file := Function.update s.file f .setTimes, ftpStart := sem }
  | setTimes (hpc : s.file f = .setTimes) :
      FileMove s f { s with
        file := Function.update s.file f (.postStart 0)
        timesSet := Function.update s.timesSet f true }
  | release {k : ℕ} (hpc : s.file f = .postStart k) (hk : k < T) :
      FileMove s f { s with
        file := Function.update s.file f (.postStart (k + 1))
        itpStart := Function.update s.itpStart f (semaPost (s.itpStart f) ⟨k, hk⟩) }
  | released {k : ℕ} (hpc : s.file f = .postStart k) (hk : ¬ k < T) :
      FileMove s f { s with file := Function.update s.file f (.waitStop 0) }
  | join {k : ℕ} {sem : Fin T → ℕ} (hpc : s.file f = .waitStop k) (hk : k < T)
      (hsem : semaWait (s.itpStop f) ⟨k, hk⟩ = some sem) :
      FileMove s f { s with
        file := Function.update s.file f (.waitStop (k + 1))
        itpStop := Function.update s.itpStop f sem }
  | joined {k : ℕ} (hpc : s.file f = .waitStop k) (hk : ¬ k < T) :
      FileMove s f { s with file := Function.update s.file f .postStop }
  | finish (hpc : s.file f = .postStop) :
      FileMove s f { s with
        file := Function.update s.file f .exited, ftpStop := semaPost s.ftpStop f }

theorem fileMove_of_step (hst : fileStep s f = some t) : FileMove s f t := by
  unfold fileStep at hst
  dsimp only at hst
  split at hst
  · cases hst
  · rename_i k hpc
    split at hst
    · rename_i hk
      cases hst
      exact .create hpc hk
    · rename_i hk
      cases hst
      exact .created hpc hk
  · rename_i k hpc
    split at hst
    · rename_i hk
      obtain ⟨sem, hsem, hst⟩ := Option.bind_eq_some_iff.mp hst
      cases hst
      exact .collect hpc hk hsem
    · rename_i hk
      cases hst
      exact .collected hpc hk
  · rename_i hpc
    cases hst
    exact .getReady hpc
  · rename_i hpc
    obtain ⟨sem, hsem, hst⟩ := Option.bind_eq_some_iff.mp hst
    cases hst
    exact .begin hpc hsem
  · rename_i hpc
    cases hst
    exact .setTimes hpc
  · rename_i k hpc
    split at hst
    · rename_i hk
      cases hst
      exact .release hpc hk
    · rename_i hk
      cases hst
      exact .released hpc hk
  · rename_i k hpc
    split at hst
    · rename_i hk
      obtain ⟨sem, hsem, hst⟩ := Option.bind_eq_some_iff.mp hst
      cases hst
      exact .join hpc hk hsem
    · rename_i hk
      cases hst
      exact .joined hpc hk
  · rename_i hpc
    cases hst
    exact .finish hpc
  · cases hst

inductive IoMove (s : RunState F T) (f : Fin F) (u : Fin T) : RunState F T → Prop
  | init (hpc : s.io f u = .init) : IoMove s f u { s with io := setIo s.io f u .postReady }
  | getReady (hpc : s.io f u = .postReady) :
      IoMove s f u { s with
        io := setIo s.io f u .waitStart
        itpStop := Function.update s.itpStop f (semaPost (s.itpStop f) u) }
  | begin {sem : Fin T → ℕ} (hpc : s.io f u = .waitStart)
      (hsem : semaWait (s.itpStart f) u = some sem) :
      IoMove s f u { s with
        io := setIo s.io f u .loop, itpStart := Function.update s.itpStart f sem }
  | finish (hpc : s.io f u = .postStop) :
      IoMove s f u { s with
        io := setIo s.io f u .exited
        itpStop := Function.update s.itpStop f (semaPost (s.itpStop f) u) }

theorem ioMove_of_step (hst : ioStep s f u = some t) : IoMove s f u t := by
  unfold ioStep at hst
  split at hst
  · rename_i hpc
    cases hst
    exact .init hpc
  · rename_i hpc
    cases hst
    exact .getReady hpc
  · rename_i hpc
    obtain ⟨sem, hsem, hst⟩ := Option.bind_eq_some_iff.mp hst
    cases hst
    exact .begin hpc hsem
  · rename_i hpc
    cases hst
    exact .finish hpc
  · cases hst
  · cases hst
  · cases hst

end Moves

/-! ## The protocol behind them -/

@[simp] def MainPc.parent : MainPc → Parent
  | .create k => .forking k
  | .waitReady k => .collecting k
  | .postStart k => .releasing k
  | .waitStop k => .joining k
  | .output | .done => .after

@[simp] def FilePc.parent : FilePc → Parent
  | .unborn => .forking 0
  | .create k => .forking k
  | .waitReady k => .collecting k
  | .postReady | .waitStart | .setTimes => .between
  | .postStart k => .releasing k
  | .waitStop k => .joining k
  | .postStop | .exited => .after

/-- Where `file_thread` is as a child of `runtest`. -/
@[simp] def FilePc.child : FilePc → Child
  | .unborn => .unborn
  | .create _ | .waitReady _ | .postReady => .preparing
  | .waitStart => .ready
  | .setTimes | .postStart _ | .waitStop _ | .postStop => .running
  | .exited => .finished

@[simp] def IoPc.child : IoPc → Child
  | .unborn => .unborn
  | .init | .postReady => .preparing
  | .waitStart => .ready
  | .loop | .postStop => .running
  | .exited => .finished

/-- The invariant: every child is linked to its parent, at both levels, and the times are set
before the first `itp->start`. -/
structure Barrier (s : RunState F T) : Prop where
  file : ∀ f : Fin F, Linked s.main.parent f (s.file f).child (s.ftpStart f) (s.ftpStop f)
  io : ∀ (f : Fin F) (t : Fin T),
    Linked (s.file f).parent t (s.io f t).child (s.itpStart f t) (s.itpStop f t)
  times : ∀ f, (s.file f).parent.Released → s.timesSet f = true

variable {s t : RunState F T}

theorem barrier_init : Barrier (runtest F T).init where
  file _ := linked_init
  io _ _ := linked_init
  times _ h := absurd h (by simp [runtest, FilePc.parent])

/-! ## The semaphores of a table -/

theorem semaWait_eq {n : ℕ} {sem sem' : Fin n → ℕ} {i : Fin n}
    (h : semaWait sem i = some sem') (j : Fin n) :
    sem' j + (if (j : ℕ) = i then 1 else 0) = sem j := by
  unfold semaWait at h
  split at h
  · rename_i hpos
    cases h
    by_cases hji : j = i
    · subst hji
      rw [Function.update_self, if_pos rfl]
      omega
    · rw [Function.update_of_ne hji, if_neg fun hv => hji (Fin.ext hv), Nat.add_zero]
  · cases h

theorem semaPost_eq {n : ℕ} (sem : Fin n → ℕ) (i j : Fin n) :
    semaPost sem i j = sem j + if (j : ℕ) = i then 1 else 0 := by
  unfold semaPost
  by_cases hji : j = i
  · subst hji
    rw [Function.update_self, if_pos rfl]
  · rw [Function.update_of_ne hji, if_neg fun hv => hji (Fin.ext hv), Nat.add_zero]

@[simp] theorem semaPost_self {n : ℕ} (sem : Fin n → ℕ) (i : Fin n) :
    semaPost sem i i = sem i + 1 := by
  simp [semaPost]

theorem semaPost_of_ne {n : ℕ} (sem : Fin n → ℕ) {i j : Fin n} (h : j ≠ i) :
    semaPost sem i j = sem j := by
  simp [semaPost, h]

theorem semaWait_self {n : ℕ} {sem sem' : Fin n → ℕ} {i : Fin n}
    (h : semaWait sem i = some sem') : sem i = sem' i + 1 := by
  have := semaWait_eq h i
  rw [if_pos rfl] at this
  exact this.symm

theorem semaWait_of_ne {n : ℕ} {sem sem' : Fin n → ℕ} {i j : Fin n}
    (h : semaWait sem i = some sem') (hj : j ≠ i) : sem' j = sem j := by
  have := semaWait_eq h j
  rw [if_neg fun hv => hj (Fin.ext hv)] at this
  exact this

@[simp] theorem setIo_self {α : Type} (g : Fin F → Fin T → α) (f : Fin F) (t : Fin T) (v : α) :
    setIo g f t v f = Function.update (g f) t v := by
  simp [setIo]

theorem setIo_of_ne {α : Type} (g : Fin F → Fin T → α) {f f' : Fin F} (h : f' ≠ f) (t : Fin T)
    (v : α) : setIo g f t v f' = g f' := by
  simp [setIo, h]

/-! ## The steps keep the invariant -/

/-- A step inside one file: what has to be shown is the file's own link and those of its
threads. -/
theorem Barrier.ofFile (h : Barrier s) (f : Fin F) (hmain : t.main = s.main)
    (hother : ∀ g, g ≠ f → t.file g = s.file g ∧ t.io g = s.io g ∧
      t.ftpStart g = s.ftpStart g ∧ t.ftpStop g = s.ftpStop g ∧
      t.itpStart g = s.itpStart g ∧ t.itpStop g = s.itpStop g ∧ t.timesSet g = s.timesSet g)
    (hfile : Linked s.main.parent f (t.file f).child (t.ftpStart f) (t.ftpStop f))
    (hio : ∀ u : Fin T,
      Linked (t.file f).parent u (t.io f u).child (t.itpStart f u) (t.itpStop f u))
    (htimes : (t.file f).parent.Released → t.timesSet f = true) : Barrier t := by
  constructor
  · intro g
    by_cases hg : g = f
    · subst hg
      rw [hmain]
      exact hfile
    · obtain ⟨h₁, -, h₃, h₄, -⟩ := hother g hg
      rw [hmain, h₁, h₃, h₄]
      exact h.file g
  · intro g u
    by_cases hg : g = f
    · subst hg
      exact hio u
    · obtain ⟨h₁, h₂, -, -, h₅, h₆, -⟩ := hother g hg
      rw [h₁, h₂, h₅, h₆]
      exact h.io g u
  · intro g
    by_cases hg : g = f
    · subst hg
      exact htimes
    · obtain ⟨h₁, -, -, -, -, -, h₇⟩ := hother g hg
      rw [h₁, h₇]
      exact h.times g

theorem Barrier.mainStep (h : Barrier s) (hst : mainStep s = some t) : Barrier t := by
  have hlink := h.file
  cases mainMove_of_step hst with
  | @create k hpc hk =>
    rw [hpc] at hlink
    -- the file is born; its own children are still to come, as they were before
    refine ⟨fun f => ?_, fun f u => ?_, fun f => ?_⟩
    · have hf := (hlink f).fork
      by_cases hfk : f = ⟨k, hk⟩
      · subst hfk
        rw [if_pos rfl] at hf
        simpa using hf
      · rw [if_neg fun hv => hfk (Fin.ext hv)] at hf
        simpa [hfk] using hf
    · by_cases hfk : f = ⟨k, hk⟩
      · subst hfk
        have hborn := (hlink ⟨k, hk⟩).born.mpr (by simp [MainPc.parent])
        have hu := h.io ⟨k, hk⟩ u
        cases hc : s.file ⟨k, hk⟩ <;> rw [hc] at hborn hu <;>
          simp only [FilePc.child, reduceCtorEq] at hborn
        simpa using hu
      · simpa [hfk] using h.io f u
    · by_cases hfk : f = ⟨k, hk⟩
      · subst hfk
        simp [FilePc.parent]
      · simpa [hfk] using h.times f
  | created hpc hk =>
    rw [hpc] at hlink
    exact ⟨fun f => (hlink f).forked (by omega), h.io, h.times⟩
  | collect hpc hk hsem =>
    rw [hpc] at hlink
    exact ⟨fun f => (hlink f).collect (semaWait_eq hsem f), h.io, h.times⟩
  | collected hpc hk =>
    rw [hpc] at hlink
    exact ⟨fun f => ((hlink f).collected (by omega)).startRelease, h.io, h.times⟩
  | @release k hpc hk =>
    rw [hpc] at hlink
    exact ⟨fun f => (hlink f).release (semaPost_eq s.ftpStart ⟨k, hk⟩ f), h.io, h.times⟩
  | released hpc hk =>
    rw [hpc] at hlink
    exact ⟨fun f => (hlink f).released (by omega), h.io, h.times⟩
  | join hpc hk hsem =>
    rw [hpc] at hlink
    exact ⟨fun f => (hlink f).join (semaWait_eq hsem f), h.io, h.times⟩
  | joined hpc hk =>
    rw [hpc] at hlink
    exact ⟨fun f => (hlink f).joined (by omega), h.io, h.times⟩
  | output hpc =>
    rw [hpc] at hlink
    exact ⟨hlink, h.io, h.times⟩

theorem Barrier.fileStep (h : Barrier s) {f : Fin F} (hst : fileStep s f = some t) :
    Barrier t := by
  have hfile := h.file f
  have hio := h.io f
  have htimes := h.times f
  cases fileMove_of_step hst with
  | @create k hpc hk =>
    simp only [hpc] at hfile hio htimes
    refine h.ofFile f rfl (fun g hg => by simp [hg, setIo_of_ne]) (by simpa using hfile)
      (fun u => ?_) (by simp)
    have hu := (hio u).fork
    by_cases huk : u = ⟨k, hk⟩
    · subst huk
      rw [if_pos rfl] at hu
      simpa using hu
    · rw [if_neg fun hv => huk (Fin.ext hv)] at hu
      simpa [huk] using hu
  | created hpc hk =>
    simp only [hpc] at hfile hio htimes
    refine h.ofFile f rfl (fun g hg => by simp [hg]) (by simpa using hfile) (fun u => ?_)
      (by simp)
    simpa using (hio u).forked (by omega)
  | collect hpc hk hsem =>
    simp only [hpc] at hfile hio htimes
    refine h.ofFile f rfl (fun g hg => by simp [hg]) (by simpa using hfile) (fun u => ?_)
      (by simp)
    simpa using (hio u).collect (semaWait_eq hsem u)
  | collected hpc hk =>
    simp only [hpc] at hfile hio htimes
    refine h.ofFile f rfl (fun g hg => by simp [hg]) (by simpa using hfile) (fun u => ?_)
      (by simp)
    simpa using (hio u).collected (by omega)
  | getReady hpc =>
    simp only [hpc] at hfile hio htimes
    refine h.ofFile f rfl (fun g hg => by simp [hg, semaPost_of_ne]) ?_ (fun u => ?_) (by simp)
    · simpa using hfile.getReady
    · simpa using hio u
  | begin hpc hsem =>
    simp only [hpc] at hfile hio htimes
    rw [semaWait_self hsem] at hfile
    refine h.ofFile f rfl (fun g hg => by simp [hg, semaWait_of_ne hsem hg]) ?_ (fun u => ?_)
      (by simp)
    · simpa using hfile.begin
    · simpa using hio u
  | setTimes hpc =>
    simp only [hpc] at hfile hio htimes
    refine h.ofFile f rfl (fun g hg => by simp [hg]) (by simpa using hfile) (fun u => ?_)
      (by simp)
    simpa using (hio u).startRelease
  | @release k hpc hk =>
    simp only [hpc] at hfile hio htimes
    refine h.ofFile f rfl (fun g hg => by simp [hg]) (by simpa using hfile) (fun u => ?_)
      (by simpa using htimes)
    simpa using (hio u).release (semaPost_eq (s.itpStart f) ⟨k, hk⟩ u)
  | released hpc hk =>
    simp only [hpc] at hfile hio htimes
    refine h.ofFile f rfl (fun g hg => by simp [hg]) (by simpa using hfile) (fun u => ?_)
      (by simpa using htimes)
    simpa using (hio u).released (by omega)
  | join hpc hk hsem =>
    simp only [hpc] at hfile hio htimes
    refine h.ofFile f rfl (fun g hg => by simp [hg]) (by simpa using hfile) (fun u => ?_)
      (by simpa using htimes)
    simpa using (hio u).join (semaWait_eq hsem u)
  | joined hpc hk =>
    simp only [hpc] at hfile hio htimes
    refine h.ofFile f rfl (fun g hg => by simp [hg]) (by simpa using hfile) (fun u => ?_)
      (by simpa using htimes)
    simpa using (hio u).joined (by omega)
  | finish hpc =>
    simp only [hpc] at hfile hio htimes
    refine h.ofFile f rfl (fun g hg => by simp [hg, semaPost_of_ne]) ?_ (fun u => ?_)
      (by simpa using htimes)
    · simpa using hfile.finish
    · simpa using hio u

theorem Barrier.ofIo (h : Barrier s) (f : Fin F) (u : Fin T) (hmain : t.main = s.main)
    (hfile : t.file = s.file) (hsem : t.ftpStart = s.ftpStart ∧ t.ftpStop = s.ftpStop)
    (htimes : t.timesSet = s.timesSet)
    (hother : ∀ g v, g ≠ f ∨ v ≠ u → t.io g v = s.io g v ∧
      t.itpStart g v = s.itpStart g v ∧ t.itpStop g v = s.itpStop g v)
    (hio : Linked (s.file f).parent u (t.io f u).child (t.itpStart f u) (t.itpStop f u)) :
    Barrier t := by
  refine ⟨fun g => ?_, fun g v => ?_, fun g => ?_⟩
  · rw [hmain, hfile, hsem.1, hsem.2]
    exact h.file g
  · rw [hfile]
    by_cases hne : g ≠ f ∨ v ≠ u
    · obtain ⟨h₁, h₂, h₃⟩ := hother g v hne
      rw [h₁, h₂, h₃]
      exact h.io g v
    · obtain ⟨rfl, rfl⟩ : g = f ∧ v = u := by simpa [not_or] using hne
      exact hio
  · rw [hfile, htimes]
    exact h.times g

/-- A row changed at one entry leaves the rest of the table as it was. -/
theorem row_of_ne {α : Type} (tab : Fin F → Fin T → α) {f : Fin F} {u : Fin T}
    {row : Fin T → α} (hrow : ∀ v, v ≠ u → row v = tab f v) {g : Fin F} {v : Fin T}
    (h : g ≠ f ∨ v ≠ u) : Function.update tab f row g v = tab g v := by
  by_cases hg : g = f
  · subst hg
    rw [Function.update_self]
    exact hrow v (h.resolve_left (not_not.mpr rfl))
  · rw [Function.update_of_ne hg]

theorem setIo_entry_of_ne {α : Type} (tab : Fin F → Fin T → α) {f g : Fin F} {u v : Fin T}
    (x : α) (h : g ≠ f ∨ v ≠ u) : setIo tab f u x g v = tab g v :=
  row_of_ne tab (fun _ hv => Function.update_of_ne hv _ _) h

theorem Barrier.ioStep (h : Barrier s) {f : Fin F} {u : Fin T}
    (hst : ioStep s f u = some t) : Barrier t := by
  have hio := h.io f u
  cases ioMove_of_step hst with
  | init hpc =>
    simp only [hpc] at hio
    refine h.ofIo f u rfl rfl ⟨rfl, rfl⟩ rfl
      (fun g v hne => ⟨setIo_entry_of_ne _ _ hne, rfl, rfl⟩) ?_
    simpa using hio
  | getReady hpc =>
    simp only [hpc] at hio
    refine h.ofIo f u rfl rfl ⟨rfl, rfl⟩ rfl (fun g v hne => ⟨setIo_entry_of_ne _ _ hne, rfl,
      row_of_ne _ (fun _ hv => semaPost_of_ne _ hv) hne⟩) ?_
    simpa using hio.getReady
  | begin hpc hsem =>
    simp only [hpc] at hio
    rw [semaWait_self hsem] at hio
    refine h.ofIo f u rfl rfl ⟨rfl, rfl⟩ rfl (fun g v hne => ⟨setIo_entry_of_ne _ _ hne,
      row_of_ne _ (fun _ hv => semaWait_of_ne hsem hv) hne, rfl⟩) ?_
    simpa using hio.begin
  | finish hpc =>
    simp only [hpc] at hio
    refine h.ofIo f u rfl rfl ⟨rfl, rfl⟩ rfl (fun g v hne => ⟨setIo_entry_of_ne _ _ hne, rfl,
      row_of_ne _ (fun _ hv => semaPost_of_ne _ hv) hne⟩) ?_
    simpa using hio.finish

/-- **Every step of every thread keeps the barrier.** -/
theorem Barrier.step (h : Barrier s) {a : Step F T} (hst : (runtest F T).step a s = some t) :
    Barrier t := by
  cases a with
  | main => exact h.mainStep hst
  | file f => exact h.fileStep hst
  | thread f u => exact h.ioStep hst
  | io f u =>
    simp only [runtest] at hst
    split at hst
    · cases hst
      exact h
    · cases hst
  | leave f u =>
    simp only [runtest] at hst
    split at hst
    · rename_i hpc
      cases hst
      have hio := h.io f u
      simp only [hpc] at hio
      refine h.ofIo f u rfl rfl ⟨rfl, rfl⟩ rfl
        (fun g v hne => ⟨setIo_entry_of_ne _ _ hne, rfl, rfl⟩) ?_
      simpa using hio
    · cases hst

theorem barrier_of_reachable (h : (runtest F T).Reachable Machine.always s) : Barrier s :=
  h.invariant barrier_init fun _ _ _ hs _ hst => hs.step hst

end Iofill
end Blockbench
