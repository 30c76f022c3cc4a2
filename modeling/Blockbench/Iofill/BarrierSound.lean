import Mathlib.Algebra.Order.BigOperators.Group.Finset
import Blockbench.Iofill.Barrier

/-!
# `Iofill/BarrierSound.lean` — what the barrier is for

The invariant of `Iofill/Barrier.lean` holds of every reachable state, and from it come the
three things `runtest` relies on: an I/O is issued only when every thread of every file is ready
(`Barrier.all_initialised`), nothing is issued any more when the report is written
(`Barrier.all_exited`), and nobody waits for a post that does not come (`Barrier.progress`).

The last one is stated for the steps that are not another turn of an I/O loop (`advances`):
those cannot go on for ever (`Barrier.left_step`), so a state with such a step left leads to
the end.
-/

set_option autoImplicit false

namespace Blockbench
namespace Iofill

open ForkJoin

variable {F T : ℕ} {s t : RunState F T}

/-! ## What the barrier is for -/

def IoPc.Initialised (pc : IoPc) : Prop := pc ≠ .unborn ∧ pc ≠ .init

/-- A file whose threads may run has been released by `runtest`, and so all files are ready. -/
theorem Barrier.all_initialised (h : Barrier s) {f : Fin F} {u : Fin T}
    (hrun : (s.io f u).child.waits = 1) (g : Fin F) (v : Fin T) : (s.io g v).Initialised := by
  have hreleased := (h.io f u).released_of_running hrun
  have hrunning : (s.file f).child.waits = 1 := by
    cases hpc : s.file f <;> rw [hpc] at hreleased <;> simp_all
  have hready : (s.file g).child.Ready := (h.file f).ready_of_running (h.file g) hrunning
  -- a file that is ready has heard from each of its threads
  have hlink := h.io g v
  have hposts : (s.io g v).child.posts ≠ 0 := by
    have hstop := hlink.stop_eq
    intro hz
    rw [hz] at hstop
    cases hpc : s.file g <;> rw [hpc] at hready hstop <;> simp at hready hstop
    split at hstop <;> omega
  constructor <;> intro hpc <;> rw [hpc] at hposts <;> simp at hposts

/-- Behind the last wait of `runtest` every thread has made its last post. -/
theorem Barrier.all_exited (h : Barrier s) (hmain : s.main.parent = .after) (f : Fin F)
    (u : Fin T) : s.io f u = .exited := by
  have hfile := h.file f
  rw [hmain] at hfile
  have hexited : s.file f = .exited := by
    have := hfile.finished
    cases hpc : s.file f <;> rw [hpc] at this <;> simp_all
  have hio := h.io f u
  rw [hexited] at hio
  have := hio.finished
  cases hpc : s.io f u <;> rw [hpc] at this <;> simp_all

/-! ## No thread waits for ever -/

/-- The steps that are not another turn of an I/O loop. -/
def advances (_ : RunState F T) : Step F T → Prop
  | .io _ _ => False
  | _ => True

theorem semaWait_isSome {n : ℕ} {sem : Fin n → ℕ} {i : Fin n} (h : 0 < sem i) :
    ∃ sem', semaWait sem i = some sem' := ⟨_, if_pos h⟩

theorem ready_progress {f : Fin F} {u : Fin T} (hc : (s.io f u).child = .preparing) :
    ∃ t, (runtest F T).step (.thread f u) s = some t := by
  simp only [runtest, Iofill.ioStep]
  cases hpc : s.io f u <;> rw [hpc] at hc <;> simp at hc
  · exact ⟨_, rfl⟩
  · exact ⟨_, rfl⟩

/-- A thread that owes its parent the second post can go on: to its loop, out of it, or to the
post. -/
theorem stop_progress {f : Fin F} {u : Fin T}
    (hc : (s.io f u).child = .running ∨ (s.io f u).child = .ready ∧ 0 < s.itpStart f u) :
    ∃ a t, advances s a ∧ (runtest F T).step a s = some t := by
  cases hpc : s.io f u <;> rw [hpc] at hc <;> simp at hc
  · obtain ⟨sem, hsem⟩ := semaWait_isSome hc
    refine ⟨.thread f u, ?_⟩
    simp only [runtest, Iofill.ioStep, hpc, hsem]
    exact ⟨_, trivial, rfl⟩
  · refine ⟨.leave f u, ?_⟩
    simp only [runtest, hpc, if_true]
    exact ⟨_, trivial, rfl⟩
  · refine ⟨.thread f u, ?_⟩
    simp only [runtest, Iofill.ioStep, hpc]
    exact ⟨_, trivial, rfl⟩

/-- A file that has been forked and has not exited can go on, or one of its threads can, unless
it waits for its `start`. -/
theorem Barrier.file_progress (h : Barrier s) {f : Fin F} (hborn : s.file f ≠ .unborn)
    (hlive : s.file f ≠ .exited) (hstart : s.file f = .waitStart → 0 < s.ftpStart f) :
    ∃ a t, advances s a ∧ (runtest F T).step a s = some t := by
  have hio := h.io f
  have hown : (∃ t, Iofill.fileStep s f = some t) →
      ∃ a t, advances s a ∧ (runtest F T).step a s = some t :=
    fun ⟨t, ht⟩ => ⟨.file f, t, trivial, ht⟩
  unfold Iofill.fileStep at hown
  dsimp only at hown
  cases hpc : s.file f with
  | unborn => exact absurd hpc hborn
  | exited => exact absurd hpc hlive
  | create k | postStart k =>
    simp only [hpc] at hown
    split at hown <;> exact hown ⟨_, rfl⟩
  | postReady | setTimes | postStop =>
    simp only [hpc] at hown
    exact hown ⟨_, rfl⟩
  | waitStart =>
    simp only [hpc] at hown
    obtain ⟨sem, hsem⟩ := semaWait_isSome (hstart hpc)
    rw [hsem] at hown
    exact hown ⟨_, rfl⟩
  | waitReady k =>
    simp only [hpc] at hown hio
    split at hown
    · rename_i hk
      rcases Nat.eq_zero_or_pos (s.itpStop f ⟨k, hk⟩) with hz | hpos
      · have hlink := hio ⟨k, hk⟩
        rw [hz] at hlink
        obtain ⟨t, ht⟩ := ready_progress hlink.not_ready
        exact ⟨.thread f ⟨k, hk⟩, t, trivial, ht⟩
      · obtain ⟨sem, hsem⟩ := semaWait_isSome hpos
        rw [hsem] at hown
        exact hown ⟨_, rfl⟩
    · exact hown ⟨_, rfl⟩
  | waitStop k =>
    simp only [hpc] at hown hio
    split at hown
    · rename_i hk
      rcases Nat.eq_zero_or_pos (s.itpStop f ⟨k, hk⟩) with hz | hpos
      · have hlink := hio ⟨k, hk⟩
        rw [hz] at hlink
        exact stop_progress hlink.not_finished
      · obtain ⟨sem, hsem⟩ := semaWait_isSome hpos
        rw [hsem] at hown
        exact hown ⟨_, rfl⟩
    · exact hown ⟨_, rfl⟩

/-- **No state in front of the end is stuck.** -/
theorem Barrier.progress (h : Barrier s) (hmain : s.main ≠ .done) :
    ∃ a t, advances s a ∧ (runtest F T).step a s = some t := by
  have hfile := h.file
  have hown : (∃ t, Iofill.mainStep s = some t) →
      ∃ a t, advances s a ∧ (runtest F T).step a s = some t :=
    fun ⟨t, ht⟩ => ⟨.main, t, trivial, ht⟩
  unfold Iofill.mainStep at hown
  cases hpc : s.main with
  | done => exact absurd hpc hmain
  | create k | postStart k =>
    simp only [hpc] at hown
    split at hown <;> exact hown ⟨_, rfl⟩
  | output =>
    simp only [hpc] at hown
    exact hown ⟨_, rfl⟩
  | waitReady k =>
    simp only [hpc] at hown hfile
    split at hown
    · rename_i hk
      rcases Nat.eq_zero_or_pos (s.ftpStop ⟨k, hk⟩) with hz | hpos
      · have hlink := hfile ⟨k, hk⟩
        rw [hz] at hlink
        have hc := hlink.not_ready
        refine h.file_progress (f := ⟨k, hk⟩) ?_ ?_ ?_ <;> intro heq <;> rw [heq] at hc <;>
          simp at hc
      · obtain ⟨sem, hsem⟩ := semaWait_isSome hpos
        rw [hsem] at hown
        exact hown ⟨_, rfl⟩
    · exact hown ⟨_, rfl⟩
  | waitStop k =>
    simp only [hpc] at hown hfile
    split at hown
    · rename_i hk
      rcases Nat.eq_zero_or_pos (s.ftpStop ⟨k, hk⟩) with hz | hpos
      · have hlink := hfile ⟨k, hk⟩
        rw [hz] at hlink
        have hc := hlink.not_finished
        refine h.file_progress (f := ⟨k, hk⟩) ?_ ?_ ?_ <;> intro heq <;> rw [heq] at hc <;>
          simp at hc
        exact hc
      · obtain ⟨sem, hsem⟩ := semaWait_isSome hpos
        rw [hsem] at hown
        exact hown ⟨_, rfl⟩
    · exact hown ⟨_, rfl⟩

/-! ## The way to the end -/

def MainPc.left (F : ℕ) : MainPc → ℕ
  | .create k => 3 * (F + 1) + (F - k) + 2
  | .waitReady k => 2 * (F + 1) + (F - k) + 2
  | .postStart k => (F + 1) + (F - k) + 2
  | .waitStop k => (F - k) + 2
  | .output => 1
  | .done => 0

def FilePc.left (T : ℕ) : FilePc → ℕ
  | .unborn => 4 * (T + 1) + 6
  | .create k => 3 * (T + 1) + (T - k) + 6
  | .waitReady k => 2 * (T + 1) + (T - k) + 6
  | .postReady => 2 * (T + 1) + 5
  | .waitStart => 2 * (T + 1) + 4
  | .setTimes => 2 * (T + 1) + 3
  | .postStart k => (T + 1) + (T - k) + 2
  | .waitStop k => (T - k) + 2
  | .postStop => 1
  | .exited => 0

def IoPc.left : IoPc → ℕ
  | .unborn => 6
  | .init => 5
  | .postReady => 4
  | .waitStart => 3
  | .loop => 2
  | .postStop => 1
  | .exited => 0

def RunState.left (s : RunState F T) : ℕ :=
  s.main.left F + ∑ f, (s.file f).left T + ∑ f, ∑ u, (s.io f u).left

theorem sum_update_lt {ι α : Type} [Fintype ι] [DecidableEq ι] (μ : α → ℕ) (w : ι → α) (i : ι)
    (v : α) (h : μ v < μ (w i)) : ∑ j, μ (Function.update w i v j) < ∑ j, μ (w j) := by
  refine Finset.sum_lt_sum (fun j _ => ?_) ⟨i, Finset.mem_univ i, by simpa using h⟩
  by_cases hj : j = i
  · subst hj
    simpa using h.le
  · simp [hj]

theorem sum_setIo_lt (io : Fin F → Fin T → IoPc) (f : Fin F) (u : Fin T) (v : IoPc)
    (h : v.left < (io f u).left) :
    ∑ g, ∑ j, (setIo io f u v g j).left < ∑ g, ∑ j, (io g j).left :=
  sum_update_lt (fun row : Fin T → IoPc => ∑ j, (row j).left) io f _
    (sum_update_lt IoPc.left (io f) u v h)

theorem Barrier.left_mainStep (h : Barrier s) (hst : Iofill.mainStep s = some t) :
    t.left < s.left := by
  have hfile := h.file
  unfold RunState.left
  cases mainMove_of_step hst with
  | @create k hpc hk =>
    rw [hpc] at hfile ⊢
    have hborn := (hfile ⟨k, hk⟩).born.mpr (by simp)
    have hunborn : s.file ⟨k, hk⟩ = .unborn := by
      cases hc : s.file ⟨k, hk⟩ <;> rw [hc] at hborn <;> simp at hborn ⊢
    have hlt := sum_update_lt (FilePc.left T) s.file ⟨k, hk⟩ (.create 0)
      (by rw [hunborn]; simp only [FilePc.left]; omega)
    simp only [MainPc.left] at hlt ⊢
    omega
  | created hpc hk | collect hpc hk | collected hpc hk | release hpc hk | released hpc hk
  | join hpc hk | joined hpc hk | output hpc =>
    rw [hpc]
    simp only [MainPc.left]
    omega

/-- A `file_thread`'s own counter goes down, and its threads' do not go up. -/
theorem Barrier.left_fileStep (h : Barrier s) {f : Fin F} (hst : Iofill.fileStep s f = some t) :
    t.left < s.left := by
  have hio := h.io f
  have hdown : ∀ pc : FilePc, pc.left T < (s.file f).left T →
      ∑ g, (Function.update s.file f pc g).left T < ∑ g, (s.file g).left T :=
    fun pc hlt => sum_update_lt (FilePc.left T) s.file f pc hlt
  unfold RunState.left
  cases fileMove_of_step hst with
  | @create k hpc hk =>
    simp only [hpc] at hio hdown
    have hborn := (hio ⟨k, hk⟩).born.mpr (by simp)
    have hunborn : s.io f ⟨k, hk⟩ = .unborn := by
      cases hc : s.io f ⟨k, hk⟩ <;> rw [hc] at hborn <;> simp at hborn ⊢
    have hlt := hdown (.create (k + 1)) (by simp only [FilePc.left]; omega)
    have hlt' := sum_setIo_lt s.io f ⟨k, hk⟩ .init (by rw [hunborn]; decide)
    simp only at hlt hlt' ⊢
    omega
  | created hpc hk | collect hpc hk | collected hpc hk | getReady hpc | begin hpc
  | setTimes hpc | release hpc hk | released hpc hk | join hpc hk | joined hpc hk
  | finish hpc =>
    refine Nat.add_lt_add_right (Nat.add_lt_add_left (hdown _ ?_) _) _
    rw [hpc]
    simp only [FilePc.left]
    omega

theorem left_ioStep {f : Fin F} {u : Fin T} (hst : Iofill.ioStep s f u = some t) :
    t.left < s.left := by
  have hdown := sum_setIo_lt s.io f u
  unfold RunState.left
  cases ioMove_of_step hst with
  | init hpc | getReady hpc | begin hpc | finish hpc =>
    exact Nat.add_lt_add_left (hdown _ (by rw [hpc]; decide)) _

theorem Barrier.left_step (h : Barrier s) {a : Step F T} (ha : advances s a)
    (hst : (runtest F T).step a s = some t) : t.left < s.left := by
  cases a with
  | main => exact h.left_mainStep hst
  | file f => exact h.left_fileStep hst
  | thread f u => exact left_ioStep hst
  | io f u => exact ha.elim
  | leave f u =>
    simp only [runtest] at hst
    split at hst
    · rename_i hpc
      cases hst
      exact Nat.add_lt_add_left (sum_setIo_lt s.io f u .postStop (by rw [hpc]; decide)) _
    · cases hst

/-- From every reachable state `runtest` gets to its end, if the I/O loops are left. -/
theorem Barrier.finishes (h : Barrier s) :
    ∃ as t, Machine.Run (runtest F T) advances s as t ∧ t.main = .done :=
  Machine.finishes (F := fun s => s.main = .done) (fun _ _ _ hs _ hst => Barrier.step hs hst)
    (fun _ _ _ hs ha hst => Barrier.left_step hs ha hst) (fun _ hs hm => Barrier.progress hs hm)
    s h

theorem fileStep_main {f : Fin F} (hst : Iofill.fileStep s f = some t) : t.main = s.main := by
  cases fileMove_of_step hst <;> rfl

theorem ioStep_main {f : Fin F} {u : Fin T} (hst : Iofill.ioStep s f u = some t) :
    t.main = s.main := by
  cases ioMove_of_step hst <;> rfl

theorem main_after_step {a : Step F T} (hmain : s.main.parent = .after)
    (hst : (runtest F T).step a s = some t) : t.main.parent = .after := by
  cases a with
  | main =>
    cases mainMove_of_step hst with
    | output => rfl
    | create hpc | created hpc | collect hpc | collected hpc | release hpc | released hpc
    | join hpc | joined hpc =>
      rw [hpc] at hmain
      cases hmain
  | file f =>
    rw [fileStep_main hst]
    exact hmain
  | thread f u =>
    rw [ioStep_main hst]
    exact hmain
  | io f u | leave f u =>
    simp only [runtest] at hst
    split at hst
    · cases hst
      exact hmain
    · cases hst

/-- **The two-level barrier is sound.** In every reachable state: an I/O is issued only when every
thread of every file is initialised and the file's times are set; when `runtest` is at its call of
`output` every thread has exited, and no I/O is ever issued again; and some thread can go on
towards the end until `runtest` is there, which it can always still reach.

`runtest` and its files are one fork and join, and a file and its threads another, so each is an
instance of `Lib/ForkJoin.lean`, and `Barrier` says where in the two a thread of the program is.
The I/O loops are turns without effect here, and may go on for ever; the last part therefore says
that the end can be reached, and not that it must be. -/
theorem barrier_sound (h : (runtest F T).Reachable Machine.always s) :
    (∀ f u t, (runtest F T).step (.io f u) s = some t →
      (∀ g v, (s.io g v).Initialised) ∧ s.timesSet f = true) ∧
    (s.main = .output ∨ s.main = .done →
      (∀ f u, s.io f u = .exited) ∧
      ∀ as t, Machine.Run (runtest F T) Machine.always s as t →
        ∀ f u, (runtest F T).step (.io f u) t = none) ∧
    (s.main ≠ .done → ∃ a t, advances s a ∧ (runtest F T).step a s = some t) ∧
    ∃ as t, Machine.Run (runtest F T) Machine.always s as t ∧ t.main = .done := by
  have hb := barrier_of_reachable h
  refine ⟨fun f u t hst => ?_, fun hmain => ?_, hb.progress, ?_⟩
  · simp only [runtest] at hst
    split at hst
    · rename_i hpc
      have hrun : (s.io f u).child.waits = 1 := by rw [hpc]; rfl
      exact ⟨hb.all_initialised hrun, hb.times f ((hb.io f u).released_of_running hrun)⟩
    · cases hst
  · have hafter : s.main.parent = .after := by rcases hmain with hm | hm <;> rw [hm] <;> rfl
    refine ⟨hb.all_exited hafter, fun as t hrun f u => ?_⟩
    have hafter' : t.main.parent = .after :=
      hrun.keeps (fun _ _ _ hm _ hst => main_after_step hm hst) hafter
    have hexited := (barrier_of_reachable (h.run hrun)).all_exited hafter' f u
    simp only [runtest, hexited]
    rfl
  · obtain ⟨as, t, hrun, hdone⟩ := hb.finishes
    exact ⟨as, t, hrun.mono fun _ _ _ => trivial, hdone⟩

/-- One file with two threads, up to the first thread's loop. -/
def firstLoop (f : Fin 1) (i j : Fin 2) : List (Step 1 2) :=
  [.main, .main, .file f, .file f, .file f, .thread f i, .thread f j, .thread f i, .thread f j,
    .file f, .file f, .file f, .file f, .main, .main, .main, .file f, .file f, .file f,
    .thread f i]

theorem barrier_sound_first : ∃ s, (runtest 1 2).Reachable Machine.always s ∧
    s.io 0 0 = .loop ∧ (s.io 0 1).Initialised ∧ s.timesSet 0 = true := by
  obtain ⟨s, hexec, hloop⟩ : ∃ s, (runtest 1 2).exec (firstLoop 0 0 1) (runtest 1 2).init
      = some s ∧ s.io 0 0 = .loop := ⟨_, rfl, rfl⟩
  have hs : (runtest 1 2).Reachable Machine.always s := ⟨_, Machine.run_of_exec hexec⟩
  obtain ⟨hall, htimes⟩ := (barrier_sound hs).1 0 0 s (if_pos hloop)
  exact ⟨s, hs, hloop, hall 0 1, htimes⟩

end Iofill
end Blockbench
