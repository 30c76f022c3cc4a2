import Mathlib.Logic.Function.Basic
import Mathlib.Data.List.Nodup
import Blockbench.Lib.Machine
import Blockbench.Iob.Types

/-!
# `Iob/Details.lean` — the log of long I/Os

`iob_details_add` is two atomic steps, a fetch-and-add on `cur_iodet` and a store into the entry
it gave. `output_details` reads `cur_iodet` once, prints the entries below it one by one, and
then sets `cur_iodet` to zero (`iob_details_reset(0)`), all while the workers go on adding. The
summary of a round prints once more when no worker is active (`Ioload/RoundsSound.lean`), and
`iob_details_reset(1)` clears the log; but a summary whose latency is past `maxlat` ends the
program in `output_times`, in front of `output_details`.

A record is followed from its claim to its report by what the program does not have: its
number `id`, and the number of resets made before it was claimed, its `period`. `printed` has
one element for each entry printed, with the period of the report.

Nothing ties a store to the report that covers its entry, nor a claim to the snapshot that
misses it. `Orderly` says when these come in order, and `details_sound` that the log is then
right: a report that prints an entry before its record is stored prints an older one, and a
record claimed between the snapshot and the reset is in no report (`details_lost`), nor is one
that a halting summary finds (`details_lost_halting`).
-/

set_option autoImplicit false

namespace Blockbench

open Machine

/-- A call of `iob_details_add`: the record, and the entry its fetch-and-add gave it. -/
structure Rec where
  id : ℕ
  index : ℕ
  period : ℕ
  det : Iodet
  deriving DecidableEq

def Rec.stored (c : Rec) : Rec :=
  { c with det := { c.det with latency := c.det.endTime - c.det.start } }

/-- An entry printed: its index, what was in it, and the resets made before. -/
structure Printed where
  period : ℕ
  index : ℕ
  entry : Option Rec
  deriving DecidableEq

/-- Where the reporter is in `output_details`, at entry `i` of the `maxdet` it read; `final` in
the summary, and `clearing` behind its report, at `iob_details_reset(1)`. `exited` is the
`exit(3)` of a summary. -/
inductive Reporter
  | idle
  | printing (final : Bool) (maxdet i : ℕ)
  | resetting (final : Bool)
  | clearing
  | exited
  deriving DecidableEq

def Reporter.Final : Reporter → Prop
  | .printing final _ _ | .resetting final => final = true
  | .clearing | .exited => True
  | .idle => False

instance (r : Reporter) : Decidable r.Final := by
  cases r <;> unfold Reporter.Final <;> infer_instance

/-- `worker` holds the record a worker has claimed an entry for and not stored. An entry that
is all zeros is `none`. -/
structure LogState (T : ℕ) where
  curIodet : UInt64
  details : ℕ → Option Rec
  worker : Fin T → Option Rec
  reporter : Reporter
  period : ℕ
  added : List Rec
  printed : List Printed

/-- `halts` is whether the summary found `latency_flag` set. -/
inductive LogStep (T : ℕ)
  | claim (w : Fin T) (det : Iodet)
  | store (w : Fin T)
  | report
  | summary (halts : Bool)
  | print
  | reset
  | clear

variable {T : ℕ}

/-- `iob_details_add` for the workers, `output_details` and `iob_details_reset` for the
reporter. `longlats` is the flag `-i longlat=…` sets; without it nothing is printed. -/
def logStep (niodet : UInt64) (longlats : Bool) (a : LogStep T) (s : LogState T) :
    Option (LogState T) :=
  match a with
  | .claim w det =>
    -- no worker is active while the summary is written
    if s.worker w = none ∧ ¬ s.reporter.Final then
      let c : Rec := ⟨s.added.length, s.curIodet.toNat, s.period, det⟩
      some { s with
        curIodet := s.curIodet + 1
        worker := Function.update s.worker w (some c)
        added := c :: s.added }
    else none
  | .store w =>
    match s.worker w with
    | some c => some { s with
        details :=
          if c.index < niodet.toNat then Function.update s.details c.index (some c.stored)
          else s.details
        worker := Function.update s.worker w none }
    | none => none
  | .report =>
    if s.reporter = .idle ∧ longlats then
      some { s with reporter := .printing false (min s.curIodet.toNat niodet.toNat) 0 }
    else none
  | .summary halts =>
    if s.reporter = .idle ∧ ∀ w, s.worker w = none then
      some { s with
        reporter :=
          if halts then .exited
          else if longlats then .printing true (min s.curIodet.toNat niodet.toNat) 0
          else .clearing }
    else none
  | .print =>
    match s.reporter with
    | .printing final maxdet i =>
      if i < maxdet then
        some { s with
          reporter := .printing final maxdet (i + 1)
          printed := ⟨s.period, i, s.details i⟩ :: s.printed }
      else some { s with reporter := .resetting final }
    | _ => none
  | .reset =>
    match s.reporter with
    | .resetting final =>
      some { s with
        reporter := if final then .clearing else .idle
        curIodet := 0
        period := s.period + 1 }
    | _ => none
  | .clear =>
    if s.reporter = .clearing then
      some { s with
        reporter := .idle
        details := fun _ => none
        curIodet := 0
        period := s.period + 1 }
    else none

/-- `T` workers and a reporter over a log of `niodet` entries. -/
def detailsLog (T : ℕ) (niodet : UInt64) (longlats : Bool) : Machine (LogState T) (LogStep T) where
  init :=
    { curIodet := 0
      details := fun _ => none
      worker := fun _ => none
      reporter := .idle
      period := 0
      added := []
      printed := [] }
  step := logStep niodet longlats

/-- The steps that keep claims, stores and reports in order: an entry that counts is claimed
only between the reports, and with `longlats`; it is printed only when its store has been made;
a summary that halts finds nothing to print; and the counter does not wrap. -/
def Orderly (niodet : UInt64) (longlats : Bool) (s : LogState T) : LogStep T → Prop
  | .claim _ _ => s.curIodet.toNat + 1 < 2 ^ 64 ∧
      (s.curIodet.toNat < niodet.toNat → s.reporter = .idle ∧ longlats = true)
  | .print => ∀ final maxdet i, s.reporter = .printing final maxdet i → i < maxdet →
      ∀ w c, s.worker w = some c → c.index ≠ i
  | .summary halts => halts = true → min s.curIodet.toNat niodet.toNat = 0
  | _ => True

/-! ## The invariant -/

/-- The records added: told apart by their numbers and by period and index, and those of this
period have the indices below `cur`. -/
structure Claims (added : List Rec) (period cur : ℕ) : Prop where
  ids : ∀ c ∈ added, c.id < added.length
  idInj : ∀ c ∈ added, ∀ d ∈ added, c.id = d.id → c = d
  keyInj : ∀ c ∈ added, ∀ d ∈ added, c.period = d.period → c.index = d.index → c = d
  within : ∀ c ∈ added, c.period < period ∨ c.period = period ∧ c.index < cur
  claimed : ∀ i < cur, ∃ c ∈ added, c.period = period ∧ c.index = i

/-- The entries below `n`: each of this period has its record or a worker that will store it,
and nothing is still to be stored below the entries a report has printed. -/
structure Entries (n : ℕ) (added : List Rec) (period progress : ℕ) (worker : Fin T → Option Rec)
    (details : ℕ → Option Rec) : Prop where
  pending : ∀ w c, worker w = some c → c ∈ added ∧
    (c.index < n → c.period = period ∧ progress ≤ c.index)
  stored : ∀ c ∈ added, c.period = period → c.index < n →
    (∃ w, worker w = some c) ∨ details c.index = some c.stored

/-- A period and an index that the reports have passed. -/
def Passed (now progress period index : ℕ) : Prop :=
  period < now ∨ period = now ∧ index < progress

/-- The reports: every entry printed is a record of the report's period, no entry of a period is
printed twice, and the records passed have been printed. -/
structure Reports (n : ℕ) (added : List Rec) (period progress : ℕ) (printed : List Printed) :
    Prop where
  genuine : ∀ e ∈ printed, ∃ c ∈ added,
    e.entry = some c.stored ∧ c.period = e.period ∧ c.index = e.index
  passed : ∀ e ∈ printed, Passed period progress e.period e.index
  keys : (printed.map fun e => (e.period, e.index)).Nodup
  reported : ∀ c ∈ added, c.index < n → Passed period progress c.period c.index →
    ∃ e ∈ printed, e.entry = some c.stored

section Parts

variable {n period progress cur : ℕ} {added : List Rec} {worker : Fin T → Option Rec}
  {details : ℕ → Option Rec} {printed : List Printed}

/-! ### The claims -/

/-- A new record differs from the others in number, and in period or index. -/
theorem Claims.new (h : Claims added period cur) {d : Rec} (hd : d ∈ added) :
    d.id ≠ added.length ∧ ¬ (d.period = period ∧ d.index = cur) := by
  have hid := h.ids d hd
  have hp := h.within d hd
  omega

theorem Claims.claim (h : Claims added period cur) (det : Iodet) :
    Claims (⟨added.length, cur, period, det⟩ :: added) period (cur + 1) where
  ids c hc := by
    rcases List.mem_cons.mp hc with rfl | hc
    · simp
    · simpa using Nat.lt_succ_of_lt (h.ids c hc)
  idInj c hc d hd heq := by
    rcases List.mem_cons.mp hc with rfl | hc <;> rcases List.mem_cons.mp hd with rfl | hd
    · rfl
    · exact absurd heq.symm (h.new hd).1
    · exact absurd heq (h.new hc).1
    · exact h.idInj c hc d hd heq
  keyInj c hc d hd hp hi := by
    rcases List.mem_cons.mp hc with rfl | hc <;> rcases List.mem_cons.mp hd with rfl | hd
    · rfl
    · exact absurd ⟨hp.symm, hi.symm⟩ (h.new hd).2
    · exact absurd ⟨hp, hi⟩ (h.new hc).2
    · exact h.keyInj c hc d hd hp hi
  within c hc := by
    rcases List.mem_cons.mp hc with rfl | hc
    · exact .inr ⟨rfl, Nat.lt_succ_self cur⟩
    · exact (h.within c hc).imp_right fun hp => ⟨hp.1, Nat.lt_succ_of_lt hp.2⟩
  claimed i hi := by
    rcases Nat.lt_succ_iff_lt_or_eq.mp hi with hlt | rfl
    · obtain ⟨c, hc, hkey⟩ := h.claimed i hlt
      exact ⟨c, List.mem_cons_of_mem _ hc, hkey⟩
    · exact ⟨_, List.mem_cons_self, rfl, rfl⟩

theorem Claims.reset (h : Claims added period cur) : Claims added (period + 1) 0 where
  ids := h.ids
  idInj := h.idInj
  keyInj := h.keyInj
  within c hc := by
    have hp := h.within c hc
    exact .inl (by omega)
  claimed i hi := absurd hi (Nat.not_lt_zero i)

/-! ### The entries -/

theorem Entries.claim (h : Entries n added period progress worker details) {w : Fin T}
    (hfree : worker w = none) {c : Rec} (hp : c.period = period)
    (hprogress : c.index < n → progress ≤ c.index) :
    Entries n (c :: added) period progress (Function.update worker w (some c)) details where
  pending v d hd := by
    by_cases hv : v = w
    · subst hv
      rw [Function.update_self] at hd
      obtain rfl := Option.some.inj hd
      exact ⟨List.mem_cons_self, fun hlt => ⟨hp, hprogress hlt⟩⟩
    · rw [Function.update_of_ne hv] at hd
      exact (h.pending v d hd).imp_left (List.mem_cons_of_mem _)
  stored d hd hdp hi := by
    rcases List.mem_cons.mp hd with rfl | hd
    · exact .inl ⟨w, Function.update_self w _ _⟩
    · refine (h.stored d hd hdp hi).imp_left fun ⟨v, hv⟩ => ⟨v, ?_⟩
      have hvw : v ≠ w := by
        intro heq
        rw [heq, hfree] at hv
        cases hv
      rw [Function.update_of_ne hvw]
      exact hv

/-- A store fills the entry of its own record: no other record of the period has its index. -/
theorem Entries.store (h : Entries n added period progress worker details)
    (hclaims : Claims added period cur) {w : Fin T} {c : Rec} (hw : worker w = some c) :
    Entries n added period progress (Function.update worker w none)
      (if c.index < n then Function.update details c.index (some c.stored) else details) where
  pending v d hd := by
    by_cases hv : v = w
    · subst hv
      rw [Function.update_self] at hd
      cases hd
    · rw [Function.update_of_ne hv] at hd
      exact h.pending v d hd
  stored d hd hdp hi := by
    obtain ⟨hc, hkey⟩ := h.pending w c hw
    by_cases hdc : d = c
    · subst hdc
      rw [if_pos hi, Function.update_self]
      exact .inr rfl
    · rcases h.stored d hd hdp hi with ⟨v, hv⟩ | hdet
      · have hvw : v ≠ w := by
          intro heq
          rw [heq, hw] at hv
          exact hdc (Option.some.inj hv).symm
        exact .inl ⟨v, by rw [Function.update_of_ne hvw]; exact hv⟩
      · right
        split
        · rename_i hlt
          have hne : d.index ≠ c.index := fun heq =>
            hdc (hclaims.keyInj d hd c hc (hdp.trans (hkey hlt).1.symm) heq)
          rw [Function.update_of_ne hne]
          exact hdet
        · exact hdet

/-- An entry printed when its store has been made has the record of this period. -/
theorem Entries.entry (h : Entries n added period progress worker details)
    (hclaims : Claims added period cur) {i : ℕ} (hcur : i < cur) (hn : i < n)
    (hdone : ∀ w c, worker w = some c → c.index ≠ i) :
    ∃ c ∈ added, c.period = period ∧ c.index = i ∧ details i = some c.stored := by
  obtain ⟨c, hc, hp, hi⟩ := hclaims.claimed i hcur
  rcases h.stored c hc hp (hi ▸ hn) with ⟨w, hw⟩ | hdet
  · exact absurd hi (hdone w c hw)
  · exact ⟨c, hc, hp, hi, hi ▸ hdet⟩

theorem Entries.advance (h : Entries n added period progress worker details)
    (hdone : ∀ w c, worker w = some c → c.index ≠ progress) :
    Entries n added period (progress + 1) worker details where
  pending w c hw := by
    obtain ⟨hmem, hkey⟩ := h.pending w c hw
    refine ⟨hmem, fun hlt => ⟨(hkey hlt).1, ?_⟩⟩
    have hle := (hkey hlt).2
    have hne := hdone w c hw
    omega
  stored := h.stored

/-- At the reset nothing is left to store: what the report has not passed does not count. -/
theorem Entries.reset (h : Entries n added period (min cur n) worker details)
    (hclaims : Claims added period cur) :
    Entries n added (period + 1) 0 worker details where
  pending w c hw := by
    obtain ⟨hmem, hkey⟩ := h.pending w c hw
    refine ⟨hmem, fun hlt => ?_⟩
    have hp := hclaims.within c hmem
    have hk := hkey hlt
    omega
  stored c hc hp := by
    have := hclaims.within c hc
    omega

theorem Entries.clear (hclaims : Claims added period cur) (hquiet : ∀ w, worker w = none) :
    Entries n added (period + 1) 0 worker fun _ => none where
  pending w c hw := by
    rw [hquiet w] at hw
    cases hw
  stored c hc hp := by
    have := hclaims.within c hc
    omega

/-! ### The reports -/

theorem Reports.claim (h : Reports n added period progress printed) {c : Rec}
    (hnew : c.index < n → ¬ Passed period progress c.period c.index) :
    Reports n (c :: added) period progress printed where
  genuine e he := by
    obtain ⟨d, hd, hkey⟩ := h.genuine e he
    exact ⟨d, List.mem_cons_of_mem _ hd, hkey⟩
  passed := h.passed
  keys := h.keys
  reported d hd hi hpass := by
    rcases List.mem_cons.mp hd with rfl | hd
    · exact absurd hpass (hnew hi)
    · exact h.reported d hd hi hpass

theorem Reports.print (h : Reports n added period progress printed)
    (hclaims : Claims added period cur) {c : Rec} (hc : c ∈ added) (hp : c.period = period)
    (hi : c.index = progress) :
    Reports n added period (progress + 1) (⟨period, progress, some c.stored⟩ :: printed) where
  genuine e he := by
    rcases List.mem_cons.mp he with rfl | he
    · exact ⟨c, hc, rfl, hp, hi⟩
    · exact h.genuine e he
  passed e he := by
    rcases List.mem_cons.mp he with rfl | he
    · exact .inr ⟨rfl, Nat.lt_succ_self progress⟩
    · exact (h.passed e he).imp_right fun hpass => ⟨hpass.1, Nat.lt_succ_of_lt hpass.2⟩
  keys := by
    rw [List.map_cons, List.nodup_cons]
    refine ⟨fun hmem => ?_, h.keys⟩
    obtain ⟨e, he, heq⟩ := List.mem_map.mp hmem
    obtain ⟨hpe, hie⟩ := Prod.mk.inj heq
    dsimp only at hpe hie
    have hpass := h.passed e he
    unfold Passed at hpass
    omega
  reported d hd hdn hpass := by
    by_cases hnew : d.period = period ∧ d.index = progress
    · obtain rfl := hclaims.keyInj d hd c hc (hnew.1.trans hp.symm) (hnew.2.trans hi.symm)
      exact ⟨_, List.mem_cons_self, rfl⟩
    · have hold : Passed period progress d.period d.index := by
        unfold Passed at hpass ⊢
        omega
      obtain ⟨e, he, hentry⟩ := h.reported d hd hdn hold
      exact ⟨e, List.mem_cons_of_mem _ he, hentry⟩

/-- A reset behind a whole report leaves no record of the period unreported. -/
theorem Reports.reset (h : Reports n added period progress printed)
    (hclaims : Claims added period cur)
    (hall : ∀ c ∈ added, c.index < n → c.index < cur → c.index < progress) :
    Reports n added (period + 1) 0 printed where
  genuine := h.genuine
  passed e he := by
    have hpass := h.passed e he
    unfold Passed at hpass ⊢
    omega
  keys := h.keys
  reported c hc hi _ := by
    apply h.reported c hc hi
    have hp := hclaims.within c hc
    have hlt := hall c hc hi
    unfold Passed
    omega

end Parts

/-- How many entries of the current period have been printed. -/
def LogState.progress (niodet : UInt64) (s : LogState T) : ℕ :=
  match s.reporter with
  | .printing _ _ i => i
  | .resetting _ => min s.curIodet.toNat niodet.toNat
  | .idle | .clearing | .exited => 0

structure Logged (niodet : UInt64) (longlats : Bool) (s : LogState T) : Prop where
  claims : Claims s.added s.period s.curIodet.toNat
  entries : Entries niodet.toNat s.added s.period (s.progress niodet) s.worker s.details
  reports : Reports niodet.toNat s.added s.period (s.progress niodet) s.printed
  snapshot : ∀ final maxdet i, s.reporter = .printing final maxdet i →
    i ≤ maxdet ∧ maxdet = min s.curIodet.toNat niodet.toNat
  quiet : s.reporter.Final → ∀ w, s.worker w = none
  empty : s.reporter = .clearing → longlats = true → s.curIodet.toNat = 0
  halted : s.reporter = .exited → min s.curIodet.toNat niodet.toNat = 0
  unlogged : longlats = false → ∀ c ∈ s.added, niodet.toNat ≤ c.index

section Steps

variable {niodet : UInt64} {longlats : Bool} {s t : LogState T}

theorem logged_init : Logged niodet longlats (detailsLog T niodet longlats).init := by
  refine ⟨⟨?_, ?_, ?_, ?_, ?_⟩, ⟨?_, ?_⟩, ⟨?_, ?_, ?_, ?_⟩, ?_, ?_, ?_, ?_, ?_⟩ <;>
    simp [detailsLog, Reporter.Final]

/-- A claim that counts is made between the reports, and does not move them. -/
theorem progress_claim {w : Fin T} {det : Iodet} (hok : Orderly niodet longlats s (.claim w det))
    (hst : logStep niodet longlats (.claim w det) s = some t) :
    t.progress niodet = s.progress niodet := by
  obtain ⟨hwrap, hidle⟩ := hok
  simp only [logStep] at hst
  split at hst
  swap
  · cases hst
  obtain rfl := Option.some.inj hst
  have hcur : (s.curIodet + 1).toNat = s.curIodet.toNat + 1 := CInt.toNat_add_of_lt hwrap
  cases hr : s.reporter with
  | idle | printing | clearing | exited => simp only [LogState.progress, hr]
  | resetting final =>
    simp only [LogState.progress, hr, hcur]
    by_cases hlt : s.curIodet.toNat < niodet.toNat
    · rw [(hidle hlt).1] at hr
      cases hr
    · omega

theorem Logged.claim (h : Logged niodet longlats s) {w : Fin T} {det : Iodet}
    (hok : Orderly niodet longlats s (.claim w det))
    (hst : logStep niodet longlats (.claim w det) s = some t) : Logged niodet longlats t := by
  have hprogress := progress_claim hok hst
  obtain ⟨hwrap, hidle⟩ := hok
  simp only [logStep] at hst
  split at hst
  swap
  · cases hst
  rename_i hguard
  obtain ⟨hfree, hactive⟩ := hguard
  have hcur : (s.curIodet + 1).toNat = s.curIodet.toNat + 1 := CInt.toNat_add_of_lt hwrap
  -- outside the idle reporter the claim is beyond the entries that count
  have hbeyond : s.reporter ≠ .idle → niodet.toNat ≤ s.curIodet.toNat := fun hne =>
    Nat.le_of_not_lt fun hlt => hne (hidle hlt).1
  have hmin : s.reporter ≠ .idle →
      min (s.curIodet.toNat + 1) niodet.toNat = min s.curIodet.toNat niodet.toNat := by
    intro hne
    have := hbeyond hne
    omega
  have hzero : s.curIodet.toNat < niodet.toNat → s.progress niodet = 0 := fun hlt => by
    rw [LogState.progress, (hidle hlt).1]
  obtain rfl := Option.some.inj hst
  have hnot : ∀ r : Reporter, r.Final → s.reporter ≠ r := by
    rintro r hfinal rfl
    exact hactive hfinal
  refine ⟨?_, ?_, ?_, fun final maxdet i hr => ?_, fun hf => absurd hf hactive,
    fun hr => absurd hr (hnot .clearing trivial), fun hr => absurd hr (hnot .exited trivial),
    fun hll d hd => ?_⟩
  · simpa only [hcur] using h.claims.claim det
  · rw [hprogress]
    apply h.entries.claim hfree rfl
    intro hlt
    rw [hzero hlt]
    exact Nat.zero_le _
  · rw [hprogress]
    apply h.reports.claim
    intro hlt hpass
    rw [hzero hlt] at hpass
    unfold Passed at hpass
    dsimp only at hpass
    omega
  · have hne : s.reporter ≠ .idle := by
      intro heq
      rw [heq] at hr
      cases hr
    dsimp only at hr ⊢
    rw [hcur, hmin hne]
    exact h.snapshot final maxdet i hr
  · rcases List.mem_cons.mp hd with rfl | hd
    · apply Nat.le_of_not_lt
      intro hlt
      have hset := (hidle hlt).2
      rw [hll] at hset
      cases hset
    · exact h.unlogged hll d hd

theorem Logged.store (h : Logged niodet longlats s) {w : Fin T}
    (hst : logStep niodet longlats (.store w) s = some t) : Logged niodet longlats t := by
  simp only [logStep] at hst
  split at hst
  · rename_i c hw
    obtain rfl := Option.some.inj hst
    refine ⟨h.claims, h.entries.store h.claims hw, h.reports, h.snapshot, fun hf => ?_, h.empty,
      h.halted, h.unlogged⟩
    rw [h.quiet hf w] at hw
    cases hw
  · cases hst

theorem Logged.report (h : Logged niodet longlats s)
    (hst : logStep niodet longlats .report s = some t) : Logged niodet longlats t := by
  simp only [logStep] at hst
  split at hst
  · rename_i hguard
    obtain rfl := Option.some.inj hst
    have hzero : s.progress niodet = 0 := by rw [LogState.progress, hguard.1]
    have hentries := h.entries
    have hreports := h.reports
    rw [hzero] at hentries hreports
    refine ⟨h.claims, hentries, hreports, fun final maxdet i hr => ?_, nofun, nofun, nofun,
      h.unlogged⟩
    cases hr
    exact ⟨Nat.zero_le _, rfl⟩
  · cases hst

theorem Logged.summary (h : Logged niodet longlats s) {halts : Bool}
    (hok : Orderly niodet longlats s (.summary halts))
    (hst : logStep niodet longlats (.summary halts) s = some t) : Logged niodet longlats t := by
  simp only [logStep] at hst
  split at hst
  · rename_i hguard
    obtain rfl := Option.some.inj hst
    have hzero : s.progress niodet = 0 := by rw [LogState.progress, hguard.1]
    have hentries := h.entries
    have hreports := h.reports
    rw [hzero] at hentries hreports
    cases halts with
    | true =>
      exact ⟨h.claims, hentries, hreports, nofun, fun _ => hguard.2, nofun, fun _ => hok rfl,
        h.unlogged⟩
    | false =>
      cases longlats with
      | true =>
        refine ⟨h.claims, hentries, hreports, fun final maxdet i hr => ?_, fun _ => hguard.2,
          nofun, nofun, nofun⟩
        cases hr
        exact ⟨Nat.zero_le _, rfl⟩
      | false =>
        exact ⟨h.claims, hentries, hreports, nofun, fun _ => hguard.2, nofun, nofun, h.unlogged⟩
  · cases hst

/-- The next entry is printed when its store has been made, so it has its record. -/
theorem Logged.print (h : Logged niodet longlats s) (hok : Orderly niodet longlats s .print)
    (hst : logStep niodet longlats .print s = some t) : Logged niodet longlats t := by
  simp only [logStep] at hst
  split at hst
  swap
  · cases hst
  rename_i final maxdet i hr
  obtain ⟨hle, hmax⟩ := h.snapshot final maxdet i hr
  have hprogress : s.progress niodet = i := by rw [LogState.progress, hr]
  have hentries := h.entries
  have hreports := h.reports
  rw [hprogress] at hentries hreports
  have hquiet : final = true → ∀ w, s.worker w = none := fun hf =>
    h.quiet (by rw [hr]; exact hf)
  split at hst
  · rename_i hlt
    obtain rfl := Option.some.inj hst
    have hdone := hok final maxdet i hr hlt
    obtain ⟨c, hc, hp, hi, hdet⟩ := hentries.entry h.claims (by omega : i < s.curIodet.toNat)
      (by omega) hdone
    refine ⟨h.claims, hentries.advance hdone, ?_, fun f m j hj => ?_, hquiet, nofun, nofun,
      h.unlogged⟩
    · rw [hdet]
      exact hreports.print h.claims hc hp hi
    · cases hj
      exact ⟨by omega, hmax⟩
  · obtain rfl := Option.some.inj hst
    have hend : i = min s.curIodet.toNat niodet.toNat := by omega
    rw [hend] at hentries hreports
    exact ⟨h.claims, hentries, hreports, nofun, hquiet, nofun, nofun, h.unlogged⟩

theorem Logged.reset (h : Logged niodet longlats s)
    (hst : logStep niodet longlats .reset s = some t) : Logged niodet longlats t := by
  simp only [logStep] at hst
  split at hst
  swap
  · cases hst
  rename_i final hr
  obtain rfl := Option.some.inj hst
  have hprogress : s.progress niodet = min s.curIodet.toNat niodet.toNat := by
    rw [LogState.progress, hr]
  have hentries := h.entries
  have hreports := h.reports
  rw [hprogress] at hentries hreports
  have hentries' := hentries.reset h.claims
  have hreports' := hreports.reset h.claims fun c _ hn hc => lt_min hc hn
  have hquiet : final = true → ∀ w, s.worker w = none := fun hf =>
    h.quiet (by rw [hr]; exact hf)
  cases final with
  | false => exact ⟨h.claims.reset, hentries', hreports', nofun, nofun, nofun, nofun, h.unlogged⟩
  | true =>
    exact ⟨h.claims.reset, hentries', hreports', nofun, fun _ => hquiet rfl, fun _ _ => rfl, nofun,
      h.unlogged⟩

theorem Logged.clear (h : Logged niodet longlats s)
    (hst : logStep niodet longlats .clear s = some t) : Logged niodet longlats t := by
  simp only [logStep] at hst
  split at hst
  swap
  · cases hst
  rename_i hr
  obtain rfl := Option.some.inj hst
  have hquiet := h.quiet (by rw [hr]; trivial)
  refine ⟨h.claims.reset, Entries.clear h.claims hquiet, ?_, nofun, nofun, nofun, nofun,
    h.unlogged⟩
  apply h.reports.reset h.claims
  intro c hc hn hcur
  -- with `longlats` the log is empty here, and without it nothing was added that counts
  cases hll : longlats with
  | true =>
    rw [h.empty hr hll] at hcur
    exact absurd hcur (Nat.not_lt_zero _)
  | false => exact absurd (h.unlogged hll c hc) (Nat.not_le.mpr hn)

/-- **Every orderly step keeps the invariant.** The side condition is used at three of the steps:
a claim that counts is made outside the reports, an entry is printed when its store has been made,
and a summary that halts has nothing left to print. -/
theorem Logged.step (h : Logged niodet longlats s) {a : LogStep T}
    (hok : Orderly niodet longlats s a)
    (hst : (detailsLog T niodet longlats).step a s = some t) : Logged niodet longlats t := by
  cases a with
  | claim w det => exact h.claim hok hst
  | store w => exact h.store hst
  | report => exact h.report hst
  | summary halts => exact h.summary hok hst
  | print => exact h.print hok hst
  | reset => exact h.reset hst
  | clear => exact h.clear hst

end Steps

/-! ## What the log guarantees -/

/-- How many of the entries printed are this record's. -/
def LogState.timesPrinted (s : LogState T) (c : Rec) : ℕ :=
  s.printed.countP fun e => e.entry.map Rec.id = some c.id

theorem countP_le_one {α κ : Type} [DecidableEq κ] {l : List α} {p : α → Bool} {key : α → κ}
    {k : κ} (hl : (l.map key).Nodup) (hk : ∀ a ∈ l, p a = true → key a = k) :
    l.countP p ≤ 1 := by
  have hcount : (l.map key).count k ≤ 1 := List.nodup_iff_count_le_one.mp hl k
  rw [List.count, List.countP_map] at hcount
  refine le_trans (List.countP_mono_left fun a ha hp => ?_) hcount
  simpa using hk a ha hp

section Sound

variable {niodet : UInt64} {longlats : Bool} {s : LogState T}

theorem Logged.key_of_printed (h : Logged niodet longlats s) {c : Rec} (hc : c ∈ s.added)
    {e : Printed} (he : e ∈ s.printed) (hid : e.entry.map Rec.id = some c.id) :
    (e.period, e.index) = (c.period, c.index) := by
  obtain ⟨d, hd, hentry, hp, hi⟩ := h.reports.genuine e he
  rw [hentry] at hid
  have hdc : d = c := h.claims.idInj d hd c hc (Option.some.inj hid)
  rw [← hp, ← hi, hdc]

theorem Logged.timesPrinted_le (h : Logged niodet longlats s) {c : Rec} (hc : c ∈ s.added) :
    s.timesPrinted c ≤ 1 :=
  countP_le_one h.reports.keys fun _ he hid =>
    h.key_of_printed hc he (of_decide_eq_true hid)

theorem Logged.timesPrinted_pos (h : Logged niodet longlats s) {c : Rec} (hc : c ∈ s.added)
    (hn : c.index < niodet.toNat)
    (hpass : Passed s.period (s.progress niodet) c.period c.index) : 0 < s.timesPrinted c := by
  obtain ⟨e, he, hentry⟩ := h.reports.reported c hc hn hpass
  rw [LogState.timesPrinted, List.countP_pos_iff]
  refine ⟨e, he, decide_eq_true ?_⟩
  rw [hentry]
  rfl

/-- The round is over: its last report is done, or its summary has ended the program. -/
def LogState.RoundOver (s : LogState T) : Prop := s.reporter = .clearing ∨ s.reporter = .exited

theorem Logged.passed_of_roundOver (h : Logged niodet longlats s) (hr : s.RoundOver)
    {c : Rec} (hc : c ∈ s.added) (hn : c.index < niodet.toNat) :
    Passed s.period (s.progress niodet) c.period c.index := by
  refine .inl ((h.claims.within c hc).resolve_right fun ⟨_, hcur⟩ => ?_)
  obtain hclearing | hexited := hr
  · cases hll : longlats with
    | true =>
      rw [h.empty hclearing hll] at hcur
      exact absurd hcur (Nat.not_lt_zero _)
    | false => exact absurd (h.unlogged hll c hc) (Nat.not_le.mpr hn)
  · have hnone := h.halted hexited
    omega

/-- **The log of an orderly run is right**: every entry printed is a record added since the
reset before its report, none is printed twice, and when a round is over, by its last report or by
the `exit` of its summary, every record with an entry has been printed, once.

What carries it is the order of the three things that happen to an entry. A claim that counts
falls between two reports, so the snapshot of the next one covers it; its store comes before the
report reaches it, so what is printed is the record and not what was there before; and the reset
comes behind the last entry of the snapshot, so it takes no claim back that was not printed. -/
theorem details_sound (h : (detailsLog T niodet longlats).Reachable (Orderly niodet longlats) s) :
    (∀ e ∈ s.printed, ∃ c ∈ s.added, e.entry = some c.stored ∧ c.period = e.period) ∧
    (∀ c ∈ s.added, s.timesPrinted c ≤ 1) ∧
    (s.RoundOver → ∀ c ∈ s.added, c.index < niodet.toNat → s.timesPrinted c = 1) := by
  have hlog : Logged niodet longlats s :=
    h.invariant logged_init fun _ _ _ hs hok hst => hs.step hok hst
  refine ⟨fun e he => ?_, fun c hc => hlog.timesPrinted_le hc, fun hr c hc hn => ?_⟩
  · obtain ⟨c, hc, hentry, hp, -⟩ := hlog.reports.genuine e he
    exact ⟨c, hc, hentry, hp⟩
  · have hle := hlog.timesPrinted_le hc
    have hpos := hlog.timesPrinted_pos hc hn (hlog.passed_of_roundOver hr hc hn)
    exact le_antisymm hle hpos

end Sound

def longRead : Iodet where
  start := 0
  endTime := 5000000
  offset := 4096
  latency := 0
  ionum := 1
  size := 4096
  seconds := 0
  flag := 0
  type := .read
  dtype := .vm
  fid := 1
  tid := 0

/-- One record, reported by the status report behind it. -/
theorem details_sound_once :
    ∃ s, (detailsLog 1 100000 true).Reachable (Orderly 100000 true) s ∧ s.reporter = .clearing ∧
      s.timesPrinted ⟨0, 0, 0, longRead⟩ = 1 := by
  obtain ⟨s, hs, hr, hadded⟩ : ∃ s,
      (detailsLog 1 100000 true).Reachable (Orderly 100000 true) s ∧ s.reporter = .clearing ∧
      s.added = [⟨0, 0, 0, longRead⟩] := by
    refine ⟨_, ⟨[.claim 0 longRead, .store 0, .report, .print, .print, .reset, .summary false,
      .print, .reset],
      Run.cons ⟨by decide, fun _ => ⟨rfl, rfl⟩⟩ rfl (Run.cons trivial rfl (Run.cons trivial rfl
      (Run.cons ?_ rfl (Run.cons ?_ rfl (Run.cons trivial rfl (Run.cons nofun rfl
      (Run.cons ?_ rfl (Run.cons trivial rfl .nil))))))))⟩, rfl, rfl⟩
    all_goals
      intro final maxdet i _ _ w c hw
      cases w using Fin.cases with
      | zero => cases hw
      | succ j => exact j.elim0
  exact ⟨s, hs, hr, (details_sound hs).2.2 (.inl hr) _ (by rw [hadded]; exact List.mem_cons_self)
    (by decide)⟩

/-- **A record claimed between the snapshot of a report and its reset is lost**: it is stored in
an entry the report does not print, and the next report starts from zero. -/
theorem details_lost :
    ∃ s, (detailsLog 1 100000 true).Reachable always s ∧ s.reporter = .clearing ∧
      ∃ c ∈ s.added, c.index < (100000 : UInt64).toNat ∧ s.timesPrinted c = 0 := by
  obtain ⟨s, hexec, h⟩ : ∃ s, (detailsLog 1 100000 true).exec
      [.claim 0 longRead, .store 0, .report, .claim 0 longRead, .store 0, .print, .print, .reset,
        .summary false, .print, .reset] (detailsLog 1 100000 true).init = some s ∧
      s.reporter = .clearing ∧
      ∃ c ∈ s.added, c.index < (100000 : UInt64).toNat ∧ s.timesPrinted c = 0 :=
    ⟨_, rfl, by decide⟩
  exact ⟨s, ⟨_, run_of_exec hexec⟩, h⟩

/-- **A summary that halts loses what no status report has printed.** `output_times` exits in
front of the call of `output_details`, so a record that was added since the last status report is
in no report, although every report there was has kept to the order. -/
theorem details_lost_halting (niodet : UInt64) (longlats : Bool) {s t : LogState T}
    (h : (detailsLog T niodet longlats).step (.summary true) s = some t) :
    t.printed = s.printed ∧ ∀ a, (detailsLog T niodet longlats).step a t = none := by
  simp only [detailsLog, logStep] at h
  split at h
  swap
  · cases h
  rename_i hguard
  obtain rfl := Option.some.inj h
  refine ⟨rfl, fun a => ?_⟩
  cases a with
  | store w => simp only [detailsLog, logStep, hguard.2 w]
  | claim | report | summary | print | reset | clear =>
    simp [detailsLog, logStep, Reporter.Final]

end Blockbench
