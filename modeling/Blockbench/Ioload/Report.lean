import Blockbench.Ioload.Stats

/-!
# `Ioload/Report.lean` — `output_times` and `printbuckets` of `ioload`

A report prints the latencies of the system total and then, with `-v`, of each file. Two
variables outlive it: `pctval`, as in `iofill`, and `latency_flag`, which a call for the system
total sets when a 90th percentile is above `maxlat`. A summary clears the flag before it prints
and halts the test (`exit(3)`) when it is set afterwards; a status report does neither.

`pctval` is an `int` that is compared with an unsigned number. It is never negative, so the
comparison is one of natural numbers. Throughputs and times are printed from the same counters
and a clock, in floating point; they are not modelled. The table of `-l` is `Iob/LatTable.lean`'s.
-/

set_option autoImplicit false

namespace Blockbench
namespace Ioload

/-- The variables of `iol_output.c` that a call of `printbuckets` leaves for the next. -/
structure Statics where
  pctval : Pctval
  latencyFlag : ℕ

def Statics.zero : Statics := ⟨.zero, 0⟩

/-- What `printbuckets` prints: two averages and the five lines of percentiles. -/
structure Latency where
  averageRead : UInt64
  averageWrite : UInt64
  lines : List (ℕ × ℕ)
  deriving DecidableEq

def setLatencyFlag (maxlatency : UInt32) (pctval : Pctval) (flag : ℕ) : ℕ :=
  if maxlatency.toNat < pctval.read 1 then 1
  else if maxlatency.toNat < pctval.write 1 then 2
  else flag

/-- `printbuckets` on `use`, the counters of `&systot` or of a file: what is printed, the
counters as they are left, and the statics. -/
def printbuckets (maxlatency : UInt32) (isSystot : Bool) (use : IoStats) (g : Statics) :
    Latency × IoStats × Statics :=
  let pctval := percentiles nlatbkts (use.latbuckets · .read) (use.latbuckets · .write)
    use.totreads use.totwrites g.pctval
  let use := { use with totreads := nonzero use.totreads, totwrites := nonzero use.totwrites }
  ({ averageRead := use.totlat .read / use.totreads / 1000
     averageWrite := use.totlat .write / use.totwrites / 1000
     lines := pctval.lines }, use,
   { pctval := pctval
     latencyFlag :=
      if isSystot then setLatencyFlag maxlatency pctval g.latencyFlag else g.latencyFlag })

/-- The counters a report prints: `systot.use`, and `use` of each file. -/
structure Uses where
  systot : IoStats
  files : List IoStats

def printFiles (maxlatency : UInt32) : List IoStats → Statics →
    List Latency × List IoStats × Statics
  | [], g => ([], [], g)
  | use :: rest, g =>
    let (lat, use, g) := printbuckets maxlatency false use g
    let (lats, uses, g) := printFiles maxlatency rest g
    (lat :: lats, use :: uses, g)

/-- What a report prints, and whether it halts the test. -/
structure Report where
  systot : Latency
  files : List Latency
  halt : Bool

/-- `output_times`; `status` is false for the summary of a round. -/
def outputTimes (maxlatency : UInt32) (verbose status : Bool) (u : Uses) (g : Statics) :
    Report × Uses × Statics :=
  let g := if status then g else { g with latencyFlag := 0 }
  let (systot, sysuse, g) := printbuckets maxlatency true u.systot g
  let (files, uses, g) :=
    if verbose then printFiles maxlatency u.files g else ([], u.files, g)
  ({ systot := systot
     files := files
     halt := !status && (g.latencyFlag == 1 || g.latencyFlag == 2) }, ⟨sysuse, uses⟩, g)

/-! ## What was printed before -/

/-- The statics after earlier calls of `printbuckets`, from the start of the program. -/
def after (maxlatency : UInt32) (calls : List (Bool × IoStats)) : Statics :=
  calls.foldl (fun g call => (printbuckets maxlatency call.1 call.2 g).2.2) .zero

/-- The record prints the same percentiles whatever was printed before, and a summary of it halts
the test or does not whatever was printed before. -/
def ReportsSame (maxlatency : UInt32) (use : IoStats) : Prop :=
  ∀ h₁ h₂ : List (Bool × IoStats),
    (∀ isSystot, (printbuckets maxlatency isSystot use (after maxlatency h₁)).1.lines =
      (printbuckets maxlatency isSystot use (after maxlatency h₂)).1.lines) ∧
    ∀ verbose files,
      (outputTimes maxlatency verbose false ⟨use, files⟩ (after maxlatency h₁)).1.halt =
        (outputTimes maxlatency verbose false ⟨use, files⟩ (after maxlatency h₂)).1.halt

section ReportsSame

variable {maxlatency : UInt32} {isSystot verbose : Bool} {use : IoStats} {files : List IoStats}
  {g : Statics}

abbrev IoStats.pctval (use : IoStats) (g : Statics) : Pctval :=
  percentiles nlatbkts (use.latbuckets · .read) (use.latbuckets · .write)
    use.totreads use.totwrites g.pctval

theorem printbuckets_lines :
    (printbuckets maxlatency isSystot use g).1.lines = (use.pctval g).lines := by
  rw [printbuckets]

theorem printbuckets_pctval :
    (printbuckets maxlatency isSystot use g).2.2.pctval = use.pctval g := by
  rw [printbuckets]

theorem printbuckets_flag : (printbuckets maxlatency isSystot use g).2.2.latencyFlag =
    if isSystot then setLatencyFlag maxlatency (use.pctval g) g.latencyFlag
    else g.latencyFlag := by
  rw [printbuckets]

theorem printFiles_flag (files : List IoStats) (g : Statics) :
    (printFiles maxlatency files g).2.2.latencyFlag = g.latencyFlag := by
  induction files generalizing g with
  | nil => rfl
  | cons use rest ih =>
    rw [printFiles]
    dsimp only
    rw [ih, printbuckets_flag, if_neg Bool.false_ne_true]

/-- **A summary halts the test exactly when it sets the flag itself**, from the percentiles of
the system total; the files printed after it do not matter. -/
theorem summary_halt :
    (outputTimes maxlatency verbose false ⟨use, files⟩ g).1.halt =
      decide (setLatencyFlag maxlatency (use.pctval g) 0 ≠ 0) := by
  have hflag : ∀ p : Pctval, (setLatencyFlag maxlatency p 0 == 1 ||
      setLatencyFlag maxlatency p 0 == 2) = decide (setLatencyFlag maxlatency p 0 ≠ 0) := by
    intro p
    unfold setLatencyFlag
    split
    · rfl
    · split
      · rfl
      · rfl
  rw [outputTimes]
  dsimp only
  rw [Bool.not_false, Bool.true_and, ← hflag]
  split
  · rw [printFiles_flag, printbuckets_flag, if_pos rfl]
    rfl
  · rw [printbuckets_flag, if_pos rfl]
    rfl

theorem setLatencyFlag_congr {p q : Pctval} (h : SameValues p q) (flag : ℕ) :
    setLatencyFlag maxlatency p flag = setLatencyFlag maxlatency q flag := by
  obtain ⟨hread, hwrite⟩ := h 1 (by decide)
  rw [setLatencyFlag, setLatencyFlag, hread, hwrite]

/-- A record of one read and one write in bucket `b`. -/
def oneOfEach (b : ℕ) : IoStats where
  latbuckets i _ := single b i
  totreads := 1
  totwrites := 1
  totlat _ := 0
  totbytes _ := 0

theorem after_oneOfEach {b k : ℕ} (hb : b < nlatbkts) (hk : k < nPercent) :
    (after maxlatency [(isSystot, oneOfEach b)]).pctval.read k = (b + 1) * 10000 ∧
      (after maxlatency [(isSystot, oneOfEach b)]).pctval.write k = (b + 1) * 10000 := by
  have hcall : (after maxlatency [(isSystot, oneOfEach b)]).pctval =
      percentiles nlatbkts (single b) (single b) 1 1 .zero := by
    rw [after, List.foldl_cons, List.foldl_nil, printbuckets_pctval]
    rfl
  rw [hcall]
  exact percentiles_single hb hk _

/-- **What was printed before shows exactly when a column is empty.** -/
theorem reportsSame_iff (h : use.Balanced nlatbkts) :
    ReportsSame maxlatency use ↔ Occupied nlatbkts (use.latbuckets · .read) ∧
      Occupied nlatbkts (use.latbuckets · .write) := by
  constructor
  · intro hsame
    have hlines := (hsame [] [(false, oneOfEach 0)]).1 false
    rw [printbuckets_lines, printbuckets_lines] at hlines
    obtain ⟨hread, hwrite⟩ := @after_oneOfEach maxlatency false 0 0 (by norm_num) (by decide)
    have hstart : after maxlatency [] = .zero := rfl
    refine occupied_of_lines h.reads h.writes ?_ ?_ hlines
    · rw [hread, hstart]
      decide
    · rw [hwrite, hstart]
      decide
  · rintro ⟨hr, hw⟩ h₁ h₂
    have hvals : SameValues (use.pctval (after maxlatency h₁)) (use.pctval (after maxlatency h₂)) :=
      percentiles_of_occupied hr hw h.reads h.writes _ _
    refine ⟨fun isSystot => ?_, fun verbose files => ?_⟩
    · rw [printbuckets_lines, printbuckets_lines]
      exact hvals.lines
    · rw [summary_halt, summary_halt, setLatencyFlag_congr hvals]

end ReportsSame

end Ioload
end Blockbench
