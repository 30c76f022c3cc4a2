import Blockbench.Iob.Percentile

/-!
# `Iofill/Output.lean` — `printbuckets` of `iofill`

`iofill` reports once, at its end: on the sum of all files, when there is more than one, and
then on each file. The calls share `pctval` all the same.

`FthreadStats` is what `printbuckets` reads of a `struct fthread`. Printing a record also writes
to it: a total of zero becomes one. The table of the histogram that follows the percentiles is
`Iob/LatTable.lean`'s.
-/

set_option autoImplicit false

namespace Blockbench
namespace Iofill

structure FthreadStats where
  latbuckets : ℕ → OpType → UInt64
  totreads : UInt64
  totwrites : UInt64
  totflushes : UInt64
  totpflushes : UInt64
  totlat : OpType → UInt64

/-- The three averages and the five lines of percentiles. -/
structure Latency where
  averageRead : UInt64
  averageWrite : UInt64
  averageBoth : UInt64
  lines : List (ℕ × ℕ)
  deriving DecidableEq

/-- `printbuckets`: what is printed, the record as it is left, and `pctval`. -/
def printbuckets (ftp : FthreadStats) (pctval : Pctval) : Latency × FthreadStats × Pctval :=
  let totio := nonzero (ftp.totreads + ftp.totwrites)
  let pctval := percentiles nlatbkts (ftp.latbuckets · .read) (ftp.latbuckets · .write)
    ftp.totreads ftp.totwrites pctval
  let ftp := { ftp with
    totreads := nonzero ftp.totreads
    totwrites := nonzero ftp.totwrites
    totflushes := nonzero ftp.totflushes
    totpflushes := nonzero ftp.totpflushes }
  ({ averageRead := ftp.totlat .read / ftp.totreads / 1000
     averageWrite := ftp.totlat .write / ftp.totwrites / 1000
     averageBoth := (ftp.totlat .read + ftp.totlat .write) / totio / 1000
     lines := pctval.lines }, ftp, pctval)

/-- `pctval` after earlier calls, from the start of the program. -/
def after (calls : List FthreadStats) : Pctval :=
  calls.foldl (fun pctval ftp => (printbuckets ftp pctval).2.2) .zero

/-- What `output` promises `printbuckets`: the two totals are the sums of their columns. -/
structure FthreadStats.Balanced (ftp : FthreadStats) : Prop where
  reads : ftp.totreads = colTotal nlatbkts (ftp.latbuckets · .read)
  writes : ftp.totwrites = colTotal nlatbkts (ftp.latbuckets · .write)

/-- The record prints the same percentiles whatever was printed before. -/
def PrintsSame (ftp : FthreadStats) : Prop :=
  ∀ h₁ h₂ : List FthreadStats,
    (printbuckets ftp (after h₁)).1.lines = (printbuckets ftp (after h₂)).1.lines

section PrintsSame

variable {ftp : FthreadStats} {pctval : Pctval}

theorem printbuckets_lines : (printbuckets ftp pctval).1.lines =
    (percentiles nlatbkts (ftp.latbuckets · .read) (ftp.latbuckets · .write)
      ftp.totreads ftp.totwrites pctval).lines := by
  rw [printbuckets]

theorem printbuckets_pctval : (printbuckets ftp pctval).2.2 =
    percentiles nlatbkts (ftp.latbuckets · .read) (ftp.latbuckets · .write)
      ftp.totreads ftp.totwrites pctval := by
  rw [printbuckets]

/-- A record of one read and one write in the first bucket. -/
def oneOfEach : FthreadStats where
  latbuckets i _ := single 0 i
  totreads := 1
  totwrites := 1
  totflushes := 0
  totpflushes := 0
  totlat _ := 0

/-- After a call for it all ten values are the end of the first bucket. -/
theorem after_oneOfEach {k : ℕ} (hk : k < nPercent) :
    (after [oneOfEach]).read k = 10000 ∧ (after [oneOfEach]).write k = 10000 := by
  have hcall : after [oneOfEach] = percentiles nlatbkts (single 0) (single 0) 1 1 .zero := by
    rw [after, List.foldl_cons, List.foldl_nil, printbuckets_pctval]
    rfl
  rw [hcall]
  exact percentiles_single (by norm_num) hk _

/-- **What was printed before shows exactly when a column is empty.** -/
theorem printsSame_iff (h : ftp.Balanced) :
    PrintsSame ftp ↔ Occupied nlatbkts (ftp.latbuckets · .read) ∧
      Occupied nlatbkts (ftp.latbuckets · .write) := by
  constructor
  · intro hsame
    have hlines := hsame [] [oneOfEach]
    rw [printbuckets_lines, printbuckets_lines] at hlines
    obtain ⟨hread, hwrite⟩ := after_oneOfEach (show 0 < nPercent by decide)
    refine occupied_of_lines h.reads h.writes ?_ ?_ hlines
    · rw [hread]
      decide
    · rw [hwrite]
      decide
  · rintro ⟨hr, hw⟩ h₁ h₂
    rw [printbuckets_lines, printbuckets_lines]
    exact (percentiles_of_occupied hr hw h.reads h.writes _ _).lines

end PrintsSame

end Iofill
end Blockbench
