import Blockbench.Iofill.Output
import Blockbench.Ioload.Report

/-!
# `Iob/SameReport.lean` — does a report depend only on what it reports?

In both tools a report should be a function of its counters. Since `pctval` is not cleared
between calls of `printbuckets`, it is one exactly for the records that have an I/O in both
columns, and in `ioload` the same records are the ones on which halting the test does not depend
on earlier reports.

A record without reads is enough to see it go wrong: after a file with a slow read was printed,
its read percentiles are that file's, and a summary of it halts the test.
-/

set_option autoImplicit false

namespace Blockbench

/-- **A report depends only on what it reports exactly when neither column is empty**, in `ioload`
(percentiles and halting) and in `iofill` (percentiles).

An empty column has a total of zero, `printbuckets` makes a one of it, and no bucket ever comes to
that one; so the loop sets none of the five values, and what is printed, and in `ioload` compared
with `maxlat`, is what an earlier call left in `pctval`. A column with an I/O in it comes to all
five thresholds, and nothing old is left. -/
theorem same_report_iff (maxlatency : UInt32) {use : Ioload.IoStats} {ftp : Iofill.FthreadStats}
    (hu : use.Balanced nlatbkts) (hf : ftp.Balanced) :
    (Ioload.ReportsSame maxlatency use ↔
      Occupied nlatbkts (use.latbuckets · .read) ∧ Occupied nlatbkts (use.latbuckets · .write)) ∧
    (Iofill.PrintsSame ftp ↔
      Occupied nlatbkts (ftp.latbuckets · .read) ∧ Occupied nlatbkts (ftp.latbuckets · .write)) :=
  ⟨Ioload.reportsSame_iff hu, Iofill.printsSame_iff hf⟩

theorem oneOfEach_balanced :
    (Ioload.oneOfEach 0).Balanced nlatbkts ∧ Iofill.oneOfEach.Balanced :=
  have htot : (1 : UInt64) = colTotal nlatbkts (single 0) := (colTotal_single (by norm_num)).symm
  ⟨⟨htot, htot⟩, ⟨htot, htot⟩⟩

theorem same_report_oneOfEach :
    Ioload.ReportsSame 2000000 (Ioload.oneOfEach 0) ∧ Iofill.PrintsSame Iofill.oneOfEach :=
  have hocc : Occupied nlatbkts (single 0) := occupied_single (by norm_num)
  have hiff := same_report_iff 2000000 oneOfEach_balanced.1 oneOfEach_balanced.2
  ⟨hiff.1.mpr ⟨hocc, hocc⟩, hiff.2.mpr ⟨hocc, hocc⟩⟩

namespace Ioload

def noReads : IoStats where
  latbuckets i d := match d with
    | .read => 0
    | .write => single 0 i
  totreads := 0
  totwrites := 1
  totlat _ := 0
  totbytes _ := 0

theorem noReads_balanced : noReads.Balanced nlatbkts :=
  ⟨(colTotal_zero _).symm, (colTotal_single (by norm_num)).symm⟩

theorem noReads_read (g : Statics) : (noReads.pctval g).read = g.pctval.read := by
  rw [IoStats.pctval, percentiles_read]
  refine columnVal_of_empty ?_ noReads_balanced.reads _
  rintro ⟨i, -, hne⟩
  exact hne rfl

theorem noReads_write (g : Statics) {k : ℕ} (hk : k < nPercent) :
    (noReads.pctval g).write k = 10000 := by
  rw [IoStats.pctval, percentiles_write]
  exact columnVal_single (by norm_num) _ hk

/-- **A slow read of another file halts the test**: at the default `maxlat`, the summary of a
round without reads goes on when nothing was printed before, and halts with a read latency of
10 ms when a file with one slow read was. -/
theorem stale_report :
    noReads.Balanced nlatbkts ∧
      (printbuckets 2000000 true noReads (after 2000000 [])).1.lines ≠
        (printbuckets 2000000 true noReads (after 2000000 [(false, oneOfEach 999)])).1.lines ∧
      (outputTimes 2000000 true false ⟨noReads, []⟩ (after 2000000 [])).1.halt = false ∧
      (outputTimes 2000000 true false ⟨noReads, []⟩
        (after 2000000 [(false, oneOfEach 999)])).1.halt = true ∧
      ¬ ReportsSame 2000000 noReads := by
  have hslow : ∀ k < nPercent,
      (after 2000000 [(false, oneOfEach 999)]).pctval.read k = (999 + 1) * 10000 :=
    fun k hk => (after_oneOfEach (by norm_num) hk).1
  have hlines : (printbuckets 2000000 true noReads (after 2000000 [])).1.lines ≠
      (printbuckets 2000000 true noReads (after 2000000 [(false, oneOfEach 999)])).1.lines := by
    intro h
    rw [printbuckets_lines, printbuckets_lines] at h
    have hfirst := (first_of_lines h).1
    rw [noReads_read, noReads_read, hslow 0 (by decide)] at hfirst
    exact absurd hfirst (by decide)
  refine ⟨noReads_balanced, hlines, ?_, ?_, fun hsame => hlines ((hsame _ _).1 true)⟩
  · rw [summary_halt, setLatencyFlag, noReads_read, noReads_write _ (by decide)]
    decide
  · rw [summary_halt, setLatencyFlag, noReads_read, hslow 1 (by decide)]
    decide

end Ioload
end Blockbench
