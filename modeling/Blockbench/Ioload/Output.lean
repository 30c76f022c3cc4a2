import Blockbench.Ioload.Report

/-!
# `Ioload/Output.lean` — `output`

The function behind every report: it adds up the threads' counters into the files' and the
system's (`collect`), takes from these what was there at the last status report, or nothing of
it for a summary (`computed`), prints, and then either remembers the counters or clears them,
the threads' included.

The `use` members, of the system total and of the files, are kept in one record (`Uses`), since
they are written and printed together. The first call also writes the header and clears
`systot`, which is static; the details of long I/Os are `Iob/Details.lean`'s.
-/

set_option autoImplicit false

namespace Blockbench
namespace Ioload

/-- The counters of a `struct file`, `use` apart. `systot` is one without threads. -/
structure FileStats where
  ithreads : List IoStats
  cur : IoStats
  last : IoStats

structure OutState where
  flist : List FileStats
  systot : FileStats
  uses : Uses
  statics : Statics

/-- The loops over the files and their threads; `sys` is `systot.cur`. -/
def collect : List FileStats → IoStats → List FileStats × IoStats
  | [], sys => ([], sys)
  | ftp :: rest, sys =>
    let ithreads := ftp.ithreads.map (IoStats.recount nlatbkts)
    let (cur, sys) := ithreads.foldl (fun acc itp => (acc.1.add itp, acc.2.add itp)) (.zero, sys)
    let (rest, sys) := collect rest sys
    ({ ftp with ithreads := ithreads, cur := cur } :: rest, sys)

/-- `use` of a record: a difference in a status report, the counters themselves in a summary. -/
def FileStats.use (status : Bool) (ftp : FileStats) : IoStats :=
  if status then statsDiff ftp.cur ftp.last else ftp.cur

/-- `output` up to the call of `output_times`. -/
def computed (status : Bool) (s : OutState) : OutState :=
  let (flist, sys) := collect s.flist .zero
  let systot := { s.systot with cur := sys }
  { s with
    flist := flist
    systot := systot
    uses := ⟨systot.use status, flist.map (FileStats.use status)⟩ }

/-- `output` after the call of `output_times`, for one record. -/
def FileStats.finish (status : Bool) (ftp : FileStats) : FileStats :=
  if status then { ftp with last := ftp.cur }
  else { ftp with last := .zero, ithreads := ftp.ithreads.map fun _ => .zero }

/-- `output`: what was printed and what is left. A halt ends the program inside
`output_times`. -/
def output (maxlatency : UInt32) (verbose status : Bool) (s : OutState) : Report × OutState :=
  let s := computed status s
  let (report, uses, statics) := outputTimes maxlatency verbose status s.uses s.statics
  let s := { s with uses := uses, statics := statics }
  if report.halt then (report, s)
  else (report, { s with
    flist := s.flist.map (FileStats.finish status)
    systot := s.systot.finish status })

/-! ## What the loops compute -/

/-- The sum of a counter over the threads of a file. -/
def FileStats.total (c : Counter) (ftp : FileStats) : UInt64 :=
  (ftp.ithreads.map fun itp => (itp.recount nlatbkts).get c).sum

def FileStats.collected (ftp : FileStats) : FileStats :=
  { ftp with
    ithreads := ftp.ithreads.map (IoStats.recount nlatbkts)
    cur := (ftp.ithreads.map (IoStats.recount nlatbkts)).foldl IoStats.add .zero }

section Collect

variable {ftp : FileStats} {c : Counter}

theorem foldl_both (l : List IoStats) (a b : IoStats) :
    l.foldl (fun acc itp => (acc.1.add itp, acc.2.add itp)) (a, b) =
      (l.foldl IoStats.add a, l.foldl IoStats.add b) := by
  induction l generalizing a b with
  | nil => rfl
  | cons itp l ih => rw [List.foldl_cons, ih, List.foldl_cons, List.foldl_cons]

theorem collect_fst (fs : List FileStats) (sys : IoStats) :
    (collect fs sys).1 = fs.map FileStats.collected := by
  induction fs generalizing sys with
  | nil => rfl
  | cons ftp rest ih =>
    rw [collect]
    dsimp only
    rw [ih, foldl_both, List.map_cons, FileStats.collected]

theorem collect_snd (fs : List FileStats) (sys : IoStats) (c : Counter) :
    (collect fs sys).2.get c = sys.get c + (fs.map (FileStats.total c)).sum := by
  induction fs generalizing sys with
  | nil => exact (add_zero _).symm
  | cons ftp rest ih =>
    rw [collect]
    dsimp only
    rw [ih, foldl_both, get_foldl_add, List.map_map, List.map_cons, List.sum_cons, ← add_assoc]
    rfl

theorem collected_cur : ftp.collected.cur.get c = ftp.total c := by
  rw [FileStats.collected, get_foldl_add, get_zero, zero_add, List.map_map]
  rfl

theorem recount_recount (n : ℕ) (s : IoStats) : (s.recount n).recount n = s.recount n := rfl

@[simp] theorem collected_total : ftp.collected.total c = ftp.total c := by
  rw [FileStats.total, FileStats.collected, List.map_map, FileStats.total]
  refine congrArg List.sum (List.map_congr_left fun itp _ => ?_)
  rw [Function.comp_apply, recount_recount]

@[simp] theorem collected_last : ftp.collected.last = ftp.last := rfl

theorem balanced_foldl_add {n : ℕ} (l : List IoStats) {s : IoStats} (hs : s.Balanced n) :
    ((l.map (IoStats.recount n)).foldl IoStats.add s).Balanced n := by
  induction l generalizing s with
  | nil => exact hs
  | cons t l ih => exact ih (hs.add (balanced_recount t))

theorem collected_balanced : ftp.collected.cur.Balanced nlatbkts :=
  balanced_foldl_add _ balanced_zero

theorem collect_balanced (fs : List FileStats) {sys : IoStats} (h : sys.Balanced nlatbkts) :
    (collect fs sys).2.Balanced nlatbkts := by
  induction fs generalizing sys with
  | nil => exact h
  | cons ftp rest ih =>
    rw [collect]
    dsimp only
    rw [foldl_both]
    exact ih (balanced_foldl_add _ h)

theorem computed_flist (status : Bool) (s : OutState) :
    (computed status s).flist = s.flist.map FileStats.collected := by
  rw [computed]
  exact collect_fst _ _

theorem computed_systot (status : Bool) (s : OutState) :
    (computed status s).systot.cur.get c = (s.flist.map (FileStats.total c)).sum := by
  rw [computed]
  dsimp only
  rw [collect_snd, get_zero, zero_add]

@[simp] theorem computed_last (status : Bool) (s : OutState) :
    (computed status s).systot.last = s.systot.last := rfl

end Collect

end Ioload
end Blockbench
