import Mathlib.Algebra.BigOperators.Intervals
import Mathlib.Tactic.Ring
import Blockbench.Lib.Machine
import Blockbench.Iob.LeastBucket
import Blockbench.Iofill.Output
import Blockbench.Ioload.Report

/-!
# `Iob/LatTable.lean` — the latency table

Both tools end `printbuckets` with the same loop: it goes through the buckets of the histogram in
groups, of 5 up to a latency of 10 ms and of 1000 above, and prints a row for each group: the
latency it ends at, and for each column the number of I/Os in the group and the fraction of them
that took longer. The bucket index is shared by the loop over the rows and the one over a group.

The machine takes a turn of either loop at a time. An index outside `lgroup` or `lgmax` is a state
of its own, and that it is never reached is the first thing proved: the group index goes up only
past a limit, and the second limit is above every latency of the table, so the test of the index
against `lngroups`, which is one too far and comes after the read, is never asked at the end.
Every row is then what the buckets before it add up to, and all of them are in some row
(`buckets_tabled`).

`consumed` is not the program's: it is the indices the inner loop has been at. A row has their
number. The fractions are exact; the program computes them in floating point.
-/

set_option autoImplicit false

namespace Blockbench

open Finset Machine

/-- `lgmax`, `lgroup` and `lngroups`, the same in both tools. -/
def lgmax : List ℕ := [10000, 0xffffffff]
def lgroup : List ℕ := [5, 1000]
def lngroups : ℕ := 2

variable {κ : Type}

/-- A line of the table: the latency, and for each column the count and the fraction. -/
structure Row (κ : Type) where
  consumed : ℕ
  latency : ℕ
  count : κ → UInt64
  fraction : κ → ℚ

/-- Where the loop is: at the test of the rows, at the test of a group with `rc`, `wc` and so on
in `sum`, behind both, or at an index outside its array. -/
inductive TablePc (κ : Type)
  | rows
  | group (j : ℕ) (sum : κ → UInt64)
  | exit
  | trap

/-- The variables of the loop; `rdtot`, `wrtot` and so on are `tot`. The rows are those printed,
the last one first. -/
structure Table (κ : Type) where
  pc : TablePc κ
  i : ℕ
  gn : ℕ
  latency : ℕ
  tot : κ → UInt64
  rows : List (Row κ)
  consumed : List ℕ

def Table.bucket (buckets : κ → ℕ → UInt64) (j : ℕ) (sum : κ → UInt64) (s : Table κ) : Table κ :=
  { s with
    pc := .group (j + 1) fun k => sum k + buckets k s.i
    i := s.i + 1
    latency := s.latency + latdiv.toNat / 1000
    consumed := s.i :: s.consumed }

def Table.row (total : κ → UInt64) (sum : κ → UInt64) (s : Table κ) : Table κ :=
  let tot := fun k => s.tot k + sum k
  let row : Row κ :=
    { consumed := s.consumed.length
      latency := s.latency
      count := sum
      fraction := fun k => 1 - ((tot k).toNat : ℚ) / (total k).toNat }
  let s := { s with tot := tot, rows := row :: s.rows }
  match lgmax[s.gn]? with
  | none => { s with pc := .trap }
  | some lim =>
    if lim ≤ s.latency ∧ s.gn < lngroups then { s with pc := .rows, gn := s.gn + 1 }
    else { s with pc := .rows }

def latTable (n : ℕ) (buckets : κ → ℕ → UInt64) (total : κ → UInt64) : Machine (Table κ) Unit where
  init :=
    { pc := .rows, i := 0, gn := 0, latency := 0, tot := fun _ => 0, rows := [], consumed := [] }
  step _ s :=
    match s.pc with
    | .rows => some { s with pc := if s.i < n then .group 0 fun _ => 0 else .exit }
    | .group j sum =>
      match lgroup[s.gn]? with
      | none => some { s with pc := .trap }
      | some width =>
        if j < width ∧ s.i < n then some (s.bucket buckets j sum) else some (s.row total sum)
    | .exit => none
    | .trap => none

/-! ## What the loop keeps -/

/-- The buckets added up so far are those of the rows and of the group. -/
def Table.Added (buckets : κ → ℕ → UInt64) (s : Table κ) : TablePc κ → Prop
  | .group _ sum => ∀ k, s.tot k + sum k = colTotal s.i (buckets k)
  | _ => ∀ k, s.tot k = colTotal s.i (buckets k)

def Table.Begun (n : ℕ) (s : Table κ) : TablePc κ → Prop
  | .rows => True
  | .group j _ => j = 0 → s.i < n
  | .exit => s.i = n
  | .trap => False

def Row.Right (n : ℕ) (buckets : κ → ℕ → UInt64) (total : κ → UInt64) (r : Row κ) : Prop :=
  r.consumed ≤ n ∧ r.latency = 10 * r.consumed ∧ ∀ k, r.fraction k =
    1 - ((colTotal r.consumed (buckets k)).toNat : ℚ) / (total k).toNat

structure Table.Sound (n : ℕ) (buckets : κ → ℕ → UInt64) (total : κ → UInt64) (s : Table κ) :
    Prop where
  index : s.i ≤ n
  group : s.gn < 2
  latency : s.latency = 10 * s.i
  consumed : s.consumed.reverse = List.range s.i
  begun : s.Begun n s.pc
  added : s.Added buckets s.pc
  counts : ∀ k, (s.rows.map (·.count k)).sum = s.tot k
  rows : ∀ r ∈ s.rows, r.Right n buckets total

section Keeps

variable {n : ℕ} {buckets : κ → ℕ → UInt64} {total : κ → UInt64} {s s' : Table κ} {u : Unit}
  {j : ℕ} {sum : κ → UInt64}

theorem colTotal_succ (i : ℕ) (col : ℕ → UInt64) :
    colTotal (i + 1) col = colTotal i col + col i := sum_range_succ _ _

theorem lgmax_get {gn : ℕ} (h : gn < 2) : ∃ lim, lgmax[gn]? = some lim ∧
    (gn = 1 → lim = 0xffffffff) := by
  obtain rfl | rfl : gn = 0 ∨ gn = 1 := by omega
  · exact ⟨10000, rfl, nofun⟩
  · exact ⟨0xffffffff, rfl, fun _ => rfl⟩

theorem lgroup_get {gn : ℕ} (h : gn < 2) : ∃ width, lgroup[gn]? = some width ∧ 0 < width := by
  obtain rfl | rfl : gn = 0 ∨ gn = 1 := by omega
  · exact ⟨5, rfl, by norm_num⟩
  · exact ⟨1000, rfl, by norm_num⟩

/-- **A bucket is added to its group.** -/
theorem Table.Sound.bucket (h : s.Sound n buckets total) (hpc : s.pc = .group j sum)
    (hi : s.i < n) : (s.bucket buckets j sum).Sound n buckets total where
  index := hi
  group := h.group
  latency := by
    have hdiv : latdiv.toNat / 1000 = 10 := rfl
    show s.latency + latdiv.toNat / 1000 = 10 * (s.i + 1)
    rw [h.latency, hdiv]
    omega
  consumed := by
    show (s.i :: s.consumed).reverse = List.range (s.i + 1)
    rw [List.reverse_cons, h.consumed, List.range_succ]
  begun := nofun
  added := by
    intro k
    have hadd := h.added
    rw [hpc] at hadd
    show s.tot k + (sum k + buckets k s.i) = colTotal (s.i + 1) (buckets k)
    rw [← UInt64.add_assoc, hadd k, colTotal_succ]
  counts := h.counts
  rows := h.rows

theorem Table.row_eq (total : κ → UInt64) (sum : κ → UInt64) (hgn : s.gn < 2)
    (hlat : s.latency < 0xffffffff) : ∃ gn < 2, s.row total sum =
      { s with
        pc := .rows
        gn := gn
        tot := fun k => s.tot k + sum k
        rows :=
          { consumed := s.consumed.length
            latency := s.latency
            count := sum
            fraction := fun k =>
              1 - ((s.tot k + sum k).toNat : ℚ) / (total k).toNat } :: s.rows } := by
  obtain ⟨lim, hget, hlast⟩ := lgmax_get hgn
  unfold Table.row
  dsimp only
  rw [hget]
  dsimp only
  by_cases hnext : lim ≤ s.latency ∧ s.gn < lngroups
  · -- the limit behind the last group is above every latency
    have hfirst : s.gn ≠ 1 := by
      intro h
      have := hlast h
      omega
    rw [if_pos hnext]
    exact ⟨s.gn + 1, by omega, rfl⟩
  · rw [if_neg hnext]
    exact ⟨s.gn, hgn, rfl⟩

/-- **A row is right.** -/
theorem Table.Sound.row (h : s.Sound n buckets total) (hn : 10 * n < 0xffffffff)
    (hpc : s.pc = .group j sum) : (s.row total sum).Sound n buckets total := by
  have hadd := h.added
  rw [hpc] at hadd
  have hindex := h.index
  have hlen : s.consumed.length = s.i := by
    rw [← List.length_reverse, h.consumed, List.length_range]
  have hlat : s.latency < 0xffffffff := by
    rw [h.latency]
    omega
  obtain ⟨gn, hgn, heq⟩ := Table.row_eq total sum h.group hlat
  rw [heq]
  refine ⟨h.index, hgn, h.latency, h.consumed, trivial, hadd, ?_, ?_⟩
  · intro k
    show sum k + (s.rows.map (·.count k)).sum = s.tot k + sum k
    rw [h.counts, UInt64.add_comm]
  · intro r hr
    obtain rfl | hr := List.mem_cons.mp hr
    · refine ⟨hlen.le.trans hindex, ?_, fun k => ?_⟩
      · show s.latency = 10 * s.consumed.length
        rw [hlen, h.latency]
      · dsimp only
        rw [hlen, hadd k]
    · exact h.rows r hr

theorem latTable_init : ((latTable n buckets total).init).Sound n buckets total where
  index := n.zero_le
  group := Nat.two_pos
  latency := rfl
  consumed := rfl
  begun := trivial
  added _ := rfl
  counts _ := rfl
  rows _ hr := absurd hr List.not_mem_nil

theorem latTable_cases (h : s.Sound n buckets total)
    (hst : (latTable n buckets total).step u s = some s') :
    (s.pc = .rows ∧ s.i < n ∧ s' = { s with pc := .group 0 fun _ => 0 }) ∨
    (s.pc = .rows ∧ s.i = n ∧ s' = { s with pc := .exit }) ∨
    ∃ j sum, s.pc = .group j sum ∧
      ((s.i < n ∧ s' = s.bucket buckets j sum) ∨ (j ≠ 0 ∧ s' = s.row total sum)) := by
  unfold latTable at hst
  dsimp only at hst
  have hindex := h.index
  split at hst
  case h_1 hpc =>
    cases hst
    by_cases hi : s.i < n
    · exact .inl ⟨hpc, hi, by rw [if_pos hi]⟩
    · exact .inr (.inl ⟨hpc, by omega, by rw [if_neg hi]⟩)
  case h_2 j sum hpc =>
    obtain ⟨width, hget, hpos⟩ := lgroup_get h.group
    have hbegun := h.begun
    rw [hpc] at hbegun
    rw [hget] at hst
    dsimp only at hst
    refine .inr (.inr ⟨j, sum, hpc, ?_⟩)
    split at hst
    case isTrue hmore =>
      cases hst
      exact .inl ⟨hmore.2, rfl⟩
    case isFalse hend =>
      cases hst
      refine .inr ⟨?_, rfl⟩
      rintro rfl
      exact hend ⟨hpos, hbegun rfl⟩
  case h_3 => cases hst
  case h_4 => cases hst

/-- **A turn keeps it all.** -/
theorem Table.Sound.step (h : s.Sound n buckets total) (hn : 10 * n < 0xffffffff)
    (hst : (latTable n buckets total).step u s = some s') : s'.Sound n buckets total := by
  obtain ⟨hpc, hi, rfl⟩ | ⟨hpc, hi, rfl⟩ | ⟨j, sum, hpc, hgroup⟩ := latTable_cases h hst
  · have hadd := h.added
    rw [hpc] at hadd
    refine ⟨h.index, h.group, h.latency, h.consumed, fun _ => hi, fun k => ?_, h.counts, h.rows⟩
    exact (UInt64.add_zero _).trans (hadd k)
  · have hadd := h.added
    rw [hpc] at hadd
    exact ⟨h.index, h.group, h.latency, h.consumed, hi, hadd, h.counts, h.rows⟩
  · obtain ⟨hi, rfl⟩ | ⟨-, rfl⟩ := hgroup
    · exact h.bucket hpc hi
    · exact h.row hn hpc

theorem reachable_sound (hn : 10 * n < 0xffffffff)
    (h : (latTable n buckets total).Reachable always s) : s.Sound n buckets total :=
  h.invariant latTable_init fun _ _ _ hI _ hst => hI.step hn hst

def Table.left (n : ℕ) (s : Table κ) : ℕ :=
  match s.pc with
  | .rows => 3 * (n - s.i) + 1
  | .group j _ => 3 * (n - s.i) + if j = 0 then 0 else 2
  | .exit => 0
  | .trap => 0

theorem left_lt (h : s.Sound n buckets total)
    (hst : (latTable n buckets total).step u s = some s') : s'.left n < s.left n := by
  have hgroup : ∀ t : Table κ, ∀ j sum, t.pc = .group j sum →
      t.left n = 3 * (n - t.i) + if j = 0 then 0 else 2 := by
    intro t j sum hpc
    rw [Table.left, hpc]
  have hrows : ∀ t : Table κ, t.pc = .rows → t.left n = 3 * (n - t.i) + 1 := by
    intro t hpc
    rw [Table.left, hpc]
  obtain ⟨hpc, hi, rfl⟩ | ⟨hpc, hi, rfl⟩ | ⟨j, sum, hpc, ⟨hi, rfl⟩ | ⟨hj, rfl⟩⟩ :=
    latTable_cases h hst
  · rw [hrows s hpc, hgroup _ 0 _ rfl, if_pos rfl]
    dsimp only
    omega
  · rw [hrows s hpc]
    show 0 < _
    omega
  · rw [hgroup s j sum hpc, hgroup _ (j + 1) _ rfl, if_neg (Nat.succ_ne_zero j)]
    show 3 * (n - (s.i + 1)) + 2 < _
    omega
  · have hi : (s.row total sum).i = s.i ∧ ((s.row total sum).pc = .rows ∨
        (s.row total sum).pc = .trap) := by
      unfold Table.row
      dsimp only
      split
      · exact ⟨rfl, .inr rfl⟩
      · split
        · exact ⟨rfl, .inl rfl⟩
        · exact ⟨rfl, .inl rfl⟩
    rw [hgroup s j sum hpc, if_neg hj]
    obtain ⟨hi, hrow | htrap⟩ := hi
    · rw [hrows _ hrow, hi]
      omega
    · have hzero : (s.row total sum).left n = 0 := by
        rw [Table.left, htrap]
      omega

theorem exists_turn (h : s.Sound n buckets total) (hnot : s.pc ≠ .exit) :
    ∃ s', (latTable n buckets total).step () s = some s' := by
  have hbegun := h.begun
  apply Option.isSome_iff_exists.mp
  unfold latTable
  dsimp only
  split
  case h_1 => rfl
  case h_2 =>
    split
    · rfl
    · split <;> rfl
  case h_3 hpc => exact absurd hpc hnot
  case h_4 hpc =>
    rw [hpc] at hbegun
    exact hbegun.elim

/-- **The loop ends.** -/
theorem latTable_ends (hn : 10 * n < 0xffffffff) :
    ∃ s, (latTable n buckets total).Reachable always s ∧ s.pc = .exit := by
  have hprog : ∀ s : Table κ, s.Sound n buckets total → s.pc ≠ .exit →
      ∃ u s', always s u ∧ (latTable n buckets total).step u s = some s' := by
    intro s h hnot
    obtain ⟨s', hst⟩ := exists_turn h hnot
    exact ⟨(), s', trivial, hst⟩
  obtain ⟨us, s, hrun, hexit⟩ := finishes (F := fun s => s.pc = .exit) (μ := Table.left n)
    (fun s u t h _ hst => h.step hn hst) (fun s u t h _ hst => left_lt h hst) hprog _ latTable_init
  exact ⟨s, ⟨us, hrun⟩, hexit⟩

end Keeps

/-! ## The fractions -/

/-- The share of a column's I/Os that are in the buckets from `m` on. -/
def shareFrom (n : ℕ) (col : ℕ → UInt64) (m : ℕ) : ℚ :=
  (∑ x ∈ Ico m n, (col x).toNat : ℕ) / (∑ x ∈ range n, (col x).toNat : ℕ)

section Share

variable {n m : ℕ} {col : ℕ → UInt64} {tot : UInt64}

theorem sum_pos_of_occupied (h : Occupied n col) : 0 < ∑ x ∈ range n, (col x).toNat := by
  obtain ⟨x, hx, hne⟩ := h
  have hpos : 0 < (col x).toNat := Nat.pos_of_ne_zero fun hz => hne (UInt64.toNat_inj.mp hz)
  exact Nat.lt_of_lt_of_le hpos
    (single_le_sum (f := fun x => (col x).toNat) (fun _ _ => Nat.zero_le _) (mem_range.mpr hx))

/-- **One minus the part counted is the part that is not.** -/
theorem fraction_eq_share (hocc : Occupied n col)
    (htot : tot.toNat = ∑ x ∈ range n, (col x).toNat) (hm : m ≤ n) :
    1 - ((colTotal m col).toNat : ℚ) / (nonzero tot).toNat = shareFrom n col m := by
  have hpos := sum_pos_of_occupied hocc
  have hfit : ∑ x ∈ range n, (col x).toNat < 2 ^ 64 := htot ▸ tot.toNat_lt
  have hzero : tot ≠ 0 := by
    rintro rfl
    rw [← htot] at hpos
    exact absurd hpos (by decide)
  have hsplit := sum_range_add_sum_Ico (fun x => (col x).toNat) hm
  have hne : ((∑ x ∈ range n, (col x).toNat : ℕ) : ℚ) ≠ 0 := Nat.cast_ne_zero.mpr hpos.ne'
  rw [nonzero, if_neg hzero, htot, colTotal, toNat_cumulative hfit hm, shareFrom,
    eq_div_iff hne, sub_mul, div_mul_cancel₀ _ hne, one_mul, ← hsplit]
  push_cast
  ring

end Share

/-! ## The two tools -/

/-- What the table `M` of `n` buckets should be: the loop ends, without an index outside its
array; the indices it has been at are all the buckets in order; the latency of a row is that of
the buckets before it; the counts of a column add up to its total; and of a column with an I/O
in it, of which `tot` is the number of I/Os, a row has the share that is still to come. -/
structure Tabled (M : Machine (Table κ) Unit) (n : ℕ) (buckets : κ → ℕ → UInt64)
    (tot : κ → UInt64) : Prop where
  ends : ∃ s, M.Reachable always s ∧ s.pc = .exit
  inside : ∀ s, M.Reachable always s → s.pc ≠ .trap
  order : ∀ s, M.Reachable always s → s.pc = .exit → s.consumed.reverse = List.range n
  labels : ∀ s, M.Reachable always s → ∀ r ∈ s.rows, r.latency = 10 * r.consumed
  counts : ∀ s, M.Reachable always s → s.pc = .exit →
    ∀ k, (s.rows.map (·.count k)).sum = colTotal n (buckets k)
  fractions : ∀ s, M.Reachable always s → ∀ k, Occupied n (buckets k) →
    (tot k).toNat = ∑ x ∈ range n, (buckets k x).toNat →
    ∀ r ∈ s.rows, r.fraction k = shareFrom n (buckets k) r.consumed

theorem latTable_tabled {n : ℕ} (hn : 10 * n < 0xffffffff) (buckets : κ → ℕ → UInt64)
    (tot : κ → UInt64) :
    Tabled (latTable n buckets fun k => nonzero (tot k)) n buckets tot where
  ends := latTable_ends hn
  inside s hs htrap := by
    have hbegun := (reachable_sound hn hs).begun
    rw [htrap] at hbegun
    exact hbegun
  order s hs hexit := by
    have h := reachable_sound hn hs
    have hbegun := h.begun
    rw [hexit] at hbegun
    have hi : s.i = n := hbegun
    rw [h.consumed, hi]
  labels s hs r hr := ((reachable_sound hn hs).rows r hr).2.1
  counts s hs hexit k := by
    have h := reachable_sound hn hs
    have hbegun := h.begun
    have hadd := h.added
    rw [hexit] at hbegun hadd
    have hi : s.i = n := hbegun
    rw [h.counts, hadd k, hi]
  fractions s hs k hocc htot r hr := by
    obtain ⟨hle, -, hfrac⟩ := (reachable_sound hn hs).rows r hr
    rw [hfrac k]
    exact fraction_eq_share hocc htot hle

namespace Iofill

inductive Column
  | read
  | write
  | flush
  | postflush
  deriving DecidableEq, Repr

def FthreadStats.column (ftp : FthreadStats) : Column → ℕ → UInt64
  | .read, i => ftp.latbuckets i .read
  | .write, i => ftp.latbuckets i .write
  | .flush, i => ftp.latbuckets i .flush
  | .postflush, i => ftp.latbuckets i .postflush

def FthreadStats.total (ftp : FthreadStats) : Column → UInt64
  | .read => ftp.totreads
  | .write => ftp.totwrites
  | .flush => ftp.totflushes
  | .postflush => ftp.totpflushes

/-- The table of `printbuckets`, from the record as the lines above it have left it. -/
def printTable (ftp : FthreadStats) (pctval : Pctval) : Machine (Table Column) Unit :=
  let ftp := (printbuckets ftp pctval).2.1
  latTable nlatbkts ftp.column ftp.total

theorem printTable_eq (ftp : FthreadStats) (pctval : Pctval) : printTable ftp pctval =
    latTable nlatbkts ftp.column fun k => nonzero (ftp.total k) := by
  unfold printTable printbuckets
  dsimp only
  congr 1
  funext k
  cases k <;> rfl

end Iofill

namespace Ioload

/-- The buckets of a column of `ioload`'s table, and its total. -/
def IoStats.column (use : IoStats) (d : Dir) (i : ℕ) : UInt64 := use.latbuckets i d

def IoStats.total (use : IoStats) : Dir → UInt64
  | .read => use.totreads
  | .write => use.totwrites

/-- The table of `printbuckets`, which `-l` asks for. -/
def printTable (maxlatency : UInt32) (isSystot : Bool) (use : IoStats) (g : Statics) :
    Machine (Table Dir) Unit :=
  let use := (printbuckets maxlatency isSystot use g).2.1
  latTable nlatbkts use.column use.total

theorem printTable_eq (maxlatency : UInt32) (isSystot : Bool) (use : IoStats) (g : Statics) :
    printTable maxlatency isSystot use g =
      latTable nlatbkts use.column fun k => nonzero (use.total k) := by
  unfold printTable printbuckets
  dsimp only
  congr 1
  funext k
  cases k <;> rfl

end Ioload

/-- **The latency table loses no bucket**, in either tool and whatever was printed before.

`Tabled` has the parts: the loops end without reading past `lgroup` or `lgmax`; each row is
labelled with the end of its last bucket; the counts of a column add up to those of all its
buckets; and a fraction is the share of the column's I/Os in the buckets behind the row. What was
printed before makes no difference because the table reads the record alone; it is the lines above
it that read `pctval`. -/
theorem buckets_tabled :
    (∀ (ftp : Iofill.FthreadStats) (pctval : Pctval),
      Tabled (Iofill.printTable ftp pctval) nlatbkts ftp.column ftp.total) ∧
    ∀ (maxlatency : UInt32) (isSystot : Bool) (use : Ioload.IoStats) (g : Ioload.Statics),
      Tabled (Ioload.printTable maxlatency isSystot use g) nlatbkts use.column use.total := by
  have hn : 10 * nlatbkts < 0xffffffff := by norm_num
  constructor
  · intro ftp pctval
    rw [Iofill.printTable_eq]
    exact latTable_tabled hn _ _
  · intro maxlatency isSystot use g
    rw [Ioload.printTable_eq]
    exact latTable_tabled hn _ _

end Blockbench
