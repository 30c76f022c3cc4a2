import Blockbench.Lib.Columns
import Blockbench.Iob.Details

/-!
# `Iob/DetailsText.lean` — the text of the log

`iob_details_output` prints the log as columns with commas between them, for a spreadsheet. A line
has all of a record but what it rounds away: the latency is cut to microseconds, the data type is
there for writes only, and `Delta` is taken from the line before. `readDetail` is the spreadsheet's
side: it gets the record's `Detail` back from the line (`readDetail_detailLine`), and
`readReport` those of a whole report (`readReport_iobDetailsOutput`).

The reports of a run of `Iob/Details.lean` are such texts. `report_reads_back` is what can be read
from the report of a period, whatever the workers did meanwhile: the records of that period, in
the order in which they were claimed.

Both tools call it with `channels` at zero; the columns of channels and banks are left out.
-/

set_option autoImplicit false

namespace Blockbench

open Columns Machine

/-! ## A line -/

/-- An entry of the log, with the two fields that only other tools of the library set. -/
structure Entry extends Iodet where
  wcycle : UInt16
  wcstart : UInt64

/-- An entry of the two tools: `iob_malloc` zeroes the others. -/
def Iodet.entry (d : Iodet) : Entry := { d with wcycle := 0, wcstart := 0 }

def typestr : OpType → Text
  | .read => ['R', 'D']
  | .write => ['W', 'R']
  | .flush => ['F', 'L']
  | .postflush => ['P', 'F']
  | .sleep => ['S', 'L']

def iobDttochr : DataType → Text
  | .compressible => ['C']
  | .uncompressible => ['U']
  | .h40compressible => ['H', '4', '0']
  | .h20compressible => ['H', '2', '0']
  | .h10compressible => ['H', '1', '0']
  | .hcompressible => ['H', '0', '1']
  | .pst => ['E']
  | .vm => ['V', 'M']
  | .zeros => ['Z']
  | .ones => ['O']
  | .pattern1 => ['P']

abbrev iodLongLong : UInt16 := 0x02
abbrev iodRecovered : UInt16 := 0x04
abbrev iodRetry : UInt16 := 0x10

def flagChar (flag mask : UInt16) (c : Char) : Char := if flag &&& mask ≠ 0 then c else ' '

def outstr (flag : UInt16) : Text :=
  [flagChar flag iodRetry 'R', flagChar flag iodLongLong 'L', flagChar flag iodError 'E',
    flagChar flag iodRecovered 'R']

def dtypeColumn (e : Entry) : Text := if e.type = .write then iobDttochr e.dtype else [' ']

def dec (n : ℕ) : Text := Nat.toDigits 10 n

/-- `%5llu.%3.3llu.%3.3llu.%3.3llu`. -/
def cycleColumn (coff : UInt64) : Text :=
  pad ' ' 5 (dec (coff / nsecToSec).toNat) ++ '.' ::
    (pad '0' 3 (dec (coff / 1000000 % 1000).toNat) ++ '.' ::
      (pad '0' 3 (dec (coff / 1000 % 1000).toNat) ++ '.' ::
        pad '0' 3 (dec (coff % 1000).toNat)))

def detailColumns (delta : Int64) (e : Entry) : List Text :=
  [' ' :: pad ' ' 4 (outstr e.flag),
    pad ' ' 7 (dec e.wcycle.toNat),
    ' ' :: pad ' ' 3 (dec e.fid.toNat),
    ' ' :: pad ' ' 3 (dec e.tid.toNat),
    ' ' :: pad ' ' 5 (showInt e.seconds.toInt32.toInt),
    ' ' :: pad ' ' 7 (dec e.ionum.toNat),
    blanks 5 ++ pad ' ' 2 (typestr e.type),
    blanks 2 ++ pad ' ' 4 (dtypeColumn e),
    blanks 2 ++ pad ' ' 8 (dec e.size.toNat),
    ' ' :: pad ' ' 13 ('0' :: 'x' :: Nat.toDigits 16 e.offset.toNat),
    blanks 2 ++ pad ' ' 10 (dec (e.latency / 1000).toNat),
    ' ' :: cycleColumn (e.endTime - e.wcstart),
    blanks 2 ++ pad ' ' 10 (showInt delta.toInt),
    ' ' :: pad ' ' 16 (dec e.endTime.toNat)]

def detailLine (lead : Text) (delta : Int64) (e : Entry) : Text :=
  lead ++ terminated ',' (detailColumns delta e)

/-! ## The report -/

def detailHeading (lead : Text) : Text :=
  lead ++ ("Flags, Wcycle, FID, TID,  Time,   IOnum,   Type,  Dtype,     Size," ++
    "        Offset, Latency(us),  Cycle Start (ns),  Delta (ns),         End (ns),").toList

/-- The loop over the entries, with its `lastend` and `delta`. -/
def detailsLoop (lastend : UInt64) (delta : Int64) : List Entry → List (Int64 × Entry)
  | [] => []
  | e :: es =>
    let delta := if lastend ≠ 0 then e.endTime.toInt64 - lastend.toInt64 else delta
    (delta, e) :: detailsLoop e.endTime delta es

/-- The entries that are logged as well, with `infolog`: each is longer than all before it. -/
def longios (longlat : UInt64) : List Entry → List Entry
  | [] => []
  | e :: es => if longlat < e.latency then e :: longios e.latency es else longios longlat es

/-- `iob_details_output`, with `channels` at zero. -/
def iobDetailsOutput (lead : Text) (log : List Entry) : Text :=
  terminated '\n' (detailHeading lead ::
    (detailsLoop 0 0 log).map fun l => detailLine lead l.1 l.2)

/-! ## Reading it back -/

structure Detail where
  retry : Bool
  longLong : Bool
  error : Bool
  recovered : Bool
  wcycle : ℕ
  fid : ℕ
  tid : ℕ
  seconds : ℤ
  ionum : ℕ
  type : OpType
  dtype : Option DataType
  size : ℕ
  offset : ℕ
  latency : ℕ
  cycleStart : ℕ
  delta : ℤ
  endTime : ℕ
  deriving DecidableEq

def Entry.detail (delta : Int64) (e : Entry) : Detail where
  retry := e.flag &&& iodRetry ≠ 0
  longLong := e.flag &&& iodLongLong ≠ 0
  error := e.flag &&& iodError ≠ 0
  recovered := e.flag &&& iodRecovered ≠ 0
  wcycle := e.wcycle.toNat
  fid := e.fid.toNat
  tid := e.tid.toNat
  seconds := e.seconds.toInt32.toInt
  ionum := e.ionum.toNat
  type := e.type
  dtype := if e.type = .write then some e.dtype else none
  size := e.size.toNat
  offset := e.offset.toNat
  latency := e.latency.toNat / 1000
  cycleStart := (e.endTime - e.wcstart).toNat
  delta := delta.toInt
  endTime := e.endTime.toNat

def readFlags : Text → Option (Bool × Bool × Bool × Bool)
  | [' ', r, l, e, v] => some (r = 'R', l = 'L', e = 'E', v = 'R')
  | _ => none

def readDec (xs : Text) : Option ℕ := readNat 10 (trim xs)

def readOffset (xs : Text) : Option ℕ :=
  match trim xs with
  | '0' :: 'x' :: digits => readNat 16 digits
  | _ => none

def readType (xs : Text) : Option OpType :=
  [.read, .write, .flush, .postflush, .sleep].find? fun t => typestr t = trim xs

/-- The data type of a write; nothing for the blank column of the others. -/
def readDtype (xs : Text) : Option (Option DataType) :=
  if trim xs = [] then some none
  else ([.zeros, .ones, .pattern1, .uncompressible, .compressible, .hcompressible, .pst, .vm,
    .h20compressible, .h10compressible, .h40compressible].find? fun t =>
      iobDttochr t = trim xs).map some

def readCycle (xs : Text) : Option ℕ :=
  match pieces '.' (trim xs) with
  | [s, ms, us, ns] => do
    return (← readNat 10 s) * 10 ^ 9 + (← readNat 10 ms) * 10 ^ 6 + (← readNat 10 us) * 10 ^ 3 +
      (← readNat 10 ns)
  | _ => none

def readColumns : List Text → Option Detail
  | [flags, wcycle, fid, tid, seconds, ionum, type, dtype, size, offset, latency, coff, delta,
      endTime, []] => do
    let (retry, longLong, error, recovered) ← readFlags flags
    return {
      retry := retry
      longLong := longLong
      error := error
      recovered := recovered
      wcycle := ← readDec wcycle
      fid := ← readDec fid
      tid := ← readDec tid
      seconds := ← readInt (trim seconds)
      ionum := ← readDec ionum
      type := ← readType type
      dtype := ← readDtype dtype
      size := ← readDec size
      offset := ← readOffset offset
      latency := ← readDec latency
      cycleStart := ← readCycle coff
      delta := ← readInt (trim delta)
      endTime := ← readDec endTime }
  | _ => none

def readDetail (lead line : Text) : Option Detail :=
  readColumns (pieces ',' (line.drop lead.length))

/-- A report: the lines between its heading and its end. -/
def readReport (lead text : Text) : Option (List Detail) :=
  (pieces '\n' text).tail.dropLast.mapM (readDetail lead)

section Columns

variable {c : Char}

@[simp] theorem readDec_dec (n w : ℕ) : readDec (pad ' ' w (dec n)) = some n := by
  simp [readDec, dec]

@[simp] theorem readDec_cons (xs : Text) : readDec (' ' :: xs) = readDec xs := by
  simp [readDec]

@[simp] theorem readDec_blanks (k : ℕ) (xs : Text) :
    readDec (blanks k ++ xs) = readDec xs := by
  simp [readDec]

@[simp] theorem readFlags_outstr (flag : UInt16) :
    readFlags (' ' :: pad ' ' 4 (outstr flag)) =
      some (decide (flag &&& iodRetry ≠ 0), decide (flag &&& iodLongLong ≠ 0),
        decide (flag &&& iodError ≠ 0), decide (flag &&& iodRecovered ≠ 0)) := by
  have hchar : ∀ (mask : UInt16) {c : Char}, c ≠ ' ' →
      (flagChar flag mask c = c ↔ flag &&& mask ≠ 0) := by
    intro mask c hc
    unfold flagChar
    split <;> simp_all [eq_comm]
  simp [outstr, pad, readFlags, hchar]

@[simp] theorem readType_typestr (t : OpType) (k w : ℕ) :
    readType (blanks k ++ pad ' ' w (typestr t)) = some t := by
  unfold readType
  rw [trim_blanks, trim_pad]
  cases t <;> rfl

@[simp] theorem readDtype_dtypeColumn (e : Entry) (k w : ℕ) :
    readDtype (blanks k ++ pad ' ' w (dtypeColumn e)) =
      some (if e.type = .write then some e.dtype else none) := by
  unfold readDtype dtypeColumn
  rw [trim_blanks, trim_pad]
  split
  · cases e.dtype <;> rfl
  · rfl

@[simp] theorem readOffset_hex (n w : ℕ) :
    readOffset (' ' :: pad ' ' w ('0' :: 'x' :: Nat.toDigits 16 n)) = some n := by
  have hblank : ' ' ∉ '0' :: 'x' :: Nat.toDigits 16 n := by
    have hdigits : ' ' ∉ Nat.toDigits 16 n := not_mem_toDigits (by omega) le_rfl rfl
    simp [hdigits]
  unfold readOffset
  rw [trim_cons, trim_pad, trim_of_not_mem hblank]
  exact readNat_toDigits (by omega) le_rfl n

theorem not_mem_dec {n : ℕ} (hc : digit? c = none) : c ∉ dec n :=
  not_mem_toDigits (by omega) (by omega) hc

theorem not_mem_group {n : ℕ} (hc : digit? c = none) (hne : c ≠ '0') :
    c ∉ pad '0' 3 (dec n) := not_mem_pad hne (not_mem_dec hc)

theorem readNat_group (n : ℕ) : readNat 10 (pad '0' 3 (dec n)) = some n := by
  rw [readNat_zeros _ _ (by simp [dec]), dec, readNat_toDigits (by omega) (by omega)]

@[simp] theorem readCycle_cycleColumn (coff : UInt64) :
    readCycle (' ' :: cycleColumn coff) = some coff.toNat := by
  have hdot : digit? '.' = none := rfl
  have hblank : digit? ' ' = none := rfl
  have htrim : trim (' ' :: cycleColumn coff) = dec (coff / nsecToSec).toNat ++ '.' ::
      (pad '0' 3 (dec (coff / 1000000 % 1000).toNat) ++ '.' ::
        (pad '0' 3 (dec (coff / 1000 % 1000).toNat) ++ '.' ::
          pad '0' 3 (dec (coff % 1000).toNat))) := by
    unfold cycleColumn
    rw [trim_cons, pad, List.leftpad, List.append_assoc, ← blanks, trim_blanks]
    apply trim_of_not_mem
    simp [not_mem_dec hblank, not_mem_group hblank]
  unfold readCycle pieces
  rw [htrim, List.splitOn_append_cons_self_of_not_mem (not_mem_dec hdot),
    List.splitOn_append_cons_self_of_not_mem (not_mem_group hdot (by decide)),
    List.splitOn_append_cons_self_of_not_mem (not_mem_group hdot (by decide)),
    List.splitOn_eq_singleton (not_mem_group hdot (by decide))]
  have hsec : readNat 10 (dec (coff / nsecToSec).toNat) = some (coff / nsecToSec).toNat :=
    readNat_toDigits (by omega) (by omega) _
  have hbillion : nsecToSec.toNat = 1000000000 := rfl
  simp only [hsec, readNat_group, Option.bind_eq_bind, Option.bind_some, Option.pure_def,
    Option.some.injEq]
  simp only [UInt64.toNat_div, UInt64.toNat_mod, UInt64.reduceToNat, hbillion]
  omega

/-! ## No column holds a comma -/

theorem not_mem_typestr {t : OpType} (hc : c = ',' ∨ c = '\n') : c ∉ typestr t := by
  obtain rfl | rfl := hc <;> cases t <;> decide

theorem not_mem_outstr {flag : UInt16} (hc : c = ',' ∨ c = '\n') : c ∉ outstr flag := by
  have hflag : ∀ mask : UInt16, ∀ d, c ≠ d → c ≠ ' ' → c ≠ flagChar flag mask d := by
    intro mask d hd hblank
    unfold flagChar
    split <;> assumption
  unfold outstr
  obtain rfl | rfl := hc <;> simp [hflag]

theorem not_mem_dtypeColumn {e : Entry} (hc : c = ',' ∨ c = '\n') : c ∉ dtypeColumn e := by
  unfold dtypeColumn
  split
  · obtain rfl | rfl := hc <;> cases e.dtype <;> decide
  · obtain rfl | rfl := hc <;> decide

theorem not_mem_detailColumns {delta : Int64} {e : Entry} (hc : c = ',' ∨ c = '\n') :
    ∀ xs ∈ detailColumns delta e, c ∉ xs := by
  have hdigit : digit? c = none := by obtain rfl | rfl := hc <;> rfl
  have hblank : c ≠ ' ' := by obtain rfl | rfl := hc <;> decide
  have hsign : c ≠ '-' := by obtain rfl | rfl := hc <;> decide
  have hzero : c ≠ '0' := by obtain rfl | rfl := hc <;> decide
  have hx : c ≠ 'x' := by obtain rfl | rfl := hc <;> decide
  have hdot : c ≠ '.' := by obtain rfl | rfl := hc <;> decide
  have hdec : ∀ n w, c ∉ pad ' ' w (dec n) := fun n w =>
    not_mem_pad hblank (not_mem_dec hdigit)
  have hint : ∀ z w, c ∉ pad ' ' w (showInt z) := fun z w =>
    not_mem_pad hblank (not_mem_showInt hdigit hsign)
  have hhex : c ∉ pad ' ' 13 ('0' :: 'x' :: Nat.toDigits 16 e.offset.toNat) := by
    have hdigits : c ∉ Nat.toDigits 16 e.offset.toNat := not_mem_toDigits (by omega) le_rfl hdigit
    exact not_mem_pad hblank (by simp [hdigits, hzero, hx])
  have hcycle : c ∉ cycleColumn (e.endTime - e.wcstart) := by
    unfold cycleColumn
    simp [hdec, hdot, not_mem_group hdigit hzero]
  have hspace : ∀ k, c ∉ blanks k := fun k => not_mem_blanks hblank
  simp only [detailColumns, List.forall_mem_cons]
  simp [hblank, hspace, hdec, hint, hhex, hcycle, not_mem_pad hblank (not_mem_outstr hc),
    not_mem_pad hblank (not_mem_typestr hc), not_mem_pad hblank (not_mem_dtypeColumn hc)]

end Columns

section Report

variable {lead : Text} {lastend : UInt64} {delta : Int64} {e : Entry} {log : List Entry}

/-- **A line reads back.** -/
theorem readDetail_detailLine (lead : Text) (delta : Int64) (e : Entry) :
    readDetail lead (detailLine lead delta e) = some (e.detail delta) := by
  unfold readDetail detailLine
  rw [List.drop_left, pieces_terminated (not_mem_detailColumns (.inl rfl))]
  simp [detailColumns, readColumns, Entry.detail]

/-- **A report reads back**, line by line. -/
theorem readReport_iobDetailsOutput (hline : '\n' ∉ lead) (log : List Entry) :
    readReport lead (iobDetailsOutput lead log) =
      some ((detailsLoop 0 0 log).map fun l => l.2.detail l.1) := by
  have hheading : '\n' ∉ detailHeading lead := by simp [detailHeading, hline]
  have hlines : ∀ xs ∈ (detailsLoop 0 0 log).map fun l => detailLine lead l.1 l.2,
      '\n' ∉ xs := by
    intro xs hxs
    obtain ⟨l, -, rfl⟩ := List.mem_map.mp hxs
    have hcolumns : '\n' ∉ terminated ',' (detailColumns l.1 l.2) :=
      not_mem_terminated (by decide) (not_mem_detailColumns (.inr rfl))
    simp [detailLine, hline, hcolumns]
  unfold readReport iobDetailsOutput
  rw [pieces_terminated (List.forall_mem_cons.mpr ⟨hheading, hlines⟩), List.cons_append,
    List.tail_cons, List.dropLast_concat]
  generalize detailsLoop 0 0 log = ls
  induction ls with
  | nil => rfl
  | cons l ls ih => simp [readDetail_detailLine, ih]

/-- The entries logged are longer and longer, and none of the report is longer than all of them. -/
theorem longios_longest (longlat : UInt64) (log : List Entry) :
    (longlat :: (longios longlat log).map fun e => e.latency).Pairwise (· < ·) ∧
      ∀ e ∈ log, e.latency ≤ longlat ∨ ∃ f ∈ longios longlat log, e.latency ≤ f.latency := by
  induction log generalizing longlat with
  | nil => simp [longios]
  | cons e log ih =>
    unfold longios
    split
    · rename_i hlonger
      obtain ⟨hsorted, hall⟩ := ih e.latency
      constructor
      · refine List.pairwise_cons.mpr ⟨fun l hl => ?_, hsorted⟩
        obtain rfl | hl := List.mem_cons.mp hl
        · exact hlonger
        · exact UInt64.lt_trans hlonger ((List.pairwise_cons.mp hsorted).1 l hl)
      · intro f hf
        obtain rfl | hf := List.mem_cons.mp hf
        · exact .inr ⟨_, List.mem_cons_self, UInt64.le_refl _⟩
        · obtain hle | ⟨g, hg, hle⟩ := hall f hf
          · exact .inr ⟨_, List.mem_cons_self, hle⟩
          · exact .inr ⟨g, List.mem_cons_of_mem _ hg, hle⟩
    · rename_i hshort
      obtain ⟨hsorted, hall⟩ := ih longlat
      refine ⟨hsorted, fun f hf => ?_⟩
      obtain rfl | hf := List.mem_cons.mp hf
      · exact .inl (UInt64.not_lt.mp hshort)
      · exact hall f hf

end Report

/-! ## The reports of a run -/

def zeroIodet : Iodet where
  start := 0
  endTime := 0
  offset := 0
  latency := 0
  ionum := 0
  size := 0
  seconds := 0
  flag := 0
  type := .read
  dtype := .zeros
  fid := 0
  tid := 0

variable {T : ℕ}

def Printed.logged (e : Printed) : Entry := (e.entry.elim zeroIodet Rec.det).entry

def LogState.reportOf (s : LogState T) (p : ℕ) : List Printed :=
  (s.printed.filter fun e => e.period = p).reverse

def LogState.reportText (lead : Text) (s : LogState T) (p : ℕ) : Text :=
  iobDetailsOutput lead ((s.reportOf p).map Printed.logged)

/-- A report prints the entries one after the other, up to those the log has room for. -/
structure PrintedInOrder (niodet : UInt64) (s : LogState T) : Prop where
  current : (s.reportOf s.period).map Printed.index = List.range (s.progress niodet)
  past : ∀ p < s.period, ∃ m ≤ niodet.toNat, (s.reportOf p).map Printed.index = List.range m

section Runs

variable {niodet : UInt64} {longlats : Bool} {s t : LogState T} {lead : Text}

theorem printedInOrder_init : PrintedInOrder niodet (detailsLog T niodet longlats).init where
  current := rfl
  past p hp := absurd hp (Nat.not_lt_zero p)

theorem Logged.reportOf_eq_nil (h : Logged niodet longlats s) {p : ℕ} (hp : s.period < p) :
    s.reportOf p = [] := by
  unfold LogState.reportOf
  rw [List.reverse_eq_nil_iff, List.filter_eq_nil_iff]
  intro e he hlater
  have hpassed := h.reports.passed e he
  simp only [decide_eq_true_eq] at hlater
  unfold Passed at hpassed
  omega

theorem reportOf_congr (h : t.printed = s.printed) (p : ℕ) : t.reportOf p = s.reportOf p := by
  rw [LogState.reportOf, h, LogState.reportOf]

/-- A step that prints nothing and does not change how far the report is. -/
theorem PrintedInOrder.keep (h : PrintedInOrder niodet s) (hprinted : t.printed = s.printed)
    (hperiod : t.period = s.period) (hprogress : t.progress niodet = s.progress niodet) :
    PrintedInOrder niodet t where
  current := by
    rw [reportOf_congr hprinted, hperiod, hprogress]
    exact h.current
  past p hp := by
    rw [reportOf_congr hprinted]
    exact h.past p (hperiod ▸ hp)

theorem Logged.progress_le (h : Logged niodet longlats s) : s.progress niodet ≤ niodet.toNat := by
  unfold LogState.progress
  split
  · rename_i final maxdet i hr
    obtain ⟨hle, hmax⟩ := h.snapshot final maxdet i hr
    omega
  · exact Nat.min_le_right _ _
  · exact Nat.zero_le _
  · exact Nat.zero_le _
  · exact Nat.zero_le _

theorem PrintedInOrder.reset (h : PrintedInOrder niodet s) (hlog : Logged niodet longlats s)
    (hprinted : t.printed = s.printed) (hperiod : t.period = s.period + 1)
    (hprogress : t.progress niodet = 0) : PrintedInOrder niodet t where
  current := by
    rw [reportOf_congr hprinted, hperiod, hlog.reportOf_eq_nil s.period.lt_succ_self, hprogress]
    rfl
  past p hp := by
    rw [reportOf_congr hprinted]
    obtain hlt | rfl := Nat.lt_succ_iff_lt_or_eq.mp (hperiod ▸ hp)
    · exact h.past p hlt
    · exact ⟨s.progress niodet, hlog.progress_le, h.current⟩

/-- The entry printed is the one with the next index, so the current report is one longer; the
reports of earlier periods do not see it. -/
theorem PrintedInOrder.print (h : PrintedInOrder niodet s) (hlog : Logged niodet longlats s)
    (hst : logStep niodet longlats .print s = some t) : PrintedInOrder niodet t := by
  simp only [logStep] at hst
  split at hst
  swap
  · cases hst
  rename_i final maxdet i hr
  have hprogress : s.progress niodet = i := by rw [LogState.progress, hr]
  split at hst
  · obtain rfl := Option.some.inj hst
    refine ⟨?_, fun p hp => ?_⟩
    · have hcurrent := h.current
      rw [hprogress] at hcurrent
      simp only [LogState.reportOf] at hcurrent ⊢
      simp only [LogState.progress, List.filter_cons, decide_true, if_true, List.reverse_cons,
        List.map_append, hcurrent, List.range_succ, List.map_cons, List.map_nil]
    · have hne : s.period ≠ p := Nat.ne_of_gt hp
      obtain ⟨m, hm, hreport⟩ := h.past p hp
      refine ⟨m, hm, ?_⟩
      simp only [LogState.reportOf] at hreport ⊢
      rw [List.filter_cons, if_neg (by simp [hne])]
      exact hreport
  · obtain rfl := Option.some.inj hst
    obtain ⟨hle, hmax⟩ := hlog.snapshot final maxdet i hr
    refine h.keep rfl rfl ?_
    rw [hprogress]
    simp only [LogState.progress]
    omega

theorem PrintedInOrder.step (h : PrintedInOrder niodet s) (hlog : Logged niodet longlats s)
    {a : LogStep T} (hok : Orderly niodet longlats s a)
    (hst : logStep niodet longlats a s = some t) : PrintedInOrder niodet t := by
  cases a with
  | claim w det =>
    have hprogress := progress_claim hok hst
    simp only [logStep] at hst
    split at hst
    · obtain rfl := Option.some.inj hst
      exact h.keep rfl rfl hprogress
    · cases hst
  | store w =>
    simp only [logStep] at hst
    split at hst
    · obtain rfl := Option.some.inj hst
      exact h.keep rfl rfl rfl
    · cases hst
  | report =>
    simp only [logStep] at hst
    split at hst
    · rename_i hguard
      obtain rfl := Option.some.inj hst
      exact h.keep rfl rfl (by simp only [LogState.progress, hguard.1])
    · cases hst
  | summary halts =>
    simp only [logStep] at hst
    split at hst
    · rename_i hguard
      obtain rfl := Option.some.inj hst
      refine h.keep rfl rfl ?_
      cases halts <;> cases longlats <;> simp only [LogState.progress, hguard.1] <;> rfl
    · cases hst
  | print => exact h.print hlog hst
  | reset =>
    simp only [logStep] at hst
    split at hst
    · rename_i final hr
      obtain rfl := Option.some.inj hst
      refine h.reset hlog rfl rfl ?_
      cases final <;> rfl
    · cases hst
  | clear =>
    simp only [logStep] at hst
    split at hst
    · obtain rfl := Option.some.inj hst
      exact h.reset hlog rfl rfl rfl
    · cases hst

theorem printedInOrder_of_reachable
    (h : (detailsLog T niodet longlats).Reachable (Orderly niodet longlats) s) :
    Logged niodet longlats s ∧ PrintedInOrder niodet s :=
  h.invariant (I := fun s => Logged niodet longlats s ∧ PrintedInOrder niodet s)
    ⟨logged_init, printedInOrder_init⟩ fun _ _ _ hs hok hst =>
      ⟨hs.1.step hok hst, hs.2.step hs.1 hok hst⟩

theorem PrintedInOrder.reportOf_eq (h : PrintedInOrder niodet s)
    (hlog : Logged niodet longlats s) (p : ℕ) :
    ∃ m ≤ niodet.toNat, (s.reportOf p).map Printed.index = List.range m := by
  obtain hlt | heq | hgt := Nat.lt_trichotomy p s.period
  · exact h.past p hlt
  · subst heq
    exact ⟨_, hlog.progress_le, h.current⟩
  · exact ⟨0, Nat.zero_le _, by rw [hlog.reportOf_eq_nil hgt]; rfl⟩

theorem getElem?_reportOf {p m i : ℕ} {e : Printed}
    (h : (s.reportOf p).map Printed.index = List.range m) :
    (s.reportOf p)[i]? = some e ↔ e ∈ s.printed ∧ e.period = p ∧ e.index = i := by
  have hmem : e ∈ s.reportOf p ↔ e ∈ s.printed ∧ e.period = p := by simp [LogState.reportOf]
  have hindex : ∀ {j : ℕ} {f : Printed}, (s.reportOf p)[j]? = some f → f.index = j := by
    intro j f hf
    have hmap : ((s.reportOf p).map Printed.index)[j]? = some f.index := by
      rw [List.getElem?_map, hf]
      rfl
    rw [h] at hmap
    obtain ⟨hlt, heq⟩ := List.getElem?_eq_some_iff.mp hmap
    rw [← heq, List.getElem_range]
  constructor
  · intro hi
    obtain ⟨he, hp⟩ := hmem.mp (List.mem_of_getElem? hi)
    exact ⟨he, hp, hindex hi⟩
  · rintro ⟨he, hp, rfl⟩
    obtain ⟨j, hj⟩ := List.mem_iff_getElem?.mp (hmem.mpr ⟨he, hp⟩)
    rw [hindex hj]
    exact hj

/-- **The report of a period reads back as the records of that period.** In every orderly run,
what can be read from the text printed in a period is, line by line and in the order in which
their entries were claimed, what there is to say of the records that were added in it, as far as
the log had room for them and the report has come. -/
theorem report_reads_back
    (h : (detailsLog T niodet longlats).Reachable (Orderly niodet longlats) s)
    (hline : '\n' ∉ lead) (p : ℕ) :
    ∃ recs : List Rec,
      readReport lead (s.reportText lead p) =
        some ((detailsLoop 0 0 (recs.map fun c => c.stored.det.entry)).map fun l =>
          l.2.detail l.1) ∧
      ∀ i c, recs[i]? = some c ↔ c ∈ s.added ∧ c.period = p ∧ c.index = i ∧ i < niodet.toNat ∧
        Passed s.period (s.progress niodet) p i := by
  obtain ⟨hlog, horder⟩ := printedInOrder_of_reachable h
  obtain ⟨m, hm, hindex⟩ := horder.reportOf_eq hlog p
  have : Nonempty Rec := ⟨⟨0, 0, 0, zeroIodet⟩⟩
  choose! rec hadded hentry hperiod hidx using hlog.reports.genuine
  have hreport : ∀ {i e}, (s.reportOf p)[i]? = some e →
      e ∈ s.printed ∧ e.period = p ∧ e.index = i := fun hi => (getElem?_reportOf hindex).mp hi
  refine ⟨(s.reportOf p).map rec, ?_, fun i c => ?_⟩
  · have hlogged : (s.reportOf p).map Printed.logged =
        ((s.reportOf p).map rec).map fun c => c.stored.det.entry := by
      rw [List.map_map]
      apply List.map_congr_left
      intro e he
      obtain ⟨i, hi⟩ := List.mem_iff_getElem?.mp he
      simp [Printed.logged, hentry e (hreport hi).1]
    rw [LogState.reportText, hlogged]
    exact readReport_iobDetailsOutput hline _
  · rw [List.getElem?_map, Option.map_eq_some_iff]
    constructor
    · rintro ⟨e, hi, rfl⟩
      obtain ⟨he, hp, hei⟩ := hreport hi
      have hlt : i < m := by
        have hmap : ((s.reportOf p).map Printed.index)[i]? = some e.index := by
          rw [List.getElem?_map, hi]
          rfl
        rw [hindex] at hmap
        simpa using (List.getElem?_eq_some_iff.mp hmap).1
      have hpassed := hlog.reports.passed e he
      rw [hp, hei] at hpassed
      exact ⟨hadded e he, (hperiod e he).trans hp, (hidx e he).trans hei, hlt.trans_le hm, hpassed⟩
    · rintro ⟨hc, rfl, rfl, hn, hpassed⟩
      obtain ⟨e, he, hstored⟩ := hlog.reports.reported c hc hn hpassed
      have hid : e.entry.map Rec.id = some c.id := by
        rw [hstored]
        rfl
      obtain ⟨hp, hi⟩ := Prod.mk.inj (hlog.key_of_printed hc he hid)
      refine ⟨e, (getElem?_reportOf hindex).mpr ⟨he, hp, hi⟩, ?_⟩
      have hsame : (rec e).stored = c.stored := Option.some.inj ((hentry e he).symm.trans hstored)
      have hids : (rec e).stored.id = c.stored.id := congrArg Rec.id hsame
      exact hlog.claims.idInj _ (hadded e he) _ hc hids

/-- One record, and a report behind it. -/
theorem report_reads_back_once : ∃ (s : LogState 1) (recs : List Rec),
    (detailsLog 1 100000 true).Reachable (Orderly 100000 true) s ∧
    recs[0]? = some ⟨0, 0, 0, longRead⟩ ∧
    readReport "iodet, ".toList (s.reportText "iodet, ".toList 0) =
      some ((detailsLoop 0 0 (recs.map fun c => c.stored.det.entry)).map fun l =>
        l.2.detail l.1) := by
  obtain ⟨s, hs, hperiod, hadded⟩ : ∃ s,
      (detailsLog 1 100000 true).Reachable (Orderly 100000 true) s ∧ s.period = 1 ∧
      s.added = [⟨0, 0, 0, longRead⟩] := by
    refine ⟨_, ⟨[.claim 0 longRead, .store 0, .report, .print, .print, .reset],
      Run.cons ⟨by decide, fun _ => ⟨rfl, rfl⟩⟩ rfl (Run.cons trivial rfl (Run.cons trivial rfl
      (Run.cons ?_ rfl (Run.cons ?_ rfl (Run.cons trivial rfl .nil)))))⟩, rfl, rfl⟩
    all_goals
      intro final maxdet i _ _ w c hw
      cases w using Fin.cases with
      | zero => cases hw
      | succ j => exact j.elim0
  have hline : '\n' ∉ "iodet, ".toList := by decide
  obtain ⟨recs, hread, hrecs⟩ := report_reads_back hs hline 0
  have hpassed : Passed s.period (s.progress 100000) 0 0 := .inl (by omega)
  refine ⟨s, recs, hs, (hrecs 0 _).mpr ⟨?_, rfl, rfl, by decide, hpassed⟩, hread⟩
  rw [hadded]
  exact List.mem_cons_self

end Runs

end Blockbench
