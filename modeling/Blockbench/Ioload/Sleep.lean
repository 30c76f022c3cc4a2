import Mathlib.Tactic.Linarith
import Blockbench.Ioload.Aligned
import Blockbench.Ioload.Pieces

/-!
# `Ioload/Sleep.lean` — how long a SLEEP type sleeps

A SLEEP type goes through the same piece loop as a READ or a WRITE, with microseconds for bytes.
`io_start` draws how long a piece sleeps, stores that in the size of the piece, and the loop
takes it off what is left. Two things are asked of it.

**The whole sleep is the time asked for** (`sleeps_full_time`), rounded up to a multiple of 50,
whatever is drawn. Every piece is a multiple of 50 and at most what is left rounded up, so the
sum of the pieces never passes the total rounded up; and the loop goes on until the sum is at
least the total.

**A piece sleeps as long as its size says** (`sleeps_right_iff`) only when a thousand times the
size fits in 32 bits, because the nanoseconds are computed as an `unsigned` product before the
remainder is taken. Sleep times and `maxiosize` are both allowed to be larger than that, so the
condition is on the smaller of them.
-/

set_option autoImplicit false

namespace Blockbench
namespace Ioload

open CInt Machine

/-! ## The pieces of a sleep -/

/-- `idp->size` of the piece the loop is about to issue, as `io_start` leaves it. -/
def pieceSize (maxiosize : Int32) (optype : OpType) (mrand : UInt32) (l : PieceLoop) :
    Option UInt32 :=
  if 0 < l.sz then ioStartSize optype (detailSize maxiosize l.sz) mrand else none

/-- One pass of the loop, with the sizes `io_start` has left in its pieces. -/
structure SleepPass where
  loop : PieceLoop
  slept : List UInt32

/-- `while (sz > 0)` for a SLEEP type, keeping what each piece slept. -/
def sleepPass (maxiosize : Int32) (ip : Itype) (offset : UInt64) : Machine SleepPass UInt32 where
  init := ⟨(pieceLoop maxiosize ip offset).init, []⟩
  step mrand s := do
    let size ← pieceSize maxiosize ip.optype mrand s.loop
    let loop ← pieceStep maxiosize ip.optype mrand s.loop
    return ⟨loop, size :: s.slept⟩

def SleepPass.total (s : SleepPass) : ℕ := (s.slept.map UInt32.toNat).sum

/-- A multiple of 50 and no less. -/
def roundUp (s : ℕ) : ℕ := (s + 49) / 50 * 50

section Piece

variable {m : Int32} {l l' : PieceLoop} {mrand size : UInt32} {optype : OpType}

theorem pieceStep_eq (m : Int32) (optype : OpType) (mrand : UInt32) (l : PieceLoop) :
    pieceStep m optype mrand l = (pieceSize m optype mrand l).map fun size =>
      { baseoff := l.baseoff + size.toUInt64, sz := (l.sz.toUInt32 - size).toInt32 } := by
  unfold pieceStep pieceSize
  split
  · rfl
  · rfl

/-- What a SLEEP piece sleeps: the draw below its size, and 50, rounded down to 50. -/
theorem toNat_pieceSize (h : pieceSize m .sleep mrand l = some size) :
    0 < l.sz.toInt ∧ 0 < m.toUInt32.toNat ∧
      size.toNat = (mrand.toNat % min m.toUInt32.toNat l.sz.toInt.toNat + 50) / 50 * 50 := by
  unfold pieceSize at h
  split at h
  · rename_i hsz
    have hpos : 0 < l.sz.toInt := Int32.lt_iff_toInt_lt.mp hsz
    have hlt := Int32.toInt_lt l.sz
    have hdetail := toNat_detailSize m hpos
    obtain ⟨hgiven, hslept⟩ := toNat_slept (by omega) h
    rw [hdetail] at hgiven hslept
    exact ⟨hpos, by omega, hslept⟩
  · cases h

theorem exists_pieceSize (hm : 0 < m.toUInt32.toNat) (hsz : 0 < l.sz) (optype : OpType)
    (mrand : UInt32) : ∃ size, pieceSize m optype mrand l = some size := by
  have hsome : (pieceStep m optype mrand l).isSome := pieceStep_isSome hm hsz
  rw [pieceStep_eq, Option.isSome_map] at hsome
  exact Option.isSome_iff_exists.mp hsome

end Piece

/-! ## The whole sleep -/

section Total

variable {m : Int32} {ip : Itype} {offset : UInt64} {s t : SleepPass} {mrand : UInt32}

/-- The account of a pass: what is left and what was slept make up the time asked for, and what
was slept is a multiple of 50 that does not pass it rounded up. -/
structure Slept (ip : Itype) (s : SleepPass) : Prop where
  rest : s.loop.sz.toInt = (ip.size.toNat : ℤ) - s.total
  dvd : 50 ∣ s.total
  le : s.total ≤ roundUp ip.size.toNat

/-- **A piece keeps the account**, whatever is drawn. -/
theorem Slept.step (hsleep : ip.optype = .sleep) (h : Slept ip s)
    (hst : (sleepPass m ip offset).step mrand s = some t) : Slept ip t := by
  simp only [sleepPass, Option.bind_eq_bind, Option.bind_eq_some_iff, Option.pure_def,
    Option.some.injEq] at hst
  obtain ⟨size, hsize, l, hl, rfl⟩ := hst
  rw [pieceStep_eq, hsize, Option.map_some, Option.some.injEq] at hl
  subst hl
  rw [hsleep] at hsize
  obtain ⟨hpos, hm, hslept⟩ := toNat_pieceSize hsize
  have hrest := h.rest
  have hdvd := h.dvd
  have hle := h.le
  have htotal : SleepPass.total ⟨⟨s.loop.baseoff + size.toUInt64,
      (s.loop.sz.toUInt32 - size).toInt32⟩, size :: s.slept⟩ = size.toNat + s.total := by
    rw [SleepPass.total, List.map_cons, List.sum_cons, SleepPass.total]
  -- the draw is below what is left
  have hmod : mrand.toNat % min m.toUInt32.toNat s.loop.sz.toInt.toNat
      < min m.toUInt32.toNat s.loop.sz.toInt.toNat := Nat.mod_lt _ (by omega)
  have hdraw := hmod.trans_le (min_le_right _ _)
  generalize mrand.toNat % min m.toUInt32.toNat s.loop.sz.toInt.toNat = d at hslept hdraw
  refine ⟨?_, ?_, ?_⟩
  · rw [htotal]
    show (s.loop.sz.toUInt32 - size).toInt32.toInt = _
    rw [toInt_sub_slept hpos (by omega)]
    omega
  · rw [htotal]
    omega
  · rw [htotal]
    unfold roundUp at hle ⊢
    omega

theorem run_loop {as : List UInt32} (h : Run (sleepPass m ip offset) always s as t) :
    Run (pieceLoop m ip offset) always s.loop as t.loop := by
  induction h with
  | nil => exact .nil
  | snoc _ _ hst ih =>
    simp only [sleepPass, Option.bind_eq_bind, Option.bind_eq_some_iff, Option.pure_def,
      Option.some.injEq] at hst
    obtain ⟨size, -, l, hl, rfl⟩ := hst
    exact ih.snoc trivial hl

theorem slept_init (hlt : ip.size.toNat < 2 ^ 31) : Slept ip (sleepPass m ip offset).init := by
  refine ⟨?_, Nat.dvd_zero _, Nat.zero_le _⟩
  show ip.size.toInt32.toInt = _
  rw [toInt_toInt32_eq, if_pos hlt]
  exact (sub_zero _).symm

/-- When the loop is over, the sleep is the time asked for, rounded up. -/
theorem Slept.total_eq (h : Slept ip s) (hover : ¬ 0 < s.loop.sz) :
    s.total = roundUp ip.size.toNat := by
  have hrest := h.rest
  have hdvd := h.dvd
  have hle := h.le
  have hzero : (0 : Int32).toInt = 0 := rfl
  rw [Int32.lt_iff_toInt_lt] at hover
  unfold roundUp at hle ⊢
  omega

/-- The pieces drawn from a sequence of numbers go on until nothing is left. -/
theorem exists_pass (ip : Itype) (offset : UInt64) (hm : 0 < m.toUInt32.toNat)
    (draws : ℕ → UInt32) (s : SleepPass) :
    ∃ n t, Run (sleepPass m ip offset) always s ((List.range n).map draws) t ∧
      ¬ 0 < t.loop.sz := by
  induction hn : s.loop.sz.toInt.toNat using Nat.strongRecOn generalizing s draws with
  | ind n ih =>
    by_cases hsz : 0 < s.loop.sz
    · have hsome : (pieceStep m ip.optype (draws 0) s.loop).isSome := pieceStep_isSome hm hsz
      obtain ⟨l, hl⟩ := Option.isSome_iff_exists.mp hsome
      obtain ⟨size, hsize, -⟩ := Option.map_eq_some_iff.mp (pieceStep_eq m _ _ _ ▸ hl)
      have hst : (sleepPass m ip offset).step (draws 0) s = some ⟨l, size :: s.slept⟩ := by
        simp only [sleepPass, hsize, hl, Option.bind_eq_bind, Option.bind_some, Option.pure_def]
      obtain ⟨hpos, hlt⟩ := pieceStep_lt hm hl
      obtain ⟨k, t, hrun, hover⟩ := ih l.sz.toInt.toNat (by omega) (fun i => draws (i + 1))
        ⟨l, size :: s.slept⟩ rfl
      refine ⟨k + 1, t, ?_, hover⟩
      have := Run.cons trivial hst hrun
      rwa [List.range_succ_eq_map, List.map_cons, List.map_map]
    · exact ⟨0, s, .nil, hsz⟩

/-- **A SLEEP type sleeps for its full time.** Whatever is drawn, one pass of the loop ends, and
its pieces sleep exactly the time asked for, rounded up to a multiple of 50. -/
theorem sleeps_full_time (hsleep : ip.optype = .sleep) (hlt : ip.size.toNat < 2 ^ 31)
    (hm : 1 ≤ m.toInt) (offset : UInt64) (draws : ℕ → UInt32) :
    ∃ n s, Run (sleepPass m ip offset) always (sleepPass m ip offset).init
        ((List.range n).map draws) s ∧
      Run (pieceLoop m ip offset) always (pieceLoop m ip offset).init
        ((List.range n).map draws) s.loop ∧
      ¬ 0 < s.loop.sz ∧ s.total = roundUp ip.size.toNat := by
  have hpos : 0 < m.toUInt32.toNat := by
    rw [toNat_toUInt32_of_nonneg (by omega)]
    omega
  obtain ⟨n, s, hrun, hover⟩ := exists_pass ip offset hpos draws (sleepPass m ip offset).init
  have hslept : Slept ip s := hrun.keeps (fun _ _ _ h _ hst => h.step hsleep hst) (slept_init hlt)
  exact ⟨n, s, hrun, run_loop hrun, hover, hslept.total_eq hover⟩

end Total

/-- The default sleep, 5000 microseconds. -/
def sleepType : Itype := { defitype with optype := .sleep, size := 5000 }

theorem sleeps_full_time_default : ∃ n s, Run (sleepPass params.maxiosize sleepType 0) always
      (sleepPass params.maxiosize sleepType 0).init ((List.range n).map fun _ => 49) s ∧
    Run (pieceLoop params.maxiosize sleepType 0) always
      (pieceLoop params.maxiosize sleepType 0).init ((List.range n).map fun _ => 49) s.loop ∧
    ¬ 0 < s.loop.sz ∧ s.total = roundUp 5000 :=
  sleeps_full_time rfl (by decide) (by decide) 0 fun _ => 49

/-! ## One piece -/

structure Timespec where
  tvSec : ℕ
  tvNsec : ℕ
  deriving DecidableEq, Repr

/-- `tm` as `io_start` sets it from `idp->size`; both operands are 32 bits wide. -/
def sleepTime (size : UInt32) : Timespec where
  tvSec := (size / 1000000).toNat
  tvNsec := (size * 1000 % 1000000000).toNat

/-- A well-formed `timespec` of that many microseconds. -/
structure Timespec.Lasts (tm : Timespec) (us : ℕ) : Prop where
  nsec_lt : tm.tvNsec < 10 ^ 9
  total : tm.tvSec * 10 ^ 9 + tm.tvNsec = 1000 * us

theorem eq_zero_of_lost {a k q : ℕ} (h : 1000000000 * a = 2 ^ 32 * q + 1000000000 * k)
    (hq : q < 1953125) : q = 0 := by
  have hleft : 1953125 ∣ 2 ^ 32 * q + 1000000000 * k := by
    rw [← h]
    exact Dvd.dvd.mul_right (by norm_num) a
  have hright : 1953125 ∣ 1000000000 * k := Dvd.dvd.mul_right (by norm_num) k
  have hdvd : 1953125 ∣ 2 ^ 32 * q := (Nat.dvd_add_left hright).mp hleft
  have hcop : Nat.Coprime 1953125 (2 ^ 32) := by decide
  exact Nat.eq_zero_of_dvd_of_lt (hcop.dvd_of_dvd_mul_left hdvd) hq

/-- The remainder of a product kept in 32 bits is the remainder of the product when nothing was
lost, and only then: what is lost is less than a thousand times `2 ^ 32`. -/
theorem seconds_and_rest_iff {us : ℕ} (hus : us < 2 ^ 32) :
    us / 1000000 * 10 ^ 9 + us * 1000 % 2 ^ 32 % 1000000000 = 1000 * us ↔ 1000 * us < 2 ^ 32 := by
  have hsmall : us * 1000 / 2 ^ 32 < 1953125 := by omega
  constructor
  · intro h
    have hlost := Nat.div_add_mod (us * 1000) (2 ^ 32)
    have hrest := Nat.mod_lt (us * 1000) (by norm_num : 2 ^ 32 > 0)
    have hkept := Nat.div_add_mod (us * 1000 % 2 ^ 32) 1000000000
    generalize us * 1000 % 2 ^ 32 = r at hlost hrest hkept h
    generalize us * 1000 / 2 ^ 32 = q at hlost hsmall
    generalize r / 1000000000 = k at hkept
    generalize r % 1000000000 = n at hkept h
    generalize us / 1000000 = a at h
    have hnone : q = 0 := eq_zero_of_lost (a := a) (k := k) (by linarith) hsmall
    rw [hnone, Nat.mul_zero, Nat.zero_add] at hlost
    rwa [Nat.mul_comm, ← hlost]
  · intro hlt
    rw [Nat.mod_eq_of_lt (by omega : us * 1000 < 2 ^ 32)]
    omega

/-- **The `timespec` is the size exactly when the product fits in 32 bits.** Seconds and
nanoseconds are computed separately, and only the product by 1000 in front of the second remainder
can wrap; when it does, what is left of it is never congruent to it modulo `10 ^ 9`
(`eq_zero_of_lost`). -/
theorem sleepTime_lasts_iff (size : UInt32) :
    (sleepTime size).Lasts size.toNat ↔ 1000 * size.toNat < 2 ^ 32 := by
  have hsec : (sleepTime size).tvSec = size.toNat / 1000000 := UInt32.toNat_div _ _
  have hnsec : (sleepTime size).tvNsec = size.toNat * 1000 % 2 ^ 32 % 1000000000 := by
    show (size * 1000 % 1000000000).toNat = _
    rw [UInt32.toNat_mod, UInt32.toNat_mul]
    rfl
  rw [← seconds_and_rest_iff (UInt32.toNat_lt size), ← hsec, ← hnsec]
  refine ⟨fun h => h.total, fun h => ⟨?_, h⟩⟩
  rw [hnsec]
  exact Nat.mod_lt _ (by norm_num)

/-! ## Over every call of `do_io` -/

/-- Each SLEEP piece of every call sleeps as long as the size `io_start` has set says. -/
def SleepsRight (t : IoThread) : Prop :=
  ∀ ignErrors finish now start endTime s,
    (doIo ignErrors finish t now start endTime).Reachable always s →
      ∀ ip offset l, s.pc = .pieces ip offset l → ip.optype = .sleep →
        ∀ mrand size, pieceSize t.params.maxiosize ip.optype mrand l = some size →
          (sleepTime size).Lasts size.toNat

/-- The largest piece whose product with 1000 fits. -/
abbrev maxSleep : ℕ := 4294950

/-- The condition on the options, with `maxiosize` at least one. -/
def SleepOptions (cp : CmdParams) (itlist : List Itype) : Prop :=
  cp.maxthreads.toInt ≤ 0 ∨ RangeEmpty cp itlist ∨
    ∀ ip, Selected itlist ip → ip.optype = .sleep →
      min ip.size.toNat cp.maxiosize.toInt.toNat ≤ maxSleep

section Thread

variable {t : IoThread} {ip : Itype} {offset : UInt64} {l : PieceLoop}

theorem sz_le_of_reachable {m : Int32} (hm : 0 < m.toUInt32.toNat)
    (h : (pieceLoop m ip offset).Reachable always l) :
    l.sz.toInt ≤ ip.size.toInt32.toInt :=
  h.invariant (I := fun l => l.sz.toInt ≤ ip.size.toInt32.toInt) le_rfl
    fun _ _ _ hle _ hst => (pieceStep_lt hm hst).2.le.trans hle

/-- The condition is enough: a piece is at most the smaller of the two, rounded up. -/
theorem sleepsRight_of_small (hok : ∀ ip ∈ t.itlist, ip.Ok) (hm : 1 ≤ t.params.maxiosize.toInt)
    (h : ∀ ip, Selected t.itlist ip → ip.optype = .sleep →
      min ip.size.toNat t.params.maxiosize.toInt.toNat ≤ maxSleep) : SleepsRight t := by
  intro ignErrors finish now start endTime s hreach ip offset l hpc hsleep mrand size hsize
  have hpcOk := (draws_of_reachable hreach).pc
  rw [hpc] at hpcOk
  obtain ⟨hsel, -, hloop⟩ := hpcOk
  have hmu : t.params.maxiosize.toUInt32.toNat = t.params.maxiosize.toInt.toNat :=
    toNat_toUInt32_of_nonneg (by omega)
  have hle := sz_le_of_reachable (by omega) hloop
  have hlt := ((hok ip hsel.mem).sleep hsleep).2
  rw [toInt_toInt32_eq, if_pos hlt] at hle
  rw [hsleep] at hsize
  obtain ⟨hpos, -, hslept⟩ := toNat_pieceSize hsize
  have hdraw := Nat.mod_lt mrand.toNat
    (by omega : 0 < min t.params.maxiosize.toUInt32.toNat l.sz.toInt.toNat)
  have hsmall := h ip hsel hsleep
  rw [sleepTime_lasts_iff]
  unfold maxSleep at hsmall
  omega

theorem sleepsRight_of_empty (h : t.rangeoff = 0) : SleepsRight t := by
  intro ignErrors finish now start endTime s hreach ip offset l hpc _ mrand size _
  have hpcOk := (draws_of_reachable hreach).pc
  rw [hpc] at hpcOk
  obtain ⟨-, ⟨rand, hoff⟩, -⟩ := hpcOk
  rw [ioOffset, if_pos (.inr h)] at hoff
  cases hoff

theorem sleepsRight_iff (hp : t.params.Ranged) (hok : ∀ ip ∈ t.itlist, ip.Ok)
    (hm : 1 ≤ t.params.maxiosize.toInt) (hrange : t.rangeoff = rangeoff t.params t.itlist) :
    SleepsRight t ↔ RangeEmpty t.params t.itlist ∨
      ∀ ip, Selected t.itlist ip → ip.optype = .sleep →
        min ip.size.toNat t.params.maxiosize.toInt.toNat ≤ maxSleep := by
  rw [← rangeoff_eq_zero_iff hp hok, ← hrange]
  constructor
  · intro h
    by_cases hz : t.rangeoff = 0
    · exact .inl hz
    · right
      intro ip hsel hsleep
      obtain ⟨hge, hlt⟩ := (hok ip hsel.mem).sleep hsleep
      have hne : ip.size ≠ 0 := fun h0 => by
        rw [h0] at hge
        exact absurd hge (by decide)
      obtain ⟨offset, hoff⟩ := exists_ioOffset hne hz 0
      obtain ⟨s, hreach, hpc⟩ := reaches_pieces hsel hoff
      have hmu : t.params.maxiosize.toUInt32.toNat = t.params.maxiosize.toInt.toNat :=
        toNat_toUInt32_of_nonneg (by omega)
      have hint : ip.size.toInt32.toInt = ip.size.toNat := by
        rw [toInt_toInt32_eq, if_pos hlt]
      -- the draw that makes the first piece as long as it can be
      have hsz : 0 < ip.size.toInt32 := toInt32_pos_iff.mpr ⟨by omega, hlt⟩
      have hmpos : 0 < t.params.maxiosize.toUInt32.toNat := by omega
      have hfirst : (pieceLoop t.params.maxiosize ip offset).init.sz.toInt.toNat =
          ip.size.toNat := by
        show ip.size.toInt32.toInt.toNat = _
        rw [hint, Int.toNat_natCast]
      generalize hd : min t.params.maxiosize.toInt.toNat ip.size.toNat = d
      have hdraw : (UInt32.ofNat (d - 1)).toNat = d - 1 :=
        UInt32.toNat_ofNat_of_lt' (by show d - 1 < 2 ^ 32; omega)
      obtain ⟨size, hsize⟩ := exists_pieceSize
        (l := (pieceLoop t.params.maxiosize ip offset).init) hmpos hsz ip.optype
        (UInt32.ofNat (d - 1))
      have hlasts := h _ _ _ _ _ s hreach ip offset _ hpc hsleep _ _ hsize
      rw [sleepTime_lasts_iff] at hlasts
      rw [hsleep] at hsize
      obtain ⟨-, -, hslept⟩ := toNat_pieceSize hsize
      rw [hmu, hfirst, hd, hdraw, Nat.mod_eq_of_lt (by omega)] at hslept
      unfold maxSleep
      omega
  · rintro (hz | hsmall)
    · exact sleepsRight_of_empty hz
    · exact sleepsRight_of_small hok hm hsmall

end Thread

/-- **When the kernel is given the sleep that was computed.** In an accepted configuration whose
`maxiosize` is at least one, the `timespec` of each SLEEP piece of every call is its size exactly
when no type that can be selected sleeps, in one piece, longer than `maxSleep` microseconds. -/
theorem sleeps_right_iff {args : List CmdOpt} {c : Config} {nfiles : ℕ} {files : List File}
    (hargs : getopt args = some c) (hfiles : 0 < nfiles)
    (hinit : initThreads nfiles c.cp c.itlist = some files) (hm : 1 ≤ c.cp.maxiosize.toInt) :
    (∀ f ∈ files, ∀ t ∈ f.ithreads, SleepsRight t) ↔ SleepOptions c.cp c.itlist := by
  obtain ⟨hok, -⟩ := ok_of_getopt hargs
  apply all_threads_iff hinit hfiles
  intro t hcp hlist hrange
  rw [← hcp, ← hlist] at hrange
  rw [sleepsRight_iff (hcp ▸ hok.ranged) (hlist ▸ hok.itypes) (hcp ▸ hm) hrange, hcp, hlist]

/-- Five milliseconds, as a SLEEP type without `sleeptm` has. -/
def shortSleep : Itype := { defitype with optype := .sleep, size := 5000 }

/-- `-i op=sleep`: whatever is drawn, and a piece that sleeps all of it. -/
theorem sleeps_right_default : ∃ c files, getopt [.i [.op .sleep]] = some c ∧
    initThreads 1 c.cp c.itlist = some files ∧ (∀ f ∈ files, ∀ t ∈ f.ithreads, SleepsRight t) ∧
    ∃ f ∈ files, ∃ t ∈ f.ithreads, ∃ s offset l, (doIo false 1 t 0 0 0).Reachable always s ∧
      s.pc = .pieces shortSleep offset l ∧
      pieceSize t.params.maxiosize shortSleep.optype 4999 l = some 5000 ∧
      (sleepTime 5000).Lasts 5000 := by
  have hargs : getopt [.i [.op .sleep]] =
      some ⟨params, [shortSleep], false, false, false, false⟩ := rfl
  have hright := (sleeps_right_iff hargs Nat.one_pos rfl (by decide)).mpr
    (.inr (.inr fun ip hsel _ => by
      obtain rfl := List.mem_singleton.mp hsel.mem
      decide))
  refine ⟨_, _, hargs, rfl, hright, _, List.mem_cons_self, _, List.mem_cons_self, ?_⟩
  obtain ⟨s, offset, l, hs, hpc, hsize⟩ : ∃ s offset l,
      (doIo false 1 (ithreadinit 0 params [shortSleep] 5000) 0 0 0).Reachable always s ∧
      s.pc = .pieces shortSleep offset l ∧
      pieceSize params.maxiosize shortSleep.optype 4999 l = some 5000 :=
    ⟨_, _, _, ⟨[.top 0 0], Run.single trivial rfl⟩, rfl, rfl⟩
  exact ⟨s, offset, l, hs, hpc, hsize, hright _ List.mem_cons_self _ List.mem_cons_self
    false 1 0 0 0 s hs shortSleep offset l hpc rfl 4999 5000 hsize⟩

def longSleep : Itype := { defitype with optype := .sleep, size := 5000000 }

/-- `-m maxiosize=8000000 -i op=sleep,sleeptm=5000000`: a piece of five seconds is handed over as
5 s and 705032704 ns. -/
theorem sleeps_wrong : ¬ ∀ (args : List CmdOpt) (c : Config) (nfiles : ℕ)
    (files : List File), getopt args = some c → 0 < nfiles →
    initThreads nfiles c.cp c.itlist = some files → 1 ≤ c.cp.maxiosize.toInt →
    ∀ f ∈ files, ∀ t ∈ f.ithreads, SleepsRight t := by
  intro h
  have hargs : getopt [.m [.maxiosize (some 8000000)], .i [.op .sleep, .sleeptm (some 5000000)]]
      = some ⟨{ params with maxiosize := 8000000 }, [longSleep], false, false, false, false⟩ := rfl
  obtain ⟨hok, -⟩ := ok_of_getopt hargs
  have hright : SleepsRight
      (ithreadinit 0 { params with maxiosize := 8000000 } [longSleep] 5000000) :=
    h _ _ 1 _ hargs Nat.one_pos rfl (by decide) _ List.mem_cons_self _ List.mem_cons_self
  rcases (sleepsRight_iff hok.ranged hok.itypes (by decide) rfl).mp hright with hempty | hsmall
  · exact absurd hempty.2.2 (by decide)
  · have hsel : Selected [longSleep] longSleep := ⟨_, _, rfl, 0, rfl⟩
    exact absurd (hsmall longSleep hsel rfl) (by decide)

end Ioload
end Blockbench
