import Blockbench.Lib.Extent
import Blockbench.Lib.Machine
import Blockbench.Ioload.Init

/-!
# `Ioload/DoIo.lean` — `do_io`

One call of `do_io` as a machine whose actions carry what the program draws or is told: the
numbers of `drand48` and `mrand48` and the result of an I/O. `IOB_RAND64` is one 64-bit draw.

The inner `while (sz > 0)` is a machine of its own, `pieceLoop`, because most of what there is
to prove is about it: `sz` is an `int` set from an unsigned size and reduced by an unsigned
one, and for a SLEEP type `io_start` changes the size it is reduced by. `IsPiece` names what
the loop issues for one type and one draw, and `doIo_issued` says that a whole call of `do_io`
issues nothing else.

A remainder by zero ends the program; `none` stands for it where a value is computed.
-/

set_option autoImplicit false

namespace Blockbench
namespace Ioload

open CInt Machine

/-- The selection loop, in the arithmetic of `α`: the last type gets the draws the others leave
over. -/
def selectBy {α : Type} [LT α] [DecidableLT α] [Sub α] (pct : Itype → α) :
    Itype → List Itype → α → Itype
  | ip, [], _ => ip
  | ip, next :: rest, ioselect =>
    if ioselect < pct ip then ip else selectBy pct next rest (ioselect - pct ip)

/-- The selection loop as it runs: each difference is rounded to a double. -/
def selectItype (ip : Itype) (rest : List Itype) (ioselect : Binary64) : Itype :=
  selectBy Itype.pct ip rest ioselect

/-- Where an I/O starts, from one draw of `IOB_RAND64`. -/
def ioOffset (itp : IoThread) (ip : Itype) (rand : UInt64) : Option UInt64 :=
  if ip.size = 0 ∨ itp.rangeoff = 0 then none
  else
    let offset := rand - rand % ip.size.toUInt64
    let offset := offset + itp.params.headersz
    some ((offset % itp.rangeoff) * u64OfI32 itp.params.multiplier + itp.params.minoff)

/-- `rp->detail.size` as `do_io` sets it; the comparison with `maxiosize` is unsigned. -/
def detailSize (maxiosize sz : Int32) : UInt32 :=
  if maxiosize.toUInt32 < sz.toUInt32 then maxiosize.toUInt32 else sz.toUInt32

/-- `idp->size` after `io_start`: a SLEEP piece is replaced by the time it slept. -/
def ioStartSize (optype : OpType) (size mrand : UInt32) : Option UInt32 :=
  if optype = .sleep then
    if size = 0 then none
    else
      let slu := mrand % size + 50
      some (slu - slu % 50)
  else some size

structure PieceLoop where
  baseoff : UInt64
  sz : Int32
  deriving DecidableEq, Repr

def pieceStep (maxiosize : Int32) (optype : OpType) (mrand : UInt32) (l : PieceLoop) :
    Option PieceLoop :=
  if 0 < l.sz then
    (ioStartSize optype (detailSize maxiosize l.sz) mrand).map fun size =>
      { baseoff := l.baseoff + size.toUInt64, sz := (l.sz.toUInt32 - size).toInt32 }
  else none

def pieceLoop (maxiosize : Int32) (ip : Itype) (offset : UInt64) :
    Machine PieceLoop UInt32 where
  init := { baseoff := offset, sz := ip.size.toInt32 }
  step := pieceStep maxiosize ip.optype

/-- The bytes of the piece the loop is about to issue. -/
def PieceLoop.extent (maxiosize : Int32) (l : PieceLoop) : Extent :=
  ⟨l.baseoff.toNat, (detailSize maxiosize l.sz).toNat⟩

/-- The piece `e` is issued for an I/O of type `ip` at the draw `rand`. -/
def IsPiece (itp : IoThread) (ip : Itype) (rand : UInt64) (e : Extent) : Prop :=
  ∃ offset l, ioOffset itp ip rand = some offset ∧
    (pieceLoop itp.params.maxiosize ip offset).Reachable always l ∧ 0 < l.sz ∧
    e = l.extent itp.params.maxiosize

/-! ## The whole call -/

/-- What `do_io` sets of `rp->detail` before it calls `io_start`. -/
structure Request where
  ionum : UInt32
  offset : UInt64
  size : UInt32
  type : OpType
  dtype : DataType

def Request.extent (r : Request) : Extent := ⟨r.offset.toNat, r.size.toNat⟩

/-- Where a thread is in `do_io`. `exited` is `iob_errlog` on a failed I/O, `trapped` a
remainder by zero. -/
inductive Pc
  | top
  | pieces (ip : Itype) (offset : UInt64) (l : PieceLoop)
  | repwrite (ip : Itype) (offset : UInt64)
  | pace
  | returned
  | trapped
  | exited

/-- The locals of `do_io`, the two times of `rp->detail`, and what has been issued. -/
structure DoIo where
  pc : Pc
  ionum : UInt64
  start : UInt64
  endTime : UInt64
  iotime : UInt64
  nextio : UInt64
  issued : List Request

inductive Act
  | top (ioselect : Drand48) (rand : UInt64)
  | io (mrand : UInt32) (r : IoResult)
  | spent
  | repwrite (u : Drand48)
  | pace (mrand : UInt32)

/-- The lines before the loop, with the clock's reading and the times the last call left in
`rp->detail`. -/
def doIoInit (itp : IoThread) (now start endTime : UInt64) : DoIo :=
  let iotime := if itp.params.maxrate ≠ 0 then nsecToSec / itp.params.maxrate.toUInt64 else 0
  { pc := .top
    ionum := 1
    start := start
    endTime := endTime
    iotime := iotime
    nextio := if itp.params.maxrate ≠ 0 then now + iotime else 0
    issued := [] }

def request (itp : IoThread) (ip : Itype) (ionum : UInt64) (l : PieceLoop) : Request where
  ionum := ionum.toUInt32
  offset := l.baseoff
  size := detailSize itp.params.maxiosize l.sz
  type := ip.optype
  dtype := ip.dtype

def doIoStep (ignErrors : Bool) (finish : UInt64) (itp : IoThread) :
    Act → DoIo → Option DoIo
  | .top ioselect rand, s =>
    match s.pc, itp.itlist with
    | .top, first :: rest =>
      if s.start < finish then
        let ip := selectItype first rest ioselect.double
        match ioOffset itp ip rand with
        | some offset =>
          some { s with pc := .pieces ip offset (pieceLoop itp.params.maxiosize ip offset).init }
        | none => some { s with pc := .trapped }
      else some { s with pc := .returned }
    | _, _ => none
  | .io mrand r, s =>
    match s.pc with
    | .pieces ip offset l =>
      if 0 < l.sz then
        -- the request is recorded as it is handed to `io_start`
        let s := { s with
          ionum := s.ionum + 1
          issued := request itp ip s.ionum l :: s.issued }
        match pieceStep itp.params.maxiosize ip.optype mrand l with
        | none => some { s with pc := .trapped }
        | some l' =>
          if r.error ∧ ¬ ignErrors then some { s with pc := .exited }
          else some { s with pc := .pieces ip offset l', start := r.start, endTime := r.endTime }
      else none
    | _ => none
  | .spent, s =>
    match s.pc with
    | .pieces ip offset l => if 0 < l.sz then none else some { s with pc := .repwrite ip offset }
    | _ => none
  | .repwrite u, s =>
    match s.pc with
    | .repwrite ip offset =>
      if ip.optype = .write ∧ u.double < ip.repwrite then
        some { s with pc := .pieces ip offset (pieceLoop itp.params.maxiosize ip offset).init }
      else some { s with pc := .pace }
    | _ => none
  | .pace mrand, s =>
    -- the sleep itself takes time but changes nothing here
    match s.pc with
    | .pace => some { s with
        pc := .top
        nextio := s.nextio + mrand.toUInt64 % (s.iotime * 2 + 1) }
    | _ => none

def doIo (ignErrors : Bool) (finish : UInt64) (itp : IoThread) (now start endTime : UInt64) :
    Machine DoIo Act where
  init := doIoInit itp now start endTime
  step := doIoStep ignErrors finish itp

/-! ## What a step can do -/

/-- The branches of `doIoStep`, with what each one found. -/
inductive DoIoMove (ignErrors : Bool) (finish : UInt64) (itp : IoThread) (s : DoIo) :
    Act → DoIo → Prop
  | late {ioselect : Drand48} {rand : UInt64} (hpc : s.pc = .top) (hlate : ¬ s.start < finish) :
      DoIoMove ignErrors finish itp s (.top ioselect rand) { s with pc := .returned }
  | drawn {ioselect : Drand48} {rand offset : UInt64} {first : Itype} {rest : List Itype}
      (hpc : s.pc = .top) (hlist : itp.itlist = first :: rest)
      (hoff : ioOffset itp (selectItype first rest ioselect.double) rand = some offset) :
      DoIoMove ignErrors finish itp s (.top ioselect rand) { s with
        pc := .pieces (selectItype first rest ioselect.double) offset
          (pieceLoop itp.params.maxiosize (selectItype first rest ioselect.double) offset).init }
  | noRange {ioselect : Drand48} {rand : UInt64} {first : Itype} {rest : List Itype}
      (hpc : s.pc = .top) (hlist : itp.itlist = first :: rest)
      (hoff : ioOffset itp (selectItype first rest ioselect.double) rand = none) :
      DoIoMove ignErrors finish itp s (.top ioselect rand) { s with pc := .trapped }
  | noSleep {mrand : UInt32} {r : IoResult} {ip : Itype} {offset : UInt64} {l : PieceLoop}
      (hpc : s.pc = .pieces ip offset l) (hsz : 0 < l.sz)
      (hl : pieceStep itp.params.maxiosize ip.optype mrand l = none) :
      DoIoMove ignErrors finish itp s (.io mrand r) { s with
        pc := .trapped
        ionum := s.ionum + 1
        issued := request itp ip s.ionum l :: s.issued }
  | failed {mrand : UInt32} {r : IoResult} {ip : Itype} {offset : UInt64} {l l' : PieceLoop}
      (hpc : s.pc = .pieces ip offset l) (hsz : 0 < l.sz)
      (hl : pieceStep itp.params.maxiosize ip.optype mrand l = some l')
      (herr : r.error ∧ ¬ ignErrors) :
      DoIoMove ignErrors finish itp s (.io mrand r) { s with
        pc := .exited
        ionum := s.ionum + 1
        issued := request itp ip s.ionum l :: s.issued }
  | piece {mrand : UInt32} {r : IoResult} {ip : Itype} {offset : UInt64} {l l' : PieceLoop}
      (hpc : s.pc = .pieces ip offset l) (hsz : 0 < l.sz)
      (hl : pieceStep itp.params.maxiosize ip.optype mrand l = some l')
      (hok : ¬ (r.error ∧ ¬ ignErrors)) :
      DoIoMove ignErrors finish itp s (.io mrand r) { s with
        pc := .pieces ip offset l'
        ionum := s.ionum + 1
        start := r.start
        endTime := r.endTime
        issued := request itp ip s.ionum l :: s.issued }
  | spent {ip : Itype} {offset : UInt64} {l : PieceLoop} (hpc : s.pc = .pieces ip offset l)
      (hsz : ¬ 0 < l.sz) :
      DoIoMove ignErrors finish itp s .spent { s with pc := .repwrite ip offset }
  | again {u : Drand48} {ip : Itype} {offset : UInt64} (hpc : s.pc = .repwrite ip offset)
      (hu : ip.optype = .write ∧ u.double < ip.repwrite) :
      DoIoMove ignErrors finish itp s (.repwrite u)
        { s with pc := .pieces ip offset (pieceLoop itp.params.maxiosize ip offset).init }
  | written {u : Drand48} {ip : Itype} {offset : UInt64} (hpc : s.pc = .repwrite ip offset)
      (hu : ¬ (ip.optype = .write ∧ u.double < ip.repwrite)) :
      DoIoMove ignErrors finish itp s (.repwrite u) { s with pc := .pace }
  | pace {mrand : UInt32} (hpc : s.pc = .pace) :
      DoIoMove ignErrors finish itp s (.pace mrand) { s with
        pc := .top
        nextio := s.nextio + mrand.toUInt64 % (s.iotime * 2 + 1) }

/-- **Inversion**: a step of `do_io` takes one of the branches. The invariants of the call, of the
disk under it and of its schedule are all case analyses of `DoIoMove`. -/
theorem doIoMove_of_step {ignErrors : Bool} {finish now start endTime : UInt64} {itp : IoThread}
    {s t : DoIo} {a : Act}
    (hst : (doIo ignErrors finish itp now start endTime).step a s = some t) :
    DoIoMove ignErrors finish itp s a t := by
  cases a with
  | top ioselect rand =>
    simp only [doIo, doIoStep] at hst
    split at hst
    · rename_i first rest hpc hlist
      split at hst
      · split at hst
        · rename_i offset hoff
          cases hst
          exact .drawn hpc hlist hoff
        · rename_i hoff
          cases hst
          exact .noRange hpc hlist hoff
      · rename_i hlate
        cases hst
        exact .late hpc hlate
    · cases hst
  | io mrand r =>
    simp only [doIo, doIoStep] at hst
    split at hst
    · rename_i ip offset l hpc
      split at hst
      · rename_i hsz
        split at hst
        · rename_i hl
          cases hst
          exact .noSleep hpc hsz hl
        · rename_i l' hl
          split at hst
          · rename_i herr
            cases hst
            exact .failed hpc hsz hl herr
          · rename_i hok
            cases hst
            exact .piece hpc hsz hl hok
      · cases hst
    · cases hst
  | spent =>
    simp only [doIo, doIoStep] at hst
    split at hst
    · rename_i ip offset l hpc
      split at hst
      · cases hst
      · rename_i hsz
        cases hst
        exact .spent hpc hsz
    · cases hst
  | repwrite u =>
    simp only [doIo, doIoStep] at hst
    split at hst
    · rename_i ip offset hpc
      split at hst
      · rename_i hu
        cases hst
        exact .again hpc hu
      · rename_i hu
        cases hst
        exact .written hpc hu
    · cases hst
  | pace mrand =>
    simp only [doIo, doIoStep] at hst
    split at hst
    · rename_i hpc
      cases hst
      exact .pace hpc
    · cases hst

/-! ## What a call issues -/

theorem selectBy_mem {α : Type} [LT α] [DecidableLT α] [Sub α] (pct : Itype → α) (ip : Itype)
    (rest : List Itype) (u : α) : selectBy pct ip rest u ∈ ip :: rest := by
  induction rest generalizing ip u with
  | nil => exact List.mem_cons_self
  | cons next rest ih =>
    rw [selectBy]
    split
    · exact List.mem_cons_self
    · exact List.mem_cons_of_mem _ (ih next _)

/-- Some draw of `drand48` makes the selection loop end at `ip`. -/
def Selected (itlist : List Itype) (ip : Itype) : Prop :=
  ∃ first rest, itlist = first :: rest ∧ ∃ u : Drand48, selectItype first rest u.double = ip

theorem Selected.mem {itlist : List Itype} {ip : Itype} (h : Selected itlist ip) :
    ip ∈ itlist := by
  obtain ⟨first, rest, rfl, u, rfl⟩ := h
  exact selectBy_mem Itype.pct first rest u.double

/-- A request is the piece of some type of the list at some draw. -/
def Drawn (itp : IoThread) (r : Request) : Prop :=
  ∃ ip ∈ itp.itlist, r.type = ip.optype ∧ ∃ rand, IsPiece itp ip rand r.extent

/-- The program point belongs to a type that was selected and an offset that was drawn for it. -/
def PcOk (itp : IoThread) : Pc → Prop
  | .pieces ip offset l => Selected itp.itlist ip ∧
      (∃ rand, ioOffset itp ip rand = some offset) ∧
      (pieceLoop itp.params.maxiosize ip offset).Reachable always l
  | .repwrite ip offset => Selected itp.itlist ip ∧ ∃ rand, ioOffset itp ip rand = some offset
  | _ => True

structure Draws (itp : IoThread) (s : DoIo) : Prop where
  pc : PcOk itp s.pc
  issued : ∀ r ∈ s.issued, ∃ ip, Selected itp.itlist ip ∧ r.type = ip.optype ∧
    ∃ rand, IsPiece itp ip rand r.extent

theorem Draws.step {ignErrors : Bool} {finish now start endTime : UInt64} {itp : IoThread}
    {s t : DoIo} {a : Act} (h : Draws itp s)
    (hst : (doIo ignErrors finish itp now start endTime).step a s = some t) :
    Draws itp t := by
  have hok := h.pc
  -- the request of a turn is the piece its loop has come to
  have hnext : ∀ {ip offset l}, s.pc = .pieces ip offset l → 0 < l.sz →
      ∀ q ∈ request itp ip s.ionum l :: s.issued, ∃ ip, Selected itp.itlist ip ∧
        q.type = ip.optype ∧ ∃ rand, IsPiece itp ip rand q.extent := by
    intro ip offset l hpc hsz q hq
    rw [hpc] at hok
    obtain ⟨hip, ⟨rand, hoff⟩, hreach⟩ := hok
    rcases List.mem_cons.mp hq with rfl | hq
    · exact ⟨ip, hip, rfl, rand, offset, l, hoff, hreach, hsz, rfl⟩
    · exact h.issued q hq
  cases doIoMove_of_step hst with
  | late | noRange | written | pace => exact ⟨trivial, h.issued⟩
  | @drawn ioselect rand offset first rest _ hlist hoff =>
    exact ⟨⟨⟨first, rest, hlist, ioselect, rfl⟩, ⟨rand, hoff⟩, .start⟩, h.issued⟩
  | noSleep hpc hsz | failed hpc hsz => exact ⟨trivial, hnext hpc hsz⟩
  | piece hpc hsz hl =>
    have hissued := hnext hpc hsz
    rw [hpc] at hok
    obtain ⟨hip, hoff, hreach⟩ := hok
    exact ⟨⟨hip, hoff, hreach.run (Run.single trivial hl)⟩, hissued⟩
  | spent hpc =>
    rw [hpc] at hok
    exact ⟨⟨hok.1, hok.2.1⟩, h.issued⟩
  | again hpc =>
    -- a repeat starts the loop over at the same offset
    rw [hpc] at hok
    exact ⟨⟨hok.1, hok.2, .start⟩, h.issued⟩

theorem draws_of_reachable {ignErrors : Bool} {finish now start endTime : UInt64}
    {itp : IoThread} {s : DoIo}
    (h : (doIo ignErrors finish itp now start endTime).Reachable always s) : Draws itp s :=
  have hinit : Draws itp (doIo ignErrors finish itp now start endTime).init :=
    ⟨trivial, fun _ hr => absurd hr List.not_mem_nil⟩
  h.invariant hinit fun _ _ _ hs _ hst => hs.step hst

/-- **A call of `do_io` issues only pieces**: whatever is drawn and however the I/Os end, each
request is a piece of a type that some draw selects. -/
theorem doIo_issued_selected {ignErrors : Bool} {finish now start endTime : UInt64}
    {itp : IoThread} {s : DoIo}
    (h : (doIo ignErrors finish itp now start endTime).Reachable always s) :
    ∀ r ∈ s.issued, ∃ ip, Selected itp.itlist ip ∧ r.type = ip.optype ∧
      ∃ rand, IsPiece itp ip rand r.extent :=
  (draws_of_reachable h).issued

theorem doIo_issued {ignErrors : Bool} {finish now start endTime : UInt64} {itp : IoThread}
    {s : DoIo} (h : (doIo ignErrors finish itp now start endTime).Reachable always s) :
    ∀ r ∈ s.issued, Drawn itp r := by
  intro r hr
  obtain ⟨ip, hsel, hpiece⟩ := doIo_issued_selected h r hr
  exact ⟨ip, hsel.mem, hpiece⟩

theorem exists_ioOffset {t : IoThread} {ip : Itype} (hsize : ip.size ≠ 0)
    (hrange : t.rangeoff ≠ 0) (rand : UInt64) : ∃ offset, ioOffset t ip rand = some offset :=
  ⟨_, if_neg (not_or.mpr ⟨hsize, hrange⟩)⟩

/-- **A type that can be selected comes to its loop at each offset that can be drawn for it**, as
the first thing some call does. -/
theorem reaches_pieces {t : IoThread} {ip : Itype} {rand offset : UInt64}
    (hsel : Selected t.itlist ip) (hoff : ioOffset t ip rand = some offset) :
    ∃ s, (doIo false 1 t 0 0 0).Reachable always s ∧
      s.pc = .pieces ip offset (pieceLoop t.params.maxiosize ip offset).init := by
  obtain ⟨first, rest, hlist, u, hu⟩ := hsel
  generalize hinit : doIoInit t 0 0 0 = s₀
  have hpc : s₀.pc = .top := hinit ▸ rfl
  have hstart : s₀.start < 1 := hinit ▸ (by decide : (0 : UInt64) < 1)
  have htop : (doIo false 1 t 0 0 0).step (.top u rand) s₀ = some { s₀ with
      pc := .pieces ip offset (pieceLoop t.params.maxiosize ip offset).init } := by
    simp only [doIo, doIoStep, hpc, hlist, if_pos hstart, hu, hoff]
  subst hinit
  exact ⟨_, ⟨_, Run.single trivial htop⟩, rfl⟩

/-! ## The piece loop of a READ or WRITE type -/

section Pieces

variable {m : Int32} {l l' : PieceLoop} {mrand : UInt32}

theorem toNat_detailSize (m : Int32) {sz : Int32} (h : 0 < sz.toInt) :
    (detailSize m sz).toNat = min m.toUInt32.toNat sz.toInt.toNat := by
  have hsz := toNat_toUInt32_of_nonneg h.le
  unfold detailSize
  split
  · rename_i hlt
    rw [UInt32.lt_iff_toNat_lt, hsz] at hlt
    rw [min_eq_left hlt.le]
  · rename_i hlt
    rw [UInt32.lt_iff_toNat_lt, hsz] at hlt
    rw [min_eq_right (Nat.le_of_not_lt hlt), hsz]

theorem toInt_sub_piece {sz : Int32} {size : UInt32} (h : 0 < sz.toInt)
    (hle : size.toNat ≤ sz.toInt.toNat) :
    (sz.toUInt32 - size).toInt32.toInt = sz.toInt - size.toNat := by
  have hsz := toNat_toUInt32_of_nonneg h.le
  have hlt := Int32.toInt_lt sz
  have hnat : (sz.toUInt32 - size).toNat = sz.toInt.toNat - size.toNat := by
    rw [UInt32.toNat_sub_of_le, hsz]
    rw [UInt32.le_iff_toNat_le, hsz]
    exact hle
  rw [toInt_toInt32_eq, hnat, if_pos (by omega)]
  omega

theorem pieceStep_spec {optype : OpType} (hop : optype ≠ .sleep) :
    pieceStep m optype mrand l = some l' ↔
      0 < l.sz.toInt ∧ l'.baseoff = l.baseoff + (detailSize m l.sz).toUInt64 ∧
        l'.sz = (l.sz.toUInt32 - detailSize m l.sz).toInt32 := by
  have hpos : 0 < l.sz ↔ 0 < l.sz.toInt := Int32.lt_iff_toInt_lt
  unfold pieceStep
  rw [ioStartSize, if_neg hop, Option.map_some]
  constructor
  · intro h
    split at h
    · rename_i hsz
      cases h
      exact ⟨hpos.mp hsz, rfl, rfl⟩
    · cases h
  · rintro ⟨hsz, hbase, hrest⟩
    rw [if_pos (hpos.mpr hsz)]
    obtain ⟨base, sz⟩ := l'
    dsimp only at hbase hrest
    rw [hbase, hrest]

end Pieces

end Ioload
end Blockbench
