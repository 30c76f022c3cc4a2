import Blockbench.Ioload.Inside

/-!
# `Ioload/Pieces.lean` — the pieces of one I/O

`while (sz > 0)` splits an I/O into pieces of at most `maxiosize` bytes. Two questions are asked
of it here: does it end, and what has it issued when it does.

**It ends** (`pieceLoop_ends_iff`) for every type and all draws, SLEEP pieces that change their
own size included, as long as a piece is not empty: `maxiosize=0` is accepted by the parser and
makes READ and WRITE pieces of no bytes for ever, and a SLEEP piece of no microseconds, which is
a remainder by zero. The measure is what is left of the I/O; a SLEEP piece takes 50 off it at
least, and may take up to 49 more than there is.

**What it issues** (`splits_exactly`) is stated over the machine of `Ioload/DoIo.lean`, from the
start of an I/O to the end of its last repetition. A pass issues the list `pieces` and comes to its
end whatever is drawn and told; the bytes of the list in order are the bytes of the I/O in order;
and a repetition is one more pass over it, so that at any moment full passes and a part of one have
been issued (`During`).
-/

set_option autoImplicit false

namespace Blockbench
namespace Ioload

open CInt Machine

/-! ## The loop ends -/

section Ends

variable {m : Int32} {l l' : PieceLoop} {mrand : UInt32} {optype : OpType}

/-- Every run of the loop is of bounded length, and no turn of it traps. -/
structure PieceLoopEnds (m : Int32) (ip : Itype) (offset : UInt64) : Prop where
  bounded : ∃ n, ∀ as l, Run (pieceLoop m ip offset) always (pieceLoop m ip offset).init as l →
    as.length ≤ n
  sound : ∀ l, (pieceLoop m ip offset).Reachable always l → 0 < l.sz → ∀ mrand,
    (pieceStep m ip.optype mrand l).isSome

/-- How long a SLEEP piece sleeps: the draw below its size, and 50, rounded down to 50. -/
theorem toNat_slept {size mrand slept : UInt32} (hlt : size.toNat < 2 ^ 31)
    (h : ioStartSize .sleep size mrand = some slept) :
    0 < size.toNat ∧ slept.toNat = (mrand.toNat % size.toNat + 50) / 50 * 50 := by
  unfold ioStartSize at h
  rw [if_pos rfl] at h
  split at h
  · cases h
  · rename_i hne
    have hpos : 0 < size.toNat := Nat.pos_of_ne_zero fun hz => hne (UInt32.toNat_inj.mp hz)
    cases h
    have hmod := Nat.mod_lt mrand.toNat hpos
    have hfifty : (50 : UInt32).toNat = 50 := rfl
    have hslu : (mrand % size + 50).toNat = mrand.toNat % size.toNat + 50 := by
      rw [UInt32.toNat_add, UInt32.toNat_mod, hfifty, Nat.mod_eq_of_lt (by omega)]
    have hrest : ((mrand % size + 50) % 50).toNat = (mrand.toNat % size.toNat + 50) % 50 := by
      rw [UInt32.toNat_mod, hslu, hfifty]
    refine ⟨hpos, ?_⟩
    rw [UInt32.toNat_sub_of_le, hslu, hrest]
    · omega
    · rw [UInt32.le_iff_toNat_le, hslu, hrest]
      exact Nat.mod_le _ _

/-- A SLEEP piece sleeps 50 microseconds at least, and less than 50 more than it was given. -/
theorem sleep_size {size mrand slept : UInt32} (hlt : size.toNat < 2 ^ 31)
    (h : ioStartSize .sleep size mrand = some slept) :
    0 < size.toNat ∧ 50 ≤ slept.toNat ∧ slept.toNat ≤ size.toNat + 49 := by
  obtain ⟨hpos, hslept⟩ := toNat_slept hlt h
  have hmod := Nat.mod_lt mrand.toNat hpos
  omega

/-- What is left after a piece, also when the piece was longer than that. -/
theorem toInt_sub_slept {sz : Int32} {size : UInt32} (h : 0 < sz.toInt)
    (hle : size.toNat ≤ sz.toInt.toNat + 49) :
    (sz.toUInt32 - size).toInt32.toInt = sz.toInt - size.toNat := by
  have hsz := toNat_toUInt32_of_nonneg h.le
  have hlt := Int32.toInt_lt sz
  have hsize := UInt32.toNat_lt size
  rw [toInt_toInt32_eq, UInt32.toNat_sub, hsz]
  split <;> omega

/-- **A turn makes progress**, unless `maxiosize` is zero. -/
theorem pieceStep_lt (hm : 0 < m.toUInt32.toNat)
    (hst : pieceStep m optype mrand l = some l') :
    0 < l.sz.toInt ∧ l'.sz.toInt < l.sz.toInt := by
  unfold pieceStep at hst
  split at hst
  · rename_i hsz
    rw [Int32.lt_iff_toInt_lt] at hsz
    have hpos : 0 < l.sz.toInt := hsz
    have hlt := Int32.toInt_lt l.sz
    have hdetail := toNat_detailSize m hpos
    obtain ⟨size, hsize, rfl⟩ := Option.map_eq_some_iff.mp hst
    refine ⟨hpos, ?_⟩
    by_cases hop : optype = .sleep
    · subst hop
      obtain ⟨-, hge, hle⟩ := sleep_size (by omega) hsize
      rw [toInt_sub_slept hpos (by omega)]
      omega
    · rw [ioStartSize, if_neg hop] at hsize
      cases hsize
      rw [toInt_sub_piece hpos (by omega)]
      omega
  · cases hst

theorem pieceStep_isSome (hm : 0 < m.toUInt32.toNat) (hsz : 0 < l.sz) :
    (pieceStep m optype mrand l).isSome := by
  have hpos : 0 < l.sz.toInt := Int32.lt_iff_toInt_lt.mp hsz
  have hdetail := toNat_detailSize m hpos
  have hne : detailSize m l.sz ≠ 0 := fun hz => by
    rw [hz] at hdetail
    have hzero : (0 : UInt32).toNat = 0 := rfl
    omega
  unfold pieceStep ioStartSize
  rw [if_pos hsz, if_neg hne]
  split
  · rfl
  · rfl

end Ends

theorem no_turn_of_large {m : Int32} {ip : Itype} {offset : UInt64}
    (hlarge : 2 ^ 31 ≤ ip.size.toNat) {as : List UInt32} {l : PieceLoop}
    (h : Run (pieceLoop m ip offset) always (pieceLoop m ip offset).init as l) :
    as = [] ∧ l = (pieceLoop m ip offset).init := by
  have hneg : ¬ 0 < (pieceLoop m ip offset).init.sz := by
    have hlt := UInt32.toNat_lt ip.size
    rw [Int32.lt_iff_toInt_lt]
    show ¬ 0 < ip.size.toInt32.toInt
    rw [toInt_toInt32_eq, if_neg (by omega)]
    omega
  induction h with
  | nil => exact ⟨rfl, rfl⟩
  | snoc _ _ hst ih =>
    obtain ⟨-, rfl⟩ := ih
    simp only [pieceLoop, pieceStep] at hst hneg
    rw [if_neg hneg] at hst
    cases hst

/-- With `maxiosize` at zero the loop takes as many turns as one likes. -/
theorem turns_of_zero {ip : Itype} {offset : UInt64} (hop : ip.optype ≠ .sleep)
    (hsz : 0 < ip.size.toInt32) (n : ℕ) :
    Run (pieceLoop 0 ip offset) always (pieceLoop 0 ip offset).init (List.replicate n 0)
      (pieceLoop 0 ip offset).init := by
  have hturn : pieceStep 0 ip.optype 0 (pieceLoop 0 ip offset).init
      = some (pieceLoop 0 ip offset).init := by
    have hpos : 0 < ip.size.toInt32.toInt := Int32.lt_iff_toInt_lt.mp hsz
    have hempty : detailSize 0 ip.size.toInt32 = 0 := by
      rw [← UInt32.toNat_inj, toNat_detailSize 0 hpos]
      exact Nat.zero_min _
    refine (pieceStep_spec hop).mpr ⟨hpos, ?_, ?_⟩
    · simp only [pieceLoop, hempty]
      exact (UInt64.add_zero offset).symm
    · simp only [pieceLoop, hempty, UInt32.sub_zero, Int32.toInt32_toUInt32]
  induction n with
  | zero => exact .nil
  | succ n ih => rw [List.replicate_succ]; exact Run.cons trivial hturn ih

/-- **When the piece loop ends.** For every accepted type it ends after finitely many pieces,
without a remainder by zero, exactly when `maxiosize` is not zero or the size is no positive `int`
to begin with.

`-m maxiosize=0` is accepted. A READ or WRITE then asks for pieces of no bytes for ever, and
`io_start` draws the time of a SLEEP piece modulo its size, which is zero. Any other value ends
the loop, a negative one too: it is compared as an unsigned number, which is larger than every
size. -/
theorem pieceLoop_ends_iff {ip : Itype} (hip : ip.Ok) (m : Int32) (offset : UInt64) :
    PieceLoopEnds m ip offset ↔ m ≠ 0 ∨ 2 ^ 31 ≤ ip.size.toNat := by
  constructor
  · intro h
    by_contra hnot
    obtain ⟨hm, hlt⟩ := not_or.mp hnot
    obtain rfl : m = 0 := not_not.mp hm
    have hsize : 0 < ip.size.toNat := by
      by_cases hop : ip.optype = .sleep
      · have := (hip.sleep hop).1
        omega
      · have := (hip.sector hop).1
        omega
    have hsz : 0 < ip.size.toInt32 := by
      rw [Int32.lt_iff_toInt_lt, toInt_toInt32_eq, if_pos (by omega)]
      have hzero : (0 : Int32).toInt = 0 := rfl
      omega
    by_cases hop : ip.optype = .sleep
    · -- the first SLEEP piece traps
      have hsome := h.sound _ .start hsz 0
      have hempty : detailSize 0 ip.size.toInt32 = 0 := by
        rw [← UInt32.toNat_inj, toNat_detailSize 0 (Int32.lt_iff_toInt_lt.mp hsz)]
        exact Nat.zero_min _
      simp only [pieceLoop, pieceStep, if_pos hsz, hop, ioStartSize, hempty, if_true,
        Option.map_none, Option.isSome_none, Bool.false_eq_true] at hsome
    · obtain ⟨n, hn⟩ := h.bounded
      have := hn _ _ (turns_of_zero hop hsz (n + 1))
      rw [List.length_replicate] at this
      omega
  · rintro (hm | hlarge)
    · have hpos : 0 < m.toUInt32.toNat :=
        Nat.pos_of_ne_zero fun hz => hm (toNat_toUInt32_eq_zero.mp hz)
      refine ⟨⟨ip.size.toInt32.toInt.toNat, fun as l hrun => ?_⟩, fun l _ hsz mrand =>
        pieceStep_isSome hpos hsz⟩
      have hlen := hrun.length_le (I := fun _ => True) (μ := fun l => l.sz.toInt.toNat)
        (fun _ _ _ _ _ _ => trivial)
        (fun l a l' _ _ hst => by have := pieceStep_lt hpos hst; omega) trivial
      exact (Nat.le_add_right _ _).trans hlen
    · refine ⟨⟨0, fun as l hrun => ?_⟩, fun l hreach hsz => ?_⟩
      · rw [(no_turn_of_large hlarge hrun).1]
        exact le_rfl
      · obtain ⟨as, hrun⟩ := hreach
        have hlt := UInt32.toNat_lt ip.size
        rw [(no_turn_of_large hlarge hrun).2, Int32.lt_iff_toInt_lt] at hsz
        have hneg : ¬ 0 < ip.size.toInt32.toInt := by
          rw [toInt_toInt32_eq, if_neg (by omega)]
          omega
        exact absurd hsz hneg

theorem pieceLoop_ends_default : PieceLoopEnds params.maxiosize defitype 0 :=
  (pieceLoop_ends_iff defitype_ok params.maxiosize 0).mpr (.inl (by decide))

/-- `-m maxiosize=0` is accepted, and the first READ never ends. -/
theorem pieceLoop_hangs : ¬ ∀ (args : List CmdOpt) (c : Config), getopt args = some c →
    ∀ ip ∈ c.itlist, ∀ offset, PieceLoopEnds c.cp.maxiosize ip offset := by
  intro h
  have hargs : getopt [.m [.maxiosize (some 0)]]
      = some ⟨{ params with maxiosize := 0 }, [defitype], false, false, false, false⟩ := rfl
  obtain ⟨n, hn⟩ := (h _ _ hargs defitype List.mem_cons_self 0).bounded
  have := hn _ _ (turns_of_zero (by decide) (by decide) (n + 1))
  rw [List.length_replicate] at this
  omega

/-! ## Cutting `s` bytes into chunks of `m` -/

def chunkCount (m s : ℕ) : ℕ := (s + m - 1) / m

def chunkLen (m s k : ℕ) : ℕ := min m (s - m * k)

section Chunks

variable {m s k : ℕ}

theorem lt_chunkCount_iff (hm : 0 < m) : k < chunkCount m s ↔ m * k < s := by
  unfold chunkCount
  rw [← Nat.succ_le_iff, Nat.le_div_iff_mul_le hm, Nat.succ_mul, Nat.mul_comm m k]
  omega

theorem cut_succ (m s k : ℕ) : min (m * (k + 1)) s = min (m * k) s + chunkLen m s k := by
  unfold chunkLen
  rw [Nat.mul_succ]
  omega

theorem chunkLen_pos (hm : 0 < m) (hk : k < chunkCount m s) : 0 < chunkLen m s k := by
  have := (lt_chunkCount_iff hm).mp hk
  exact lt_min hm (by omega)

theorem flatMap_chunks {α : Type*} (hm : 0 < m) (f : ℕ → α) :
    (List.range (chunkCount m s)).flatMap
        (fun k => (List.range (chunkLen m s k)).map fun i => f (m * k + i))
      = (List.range s).map f := by
  have hpart : ∀ n ≤ chunkCount m s, (List.range n).flatMap
        (fun k => (List.range (chunkLen m s k)).map fun i => f (m * k + i))
      = (List.range (min (m * n) s)).map f := by
    intro n
    induction n with
    | zero => intro _; simp
    | succ n ih =>
      intro hn
      have hlt := (lt_chunkCount_iff (k := n) hm).mp hn
      rw [List.range_succ, List.flatMap_append, ih (by omega), cut_succ, List.range_add,
        List.map_append, List.map_map, min_eq_left hlt.le, List.flatMap_singleton]
      rfl
  have hlast : s ≤ m * chunkCount m s :=
    Nat.le_of_not_lt fun h => lt_irrefl _ ((lt_chunkCount_iff hm).mpr h)
  rw [hpart _ le_rfl, min_eq_right hlast]

end Chunks

/-! ## What a pass issues -/

structure Piece where
  offset : UInt64
  size : UInt32
  deriving DecidableEq, Repr

def Request.piece (r : Request) : Piece := ⟨r.offset, r.size⟩

def Piece.bytes (p : Piece) : List UInt64 :=
  (List.range p.size.toNat).map fun i => p.offset + UInt64.ofNat i

/-- The pieces of one pass over an I/O at `offset`. -/
def pieces (maxiosize : Int32) (ip : Itype) (offset : UInt64) : List Piece :=
  let m := maxiosize.toInt.toNat
  let s := ip.size.toNat
  (List.range (chunkCount m s)).map fun k =>
    ⟨offset + UInt64.ofNat (m * k), UInt32.ofNat (chunkLen m s k)⟩

/-- The pieces cut the I/O: there are `⌈s / m⌉` of them, none is empty or longer than `iosize`,
and their bytes in a row are the `s` bytes from `offset` on, counted in 64 bits as the file
offsets are. -/
structure Cuts (m s : ℕ) (iosize : Int32) (offset : UInt64) (ps : List Piece) : Prop where
  length : ps.length = (s + m - 1) / m
  bytes : ps.flatMap Piece.bytes = (List.range s).map fun i => offset + UInt64.ofNat i
  fits : ∀ p ∈ ps, 1 ≤ p.size.toNat ∧ (p.size.toNat : ℤ) ≤ iosize.toInt

theorem le_iosize {itlist : List Itype} (hsizes : ∀ jp ∈ itlist, jp.size.toNat < 2 ^ 31)
    {ip : Itype} (hip : ip ∈ itlist) {m : Int32} (hm : 1 ≤ m.toInt) :
    (min m.toInt.toNat ip.size.toNat : ℤ) ≤
      (if m < maxsize itlist then m else maxsize itlist).toInt := by
  have hle := size_le_maxsize hip
  have hlt : (maxsize itlist).toUInt32.toNat < 2 ^ 31 := by
    rcases maxsize_mem itlist with hz | ⟨jp, hjp, heq⟩
    · omega
    · have := hsizes jp hjp
      omega
  have hmax := toInt_of_lt hlt
  split
  · omega
  · omega

theorem pieces_cut {itlist : List Itype} (hsizes : ∀ jp ∈ itlist, jp.size.toNat < 2 ^ 31)
    {ip : Itype} (hip : ip ∈ itlist) {m : Int32} (hm : 1 ≤ m.toInt) (offset : UInt64) :
    Cuts m.toInt.toNat ip.size.toNat (if m < maxsize itlist then m else maxsize itlist) offset
      (pieces m ip offset) := by
  have hmpos : 0 < m.toInt.toNat := by omega
  have hsize := hsizes ip hip
  have hbuf := le_iosize hsizes hip hm
  have hlen : ∀ k, (UInt32.ofNat (chunkLen m.toInt.toNat ip.size.toNat k)).toNat
      = chunkLen m.toInt.toNat ip.size.toNat k := by
    intro k
    have hle : chunkLen m.toInt.toNat ip.size.toNat k ≤ ip.size.toNat :=
      (min_le_right _ _).trans (Nat.sub_le _ _)
    rw [UInt32.toNat_ofNat', Nat.mod_eq_of_lt (by omega)]
  refine ⟨?_, ?_, ?_⟩
  · simp only [pieces, List.length_map, List.length_range, chunkCount]
  · have hbytes : ∀ k, Piece.bytes ⟨offset + UInt64.ofNat (m.toInt.toNat * k),
          UInt32.ofNat (chunkLen m.toInt.toNat ip.size.toNat k)⟩
        = (List.range (chunkLen m.toInt.toNat ip.size.toNat k)).map
            fun i => offset + UInt64.ofNat (m.toInt.toNat * k + i) := by
      intro k
      simp only [Piece.bytes, hlen, UInt64.ofNat_add, UInt64.add_assoc]
    simp only [pieces, List.flatMap_map, hbytes]
    exact flatMap_chunks hmpos fun i => offset + UInt64.ofNat i
  · intro p hp
    obtain ⟨k, hk, rfl⟩ := List.mem_map.mp hp
    have hpos := chunkLen_pos hmpos (List.mem_range.mp hk)
    have hle : chunkLen m.toInt.toNat ip.size.toNat k ≤ min m.toInt.toNat ip.size.toNat :=
      min_le_min_left _ (Nat.sub_le _ _)
    dsimp only
    rw [hlen k]
    omega

/-! ## One I/O from its start to its last repetition -/

/-- The steps `do_io` takes between the choice of an I/O and the pause after it. -/
def Act.ofIo : Act → Prop
  | .io _ _ | .spent | .repwrite _ => True
  | .top _ _ | .pace _ => False

/-- Since `old` the call has issued `passes` passes over the I/O and `k` pieces of another. -/
structure Issued (itp : IoThread) (ip : Itype) (offset : UInt64) (old : List Request)
    (passes k : ℕ) (issued : List Request) : Prop where
  types : ∃ new, issued = new ++ old ∧ (∀ r ∈ new, r.type = ip.optype ∧ r.dtype = ip.dtype) ∧
    new.reverse.map Request.piece
      = (List.replicate passes (pieces itp.params.maxiosize ip offset)).flatten
        ++ (pieces itp.params.maxiosize ip offset).take k

/-- Where `do_io` is in the I/O after `k` pieces of a pass: in the loop, which goes on while
there are pieces left; or past it, with all of them issued; or out of the program. -/
def InIo (itp : IoThread) (ip : Itype) (offset : UInt64) (k : ℕ) : Pc → Prop
  | .pieces ip' offset' l => ip' = ip ∧ offset' = offset ∧
      k ≤ (pieces itp.params.maxiosize ip offset).length ∧
      After offset ip.size.toNat (min (itp.params.maxiosize.toInt.toNat * k) ip.size.toNat) l ∧
      (0 < l.sz ↔ k < (pieces itp.params.maxiosize ip offset).length)
  | .repwrite ip' offset' => ip' = ip ∧ offset' = offset ∧
      k = (pieces itp.params.maxiosize ip offset).length
  | .pace => k = (pieces itp.params.maxiosize ip offset).length
  | .exited => True
  | .top | .returned | .trapped => False

/-- An I/O of type `ip` at `offset` is under way, and this is what it has issued. -/
def During (itp : IoThread) (ip : Itype) (offset : UInt64) (old : List Request) (s : DoIo) :
    Prop :=
  ∃ passes k, Issued itp ip offset old passes k s.issued ∧ InIo itp ip offset k s.pc

section Run

variable {ignErrors : Bool} {finish now start endTime : UInt64} {t : IoThread} {ip : Itype}
  {offset : UInt64} {old : List Request} {s u : DoIo} {a : Act}

theorem length_pieces (m : Int32) (ip : Itype) (offset : UInt64) :
    (pieces m ip offset).length = chunkCount m.toInt.toNat ip.size.toNat := by
  simp only [pieces, List.length_map, List.length_range]

theorem sz_pos_iff {m : Int32} (hm : 1 ≤ m.toInt) {k : ℕ} {l : PieceLoop}
    (h : After offset ip.size.toNat (min (m.toInt.toNat * k) ip.size.toNat) l) :
    0 < l.sz ↔ k < (pieces m ip offset).length := by
  have hrest := h.rest
  have hzero : (0 : Int32).toInt = 0 := rfl
  rw [length_pieces, lt_chunkCount_iff (by omega), Int32.lt_iff_toInt_lt]
  omega

/-- **One turn issues the next piece.** -/
theorem InIo.turn (hm : 1 ≤ t.params.maxiosize.toInt) (hop : ip.optype ≠ .sleep) {k : ℕ}
    {l l' : PieceLoop} {mrand : UInt32} (h : InIo t ip offset k (.pieces ip offset l))
    (hst : pieceStep t.params.maxiosize ip.optype mrand l = some l') (ionum : UInt64) :
    InIo t ip offset (k + 1) (.pieces ip offset l') ∧
      (pieces t.params.maxiosize ip offset)[k]? = some (request t ip ionum l).piece := by
  obtain ⟨-, -, -, hafter, hiff⟩ := h
  obtain ⟨hpos, -, -⟩ := (pieceStep_spec hop).mp hst
  have hk := hiff.mp (Int32.lt_iff_toInt_lt.mpr hpos)
  have hlt : t.params.maxiosize.toInt.toNat * k < ip.size.toNat := by
    rw [length_pieces] at hk
    exact (lt_chunkCount_iff (by omega)).mp hk
  have hmu : t.params.maxiosize.toUInt32.toNat = t.params.maxiosize.toInt.toNat :=
    toNat_toUInt32_of_nonneg (by omega)
  have hrest := hafter.rest
  have hbase := hafter.base
  have hdetail : (detailSize t.params.maxiosize l.sz).toNat
      = chunkLen t.params.maxiosize.toInt.toNat ip.size.toNat k := by
    rw [toNat_detailSize _ hpos, hmu]
    unfold chunkLen
    omega
  have hnext := hafter.step hop hst
  rw [hdetail, ← cut_succ] at hnext
  rw [min_eq_left hlt.le] at hbase
  refine ⟨⟨rfl, rfl, hk, hnext, sz_pos_iff hm hnext⟩, ?_⟩
  have hget : (pieces t.params.maxiosize ip offset)[k]?
      = some ⟨offset + UInt64.ofNat (t.params.maxiosize.toInt.toNat * k),
          UInt32.ofNat (chunkLen t.params.maxiosize.toInt.toNat ip.size.toNat k)⟩ := by
    rw [length_pieces] at hk
    simp only [pieces, List.getElem?_map, List.getElem?_range hk, Option.map_some]
  have hoff : l.baseoff = offset + UInt64.ofNat (t.params.maxiosize.toInt.toNat * k) := by
    rw [← UInt64.toNat_inj, hbase, UInt64.toNat_add, UInt64.toNat_ofNat', Nat.add_mod_mod]
  have hlen : detailSize t.params.maxiosize l.sz
      = UInt32.ofNat (chunkLen t.params.maxiosize.toInt.toNat ip.size.toNat k) := by
    have := UInt32.toNat_lt (detailSize t.params.maxiosize l.sz)
    rw [← UInt32.toNat_inj, UInt32.toNat_ofNat', ← hdetail, Nat.mod_eq_of_lt this]
  rw [hget]
  simp only [request, Request.piece, hoff, hlen]

theorem Issued.snoc {passes k : ℕ} {issued : List Request}
    (h : Issued t ip offset old passes k issued) {r : Request}
    (htype : r.type = ip.optype ∧ r.dtype = ip.dtype)
    (hget : (pieces t.params.maxiosize ip offset)[k]? = some r.piece) :
    Issued t ip offset old passes (k + 1) (r :: issued) := by
  obtain ⟨new, rfl, htypes, hnew⟩ := h.types
  refine ⟨⟨r :: new, rfl, ?_, ?_⟩⟩
  · intro q hq
    rcases List.mem_cons.mp hq with rfl | hq
    · exact htype
    · exact htypes q hq
  · rw [List.reverse_cons, List.map_append, hnew, List.take_add_one, hget, List.append_assoc]
    rfl

theorem Issued.pass {passes : ℕ} {issued : List Request}
    (h : Issued t ip offset old passes (pieces t.params.maxiosize ip offset).length issued) :
    Issued t ip offset old (passes + 1) 0 issued := by
  obtain ⟨new, heq, htypes, hnew⟩ := h.types
  refine ⟨⟨new, heq, htypes, ?_⟩⟩
  rw [hnew, List.take_length, List.take_zero, List.append_nil, List.replicate_succ',
    List.flatten_append, List.flatten_singleton]

theorem inIo_init (hm : 1 ≤ t.params.maxiosize.toInt) (hsize : ip.size.toNat < 2 ^ 31) :
    InIo t ip offset 0 (.pieces ip offset (pieceLoop t.params.maxiosize ip offset).init) := by
  have hafter : After offset ip.size.toNat
      (min (t.params.maxiosize.toInt.toNat * 0) ip.size.toNat)
      (pieceLoop t.params.maxiosize ip offset).init := by
    refine ⟨min_le_right _ _, ?_, ?_⟩
    · rw [Nat.mul_zero, Nat.zero_min]
      exact (Nat.mod_eq_of_lt (UInt64.toNat_lt offset)).symm
    · rw [Nat.mul_zero, Nat.zero_min]
      show ip.size.toInt32.toInt = _
      rw [toInt_toInt32_eq, if_pos hsize]
      exact (sub_zero _).symm
  exact ⟨rfl, rfl, Nat.zero_le _, hafter, sz_pos_iff hm hafter⟩

/-- **A step of the I/O keeps the account.** -/
theorem During.step (hm : 1 ≤ t.params.maxiosize.toInt) (hop : ip.optype ≠ .sleep)
    (hsize : ip.size.toNat < 2 ^ 31) (h : During t ip offset old s) (ha : a.ofIo)
    (hst : (doIo ignErrors finish t now start endTime).step a s = some u) :
    During t ip offset old u := by
  obtain ⟨passes, k, hissued, hin⟩ := h
  cases doIoMove_of_step hst with
  | late | drawn | noRange | pace => exact ha.elim
  | noSleep hpc hsz hnone =>
    -- a piece of a READ or WRITE type does not trap
    rw [hpc] at hin
    obtain ⟨rfl, rfl, -⟩ := id hin
    simp only [pieceStep, if_pos hsz, ioStartSize, if_neg hop, Option.map_some,
      reduceCtorEq] at hnone
  | @failed mrand r ip' offset' l l' hpc hsz hl =>
    rw [hpc] at hin
    obtain ⟨rfl, rfl, -⟩ := id hin
    obtain ⟨-, hget⟩ := hin.turn hm hop hl s.ionum
    exact ⟨passes, k + 1, hissued.snoc ⟨rfl, rfl⟩ hget, trivial⟩
  | @piece mrand r ip' offset' l l' hpc hsz hl =>
    rw [hpc] at hin
    obtain ⟨rfl, rfl, -⟩ := id hin
    obtain ⟨hin', hget⟩ := hin.turn hm hop hl s.ionum
    exact ⟨passes, k + 1, hissued.snoc ⟨rfl, rfl⟩ hget, hin'⟩
  | @spent ip' offset' l hpc hsz =>
    rw [hpc] at hin
    obtain ⟨rfl, rfl, hle, -, hiff⟩ := hin
    have hk : k = (pieces t.params.maxiosize ip' offset').length :=
      le_antisymm hle (Nat.le_of_not_lt fun hlt => hsz (hiff.mpr hlt))
    exact ⟨passes, k, hissued, rfl, rfl, hk⟩
  | @again d ip' offset' hpc =>
    -- the repetition starts over at the same offset
    rw [hpc] at hin
    obtain ⟨rfl, rfl, rfl⟩ := hin
    exact ⟨passes + 1, 0, hissued.pass, inIo_init hm hsize⟩
  | @written d ip' offset' hpc =>
    rw [hpc] at hin
    obtain ⟨rfl, rfl, rfl⟩ := hin
    exact ⟨passes, _, hissued, rfl⟩

/-- The steps of a pass: what is drawn and told at each of its pieces, and the end of the loop. -/
def passActs (rs : List (UInt32 × IoResult)) : List Act :=
  (rs.map fun r => Act.io r.1 r.2) ++ [.spent]

/-- **The rest of a pass.** With `k` pieces issued and results for the others that do not end the
program, the loop issues them one by one and is left behind the last. The induction is on the
results; what `InIo` says of `l.sz` is why the loop goes on exactly as long as there is one. -/
theorem exists_rest_of_pass (hm : 1 ≤ t.params.maxiosize.toInt) (hop : ip.optype ≠ .sleep) :
    ∀ {rs : List (UInt32 × IoResult)} {s : DoIo} {l : PieceLoop} {k : ℕ},
      s.pc = .pieces ip offset l → InIo t ip offset k (.pieces ip offset l) →
      Issued t ip offset old 0 k s.issued →
      k + rs.length = (pieces t.params.maxiosize ip offset).length →
      (∀ r ∈ rs, ¬ (r.2.error ∧ ¬ ignErrors)) →
      ∃ u, Run (doIo ignErrors finish t now start endTime) always s (passActs rs) u ∧
        u.pc = .repwrite ip offset ∧ Issued t ip offset old 1 0 u.issued
  | [], s, l, k, hpc, hin, hissued, hlen, _ => by
    rw [List.length_nil, Nat.add_zero] at hlen
    have hsz : ¬ 0 < l.sz := fun hpos => absurd (hin.2.2.2.2.mp hpos) (by omega)
    have hst : (doIo ignErrors finish t now start endTime).step .spent s =
        some { s with pc := .repwrite ip offset } := by
      simp only [doIo, doIoStep, hpc, if_neg hsz]
    subst hlen
    exact ⟨_, Run.single trivial hst, rfl, hissued.pass⟩
  | r :: rs, s, l, k, hpc, hin, hissued, hlen, hok => by
    rw [List.length_cons] at hlen
    have hsz : 0 < l.sz := hin.2.2.2.2.mpr (by omega)
    obtain ⟨l', hl⟩ : ∃ l', pieceStep t.params.maxiosize ip.optype r.1 l = some l' := by
      unfold pieceStep ioStartSize
      rw [if_pos hsz, if_neg hop]
      exact ⟨_, rfl⟩
    obtain ⟨hin', hget⟩ := hin.turn hm hop hl s.ionum
    obtain ⟨v, hst, hv, hnew⟩ : ∃ v,
        (doIo ignErrors finish t now start endTime).step (.io r.1 r.2) s = some v ∧
          v.pc = .pieces ip offset l' ∧ v.issued = request t ip s.ionum l :: s.issued := by
      refine ⟨{ s with
        pc := .pieces ip offset l'
        ionum := s.ionum + 1
        start := r.2.start
        endTime := r.2.endTime
        issued := request t ip s.ionum l :: s.issued }, ?_, rfl, rfl⟩
      simp only [doIo, doIoStep, hpc, if_pos hsz, hl, if_neg (hok r List.mem_cons_self)]
    have hissued' : Issued t ip offset old 0 (k + 1) v.issued := by
      rw [hnew]
      exact hissued.snoc ⟨rfl, rfl⟩ hget
    obtain ⟨u, hrun, hend⟩ := exists_rest_of_pass hm hop hv hin' hissued' (by omega)
      fun q hq => hok q (List.mem_cons_of_mem _ hq)
    exact ⟨u, Run.cons trivial hst hrun, hend⟩

/-- What `do_io` does with an I/O of type `ip` at `offset`, from a state `s` at the start of its
loop on: a pass comes to its end with exactly the pieces issued (`ends`), there is no other way to
the end of one (`whole`), the repetitions start over at the same offset (`again`), and at any
moment full passes and a part of one have been issued (`during`). -/
structure IssuesPieces (ignErrors : Bool) (finish now start endTime : UInt64) (t : IoThread)
    (ip : Itype) (offset : UInt64) (s : DoIo) : Prop where
  ends : ∀ rs : List (UInt32 × IoResult),
    rs.length = (pieces t.params.maxiosize ip offset).length →
    (∀ r ∈ rs, ¬ (r.2.error ∧ ¬ ignErrors)) →
    ∃ u, Run (doIo ignErrors finish t now start endTime) always s (passActs rs) u ∧
      u.pc = .repwrite ip offset ∧ Issued t ip offset s.issued 1 0 u.issued
  whole : ∀ {as u}, Run (doIo ignErrors finish t now start endTime) (fun _ a => a.ofIo) s as u →
    u.pc = .repwrite ip offset → ∃ n, Issued t ip offset s.issued (n + 1) 0 u.issued
  again : ∀ {w : DoIo} {d : Drand48}, w.pc = .repwrite ip offset →
    (doIo ignErrors finish t now start endTime).step (.repwrite d) w =
      some (if ip.optype = .write ∧ d.double < ip.repwrite then
        { w with pc := .pieces ip offset (pieceLoop t.params.maxiosize ip offset).init }
      else { w with pc := .pace })
  during : ∀ {as u}, Run (doIo ignErrors finish t now start endTime) (fun _ a => a.ofIo) s as u →
    During t ip offset s.issued u

theorem issued_nil (old : List Request) : Issued t ip offset old 0 0 old :=
  ⟨⟨[], rfl, fun _ hr => absurd hr List.not_mem_nil, rfl⟩⟩

theorem issuesPieces (hm : 1 ≤ t.params.maxiosize.toInt) (hop : ip.optype ≠ .sleep)
    (hsize : ip.size.toNat < 2 ^ 31)
    (hs : s.pc = .pieces ip offset (pieceLoop t.params.maxiosize ip offset).init) :
    IssuesPieces ignErrors finish now start endTime t ip offset s := by
  have hstart : During t ip offset s.issued s := by
    refine ⟨0, 0, issued_nil s.issued, ?_⟩
    rw [hs]
    exact inIo_init hm hsize
  have hduring : ∀ {as u},
      Run (doIo ignErrors finish t now start endTime) (fun _ a => a.ofIo) s as u →
      During t ip offset s.issued u := fun hrun =>
    hrun.keeps (fun _ _ _ h ha hst => h.step hm hop hsize ha hst) hstart
  refine ⟨fun rs hlen hok => ?_, fun hrun hend => ?_, fun {w d} hw => ?_, hduring⟩
  · exact exists_rest_of_pass hm hop hs (inIo_init hm hsize) (issued_nil s.issued)
      (by rw [Nat.zero_add]; exact hlen) hok
  · obtain ⟨passes, k, hissued, hin⟩ := hduring hrun
    rw [hend] at hin
    obtain ⟨-, -, rfl⟩ := hin
    exact ⟨passes, hissued.pass⟩
  · simp only [doIo, doIoStep, hw]
    split <;> rfl

end Run

/-- **A large I/O is split without gap or overlap.** In every thread `init_threads` sets up, the
list of pieces cuts an I/O of a READ or WRITE type exactly, and from the start of such an I/O
`do_io` issues passes over that list: each comes to its end, having issued all of it in order, and
each repetition is another.

The remaining count is an `int`, a piece's length an unsigned and the cap an `int` read as one;
for sizes below `2 ^ 31` all three are the numbers they stand for (`After`), so a turn takes the
next chunk off. The buffers are sized elsewhere, from the largest type of the list, which is why
the pieces are compared with `iosize` for the whole list. -/
theorem splits_exactly {nfiles : ℕ} {cp : CmdParams} {itlist : List Itype} {files : List File}
    (hinit : initThreads nfiles cp itlist = some files) {f : File} (hf : f ∈ files)
    {t : IoThread} (ht : t ∈ f.ithreads) (hsizes : ∀ jp ∈ itlist, jp.size.toNat < 2 ^ 31)
    (hm : 1 ≤ cp.maxiosize.toInt) {ip : Itype} (hip : ip ∈ itlist)
    (hop : ip.optype = .read ∨ ip.optype = .write) (offset : UInt64) :
    Cuts cp.maxiosize.toInt.toNat ip.size.toNat t.iosize offset
        (pieces t.params.maxiosize ip offset) ∧
      ∀ (ignErrors : Bool) (finish now start endTime : UInt64) (s : DoIo),
        s.pc = .pieces ip offset (pieceLoop t.params.maxiosize ip offset).init →
        IssuesPieces ignErrors finish now start endTime t ip offset s := by
  obtain ⟨hparams, -, -⟩ := thread_of_initThreads hinit hf ht
  have hmt : 1 ≤ t.params.maxiosize.toInt := hparams ▸ hm
  have hsleep : ip.optype ≠ .sleep := by
    rcases hop with h | h <;> rw [h] <;> exact nofun
  constructor
  · rw [hparams, iosize_of_initThreads hinit hf ht]
    exact pieces_cut hsizes hip hm offset
  · intro ignErrors finish now start endTime s hs
    exact issuesPieces hmt hsleep (hsizes ip hip) hs

/-- One and a half megabytes, split at one. -/
def unevenType : Itype := { defitype with optype := .write, size := 1572864 }

/-- A write of it that has been drawn, at the header: two pieces, and the pass is over. -/
theorem splits_exactly_uneven : ∃ files, initThreads 1 params [unevenType] = some files ∧
    ∃ f ∈ files, ∃ t ∈ f.ithreads,
      Cuts 1048576 1572864 t.iosize 1024 (pieces t.params.maxiosize unevenType 1024) ∧
      ∃ s u, (doIo false 1 t 0 0 0).Reachable always s ∧
        s.pc = .pieces unevenType 1024 (pieceLoop t.params.maxiosize unevenType 1024).init ∧
        Run (doIo false 1 t 0 0 0) always s
          [.io 0 ⟨0, 1, false, 0, 0⟩, .io 0 ⟨1, 2, false, 0, 0⟩, .spent] u ∧
        u.pc = .repwrite unevenType 1024 ∧
        u.issued.reverse.map Request.piece = [⟨1024, 1048576⟩, ⟨1049600, 524288⟩] := by
  have hinit : initThreads 1 params [unevenType] = some [⟨1, params, [unevenType],
      (List.range 40).map fun j => ithreadinit j params [unevenType] 1048576⟩] := rfl
  obtain ⟨hcuts, hissues⟩ := splits_exactly hinit List.mem_cons_self List.mem_cons_self (by decide)
    (by decide) List.mem_cons_self (.inr rfl) 1024
  refine ⟨_, hinit, _, List.mem_cons_self, _, List.mem_cons_self, hcuts, ?_⟩
  obtain ⟨s, hs, hpc, hold⟩ : ∃ s,
      (doIo false 1 (ithreadinit 0 params [unevenType] 1048576) 0 0 0).Reachable always s ∧
      s.pc = .pieces unevenType 1024 (pieceLoop params.maxiosize unevenType 1024).init ∧
      s.issued = [] :=
    ⟨_, ⟨[.top 0 0], Run.single trivial rfl⟩, rfl, rfl⟩
  obtain ⟨u, hrun, hend, hissued⟩ := (hissues false 1 0 0 0 s hpc).ends
    [(0, ⟨0, 1, false, 0, 0⟩), (0, ⟨1, 2, false, 0, 0⟩)] rfl (by decide)
  obtain ⟨new, hnew, -, hpieces⟩ := hissued.types
  refine ⟨s, u, hs, hpc, hrun, hend, ?_⟩
  rw [hnew, hold, List.append_nil, hpieces]
  rfl

end Ioload
end Blockbench
