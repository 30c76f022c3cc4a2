import Blockbench.Ioload.DoIo

/-!
# `Ioload/Inside.lean` — which I/Os leave `[minoff, maxoff)`

An I/O of size `s` starts at `minoff + q`, where `q` is a remainder modulo `rangeoff`, and its
pieces cover `[minoff + q, minoff + q + s)` (`pieces_within_iff`). Nothing between the draw and
the remainder keeps `q` from coming within `s` of the end: `exists_draw` finds, for every
header and every size, a draw whose `q + s` reaches `rangeoff`. So an I/O is kept inside in two
ways only. With a header, `init_threads` takes the largest size off the range first, which
works unless the range is shorter than that size and the subtraction wraps. With no header the
whole range is used, and the sizes that stay inside are the ones that divide it.

The acceptance check of `init_threads` does not come into it: it compares the largest size with
`rangeoff`, which after a wrap is larger than the range.
-/

set_option autoImplicit false

namespace Blockbench
namespace Ioload

open CInt Machine

/-! ## The pieces of one I/O -/

section Pieces

variable {m : Int32} {ip : Itype} {offset : UInt64} {l l' : PieceLoop} {mrand : UInt32}

/-- Where the loop is after `d` of the `s` bytes: the offset has moved on by `d`, modulo
`2^64`, and `s - d` bytes are left. -/
structure After (offset : UInt64) (s d : ℕ) (l : PieceLoop) : Prop where
  le : d ≤ s
  base : l.baseoff.toNat = (offset.toNat + d) % 2 ^ 64
  rest : l.sz.toInt = (s : ℤ) - d

theorem After.step {s d : ℕ} (hop : ip.optype ≠ .sleep) (h : After offset s d l)
    (hst : pieceStep m ip.optype mrand l = some l') :
    After offset s (d + (detailSize m l.sz).toNat) l' := by
  obtain ⟨hpos, hbase, hrest⟩ := (pieceStep_spec hop).mp hst
  have hsize := toNat_detailSize m hpos
  have hle : (detailSize m l.sz).toNat ≤ l.sz.toInt.toNat := by
    rw [hsize]
    exact min_le_right _ _
  have hr := h.rest
  refine ⟨by omega, ?_, ?_⟩
  · rw [hbase, UInt64.toNat_add, h.base, UInt32.toNat_toUInt64, Nat.mod_add_mod, Nat.add_assoc]
  · rw [hrest, toInt_sub_piece hpos hle]
    omega

theorem after_of_reachable {s : ℕ} (hop : ip.optype ≠ .sleep)
    (hs : ip.size.toInt32.toInt = s) (h : (pieceLoop m ip offset).Reachable always l) :
    ∃ d, After offset s d l := by
  refine h.invariant (I := fun l => ∃ d, After offset s d l) ⟨0, by omega, ?_, ?_⟩ ?_
  · exact (Nat.mod_eq_of_lt (UInt64.toNat_lt offset)).symm
  · rw [← hs]
    exact (sub_zero _).symm
  · rintro l _ l' ⟨d, hd⟩ - hst
    exact ⟨_, hd.step hop hst⟩

/-- **Every byte of the I/O below `2^64` is in some piece**, unless the pieces are empty. -/
theorem exists_piece_holds (hm : 0 < m.toUInt32.toNat) (hop : ip.optype ≠ .sleep) {x : ℕ}
    (hx : x < 2 ^ 64) (hlo : l.baseoff.toNat ≤ x) (hhi : (x : ℤ) < l.baseoff.toNat + l.sz.toInt) :
    ∃ as l', Run (pieceLoop m ip offset) always l as l' ∧ 0 < l'.sz ∧
      (l'.extent m).Holds x := by
  induction hn : l.sz.toInt.toNat using Nat.strongRecOn generalizing l with
  | ind n ih =>
    have hpos : 0 < l.sz.toInt := by omega
    have hsize := toNat_detailSize m hpos
    by_cases hin : x < l.baseoff.toNat + (detailSize m l.sz).toNat
    · exact ⟨[], l, .nil, Int32.lt_iff_toInt_lt.mpr hpos, hlo, hin⟩
    · -- the byte is beyond this piece, so the sum that moves on to the next does not wrap
      have hc : 0 < (detailSize m l.sz).toNat := by
        rw [hsize]
        exact lt_min hm (by omega)
      have hle : (detailSize m l.sz).toNat ≤ l.sz.toInt.toNat := by
        rw [hsize]
        exact min_le_right _ _
      have hst : pieceStep m ip.optype 0 l = some ⟨l.baseoff + (detailSize m l.sz).toUInt64,
          (l.sz.toUInt32 - detailSize m l.sz).toInt32⟩ :=
        (pieceStep_spec hop).mpr ⟨hpos, rfl, rfl⟩
      have hbase : (l.baseoff + (detailSize m l.sz).toUInt64).toNat =
          l.baseoff.toNat + (detailSize m l.sz).toNat := by
        rw [toNat_add_of_lt, UInt32.toNat_toUInt64]
        rw [UInt32.toNat_toUInt64]
        omega
      have hrest := toInt_sub_piece hpos hle
      obtain ⟨as, l', hrun, hsz, hholds⟩ := ih _ (by rw [← hn, hrest]; omega)
        (l := ⟨l.baseoff + (detailSize m l.sz).toUInt64,
          (l.sz.toUInt32 - detailSize m l.sz).toInt32⟩)
        (by rw [hbase]; omega) (by rw [hbase, hrest]; omega) rfl
      exact ⟨0 :: as, l', Run.cons trivial hst hrun, hsz, hholds⟩

end Pieces

/-- **The pieces of an I/O stay in a range exactly when the whole of it does**, or when they
are all empty. -/
theorem pieces_within_iff {m : Int32} {ip : Itype} {offset : UInt64} {lo hi : ℕ}
    (hop : ip.optype ≠ .sleep) (hpos : 0 < ip.size.toNat) (hlt : ip.size.toNat < 2 ^ 31)
    (hhi : hi < 2 ^ 64) :
    (∀ l, (pieceLoop m ip offset).Reachable always l → 0 < l.sz → (l.extent m).Within lo hi) ↔
      m.toUInt32.toNat = 0 ∨ lo ≤ offset.toNat ∧ offset.toNat + ip.size.toNat ≤ hi := by
  have hoff := UInt64.toNat_lt offset
  have hs : ip.size.toInt32.toInt = ip.size.toNat := by
    rw [toInt_toInt32_eq, if_pos hlt]
  constructor
  · intro h
    rcases Nat.eq_zero_or_pos m.toUInt32.toNat with hz | hm
    · exact .inl hz
    · -- a byte of the I/O is in a piece, and so in the range
      have hbyte : ∀ x, x < 2 ^ 64 → offset.toNat ≤ x → x < offset.toNat + ip.size.toNat →
          lo ≤ x ∧ x < hi := by
        intro x hx hlox hhix
        have hend : (x : ℤ) < offset.toNat + ip.size.toInt32.toInt := by omega
        have hpiece : ∃ as l, Run (pieceLoop m ip offset) always (pieceLoop m ip offset).init as l ∧
            0 < l.sz ∧ (l.extent m).Holds x := exists_piece_holds hm hop hx hlox hend
        obtain ⟨as, l, hrun, hsz, hholds⟩ := hpiece
        exact h l ⟨as, hrun⟩ hsz x hholds
      have hfirst := hbyte offset.toNat hoff le_rfl (by omega)
      refine .inr ⟨hfirst.1, Nat.le_of_not_lt fun hout => ?_⟩
      have hlast := hbyte hi hhi hfirst.2.le hout
      exact absurd hlast.2 (lt_irrefl hi)
  · rintro (hz | ⟨hlo, hend⟩) l hreach hsz
    · rw [Int32.lt_iff_toInt_lt] at hsz
      refine Extent.within_iff.mpr (.inl ?_)
      rw [PieceLoop.extent, toNat_detailSize m hsz, hz]
      exact Nat.zero_min _
    · obtain ⟨d, hd⟩ := after_of_reachable hop hs hreach
      rw [Int32.lt_iff_toInt_lt] at hsz
      have hsize := toNat_detailSize m hsz
      have hbase := hd.base
      have hrest := hd.rest
      have hle : (detailSize m l.sz).toNat ≤ l.sz.toInt.toNat := by
        rw [hsize]
        exact min_le_right _ _
      have hz : (0 : Int32).toInt = 0 := rfl
      rw [Nat.mod_eq_of_lt (by omega)] at hbase
      refine Extent.within_iff.mpr (.inr ⟨?_, ?_⟩)
      · show lo ≤ l.baseoff.toNat
        omega
      · show l.baseoff.toNat + (detailSize m l.sz).toNat ≤ hi
        omega

/-! ## Where an I/O starts -/

/-- **Some draw puts an I/O against the end of the range**, whatever the header adds. Below
`rangeoff` the header leaves room for the multiple of `s` nearest to it; from there on the
multiple is taken nearest to `2^64 + rangeoff`, so that the sum wraps. -/
theorem exists_draw {h s R : ℕ} (hh : h < 2 ^ 64) (hs : 0 < s) (hR : 0 < R) (hR' : R ≤ 2 ^ 64) :
    ∃ k, k * s < 2 ^ 64 ∧ R ≤ (k * s + h) % 2 ^ 64 % R + s := by
  have hmul : ∀ n, n / s * s ≤ n ∧ n < n / s * s + s := fun n =>
    ⟨Nat.div_mul_le_self n s, Nat.lt_div_mul_add hs⟩
  by_cases hlt : h < R
  · obtain ⟨hle, hgt⟩ := hmul (R - 1 - h)
    refine ⟨(R - 1 - h) / s, by omega, ?_⟩
    rw [Nat.mod_eq_of_lt (by omega : (R - 1 - h) / s * s + h < 2 ^ 64),
      Nat.mod_eq_of_lt (by omega : (R - 1 - h) / s * s + h < R)]
    omega
  · obtain ⟨hle, hgt⟩ := hmul (2 ^ 64 + R - 1 - h)
    refine ⟨(2 ^ 64 + R - 1 - h) / s, by omega, ?_⟩
    by_cases hwrap : 2 ^ 64 ≤ (2 ^ 64 + R - 1 - h) / s * s + h
    · have hmod : ((2 ^ 64 + R - 1 - h) / s * s + h) % 2 ^ 64 =
          (2 ^ 64 + R - 1 - h) / s * s + h - 2 ^ 64 := by
        rw [Nat.mod_eq_sub_mod hwrap, Nat.mod_eq_of_lt (by omega)]
      rw [hmod, Nat.mod_eq_of_lt (by omega)]
      omega
    · -- no multiple in between: the size alone is larger than the range
      have hbig : R < s := by omega
      omega

section Offset

variable {t : IoThread} {ip : Itype} {rand offset : UInt64}

/-- The region offset before the remainder: a multiple of the size, and the header. -/
theorem toNat_ioOffset (hmul : t.params.multiplier = 1) (hs : ip.size.toNat ≠ 0)
    (hR : t.rangeoff.toNat ≠ 0) (rand : UInt64) :
    ∃ offset, ioOffset t ip rand = some offset ∧
      offset.toNat =
        ((rand.toNat / ip.size.toNat * ip.size.toNat + t.params.headersz.toNat) % 2 ^ 64 %
          t.rangeoff.toNat + t.params.minoff.toNat) % 2 ^ 64 := by
  have hsize : ip.size ≠ 0 := by
    intro h
    rw [h] at hs
    exact hs rfl
  have hrange : t.rangeoff ≠ 0 := fun h => hR (eq_zero_iff.mp h)
  rw [ioOffset, if_neg (not_or.mpr ⟨hsize, hrange⟩)]
  refine ⟨_, rfl, ?_⟩
  have hle : (rand % ip.size.toUInt64).toNat ≤ rand.toNat := by
    rw [UInt64.toNat_mod]
    exact Nat.mod_le _ _
  have hdown : (rand - rand % ip.size.toUInt64).toNat =
      rand.toNat / ip.size.toNat * ip.size.toNat := by
    rw [toNat_sub_of_le hle, UInt64.toNat_mod, UInt32.toNat_toUInt64]
    have := Nat.div_add_mod' rand.toNat ip.size.toNat
    omega
  rw [hmul, u64OfI32_one, UInt64.mul_one, UInt64.toNat_add, UInt64.toNat_mod, UInt64.toNat_add,
    hdown]

theorem toNat_of_ioOffset (hmul : t.params.multiplier = 1) (hs : ip.size.toNat ≠ 0)
    (hR : t.rangeoff.toNat ≠ 0) (hoff : ioOffset t ip rand = some offset) :
    offset.toNat =
      ((rand.toNat / ip.size.toNat * ip.size.toNat + t.params.headersz.toNat) % 2 ^ 64 %
        t.rangeoff.toNat + t.params.minoff.toNat) % 2 ^ 64 := by
  obtain ⟨offset', hoff', hval⟩ := toNat_ioOffset hmul hs hR rand
  rw [hoff, Option.some.injEq] at hoff'
  rw [hoff', hval]

theorem exists_rand {k : ℕ} (hs : 0 < ip.size.toNat) (hk : k * ip.size.toNat < 2 ^ 64) :
    ∃ rand : UInt64, rand.toNat / ip.size.toNat * ip.size.toNat = k * ip.size.toNat := by
  refine ⟨UInt64.ofNat (k * ip.size.toNat), ?_⟩
  rw [UInt64.toNat_ofNat_of_lt' hk, Nat.mul_div_cancel _ hs]

end Offset

/-! ## The condition -/

/-- Each piece that a READ or WRITE type of the list has, at any random number, is inside
`[minoff, maxoff)`. Every type of the list counts, also one whose share is so small that no draw
selects it. -/
def StaysInside (t : IoThread) : Prop :=
  ∀ ip ∈ t.itlist, ip.optype = .read ∨ ip.optype = .write → ∀ rand e, IsPiece t ip rand e →
    e.Within t.params.minoff.toNat t.params.maxoff.toNat

/-- When the I/Os of a type stay inside, in terms of the options alone. -/
def SizeFits (cp : CmdParams) (itlist : List Itype) (ip : Itype) : Prop :=
  if cp.headersz = 0 then ip.size.toNat ∣ cp.span
  else ∀ jp ∈ itlist, (u64OfI32 jp.size.toInt32).toNat ≤ cp.span

/-- The largest size is within a bound when every size is; a size of `2^31` or more counts as
the 64-bit number its sign extension makes of it. -/
theorem msz_le_iff {l : List Itype} {n : ℕ} :
    msz l ≤ n ↔ ∀ jp ∈ l, (u64OfI32 jp.size.toInt32).toNat ≤ n := by
  simp only [msz, toNat_u64OfI32_eq, UInt32.toUInt32_toInt32]
  have hlt := UInt32.toNat_lt (maxsize l).toUInt32
  constructor
  · intro h jp hjp
    have hle := size_le_maxsize hjp
    split at h <;> split <;> omega
  · intro h
    rcases maxsize_mem l with hz | ⟨ip, hip, heq⟩
    · rw [hz]
      exact Nat.zero_le n
    · rw [heq]
      exact h ip hip

section Sizes

variable {t : IoThread} {ip : Itype}

/-- The pieces of all I/Os of a type, in terms of where its I/Os start. -/
theorem inside_iff_offsets (hop : ip.optype ≠ .sleep) (hpos : 0 < ip.size.toNat)
    (hlt : ip.size.toNat < 2 ^ 31) (hm : t.params.maxiosize.toUInt32.toNat ≠ 0) :
    (∀ rand e, IsPiece t ip rand e →
        e.Within t.params.minoff.toNat t.params.maxoff.toNat) ↔
      ∀ rand offset, ioOffset t ip rand = some offset →
        t.params.minoff.toNat ≤ offset.toNat ∧
          offset.toNat + ip.size.toNat ≤ t.params.maxoff.toNat := by
  have hhi := UInt64.toNat_lt t.params.maxoff
  constructor
  · intro h rand offset hoff
    have hall := (pieces_within_iff (m := t.params.maxiosize) hop hpos hlt hhi).mp
      fun l hreach hsz => h rand _ ⟨offset, l, hoff, hreach, hsz, rfl⟩
    exact hall.resolve_left hm
  · rintro h rand e ⟨offset, l, hoff, hreach, hsz, rfl⟩
    exact (pieces_within_iff hop hpos hlt hhi).mpr (.inr (h rand offset hoff)) l hreach hsz

section OneType

variable (hp : t.params.Ranged) (hrange : t.rangeoff = rangeoff t.params t.itlist)
  (hmul : t.params.multiplier = 1) (hip : ip ∈ t.itlist) (hpos : 0 < ip.size.toNat)
include hp hrange hmul hpos

/-- Without a header the starts are the multiples of the size, modulo the whole range. -/
theorem offsets_inside_of_headerless (hh : t.params.headersz = 0) :
    (∀ rand offset, ioOffset t ip rand = some offset →
        t.params.minoff.toNat ≤ offset.toNat ∧
          offset.toNat + ip.size.toNat ≤ t.params.maxoff.toNat) ↔
      ip.size.toNat ∣ t.params.span := by
  have hmax := UInt64.toNat_lt t.params.maxoff
  have hord := hp.lt
  have hspan : t.params.span = t.params.maxoff.toNat - t.params.minoff.toNat := rfl
  have hR : t.rangeoff.toNat = t.params.span := hrange ▸ rangeoff_whole hp hh
  have hhz : t.params.headersz.toNat = 0 := eq_zero_iff.mp hh
  constructor
  · intro h
    by_contra hndvd
    -- the last multiple below the end of the range does not leave room
    have hle := Nat.div_mul_le_self t.params.span ip.size.toNat
    have hgt := Nat.lt_div_mul_add (a := t.params.span) hpos
    have hne : t.params.span / ip.size.toNat * ip.size.toNat ≠ t.params.span :=
      fun heq => hndvd ⟨_, by rw [Nat.mul_comm]; exact heq.symm⟩
    obtain ⟨rand, hrand⟩ := exists_rand (k := t.params.span / ip.size.toNat) hpos (by omega)
    obtain ⟨offset, hoff, hval⟩ := toNat_ioOffset hmul hpos.ne' (by omega) rand
    rw [hrand, hhz, Nat.add_zero, hR] at hval
    generalize t.params.span / ip.size.toNat * ip.size.toNat = start at hle hgt hne hval
    have hlt : start < t.params.span := lt_of_le_of_ne hle hne
    rw [Nat.mod_eq_of_lt (by omega : start < 2 ^ 64), Nat.mod_eq_of_lt hlt,
      Nat.mod_eq_of_lt (by omega)] at hval
    have hend := (h rand offset hoff).2
    omega
  · intro hdvd rand offset hoff
    have hval := toNat_of_ioOffset hmul hpos.ne' (by omega) hoff
    rw [hhz, Nat.add_zero, hR] at hval
    have hdraw : rand.toNat / ip.size.toNat * ip.size.toNat < 2 ^ 64 :=
      lt_of_le_of_lt (Nat.div_mul_le_self _ _) (UInt64.toNat_lt rand)
    rw [Nat.mod_eq_of_lt hdraw] at hval
    have hq := Nat.mod_lt (rand.toNat / ip.size.toNat * ip.size.toNat)
      (by omega : 0 < t.params.span)
    have hqdvd : ip.size.toNat ∣
        rand.toNat / ip.size.toNat * ip.size.toNat % t.params.span :=
      (Nat.dvd_mod_iff hdvd).mpr (Nat.dvd_mul_left _ _)
    have hroom := Nat.le_of_dvd (by omega) (Nat.dvd_sub hdvd hqdvd)
    rw [Nat.mod_eq_of_lt (by omega)] at hval
    omega

include hip

/-- With one the range has room for the largest type, unless its subtraction wraps. -/
theorem offsets_inside_of_header (hok : ∀ jp ∈ t.itlist, jp.Ok) (hh : t.params.headersz ≠ 0) :
    (∀ rand offset, ioOffset t ip rand = some offset →
        t.params.minoff.toNat ≤ offset.toNat ∧
          offset.toNat + ip.size.toNat ≤ t.params.maxoff.toNat) ↔
      msz t.itlist ≤ t.params.span := by
  have hmax := UInt64.toNat_lt t.params.maxoff
  have hord := hp.lt
  have hspan : t.params.span = t.params.maxoff.toNat - t.params.minoff.toNat := rfl
  have hRlt := UInt64.toNat_lt t.rangeoff
  constructor
  · intro h
    by_contra hout
    -- the range has wrapped, and a draw comes within the size of its end
    have hR : t.params.span < t.rangeoff.toNat :=
      hrange ▸ rangeoff_wrapped hp hh (Nat.lt_of_not_le hout) (msz_le hok)
    obtain ⟨k, hk, hend⟩ := exists_draw (UInt64.toNat_lt t.params.headersz) hpos
      (by omega : 0 < t.rangeoff.toNat) hRlt.le
    obtain ⟨rand, hrand⟩ := exists_rand hpos hk
    obtain ⟨offset, hoff, hval⟩ := toNat_ioOffset hmul hpos.ne' (by omega) rand
    rw [hrand] at hval
    have hq := Nat.mod_lt ((k * ip.size.toNat + t.params.headersz.toNat) % 2 ^ 64)
      (by omega : 0 < t.rangeoff.toNat)
    obtain ⟨hlo, hhi⟩ := h rand offset hoff
    omega
  · intro hle rand offset hoff
    have hsize := size_le_msz hip
    have hR : t.rangeoff.toNat + msz t.itlist ≤ t.params.span :=
      hrange ▸ rangeoff_room hp hh hle
    have hRne : t.rangeoff.toNat ≠ 0 := by
      intro hz
      -- with an empty range there is no offset at all
      have hzero : t.rangeoff = 0 := eq_zero_iff.mpr hz
      rw [ioOffset, if_pos (.inr hzero)] at hoff
      cases hoff
    have hval := toNat_of_ioOffset hmul hpos.ne' hRne hoff
    have hq := Nat.mod_lt ((rand.toNat / ip.size.toNat * ip.size.toNat +
      t.params.headersz.toNat) % 2 ^ 64) (Nat.pos_of_ne_zero hRne)
    rw [Nat.mod_eq_of_lt (by omega)] at hval
    omega

/-- **One type of the list**: its I/Os stay inside exactly when its size fits. -/
theorem offsets_inside_iff (hok : ∀ jp ∈ t.itlist, jp.Ok) :
    (∀ rand offset, ioOffset t ip rand = some offset →
        t.params.minoff.toNat ≤ offset.toNat ∧
          offset.toNat + ip.size.toNat ≤ t.params.maxoff.toNat) ↔
      SizeFits t.params t.itlist ip := by
  unfold SizeFits
  by_cases hh : t.params.headersz = 0
  · rw [if_pos hh]
    exact offsets_inside_of_headerless hp hrange hmul hpos hh
  · rw [if_neg hh, ← msz_le_iff]
    exact offsets_inside_of_header hp hrange hmul hip hpos hok hh

end OneType

/-- A type of `2^31` bytes or more issues nothing: its size is a negative `int`. -/
theorem no_piece_of_large (hop : ip.optype ≠ .sleep) (hlarge : 2 ^ 31 ≤ ip.size.toNat)
    (rand : UInt64) (e : Extent) : ¬ IsPiece t ip rand e := by
  rintro ⟨offset, l, -, hreach, hsz, -⟩
  have hlt := UInt32.toNat_lt ip.size
  have hinv : ¬ 0 < l.sz.toInt := by
    refine hreach.invariant (I := fun l => ¬ 0 < l.sz.toInt) ?_ ?_
    · show ¬ 0 < ip.size.toInt32.toInt
      rw [toInt_toInt32_eq, if_neg (by omega)]
      omega
    · intro l a l' hl _ hst
      exact absurd ((pieceStep_spec hop).mp hst).1 hl
  exact hinv (Int32.lt_iff_toInt_lt.mp hsz)

end Sizes

/-- The condition on the options: there is no thread, or every piece is empty, or each READ or
WRITE type that issues anything has a size that fits. -/
def Fits (cp : CmdParams) (itlist : List Itype) : Prop :=
  cp.maxthreads.toInt ≤ 0 ∨ cp.maxiosize = 0 ∨
    ∀ ip ∈ itlist, ip.optype = .read ∨ ip.optype = .write → ip.size.toNat < 2 ^ 31 →
      SizeFits cp itlist ip

theorem staysInside_iff {t : IoThread} (hp : t.params.Ranged) (hok : ∀ jp ∈ t.itlist, jp.Ok)
    (hrange : t.rangeoff = rangeoff t.params t.itlist) (hmul : t.params.multiplier = 1)
    (hm : t.params.maxiosize.toUInt32.toNat ≠ 0) :
    StaysInside t ↔
      ∀ ip ∈ t.itlist, ip.optype = .read ∨ ip.optype = .write → ip.size.toNat < 2 ^ 31 →
        SizeFits t.params t.itlist ip := by
  have hwake : ∀ ip : Itype, ip.optype = .read ∨ ip.optype = .write → ip.optype ≠ .sleep := by
    rintro ip (h | h) hs <;> rw [h] at hs <;> cases hs
  have hpos : ∀ ip ∈ t.itlist, ip.optype ≠ .sleep → 0 < ip.size.toNat := fun ip hip hop =>
    lt_of_lt_of_le (by norm_num) ((hok ip hip).sector hop).1
  constructor
  · intro h ip hip hrw hlt
    have hop := hwake ip hrw
    exact (offsets_inside_iff hp hrange hmul hip (hpos ip hip hop) hok).mp
      ((inside_iff_offsets hop (hpos ip hip hop) hlt hm).mp (h ip hip hrw))
  · intro h ip hip hrw rand e hpiece
    have hop := hwake ip hrw
    by_cases hlt : ip.size.toNat < 2 ^ 31
    · exact (inside_iff_offsets hop (hpos ip hip hop) hlt hm).mpr
        ((offsets_inside_iff hp hrange hmul hip (hpos ip hip hop) hok).mpr (h ip hip hrw hlt))
        rand e hpiece
    · exact absurd hpiece (no_piece_of_large hop (Nat.le_of_not_lt hlt) rand e)

theorem staysInside_of_empty {t : IoThread} (hm : t.params.maxiosize.toUInt32.toNat = 0) :
    StaysInside t := by
  rintro ip hip hrw rand e ⟨offset, l, -, -, hsz, rfl⟩
  rw [Int32.lt_iff_toInt_lt] at hsz
  refine Extent.within_iff.mpr (.inl ?_)
  rw [PieceLoop.extent, toNat_detailSize _ hsz, hm]
  exact Nat.zero_min _

/-- What a thread's pieces do, its calls of `do_io` do: over every run of the call, each READ
or WRITE request issued is inside. -/
theorem doIo_inside {ignErrors : Bool} {finish now start endTime : UInt64} {t : IoThread}
    (h : StaysInside t) {s : DoIo}
    (hs : (doIo ignErrors finish t now start endTime).Reachable always s) {r : Request}
    (hr : r ∈ s.issued) (hrw : r.type = .read ∨ r.type = .write) :
    r.extent.Within t.params.minoff.toNat t.params.maxoff.toNat := by
  obtain ⟨ip, hip, htype, rand, hpiece⟩ := doIo_issued hs r hr
  exact h ip hip (htype ▸ hrw) rand _ hpiece

/-- **An accepted configuration without a multiplier keeps every piece inside `[minoff, maxoff)`
exactly when the sizes fit.**

Each of the two cases of `SizeFits` has its own way to fail. With a header the room for the
largest type may wrap, and then the range is nearly the whole of the 64 bits; without one the last
multiple of a size that does not divide the range starts too close to its end, and there is always
a draw that comes to it (`exists_draw`). With `maxiosize` at zero the pieces are empty and nothing
can be outside. -/
theorem pieces_inside_iff {args : List CmdOpt} {c : Config} {nfiles : ℕ} {files : List File}
    (hargs : getopt args = some c) (hfiles : 0 < nfiles)
    (hinit : initThreads nfiles c.cp c.itlist = some files) (hmul : c.cp.multiplier = 1) :
    (∀ f ∈ files, ∀ t ∈ f.ithreads, StaysInside t) ↔ Fits c.cp c.itlist := by
  obtain ⟨hok, -⟩ := ok_of_getopt hargs
  have hmax : c.cp.maxiosize = 0 ↔ c.cp.maxiosize.toUInt32.toNat = 0 :=
    toNat_toUInt32_eq_zero.symm
  by_cases hm : c.cp.maxiosize.toUInt32.toNat = 0
  · refine iff_of_true (fun f hf t ht => ?_) (.inr (.inl (hmax.mpr hm)))
    obtain ⟨hcp, -, -⟩ := thread_of_initThreads hinit hf ht
    exact staysInside_of_empty (hcp ▸ hm)
  · refine Iff.trans (all_threads_iff hinit hfiles fun t hcp hlist hrange => ?_)
      (or_congr_right (or_iff_right fun hz => hm (hmax.mp hz)).symm)
    rw [← hcp, ← hlist] at hrange
    rw [staysInside_iff (hcp ▸ hok.ranged) (hlist ▸ hok.itypes) hrange (hcp ▸ hmul)
      (hcp ▸ hm), hcp, hlist]

/-- One megabyte, and writes of two sectors that divide it. -/
theorem pieces_inside_small :
    ∃ c files, getopt [.m [.maxoff (some 1), .header (some 0)],
        .i [.size (some 1024), .op .write]] = some c ∧
      initThreads 1 c.cp c.itlist = some files ∧ c.cp.multiplier = 1 ∧
      ((∀ f ∈ files, ∀ t ∈ f.ithreads, StaysInside t) ↔ Fits c.cp c.itlist) :=
  ⟨_, _, rfl, rfl, rfl, @pieces_inside_iff
    [.m [.maxoff (some 1), .header (some 0)], .i [.size (some 1024), .op .write]] _ 1 _
    rfl Nat.one_pos rfl rfl⟩

/-- Two megabytes written to a range of one: the subtraction of the size wraps, the range is
accepted, and a piece starts a terabyte past its end. -/
theorem leaves_range_small :
    ∃ c files, getopt [.m [.minoff (some 0), .maxoff (some 1)],
        .i [.size (some 2097152), .op .write]] = some c ∧
      initThreads 1 c.cp c.itlist = some files ∧ c.cp.multiplier = 1 ∧
      ∃ f ∈ files, ∃ t ∈ f.ithreads, ∃ ip ∈ t.itlist, ip.optype = .write ∧
        ∃ rand e, IsPiece t ip rand e ∧
          ¬ e.Within t.params.minoff.toNat t.params.maxoff.toNat := by
  refine ⟨_, _, rfl, rfl, rfl, _, List.mem_cons_self, _, List.mem_cons_self, _,
    List.mem_cons_self, rfl, (1 : UInt64) <<< 40, ⟨2 ^ 40 + 1024, 1048576⟩,
    ⟨1099511628800, ⟨1099511628800, 2097152⟩, ?_, .start, ?_, ?_⟩, ?_⟩ <;> decide

end Ioload
end Blockbench
