import Blockbench.Lib.Stride

/-!
# `Lap` — one lap round a region, in wrapping arithmetic

A lap lays a header of `head` bytes at `seek` and behind it `n` blocks of `S` bytes, in a region
of `n * S` bytes. Every place is computed in words of `M` and only then taken round the region;
what sticks out of the region's end is lost.

The lap has the right number of bytes, so it leaves a hole in one of two ways. What is lost at
the end is missing at the start (`hole_reached`). And the word can wrap in the middle of the lap,
at a place that is no multiple of the region's length, which makes the rest of it start afresh:
`gap` finds a byte that both parts then miss. `reached_iff` says when neither happens.

`reachedTop_iff` is about a region that ends where the word does, where a block reaches to the
end of the region but its length is cut to a smaller word `W`.
-/

set_option autoImplicit false

open Stride

structure Lap where
  M : ℕ
  n : ℕ
  S : ℕ
  head : ℕ
  seek : ℕ
  n_pos : 0 < n
  S_pos : 0 < S
  head_le : head ≤ S
  seek_lt : seek < M
  fits : n * S < M

namespace Lap

variable (l : Lap)

def len : ℕ := l.n * l.S

def start : ℕ := (l.seek + l.head) % l.M

def place (b : ℕ) : ℕ := (l.start + l.S * b) % l.M % l.len

def headerAt : ℕ := l.seek % l.len

def Reached (y : ℕ) : Prop :=
  (l.headerAt ≤ y ∧ y < l.headerAt + l.head) ∨
    ∃ b < l.n, l.place b ≤ y ∧ y < l.place b + l.S

def FirstByte : Prop :=
  (0 < l.head ∧ l.headerAt = 0) ∨
  (l.S ∣ l.start ∧ l.start + (l.len - l.start % l.len) % l.len < l.M) ∨
  (l.S ∣ l.M - l.start ∧ l.M + l.S ≤ l.start + l.len)

variable {l}

theorem S_le_len : l.S ≤ l.len := Nat.le_mul_of_pos_left _ l.n_pos

theorem len_pos : 0 < l.len := Nat.mul_pos l.n_pos l.S_pos

theorem start_lt : l.start < l.M := Nat.mod_lt _ (Nat.zero_lt_of_lt l.seek_lt)

theorem place_lt (b : ℕ) : l.place b < l.len := Nat.mod_lt _ len_pos

theorem headerAt_lt : l.headerAt < l.len := Nat.mod_lt _ len_pos

theorem slots_le {b c : ℕ} (h : b < c) : l.S * b + l.S ≤ l.S * c := by
  rw [← Nat.mul_succ]
  exact Nat.mul_le_mul_left _ h

theorem slot_le {b : ℕ} (hb : b < l.n) : l.S * b + l.S ≤ l.len := by
  have := slots_le (l := l) hb
  rwa [Nat.mul_comm l.S l.n] at this

theorem slot_exists (d : ℕ) : ∃ b, l.S * b ≤ d ∧ d < l.S * b + l.S := by
  have := Nat.div_add_mod d l.S
  have := Nat.mod_lt d l.S_pos
  exact ⟨d / l.S, by omega, by omega⟩

theorem lt_of_slot_lt {b c : ℕ} (h : l.S * b < l.S * c) : b < c := Nat.lt_of_mul_lt_mul_left h

theorem lt_n_of_slot_lt {b : ℕ} (h : l.S * b < l.len) : b < l.n := by
  rw [len, Nat.mul_comm l.n] at h
  exact lt_of_slot_lt h

/-- Where the word of block 0 is when it wraps already: inside the first slot. -/
theorem start_cases :
    (l.seek + l.head < l.M ∧ l.start = l.seek + l.head) ∨
      (l.M ≤ l.seek + l.head ∧ l.start + l.M = l.seek + l.head ∧ l.start < l.head) := by
  have := l.seek_lt
  have := l.head_le
  have := l.fits
  have := S_le_len (l := l)
  unfold len at this
  unfold start
  rcases Nat.lt_or_ge (l.seek + l.head) l.M with h | h
  · exact .inl ⟨h, Nat.mod_eq_of_lt h⟩
  · rw [Nat.mod_eq_sub_mod h, Nat.mod_eq_of_lt (by omega)]
    exact .inr ⟨h, by omega, by omega⟩

/-- Every byte of the region comes up once in a stretch of its length. -/
theorem exists_run (a : ℕ) {y : ℕ} (hy : y < l.len) :
    ∃ z, a ≤ z ∧ z < a + l.len ∧ z % l.len = y := by
  have hlen := len_pos (l := l)
  have hlt := Nat.mod_lt (y + (l.len - a % l.len)) hlen
  have ha := Nat.mod_lt a hlen
  have hdiv := Nat.mod_add_div a l.len
  refine ⟨a + (y + (l.len - a % l.len)) % l.len, by omega, by omega, ?_⟩
  have hsum : a + (y + (l.len - a % l.len)) = y + l.len * (a / l.len + 1) := by
    rw [Nat.mul_succ]
    omega
  rw [Nat.add_mod_mod, hsum, Nat.add_mul_mod_self_left, Nat.mod_eq_of_lt hy]

theorem mod_add_cases (a e : ℕ) (he : e ≤ l.len) :
    (a % l.len + e < l.len ∧ (a + e) % l.len = a % l.len + e) ∨
      (l.len ≤ a % l.len + e ∧ (a + e) % l.len + l.len = a % l.len + e) := by
  have ha := Nat.mod_lt a (len_pos (l := l))
  rw [← Nat.mod_add_mod]
  rcases Nat.lt_or_ge (a % l.len + e) l.len with h | h
  · exact .inl ⟨h, Nat.mod_eq_of_lt h⟩
  · rw [Nat.mod_eq_sub_mod h, Nat.mod_eq_of_lt (by omega : a % l.len + e - l.len < l.len)]
    exact .inr ⟨h, by omega⟩

/-! ## The first byte -/

theorem place_zero_iff :
    (∃ b < l.n, l.place b = 0) ↔
      (l.S ∣ l.start ∧ l.start + (l.len - l.start % l.len) % l.len < l.M) ∨
        (l.S ∣ l.M - l.start ∧ l.M + l.S ≤ l.start + l.len) := by
  have hlen := len_pos (l := l)
  have hstart := start_lt (l := l)
  have hfits : l.len < l.M := l.fits
  have hS : l.S ∣ l.len := Nat.dvd_mul_left l.S l.n
  have hmod := Nat.mod_lt l.start hlen
  have hdiv := Nat.mod_add_div l.start l.len
  constructor
  · rintro ⟨b, hb, hzero⟩
    have hslot := slot_le hb
    unfold place at hzero
    rcases Nat.lt_or_ge (l.start + l.S * b) l.M with hlt | hge
    · rw [Nat.mod_eq_of_lt hlt] at hzero
      obtain ⟨c, hc⟩ := Nat.dvd_of_mod_eq_zero hzero
      have hdvd : l.S ∣ l.start :=
        (Nat.dvd_add_left (Nat.dvd_mul_right l.S b)).mp (hS.trans ⟨c, hc⟩)
      refine .inl ⟨hdvd, ?_⟩
      rcases Nat.eq_zero_or_pos (l.start % l.len) with hz | hpos
      · rw [hz, Nat.sub_zero, Nat.mod_self]
        omega
      · -- the next multiple of the length is not past block `b`
        have hnext : l.start / l.len < c := by
          by_contra hle
          have := Nat.mul_le_mul_left l.len (Nat.le_of_not_lt hle)
          omega
        have hup := Nat.mul_le_mul_left l.len hnext
        rw [Nat.succ_eq_add_one, Nat.mul_succ] at hup
        rw [Nat.mod_eq_of_lt (by omega)]
        omega
    · have hsub : (l.start + l.S * b) % l.M = l.start + l.S * b - l.M := by
        rw [Nat.mod_eq_sub_mod hge, Nat.mod_eq_of_lt (by omega)]
      rw [hsub, Nat.mod_eq_of_lt (by omega)] at hzero
      exact .inr ⟨⟨b, by omega⟩, by omega⟩
  · rintro (⟨hdvd, hlt⟩ | ⟨⟨b, hb⟩, hle⟩)
    · have hrest : l.S ∣ (l.len - l.start % l.len) % l.len :=
        (Nat.dvd_mod_iff hS).mpr (Nat.dvd_sub hS ((Nat.dvd_mod_iff hS).mpr hdvd))
      obtain ⟨b, hb⟩ := hrest
      have hmod' := Nat.mod_lt (l.len - l.start % l.len) hlen
      have hbn : b < l.n := lt_n_of_slot_lt (by omega)
      refine ⟨b, hbn, ?_⟩
      unfold place
      rw [← hb, Nat.mod_eq_of_lt hlt, Nat.add_mod_mod, ← Nat.mod_add_mod,
        Nat.add_sub_cancel' hmod.le, Nat.mod_self]
    · have := l.S_pos
      have hbn : b < l.n := lt_n_of_slot_lt (by omega)
      refine ⟨b, hbn, ?_⟩
      unfold place
      rw [← hb, Nat.add_sub_cancel' hstart.le, Nat.mod_self, Nat.zero_mod]

theorem firstByte_iff :
    l.FirstByte ↔ (0 < l.head ∧ l.headerAt = 0) ∨ ∃ b < l.n, l.place b = 0 := by
  rw [place_zero_iff]
  rfl

theorem firstByte_of_reached (h : l.Reached 0) : l.FirstByte := by
  rw [firstByte_iff]
  rcases h with ⟨hlo, hhi⟩ | ⟨b, hb, hlo, -⟩
  · exact .inl ⟨by omega, by omega⟩
  · exact .inr ⟨b, hb, by omega⟩

/-- A header at a multiple of `d` reaches to where block 0 starts, modulo `d`. -/
theorem start_mod_le {d : ℕ} (h : d ∣ l.seek) : l.start % d ≤ l.head := by
  rcases start_cases (l := l) with ⟨-, hstart⟩ | ⟨-, -, hlt⟩
  · rw [hstart, Nat.add_mod, Nat.mod_eq_zero_of_dvd h, Nat.zero_add, Nat.mod_mod]
    exact Nat.mod_le _ _
  · exact (Nat.mod_le _ _).trans hlt.le

/-- What the block across the region's end loses is not missed at the start when the first byte
is held. -/
theorem hole_reached (hfirst : l.FirstByte) {y : ℕ} (hy : y < l.start % l.S) : l.Reached y := by
  have hmod := Nat.mod_lt l.start l.S_pos
  rcases firstByte_iff.mp hfirst with ⟨-, hzero⟩ | ⟨b, hb, hzero⟩
  · have hseek : l.len ∣ l.seek := Nat.dvd_of_mod_eq_zero hzero
    have := start_mod_le ((Nat.dvd_mul_left l.S l.n).trans hseek)
    exact .inl ⟨by omega, by omega⟩
  · exact .inr ⟨b, hb, by omega, by omega⟩

/-! ## Blocks before the word wraps -/

/-- The places before the wrap are those of slots, from `start % S` on. -/
theorem place_eq_slot {b : ℕ} (hb : l.start + l.S * b < l.M) :
    l.place b = l.start % l.S + l.S * ((l.start / l.S + b) % l.n) := by
  have hsplit : l.start + l.S * b = l.start % l.S + l.S * (l.start / l.S + b) := by
    have := Nat.mod_add_div l.start l.S
    rw [Nat.mul_add]
    omega
  unfold place len
  rw [Nat.mod_eq_of_lt hb, hsplit, mod_slot (Nat.mod_lt _ l.S_pos)]

/-- A block holds the bytes of its stretch, those it loses at the region's end apart. -/
theorem reached_of_run {b z : ℕ} (hb : b < l.n) (hlt : l.start + l.S * b < l.M)
    (hlo : l.start + l.S * b ≤ z) (hhi : z < l.start + l.S * b + l.S)
    (hy : l.start % l.S ≤ z % l.len) : l.Reached (z % l.len) := by
  have hplace : l.place b = (l.start + l.S * b) % l.len := by
    unfold place
    rw [Nat.mod_eq_of_lt hlt]
  have hslot : l.place b + l.S ≤ l.start % l.S + l.len := by
    have := slot_le (l := l) (Nat.mod_lt (l.start / l.S + b) l.n_pos)
    rw [place_eq_slot hlt]
    omega
  have hS := S_le_len (l := l)
  obtain ⟨e, rfl⟩ := Nat.exists_eq_add_of_le hlo
  rw [hplace] at hslot
  refine .inr ⟨b, hb, ?_⟩
  rw [hplace]
  rcases mod_add_cases (l := l) (l.start + l.S * b) e (by omega) with ⟨-, h⟩ | ⟨-, h⟩
  · omega
  · omega

theorem run_of_held {b y : ℕ} (hlt : l.start + l.S * b < l.M) (hy : y < l.len)
    (hlo : l.place b ≤ y) (hhi : y < l.place b + l.S) :
    ∃ z, l.start + l.S * b ≤ z ∧ z < l.start + l.S * b + l.S ∧ z % l.len = y := by
  have hplace : l.place b = (l.start + l.S * b) % l.len := by
    unfold place
    rw [Nat.mod_eq_of_lt hlt]
  refine ⟨l.start + l.S * b + (y - l.place b), by omega, by omega, ?_⟩
  rw [← Nat.mod_add_mod, ← hplace, Nat.add_sub_cancel' hlo, Nat.mod_eq_of_lt hy]

/-- **A lap in which nothing wraps** has no hole when it holds the first byte. -/
theorem reached_iff_of_lt (hU : l.start + l.len < l.M + l.S) :
    (∀ y < l.len, l.Reached y) ↔ l.FirstByte := by
  refine ⟨fun h => firstByte_of_reached (h 0 len_pos), fun hfirst y hy => ?_⟩
  rcases Nat.lt_or_ge y (l.start % l.S) with hhole | hpast
  · exact hole_reached hfirst hhole
  · obtain ⟨z, hlo, hhi, rfl⟩ := exists_run l.start hy
    obtain ⟨b, hb, hb'⟩ := slot_exists (l := l) (z - l.start)
    have hbn : b < l.n := lt_n_of_slot_lt (by omega)
    have hslot := slot_le hbn
    exact reached_of_run hbn (by omega) (by omega) (by omega) hpast

/-! ## A wrap in the middle -/

/-- Where the word wraps: before block `b₀`, which then starts at `w`, short of a block. -/
theorem exists_turn (hW : l.M + l.S ≤ l.start + l.len) :
    ∃ b₀ w, l.start + l.S * b₀ = l.M + w ∧ w < l.S ∧ 0 < b₀ ∧ b₀ < l.n := by
  have hstart := start_lt (l := l)
  have hS := l.S_pos
  obtain ⟨b₀, hlo, hhi⟩ := slot_exists (l := l) (l.M - l.start + l.S - 1)
  have hpos : 0 < b₀ := by
    apply Nat.pos_of_ne_zero
    intro hz
    rw [hz, Nat.mul_zero] at hhi
    omega
  have hlt : b₀ < l.n := lt_n_of_slot_lt (by omega)
  exact ⟨b₀, l.start + l.S * b₀ - l.M, by omega, by omega, hpos, hlt⟩

section Turn

variable {b₀ w : ℕ} (hturn : l.start + l.S * b₀ = l.M + w) (hw : w < l.S) (hpos : 0 < b₀)
  (hlt : b₀ < l.n)
include hturn hlt

theorem start_of_turn : l.start = l.seek + l.head := by
  have hslot := slot_le hlt
  have hfits : l.len < l.M := l.fits
  have := l.head_le
  rcases start_cases (l := l) with ⟨-, h⟩ | ⟨-, -, h⟩
  · exact h
  · omega

omit hlt in
include hw in
theorem place_after {b : ℕ} (hb : b₀ ≤ b) (hbn : b < l.n) : l.place b = w + l.S * (b - b₀) := by
  have hslot := slot_le hbn
  have hfits : l.len < l.M := l.fits
  obtain ⟨c, rfl⟩ := Nat.exists_eq_add_of_le hb
  rw [Nat.mul_add] at hslot
  have hsum : l.start + l.S * (b₀ + c) = l.M + (w + l.S * c) := by
    rw [Nat.mul_add]
    omega
  unfold place
  rw [hsum, Nat.add_mod_left, Nat.add_sub_cancel_left, Nat.mod_eq_of_lt (by omega : _ < l.M),
    Nat.mod_eq_of_lt (by omega)]

include hw

theorem stretch_of_reached {y : ℕ} (hy : y < l.len) (h : l.Reached y) :
    (∃ z, l.seek ≤ z ∧ z < l.M + w ∧ z % l.len = y) ∨
      (w ≤ y ∧ y + l.S * b₀ < w + l.len) := by
  have hstart := start_of_turn hturn hlt
  rcases h with ⟨hlo, hhi⟩ | ⟨b, hb, hlo, hhi⟩
  · refine .inl ⟨l.seek + (y - l.headerAt), by omega, by omega, ?_⟩
    rw [← Nat.mod_add_mod]
    show (l.headerAt + _) % _ = _
    rw [Nat.add_sub_cancel' hlo, Nat.mod_eq_of_lt hy]
  · rcases Nat.lt_or_ge b b₀ with hbefore | hafter
    · have hslot := slots_le (l := l) hbefore
      obtain ⟨z, hz, hz', hmod⟩ := run_of_held (by omega) hy hlo hhi
      exact .inl ⟨z, by omega, by omega, hmod⟩
    · have hslot := slot_le hb
      have hsub : l.S * (b - b₀) = l.S * b - l.S * b₀ := Nat.mul_sub _ _ _
      have hmono := Nat.mul_le_mul_left l.S hafter
      rw [place_after hturn hw hafter hb] at hlo hhi
      exact .inr ⟨by omega, by omega⟩

include hpos

/-- **The gap**: when the word's length is further round the region than the header is long,
and the stretches together are short of the region, one byte is in neither. -/
theorem gap (hfar : l.head < l.M % l.len) (hshort : l.head + l.S * b₀ < l.len) :
    ∃ y < l.len, ¬ l.Reached y := by
  have hstart := start_of_turn hturn hlt
  have hmod := Nat.mod_lt l.M (len_pos (l := l))
  have hdiv := Nat.mod_add_div l.M l.len
  have hfirst : l.S * 1 ≤ l.S * b₀ := Nat.mul_le_mul_left _ hpos
  have hS := l.S_pos
  obtain ⟨t, ht, ht₁, ht₂, ht₃⟩ : ∃ t < l.len, l.M % l.len ≤ t ∧ l.len ≤ t + l.S * b₀ ∧
      t + l.head + l.S * b₀ < l.M % l.len + l.len := by
    rcases Nat.le_total (l.M % l.len) (l.len - l.S * b₀) with h | h
    · exact ⟨l.len - l.S * b₀, by omega, by omega, by omega, by omega⟩
    · exact ⟨l.M % l.len, by omega, by omega, by omega, by omega⟩
  have hlt' := Nat.mod_lt (w + t) (len_pos (l := l))
  refine ⟨(w + t) % l.len, hlt', fun h => ?_⟩
  rcases stretch_of_reached hturn hw hlt hlt' h with ⟨z, hlo, hhi, hz⟩ | ⟨hlo, hhi⟩
  · -- the byte comes up again less than a lap after `z`
    have hnext : l.M + w + (t - l.M % l.len) = w + t + l.len * (l.M / l.len) := by omega
    have hsame : z ≡ l.M + w + (t - l.M % l.len) [MOD l.len] := by
      show _ % _ = _ % _
      rw [hz, hnext, Nat.add_mul_mod_self_left]
    have hdvd := (Nat.modEq_iff_dvd' (by omega)).mp hsame
    have := Nat.le_of_dvd (by omega) hdvd
    omega
  · rcases Nat.lt_or_ge (w + t) l.len with hin | hout
    · rw [Nat.mod_eq_of_lt hin] at hhi
      omega
    · rw [Nat.mod_eq_sub_mod hout, Nat.mod_eq_of_lt (by omega)] at hlo
      omega

theorem reached_of_turn (hfirst : l.FirstByte)
    (h : l.M % l.len ≤ l.head ∨ l.len ≤ l.head + l.S * b₀) {y : ℕ} (hy : y < l.len) :
    l.Reached y := by
  have hstart := start_of_turn hturn hlt
  have hslot := slot_le hlt
  have hone : l.S * 1 ≤ l.S * b₀ := Nat.mul_le_mul_left _ hpos
  have hhead := l.head_le
  rcases Nat.lt_or_ge y (l.start % l.S) with hhole | hpast
  · exact hole_reached hfirst hhole
  obtain ⟨z, hlo, hhi, rfl⟩ := exists_run l.seek hy
  rcases Nat.lt_or_ge z l.start with hheader | hblocks
  · -- in the header, unless it sticks out of the region, which makes a hole of what it loses
    obtain ⟨e, rfl⟩ := Nat.exists_eq_add_of_le hlo
    rcases mod_add_cases (l := l) l.seek e (by omega) with ⟨-, he⟩ | ⟨hout, he⟩
    · left
      unfold headerAt
      omega
    · exfalso
      rcases mod_add_cases (l := l) l.seek l.head (by omega) with ⟨hin, hs⟩ | ⟨-, hs⟩
      · omega
      · have hseek := headerAt_lt (l := l)
        unfold headerAt at hseek
        have hfirst' : l.start % l.S = l.start % l.len := by
          rw [← Nat.mod_mul_left_mod l.start l.n l.S, ← len, hstart,
            Nat.mod_eq_of_lt (by omega)]
        rw [hfirst', hstart] at hpast
        omega
  · rcases Nat.lt_or_ge z (l.M + w) with hbefore | hafter
    · obtain ⟨b, hb, hb'⟩ := slot_exists (l := l) (z - l.start)
      have hbn : b < b₀ := lt_of_slot_lt (l := l) (by omega)
      have := slots_le (l := l) hbn
      exact reached_of_run (b := b) (by omega) (by omega) (by omega) (by omega) hpast
    · -- past the wrap the lap goes on at `w`
      have hnear := h.resolve_right (by omega)
      have hdiv := Nat.mod_add_div l.M l.len
      have hz : z % l.len = w + (l.M % l.len + (z - (l.M + w))) := by
        have hsum : z = w + (l.M % l.len + (z - (l.M + w))) + l.len * (l.M / l.len) := by omega
        calc z % l.len
            = (w + (l.M % l.len + (z - (l.M + w))) + l.len * (l.M / l.len)) % l.len := by
              rw [← hsum]
          _ = _ := by rw [Nat.add_mul_mod_self_left, Nat.mod_eq_of_lt (by omega)]
      obtain ⟨c, hc, hc'⟩ := slot_exists (l := l) (l.M % l.len + (z - (l.M + w)))
      have hcn : b₀ + c < l.n := by
        apply lt_n_of_slot_lt
        rw [Nat.mul_add]
        omega
      refine .inr ⟨b₀ + c, hcn, ?_⟩
      rw [place_after hturn hw (Nat.le_add_right _ _) hcn, Nat.add_sub_cancel_left, hz]
      omega

end Turn

/-- **When a lap leaves no hole.** The blocks of a lap are one behind the other but at the end of
the region, where a block is cut, and at the end of the word, where the place of the next block
starts again. A cut loses bytes at the front of the region, which only the header or a later
stretch of the lap can make good. -/
theorem reached_iff :
    (∀ y < l.len, l.Reached y) ↔ l.FirstByte ∧
      (l.start + l.len < l.M + l.S ∨ l.M % l.len ≤ l.head ∨
        (l.head = l.S ∧ l.start + l.len < l.M + 2 * l.S)) := by
  rcases Nat.lt_or_ge (l.start + l.len) (l.M + l.S) with hU | hW
  · rw [reached_iff_of_lt hU]
    exact ⟨fun h => ⟨h, .inl hU⟩, fun h => h.1⟩
  · obtain ⟨b₀, w, hturn, hw, hpos, hlt⟩ := exists_turn hW
    have hslot := slot_le hlt
    have hhead := l.head_le
    have hcomm : l.len = l.S * l.n := Nat.mul_comm _ _
    -- only a header of a whole block leaves no more than one block behind the wrap
    have hlast : l.len ≤ l.head + l.S * b₀ ↔
        l.head = l.S ∧ l.start + l.len < l.M + 2 * l.S := by
      constructor
      · intro h
        exact ⟨by omega, by omega⟩
      · rintro ⟨hfull, h⟩
        have hfew : l.n < b₀ + 2 := lt_of_slot_lt (l := l) (by rw [Nat.mul_add]; omega)
        rw [hcomm, show l.n = b₀ + 1 by omega, Nat.mul_succ]
        omega
    constructor
    · intro h
      refine ⟨firstByte_of_reached (h 0 len_pos), .inr ?_⟩
      by_contra hno
      obtain ⟨hfar, hshort⟩ := not_or.mp hno
      rw [← hlast] at hshort
      obtain ⟨y, hy, hmiss⟩ := gap hturn hw hpos hlt (by omega) (by omega)
      exact hmiss (h y hy)
    · rintro ⟨hfirst, h⟩ y hy
      have h' := h.resolve_left (by omega)
      rw [← hlast] at h'
      exact reached_of_turn hturn hw hpos hlt hfirst h' hy

/-! ## A region that ends where the word does

There a block is as long as the way to the region's end, in words of `W`. -/

def ReachedTop (l : Lap) (W y : ℕ) : Prop :=
  (l.headerAt ≤ y ∧ y < l.headerAt + l.head) ∨
    ∃ b < l.n, l.place b ≤ y ∧ y < l.place b + (l.len - l.place b) % W

section Top

variable {W : ℕ}

/-- From `k` words below the end of the region on, a block falls `k` words short of it. -/
theorem short_of_end {k p : ℕ} (hp : p + W * k ≤ l.len) :
    p + (l.len - p) % W + W * k ≤ l.len := by
  have hsplit : l.len - p = (l.len - p - W * k) + W * k := by omega
  have hle : (l.len - p) % W ≤ l.len - p - W * k := by
    rw [hsplit, Nat.add_mul_mod_self_left]
    exact (Nat.mod_le _ _).trans (by omega)
  omega

/-- Whether a block starts in the last word of the region, and no later than the header ends. -/
theorem exists_place_iff (hW : l.S < W) (hat : l.headerAt + W ≤ l.len) :
    (∃ b < l.n, l.len < l.place b + W ∧ l.place b ≤ l.headerAt + l.head) ↔
      l.len + (if l.M ≤ l.seek + l.head then l.M % l.S else 0)
        < l.headerAt + l.head + W := by
  have hhead := l.head_le
  rcases start_cases (l := l) with ⟨hlt, hstart⟩ | ⟨hge, hstart, hsmall⟩
  · rw [if_neg (by omega)]
    constructor
    · rintro ⟨b, -, hlow, hhigh⟩
      omega
    · intro h
      have hzero : l.place 0 = l.headerAt + l.head := by
        unfold place
        rw [Nat.mul_zero, Nat.add_zero, Nat.mod_eq_of_lt start_lt, hstart, ← Nat.mod_add_mod]
        exact Nat.mod_eq_of_lt (by unfold headerAt at hat; omega)
      exact ⟨0, l.n_pos, by omega, by omega⟩
  · rw [if_pos hge]
    have hfits : l.len < l.M := l.fits
    have hplace : ∀ {b : ℕ}, b < l.n → l.place b = l.start + l.S * b := fun hb => by
      have := slot_le hb
      unfold place
      rw [Nat.mod_eq_of_lt (by omega : _ < l.M), Nat.mod_eq_of_lt (by omega)]
    -- the header ends at the places of the slots, and what is left of the word
    have hclass : (l.headerAt + l.head) % l.S = (l.start + l.M % l.S) % l.S := by
      have hdvd : l.S ∣ l.len := Nat.dvd_mul_left l.S l.n
      unfold headerAt
      rw [← Nat.mod_add_mod, Nat.mod_mod_of_dvd _ hdvd, Nat.mod_add_mod, ← hstart,
        Nat.add_mod_mod]
    have hrest := Nat.mod_lt l.M l.S_pos
    constructor
    · rintro ⟨b, hb, hlow, hhigh⟩
      rw [hplace hb] at hlow hhigh
      have hsame : l.start + l.S * b + l.M % l.S ≡ l.headerAt + l.head [MOD l.S] := by
        show _ % _ = _ % _
        rw [hclass, Nat.add_right_comm, Nat.add_mul_mod_self_left]
      by_contra hno
      -- both are within a slot of each other, so the header would end where the rest does
      obtain ⟨e, he⟩ := Nat.exists_eq_add_of_le hhigh
      have hmod : e % l.S = l.M % l.S := by
        rw [he] at hsame
        have := Nat.ModEq.add_left_cancel' _ hsame
        rw [← this, Nat.mod_mod]
      have := Nat.mod_le e l.S
      omega
    · intro h
      obtain ⟨d, hd⟩ := Nat.exists_eq_add_of_le
        (by omega : l.M % l.S ≤ l.headerAt + l.head)
      have hmod : d % l.S = l.start := by
        have hsame : l.M % l.S + d ≡ l.M % l.S + l.start [MOD l.S] := by
          show _ % _ = _ % _
          rw [← hd, hclass, Nat.add_comm]
        have := Nat.ModEq.add_left_cancel' _ hsame
        rw [this, Nat.mod_eq_of_lt (by omega)]
      have hdiv := Nat.mod_add_div d l.S
      have hb : d / l.S < l.n := lt_n_of_slot_lt (by omega)
      exact ⟨d / l.S, hb, by rw [hplace hb]; omega, by rw [hplace hb]; omega⟩

theorem reachedTop_of_lt (hfirst : l.FirstByte) (hsmall : l.len < W) {y : ℕ} (hy : y < l.len) :
    l.ReachedTop W y := by
  have hfull : ∀ b, (l.len - l.place b) % W = l.len - l.place b := fun b =>
    Nat.mod_eq_of_lt (by omega)
  rcases firstByte_iff.mp hfirst with ⟨-, hzero⟩ | ⟨b, hb, hzero⟩
  · rcases Nat.lt_or_ge y l.head with hin | hpast
    · exact .inl ⟨by omega, by omega⟩
    · -- block 0 does not start behind the header's end
      have hplace : l.place 0 ≤ l.head := by
        unfold place
        rw [Nat.mul_zero, Nat.add_zero, Nat.mod_eq_of_lt start_lt]
        exact start_mod_le (Nat.dvd_of_mod_eq_zero hzero)
      have hlt := place_lt (l := l) 0
      exact .inr ⟨0, l.n_pos, by omega, by rw [hfull]; omega⟩
  · exact .inr ⟨b, hb, by omega, by rw [hfull]; omega⟩

/-- A region of less than two words is, when a block from the header's end on is the last. -/
theorem reachedTop_of_place (hfirst : l.FirstByte) (htwo : l.len < 2 * W)
    (hat : l.headerAt + W ≤ l.len)
    (hlast : ∃ b < l.n, l.len < l.place b + W ∧ l.place b ≤ l.headerAt + l.head) {y : ℕ}
    (hy : y < l.len) : l.ReachedTop W y := by
  rcases Nat.lt_or_ge y (l.headerAt + l.head) with hin | hpast
  · rcases Nat.lt_or_ge y l.headerAt with hbefore | hheader
    · rcases firstByte_iff.mp hfirst with ⟨-, hzero⟩ | ⟨b, hb, hzero⟩
      · omega
      · refine .inr ⟨b, hb, by omega, ?_⟩
        rw [hzero, Nat.sub_zero, Nat.mod_eq_sub_mod (by omega), Nat.mod_eq_of_lt (by omega)]
        omega
    · exact .inl ⟨hheader, hin⟩
  · obtain ⟨b, hb, hlow, hhigh⟩ := hlast
    have hlt := place_lt (l := l) b
    refine .inr ⟨b, hb, by omega, ?_⟩
    rw [Nat.mod_eq_of_lt (by omega)]
    omega

/-- No block holds the byte `k` words below the end, so the header does. -/
theorem header_holds (h : ∀ y < l.len, l.ReachedTop W y) (hW : 0 < W) {k : ℕ} (hk : 0 < k)
    (hle : W * k ≤ l.len) :
    l.headerAt + W * k ≤ l.len ∧ l.len < l.headerAt + l.head + W * k := by
  have hWk : W * 1 ≤ W * k := Nat.mul_le_mul_left _ hk
  rcases h (l.len - W * k) (by omega) with ⟨hlo, hhi⟩ | ⟨b, -, hlo, hhi⟩
  · exact ⟨by omega, by omega⟩
  · have := short_of_end (l := l) (W := W) (k := k) (p := l.place b) (by omega)
    omega

/-- **When a lap at the top leaves no hole.** -/
theorem reachedTop_iff (hW : l.S < W) :
    (∀ y < l.len, l.ReachedTop W y) ↔ l.FirstByte ∧
      (l.len < W ∨ (l.len < 2 * W ∧ l.headerAt + W ≤ l.len ∧
        l.len + (if l.M ≤ l.seek + l.head then l.M % l.S else 0)
          < l.headerAt + l.head + W)) := by
  have hhead := l.head_le
  constructor
  · intro h
    refine ⟨?_, ?_⟩
    · rw [firstByte_iff]
      rcases h 0 len_pos with ⟨hlo, hhi⟩ | ⟨b, hb, hlo, -⟩
      · exact .inl ⟨by omega, by omega⟩
      · exact .inr ⟨b, hb, by omega⟩
    rcases Nat.lt_or_ge l.len W with hsmall | hlen
    · exact .inl hsmall
    obtain ⟨hat, hend⟩ := header_holds h (by omega) Nat.one_pos (by omega)
    have htwo : l.len < 2 * W := by
      by_contra hbig
      obtain ⟨hat', -⟩ := header_holds h (by omega) Nat.two_pos (by omega)
      omega
    refine .inr ⟨htwo, by omega, (exists_place_iff hW (by omega)).mp ?_⟩
    rcases h (l.headerAt + l.head) (by omega) with ⟨-, hhi⟩ | ⟨b, hb, hlo, hhi⟩
    · omega
    · refine ⟨b, hb, ?_, hlo⟩
      by_contra hlow
      have := short_of_end (l := l) (W := W) (k := 1) (p := l.place b) (by omega)
      omega
  · rintro ⟨hfirst, hlen⟩ y hy
    rcases hlen with hsmall | ⟨htwo, hat, hend⟩
    · exact reachedTop_of_lt hfirst hsmall hy
    · exact reachedTop_of_place hfirst htwo hat ((exists_place_iff hW hat).mpr hend) hy

end Top

end Lap
