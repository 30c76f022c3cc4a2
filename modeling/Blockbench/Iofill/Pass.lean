import Blockbench.Iofill.DefaultCount
import Blockbench.Iofill.Inside

/-!
# `Iofill/Pass.lean` — one full pass

With `nrep` at 1 a run writes each block number below `count` once. What it has written is then
a question about the requests of these numbers and no longer about runs: a byte has been written
when one of them holds it (`written_iff`). `Iofill/Skip.lean` and `Iofill/Seek.lean` answer it
for the two options that change the order.
-/

set_option autoImplicit false

namespace Blockbench
namespace Iofill

open CInt Finset TicketPool

/-- A pass that meets no failure and no deadline ends, after writing every byte of
`[minoff, minoff + rangeoff)`; a byte past the 64-bit range cannot be written. -/
structure PassFills (cp : CmdParams) (endtime : UInt64) (T : ℕ) : Prop where
  ends : ∀ s, (fill cp endtime T).Reachable (quiet endtime) s →
    ∃ as t, Machine.Run (fill cp endtime T) (quiet endtime) s as t ∧ t.Finished
  written : ∀ s, (fill cp endtime T).Reachable (quiet endtime) s → s.Finished →
    ∀ x, cp.minoff.toNat ≤ x → x < cp.minoff.toNat + (ithreadinit cp 0).rangeoff.toNat →
      x < 2 ^ 64 ∧ 0 < timesWritten s x

/-- A request of one of the first `n` block numbers holds the byte. -/
def Covered (cp : CmdParams) (n x : ℕ) : Prop :=
  ∃ b < n, ∃ e ∈ blockWork cp (UInt64.ofNat b), e.Holds x

/-- The requests of the first `n` block numbers leave no byte of the region out. -/
def PassCovers (cp : CmdParams) (n : ℕ) : Prop :=
  ∀ x, cp.minoff.toNat ≤ x → x < cp.minoff.toNat + cp.region → x < 2 ^ 64 ∧ Covered cp n x

variable {cp : CmdParams} {endtime : UInt64} {T n : ℕ} {s : FillState T}

theorem covered_iff (hp : cp.Ok) (hn : 0 < n) (x : ℕ) :
    Covered cp n x ↔
      (cp.hdr ≠ 0 ∧ (headerExtent cp).Holds x) ∨
        ∃ b < n, (blockExtent cp (UInt64.ofNat b)).Holds x := by
  obtain ⟨-, hheader⟩ := hp.geometry
  have hne : (threadParams cp 0).headersz ≠ 0 ↔ cp.hdr ≠ 0 := by
    rw [← hheader, Ne, eq_zero_iff]
  constructor
  · rintro ⟨b, hb, e, he, hx⟩
    rcases mem_blockWork.mp he with rfl | ⟨rfl, -, hh⟩
    · exact .inr ⟨b, hb, hx⟩
    · exact .inl ⟨hne.mp hh, hx⟩
  · rintro (⟨hh, hx⟩ | ⟨b, hb, hx⟩)
    · exact ⟨0, hn, _, mem_blockWork.mpr (.inr ⟨rfl, rfl, hne.mpr hh⟩), hx⟩
    · exact ⟨b, hb, _, mem_blockWork.mpr (.inl rfl), hx⟩

/-- One of the extents holds a byte when the count of them is positive. -/
theorem weigh_covers_pos_iff (l : List Extent) (x : ℕ) :
    0 < weigh (Extent.covers x) l ↔ ∃ e ∈ l, e.Holds x := by
  induction l with
  | nil => simp
  | cons e l ih =>
    rw [weigh_cons, Nat.add_pos_iff_pos_or_pos, ih]
    have hone : 0 < e.covers x ↔ e.Holds x := by
      unfold Extent.covers
      split <;> simp_all
    simp [hone]

theorem total_of_pass (hn : cp.nio.toNat = n) (hrep : cp.nrep = 1) : total cp = n := by
  unfold total fthreadinit
  dsimp only
  rw [hrep, UInt64.mul_one, hn]

/-- **What a finished pass has written**, whatever its schedule: what the requests of its block
numbers hold. -/
theorem written_iff (hp : cp.Ok) (hn : cp.nio.toNat = n) (hrep : cp.nrep = 1)
    (hfit : n + T < 2 ^ 64) (hT : 0 < T)
    (hr : (fill cp endtime T).Reachable (quiet endtime) s) (hfin : s.Finished) (x : ℕ) :
    0 < timesWritten s x ↔ Covered cp n x := by
  have htotal := total_of_pass hn hrep
  have hsum := sum_ticketWork
    (fun b => weigh (Extent.covers x) (blockWork cp b)) (q := 1) hn (by omega)
  rw [Nat.mul_one, Nat.one_mul] at hsum
  have hwritten := timesWritten_eq hp (by omega) hT hr hfin x
  rw [htotal] at hwritten
  unfold ticketWork at hwritten
  rw [hwritten, hsum, Nat.pos_iff_ne_zero, Ne, sum_eq_zero_iff, not_forall]
  unfold Covered
  constructor
  · rintro ⟨b, hb⟩
    obtain ⟨hlt, hne⟩ := Classical.not_imp.mp hb
    exact ⟨b, mem_range.mp hlt,
      (weigh_covers_pos_iff _ x).mp (Nat.pos_of_ne_zero hne)⟩
  · rintro ⟨b, hlt, hx⟩
    exact ⟨b, fun h => ((weigh_covers_pos_iff _ x).mpr hx).ne' (h (mem_range.mpr hlt))⟩

theorem passFills_iff (hp : cp.Ok) (hn : cp.nio.toNat = n) (hrep : cp.nrep = 1)
    (hfit : n + T < 2 ^ 64) (hT : 0 < T) :
    PassFills cp endtime T ↔ PassCovers cp n := by
  have htotal := total_of_pass hn hrep
  have hrange : (ithreadinit cp 0).rangeoff.toNat = cp.region := hp.geometry.1
  obtain ⟨-, hends⟩ := quiet_ends (T := T) endtime hp (by omega)
  constructor
  · intro h x hlo hhi
    obtain ⟨as, t, hrun, hfin⟩ := hends _ Machine.Reachable.start
    obtain ⟨hx, hw⟩ := h.written t ⟨as, hrun⟩ hfin x hlo (by omega)
    exact ⟨hx, (written_iff hp hn hrep hfit hT ⟨as, hrun⟩ hfin x).mp hw⟩
  · intro h
    refine ⟨hends, fun s hr hfin x hlo hhi => ?_⟩
    obtain ⟨hx, hc⟩ := h x hlo (by omega)
    exact ⟨hx, (written_iff hp hn hrep hfit hT hr hfin x).mpr hc⟩

theorem passCovers_iff_of_le (hle : cp.minoff.toNat + cp.region ≤ 2 ^ 64) :
    PassCovers cp n ↔ ∀ y < cp.region, Covered cp n (cp.minoff.toNat + y) := by
  constructor
  · intro h y hy
    exact (h _ (by omega) (by omega)).2
  · intro h x hlo hhi
    obtain ⟨y, rfl⟩ := Nat.exists_eq_add_of_le hlo
    exact ⟨by omega, h y (by omega)⟩

end Iofill
end Blockbench
