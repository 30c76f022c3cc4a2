import Blockbench.Iofill.Fill

/-!
# `Iofill/Stop.lean` — once `iofill` stops, it stays stopped

`io_finish` ends a file by adding `totalio` to `thread_bno`, on an error of the kind "the device
is full" and when the deadline has passed. Nothing is set that says "stopped": every later claim
is simply too large. That holds only as long as the counter does not wrap back below `totalio`,
and several threads may add to it, a thread at block 0 twice in one iteration.

How often they can is the pool's count (`Tracked.stops_step`): a thread that could still stop
the fill is on a number it claimed before the first stop, so it has at most the header and the
block of that number left, and `2 * T` additions is the most any schedule can reach.
-/

set_option autoImplicit false

namespace Blockbench
namespace Iofill

open Finset TicketPool

variable {cp : CmdParams} {endtime : UInt64} {T : ℕ} {s t : FillState T}

def Pc.hand : Pc → Option ℕ
  | .header k _ | .headerIo k _ | .block k _ | .blockIo k _ | .loopEnd k => some k.toNat
  | .claim | .inject | .done => none

theorem hand_absWorker (cp : CmdParams) (pc : Pc) : (absWorker cp pc).hand = pc.hand := by
  cases pc <;> rfl

theorem all_simulation (endtime : UInt64) (hp : cp.Ok)
    (hbound : (2 * T + 1) * total cp + T < 2 ^ 64) :
    Machine.Simulation (fill cp endtime T) (pool (total cp) (ticketWork cp)) Machine.always
      (Tracked cp (2 * T)) (absFill cp) := by
  refine fill_simulation hp ?_ fun _ _ _ hs _ h => hs.stops_step hp h
  have hexp : (2 * T + 1) * total cp = total cp * (2 * T) + total cp := by
    rw [Nat.succ_mul, Nat.mul_comm]
  omega

/-- **Once stopped, always stopped.** From a state in which some thread has added `totalio`, no
run ever claims a block number below `totalio` again, each thread leaves its loop at its next
claim, and whatever is still issued belongs to the block numbers in hand there, at most one a
thread.

What it means to be stopped is only that the counter is large, and it is 64 bits wide. `hbound` is
the worst case: each of the `T` threads may add `totalio` twice, for the header and for the block
of the number it has in hand, and then each adds one at its last claim. -/
theorem stays_stopped (hp : cp.Ok) (hbound : (2 * T + 1) * total cp + T < 2 ^ 64)
    (hs : (fill cp endtime T).Reachable Machine.always s) (hstop : ∃ i, 0 < s.stops i)
    {as : List (Act T)} (hr : Machine.Run (fill cp endtime T) Machine.always s as t) :
    total cp ≤ t.threadBno.toNat ∧ t.claims = s.claims ∧
      (∀ i rand nextbno u, (fill cp endtime T).step (.claim i rand nextbno) t = some u →
        (u.thread i).pc = .done) ∧
      ∃ new, t.issued = new ++ s.issued ∧
        (∀ e ∈ new, ∃ i, (s.thread i).pc.hand = some e.1) ∧
        (new.map Prod.fst).toFinset.card ≤ T := by
  have hsim := all_simulation endtime hp hbound
  obtain ⟨bs, hbs⟩ := hs
  have htrack : Tracked cp (2 * T) s := hbs.keeps hsim.keep (tracked_init hp _)
  obtain ⟨i, hi⟩ := hstop
  obtain ⟨cs, hcs⟩ := hsim.run hr htrack
  obtain ⟨hge, hclaimed, -, newAbs, hlog, hnew⟩ := run_after_stop hcs (htrack.inv.stopped hi)
  obtain ⟨new, hissued⟩ := issued_grows hr
  have hmap : new.map (fun e => (e.1, extent e.2)) = newAbs := by
    have hlog' : t.issued.map (fun e => (e.1, extent e.2))
        = newAbs ++ s.issued.map (fun e => (e.1, extent e.2)) := hlog
    rw [hissued, List.map_append] at hlog'
    exact List.append_cancel_right hlog'
  have hhand : ∀ e ∈ new, ∃ i, (s.thread i).pc.hand = some e.1 := by
    intro e he
    obtain ⟨j, hj⟩ := hnew (e.1, extent e.2) (hmap ▸ List.mem_map_of_mem he)
    exact ⟨j, (hand_absWorker cp _).symm.trans hj⟩
  refine ⟨hge, hclaimed, fun j rand nextbno u h => ?_, new, hissued, hhand, ?_⟩
  · obtain ⟨-, hmove⟩ := fillMove_of_step h
    cases hmove with
    | claim hpc =>
      have hle : (fthreadinit cp).totalio ≤ t.threadBno := UInt64.le_iff_toNat_le.mpr hge
      show (Function.update t.thread j _ j).pc = _
      rw [Function.update_self, claimed_leave hle]
  · -- each number still worked on is the one in some thread's hand
    have hsub : (new.map Prod.fst).toFinset
        ⊆ univ.image fun j : Fin T => ((s.thread j).pc.hand).getD 0 := by
      intro k hk
      obtain ⟨e, he, rfl⟩ := List.mem_map.mp (List.mem_toFinset.mp hk)
      obtain ⟨j, hj⟩ := hhand e he
      exact mem_image.mpr ⟨j, mem_univ j, by rw [hj]; rfl⟩
    calc (new.map Prod.fst).toFinset.card
        ≤ (univ.image fun j : Fin T => ((s.thread j).pc.hand).getD 0).card := card_le_card hsub
      _ ≤ (univ : Finset (Fin T)).card := card_image_le
      _ = T := by rw [card_univ, Fintype.card_fin]

/-- The device is full at the first header of thread `i`. -/
def fullSchedule (i j : Fin 2) (u : Drand48) : List (Act 2) :=
  [.claim i 0 0, .claim j 0 0, .issue i u, .finish i ⟨0, 0, true, efbig, 0⟩]

/-- Thread 1 goes on from there with what it has in hand. -/
theorem stays_stopped_small : ∃ s t, (fill smallFill 5 2).Reachable Machine.always s ∧
    (∃ i, 0 < s.stops i) ∧
    Machine.Run (fill smallFill 5 2) Machine.always s
      [.issue 1 0, .finish 1 ⟨1, 2, false, 0, 4096⟩] t ∧
    t.issued.length = s.issued.length + 1 ∧ 6 ≤ t.threadBno.toNat ∧ t.claims = s.claims := by
  obtain ⟨s, t, hexec, hmore, hstop, hissued⟩ : ∃ s t,
      (fill smallFill 5 2).exec (fullSchedule 0 1 0) (fillInit smallFill 2) = some s ∧
      (fill smallFill 5 2).exec [.issue 1 0, .finish 1 ⟨1, 2, false, 0, 4096⟩] s = some t ∧
      0 < s.stops 0 ∧ t.issued.length = s.issued.length + 1 :=
    ⟨_, _, rfl, rfl, by decide, rfl⟩
  have hs : (fill smallFill 5 2).Reachable Machine.always s := ⟨_, Machine.run_of_exec hexec⟩
  have hr := Machine.run_of_exec hmore
  obtain ⟨hge, hclaims, -⟩ := stays_stopped smallFill_ok (by decide) hs ⟨0, hstop⟩ hr
  exact ⟨s, t, hs, ⟨0, hstop⟩, hr, hissued, hge, hclaims⟩

end Iofill
end Blockbench
