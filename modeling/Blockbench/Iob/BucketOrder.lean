import Blockbench.Iob.LeastBucket
import Blockbench.Iofill.Totals
import Blockbench.Ioload.Totals

/-!
# `Iob/BucketOrder.lean` — do the latency buckets keep the order of the latencies?

Both `io_finish` functions store `lat / LATDIV` in 32 bits and clamp it to the last bucket
afterwards. A quotient of `2 ^ 32` or more, from a latency of about twelve hours, is cut first,
and what is left of it may be any bucket: a hung I/O of `10000 * 2 ^ 32` ns counts as the
fastest. `KeepsBucket` is the exact condition on one latency, and two latencies that meet it are
counted in order.

The percentiles look at the buckets alone. `histogram` is the column some latencies make, in
either tool (`Iofill.bucket_histogram`, `Ioload.bucket_histogram`), and moving one of them to a
higher bucket only lowers the running counts, so that every percentile is reached later or in
the same bucket.
-/

set_option autoImplicit false

namespace Blockbench

open Finset

/-! ## The bucket of a latency -/

/-- The quotient fits in 32 bits, or what is left of it there is clamped too. -/
def KeepsBucket (lat : UInt64) : Prop :=
  lat.toNat / 10000 < 2 ^ 32 ∨ nlatbkts - 1 ≤ lat.toNat / 10000 % 2 ^ 32

instance (lat : UInt64) : Decidable (KeepsBucket lat) := inferInstanceAs (Decidable (_ ∨ _))

section Bucket

variable {lat a b : UInt64}

theorem latBucket_eq (lat : UInt64) :
    latBucket lat = min (lat.toNat / 10000 % 2 ^ 32) (nlatbkts - 1) := by
  have hq : (lat / latdiv).toUInt32.toNat = lat.toNat / 10000 % 2 ^ 32 := by
    rw [UInt64.toNat_toUInt32, UInt64.toNat_div]
    rfl
  have hn : nlatbkts = 100000 := rfl
  unfold latBucket
  dsimp only
  rw [hq]
  split <;> omega

theorem latBucket_of_keeps (h : KeepsBucket lat) :
    latBucket lat = min (lat.toNat / 10000) (nlatbkts - 1) := by
  have hn : nlatbkts = 100000 := rfl
  rw [latBucket_eq]
  rcases h with h | h <;> omega

/-- A latency past the table is in the last bucket exactly when it keeps its bucket. -/
theorem latBucket_last_iff (hlat : nlatbkts * latdiv.toNat ≤ lat.toNat) :
    latBucket lat = nlatbkts - 1 ↔ KeepsBucket lat := by
  have hn : nlatbkts = 100000 := rfl
  have hd : latdiv.toNat = 10000 := rfl
  rw [hn, hd] at hlat
  rw [latBucket_eq, KeepsBucket]
  omega

theorem keepsBucket_of_lt (hlat : lat.toNat < nlatbkts * latdiv.toNat) : KeepsBucket lat := by
  have hn : nlatbkts = 100000 := rfl
  have hd : latdiv.toNat = 10000 := rfl
  rw [hn, hd] at hlat
  left
  omega

end Bucket

/-! ## The column some latencies make -/

/-- The counts of a column with one I/O for each of the latencies. -/
def histogram (lats : List UInt64) (i : ℕ) : UInt64 :=
  UInt64.ofNat (lats.countP fun lat => latBucket lat = i)

section Histogram

variable {a b : UInt64} {l xs ys : List UInt64}

theorem histogram_cons (lat : UInt64) (l : List UInt64) (i : ℕ) :
    histogram (lat :: l) i = histogram l i + if i = latBucket lat then 1 else 0 := by
  rw [histogram, histogram, List.countP_cons, UInt64.ofNat_add]
  by_cases hi : i = latBucket lat
  · rw [if_pos hi, if_pos (by simpa using hi.symm)]
    rfl
  · rw [if_neg hi, if_neg (by simpa using fun h => hi h.symm)]
    rfl

/-- The running count is the number of latencies in the buckets so far. -/
theorem sum_histogram (l : List UInt64) (m : ℕ) : ∑ k ∈ range m, histogram l k =
    UInt64.ofNat (l.countP fun lat => latBucket lat < m) := by
  induction l with
  | nil => exact sum_eq_zero fun _ _ => rfl
  | cons lat l ih =>
    have hone : ∑ k ∈ range m, (if k = latBucket lat then (1 : UInt64) else 0) =
        if latBucket lat < m then 1 else 0 := by
      simp only [sum_ite_eq', mem_range]
    rw [sum_congr rfl fun k _ => histogram_cons lat l k, sum_add_distrib, ih, hone,
      List.countP_cons, UInt64.ofNat_add]
    by_cases hlt : latBucket lat < m
    · rw [if_pos hlt, if_pos (decide_eq_true hlt)]
      rfl
    · rw [if_neg hlt, if_neg (by simpa using hlt)]
      rfl

theorem colTotal_histogram (l : List UInt64) :
    colTotal nlatbkts (histogram l) = UInt64.ofNat l.length := by
  rw [colTotal, sum_histogram, List.countP_eq_length.mpr]
  exact fun lat _ => decide_eq_true (latBucket_lt lat)

/-- Slowing one I/O down takes it from no running count it was not in. -/
theorem reached_histogram (hab : latBucket a ≤ latBucket b)
    (hlen : xs.length + ys.length + 1 < 2 ^ 64) (t : UInt64) :
    Reached nlatbkts (histogram (xs ++ b :: ys)) t ⊆
      Reached nlatbkts (histogram (xs ++ a :: ys)) t := by
  rintro i ⟨hi, ht⟩
  refine ⟨hi, UInt64.le_trans ht ?_⟩
  have hle : ∀ lat, (xs ++ lat :: ys).countP (fun lat => latBucket lat < i + 1) < 2 ^ 64 := by
    intro lat
    apply List.countP_le_length.trans_lt
    rw [List.length_append, List.length_cons]
    omega
  rw [sum_histogram, sum_histogram, UInt64.le_iff_toNat_le, UInt64.toNat_ofNat_of_lt' (hle b),
    UInt64.toNat_ofNat_of_lt' (hle a), List.countP_append, List.countP_append, List.countP_cons,
    List.countP_cons]
  refine Nat.add_le_add_left (Nat.add_le_add_left ?_ _) _
  simp only [decide_eq_true_eq]
  split <;> split <;> omega

/-- The percentiles of a column of latencies, after `val` was left in `pctval`. -/
def percentilesOf (lats : List UInt64) (val : ℕ → ℕ) : ℕ → ℕ :=
  columnVal nlatbkts (histogram lats) (colTotal nlatbkts (histogram lats)) val

/-- **With a higher bucket for one I/O no percentile is lower.** -/
theorem percentilesOf_le (hab : latBucket a ≤ latBucket b)
    (hlen : xs.length + ys.length + 1 < 2 ^ 64) (val : ℕ → ℕ) {j : ℕ} (hj : j < nPercent) :
    percentilesOf (xs ++ a :: ys) val j ≤ percentilesOf (xs ++ b :: ys) val j := by
  have hlength : ∀ lat : UInt64, (xs ++ lat :: ys).length = xs.length + ys.length + 1 := by
    intro lat
    rw [List.length_append, List.length_cons, Nat.add_assoc]
  have hsame : colTotal nlatbkts (histogram (xs ++ a :: ys)) =
      colTotal nlatbkts (histogram (xs ++ b :: ys)) := by
    rw [colTotal_histogram, colTotal_histogram, hlength, hlength]
  have hne : ∀ lat, colTotal nlatbkts (histogram (xs ++ lat :: ys)) ≠ 0 := by
    intro lat hz
    have hnat := CInt.eq_zero_iff.mp hz
    rw [colTotal_histogram, UInt64.toNat_ofNat_of_lt' ((hlength lat).symm ▸ hlen), hlength] at hnat
    omega
  have hright := fun lat => columnVal_right rfl (hne lat) val
  obtain ⟨i, hi, hvi⟩ := (hright a).least j hj
  obtain ⟨k, hk, hvk⟩ := (hright b).least j hj
  rw [hsame] at hi
  rw [percentilesOf, percentilesOf, hvi, hvk]
  exact Nat.mul_le_mul_right _ (Nat.succ_le_succ (hk.mono hi (reached_histogram hab hlen _)))

end Histogram

/-! ## In both tools -/

namespace Iofill

def latencies (op : OpType) (ios : List Iodet) : List UInt64 :=
  (ofType op ios).map fun idp => idp.endTime - idp.start

theorem tally_bucket (i : ℕ) (op : OpType) (ios : List Iodet) :
    UInt64.ofNat (tally (.bucket i op) ios) = histogram (latencies op ios) i := by
  induction ios with
  | nil => rfl
  | cons idp ios ih =>
    have hcons : tally (.bucket i op) (idp :: ios) =
        worth idp (.bucket i op) + tally (.bucket i op) ios := rfl
    rw [hcons, UInt64.ofNat_add, ih, worth, latencies, latencies, ofType, ofType]
    by_cases hop : op = idp.type
    · rw [List.filter_cons_of_pos (by simpa using hop), List.map_cons, histogram_cons,
        UInt64.add_comm]
      simp only [hop, and_true]
      split <;> rfl
    · rw [List.filter_cons_of_neg (by simpa using hop), if_neg fun h => hop h.2]
      exact UInt64.zero_add _

theorem bucket_histogram {ftp : FileRun} (h : Conserved ftp) {op : OpType} (hop : op ∈ optypes)
    (i : ℕ) : (ftp.ithreads.foldl FileTotals.addThread .zero).latbuckets i op =
      histogram (latencies op (ftp.done.map Prod.snd)) i := by
  have hget := h.get_tot (c := .bucket i op) hop
  rw [← UInt64.toNat_ofNat', UInt64.toNat_inj, tally_bucket] at hget
  exact hget

end Iofill

namespace Ioload

/-- The latencies of the I/Os of column `d` that started in the window. -/
def latencies (w : Window) (d : Dir) (ios : List Iodet) : List UInt64 :=
  (ios.filter fun idp => dirOf idp.type = some d ∧ w.Covers idp).map fun idp =>
    idp.endTime - idp.start

theorem bucket_histogram (w : Window) (i : ℕ) (d : Dir) (ios : List Iodet) :
    contribution w (.bucket i d) ios = histogram (latencies w d ios) i := by
  induction ios with
  | nil => rfl
  | cons idp ios ih =>
    rw [contribution_cons, ih, latencies, latencies]
    by_cases hin : dirOf idp.type = some d ∧ w.Covers idp
    · rw [List.filter_cons_of_pos (by simpa using hin), List.map_cons, histogram_cons, weight,
        hin.1]
      dsimp only
      rw [if_pos hin.2, worth, UInt64.add_comm]
      simp only [and_true]
    · rw [List.filter_cons_of_neg (by simpa using hin)]
      have hzero : weight w (.bucket i d) idp = 0 := by
        unfold weight
        cases hdir : dirOf idp.type with
        | none => rfl
        | some e =>
          dsimp only
          by_cases hcov : w.Covers idp
          · have hne : d ≠ e := fun heq => hin ⟨heq ▸ hdir, hcov⟩
            rw [if_pos hcov, worth, if_neg fun h => hne h.2]
          · exact if_neg hcov
      rw [hzero, UInt64.zero_add]

end Ioload

/-! ## Two latencies -/

/-- What the buckets promise of two I/Os with the latencies `a` and `b`. -/
structure OrderKept (a b : UInt64) : Prop where
  /-- The first is not counted above the second. -/
  order : latBucket a ≤ latBucket b
  /-- Each is in the last bucket if it is past the end of the table. -/
  last : ∀ lat ∈ [a, b], nlatbkts * latdiv.toNat ≤ lat.toNat → latBucket lat = nlatbkts - 1
  /-- Among any other I/Os, the second in place of the first lowers no percentile. -/
  percentiles : ∀ xs ys : List UInt64, xs.length + ys.length + 1 < 2 ^ 64 →
    ∀ val, ∀ j < nPercent, percentilesOf (xs ++ a :: ys) val j ≤ percentilesOf (xs ++ b :: ys) val j

section Order

variable {a b : UInt64}

/-- A latency past the table that is not in the last bucket has lost its place. -/
theorem keepsBucket_of_last {lat : UInt64}
    (h : nlatbkts * latdiv.toNat ≤ lat.toNat → latBucket lat = nlatbkts - 1) :
    KeepsBucket lat := by
  rcases Nat.lt_or_ge lat.toNat (nlatbkts * latdiv.toNat) with hlt | hge
  · exact keepsBucket_of_lt hlt
  · exact (latBucket_last_iff hge).mp (h hge)

/-- **When the buckets keep the order of two latencies**: exactly when neither quotient loses its
place in 32 bits.

What is to be kept is `OrderKept`: the order itself, that a latency past the table is in the last
bucket, and what the percentiles make of it, since it is them that are read. The last part is
about a column of any other I/Os, and needs no condition of its own: a higher bucket for one I/O
can only make a percentile come later. -/
theorem order_kept_iff (hab : a ≤ b) : OrderKept a b ↔ KeepsBucket a ∧ KeepsBucket b := by
  constructor
  · intro h
    exact ⟨keepsBucket_of_last (h.last a (by simp)), keepsBucket_of_last (h.last b (by simp))⟩
  · rintro ⟨ha, hb⟩
    have hle : latBucket a ≤ latBucket b := by
      rw [latBucket_of_keeps ha, latBucket_of_keeps hb]
      exact min_le_min_right _ (Nat.div_le_div_right (UInt64.le_iff_toNat_le.mp hab))
    refine ⟨hle, fun lat hlat hpast => ?_, fun xs ys hlen val j hj => ?_⟩
    · rw [latBucket_last_iff hpast]
      simp only [List.mem_cons, List.not_mem_nil, or_false] at hlat
      rcases hlat with rfl | rfl
      · exact ha
      · exact hb
    · exact percentilesOf_le hle hlen val hj

/-- A read of 15 us and one that hung for an hour. -/
theorem order_kept_hour : OrderKept 15000 3600000000000 :=
  (order_kept_iff (by decide)).mpr ⟨by decide, by decide⟩

end Order

/-- A latency of `10000 * 2 ^ 32` ns, about twelve hours, is counted in the first bucket. -/
theorem order_lost : ¬ ∀ a b : UInt64, a ≤ b → OrderKept a b := by
  intro h
  have hlast := (h 0 42949672960000 (by decide)).last 42949672960000 (by simp) (by decide)
  have hzero : latBucket 42949672960000 = 0 := by
    rw [latBucket_eq]
    decide
  rw [hzero] at hlast
  exact absurd hlast (by decide)

end Blockbench
