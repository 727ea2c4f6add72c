import Lloms.Histogram.Buckets

/-! Percentiles of the latency histogram. The counts partition the recorded values by
bucket, so the running count first reaches a rank in the bucket of the value of that
rank, and what is returned is the least value of this bucket. The rank itself, which
the source computes in floating point, is an argument. -/
namespace Lloms.LatencyHistogram
open Lib

/-- The scan in `percentile`: where the running count reaches the target. -/
def scanCounts (target : UInt64) : List UInt64 → UInt64 → Nat → Option Nat
  | [], _, _ => none
  | c :: counts, cum, i =>
    let cum := cum + c
    if cum ≥ target then some i else scanCounts target counts cum (i + 1)

/-- `percentile` from the rank on. -/
def percentile (h : LatencyHistogram) (rank : UInt64) : UInt64 :=
  if h.total = 0 then 0
  else
    let target := if rank < 1 then 1 else rank
    let target := if target > h.total then h.total else target
    match scanCounts target h.counts 0 0 with
    | some i => h.valueFromIndex (UInt64.ofNat i)
    | none => h.max

/-! ## The counts -/

/-- The histogram of a sample: each counter counts the values of its bucket. -/
structure Tally (xs : List UInt64) (h : LatencyHistogram) : Prop where
  total : h.total.toNat = xs.length
  counts : h.counts.map UInt64.toNat =
    (List.range h.counts.length).map fun i => xs.countP fun v => (h.indexFor v).toNat = i

theorem tally_of_zero {h : LatencyHistogram} (htotal : h.total = 0)
    (hcounts : h.counts = List.replicate h.counts.length 0) : Tally [] h where
  total := congrArg UInt64.toNat htotal
  counts := by
    rw [hcounts, List.map_replicate, List.length_replicate]
    simp

theorem tally_create (precisionBits : Int) : Tally [] (create precisionBits) :=
  tally_of_zero rfl (by simp [create])

theorem tally_reset (h : LatencyHistogram) : Tally [] h.reset :=
  tally_of_zero rfl (by simp [reset])

theorem Tally.record {xs : List UInt64} {h : LatencyHistogram} (ht : Tally xs h)
    (hlen : xs.length + 1 < 2 ^ 64) (v : UInt64) : Tally (xs ++ [v]) (h.record v) where
  total := by
    have htotal := ht.total
    have hone : (1 : UInt64).toNat = 1 := rfl
    change (h.total + 1).toNat = _
    rw [UInt64.toNat_add, List.length_append, List.length_singleton]
    omega
  counts := by
    have hcounter : ∀ (i : Nat) (hi : i < h.counts.length),
        h.counts[i].toNat = xs.countP fun x => (h.indexFor x).toNat = i := by
      intro i hi
      have hget := congrArg (fun l => l[i]?) ht.counts
      simpa [hi] using hget
    change (h.record v).counts.map _ = (List.range (h.record v).counts.length).map fun i =>
      (xs ++ [v]).countP fun x => (h.indexFor x).toNat = i
    rw [record_counts]
    refine List.ext_getElem (by simp) fun i hi _ => ?_
    have hi' : i < h.counts.length := by simpa using hi
    have hle := List.countP_le_length (p := fun x => decide ((h.indexFor x).toNat = i)) (l := xs)
    have hone : (1 : UInt64).toNat = 1 := rfl
    rw [List.getElem_map, List.getElem_map, List.getElem_range, List.getElem_modify,
      List.countP_append, List.countP_singleton]
    by_cases hidx : (h.indexFor v).toNat = i
    · rw [if_pos hidx, if_pos (decide_eq_true hidx), UInt64.toNat_add, hcounter i hi', hone]
      exact Nat.mod_eq_of_lt (by omega)
    · rw [if_neg hidx, if_neg (by simpa using hidx), hcounter i hi', Nat.add_zero]

/-- The histogram after a sample, from one that holds some values already. -/
theorem tally_foldl {ys : List UInt64} {h : LatencyHistogram} (ht : Tally ys h) (xs : List UInt64)
    (hlen : (ys ++ xs).length < 2 ^ 64) : Tally (ys ++ xs) (xs.foldl record h) := by
  induction xs generalizing ys h with
  | nil => rwa [List.append_nil]
  | cons x xs ih =>
    rw [List.append_cons] at hlen ⊢
    have hshort : ys.length + 1 < 2 ^ 64 := by
      rw [List.length_append, List.length_append, List.length_singleton] at hlen
      omega
    exact ih (ht.record hshort x) hlen

@[simp] theorem foldl_record_precision (xs : List UInt64) (h : LatencyHistogram) :
    (xs.foldl record h).toPrecision = h.toPrecision := by
  induction xs generalizing h with
  | nil => rfl
  | cons x xs ih => exact ih (h.record x)

/-- The counters in front of `i` count the values with a lower index. -/
theorem Tally.sum_take {xs : List UInt64} {h : LatencyHistogram} (ht : Tally xs h) {i : Nat}
    (hi : i ≤ h.counts.length) :
    ((h.counts.take i).map UInt64.toNat).sum = xs.countP fun v => (h.indexFor v).toNat < i := by
  rw [List.map_take, ht.counts, ← List.map_take, List.take_range, Nat.min_eq_left hi, sum_countP_eq]

/-! ## The scan -/

/-- The scan stops at the first counter with which the sum reaches the target, as
long as no sum wraps. -/
theorem scanCounts_eq {target : UInt64} (counts : List UInt64) (cum : UInt64) (i : Nat) {j : Nat}
    (hj : j < counts.length) (hfit : cum.toNat + (counts.map UInt64.toNat).sum < 2 ^ 64)
    (hbelow : cum.toNat + ((counts.take j).map UInt64.toNat).sum < target.toNat)
    (hreach : target.toNat ≤ cum.toNat + ((counts.take (j + 1)).map UInt64.toNat).sum) :
    scanCounts target counts cum i = some (i + j) := by
  induction counts generalizing cum i j with
  | nil => simp at hj
  | cons c counts ih =>
    rw [List.map_cons, List.sum_cons] at hfit
    have hcum : (cum + c).toNat = cum.toNat + c.toNat := by
      rw [UInt64.toNat_add]
      omega
    rw [scanCounts]
    cases j with
    | zero =>
      have hstop : cum + c ≥ target := by
        rw [ge_iff_le, UInt64.le_iff_toNat_le, hcum]
        simpa using hreach
      exact if_pos hstop
    | succ j =>
      rw [List.take_succ_cons, List.map_cons, List.sum_cons] at hbelow hreach
      have hgo : ¬ cum + c ≥ target := by
        rw [ge_iff_le, UInt64.le_iff_toNat_le, hcum]
        omega
      rw [if_neg hgo, ih (cum + c) (i + 1) (Nat.lt_of_succ_lt_succ hj) (by omega) (by omega)
        (by omega), Nat.add_right_comm, Nat.add_assoc]

section Rank

variable {xs : List UInt64} {h : LatencyHistogram} (ht : Tally xs h) (hlen : xs.length < 2 ^ 64)
  {k s : UInt64} (h1 : 1 ≤ k.toNat) (hs : orderStat xs k.toNat = some s)
include ht hlen h1 hs

/-- The scan ends in the bucket of the order statistic. -/
theorem scanCounts_rank : scanCounts k h.counts 0 0 = some (h.indexFor s).toNat := by
  have hlt := h.indexFor_lt_length s
  have hzero : (0 : UInt64).toNat = 0 := rfl
  have hrank := le_countP_lt_iff h.indexFor_mono h1 hs
  have hsum := ht.sum_take (Nat.le_of_lt hlt)
  have hsum' : _ = xs.countP fun v => (h.indexFor v).toNat < (h.indexFor s).toNat + 1 :=
    ht.sum_take (Nat.succ_le_of_lt hlt)
  have hall := ht.sum_take (Nat.le_refl h.counts.length)
  rw [List.take_length] at hall
  have hcount := List.countP_le_length
    (p := fun v => decide ((h.indexFor v).toNat < h.counts.length)) (l := xs)
  have hbelow := (not_congr (hrank (h.indexFor s).toNat)).mpr (Nat.lt_irrefl _)
  have hreach := (hrank ((h.indexFor s).toNat + 1)).mpr (Nat.lt_succ_self _)
  rw [scanCounts_eq h.counts 0 0 hlt (by omega) (by omega) (by omega), Nat.zero_add]

theorem percentile_eq_floor (hk : k ≤ h.total) : h.percentile k = h.floor s := by
  have hpos : ¬ h.total = 0 := by
    intro h0
    rw [h0, UInt64.le_iff_toNat_le, UInt64.toNat_zero] at hk
    omega
  have hlow : ¬ k < 1 := by
    rw [UInt64.lt_iff_toNat_lt]
    exact Nat.not_lt.mpr h1
  rw [percentile, if_neg hpos]
  simp only [if_neg hlow, if_neg (not_lt.mpr hk), gt_iff_lt, scanCounts_rank ht hlen h1 hs,
    UInt64.ofNat_toNat]
  rfl

end Rank

/-! ## Percentiles -/

/-- A percentile against the value of its rank. -/
structure Approximates (h : LatencyHistogram) (L s : UInt64) : Prop where
  same_bucket : h.indexFor L = h.indexFor s
  le : L ≤ s
  error : (s.toNat - L.toNat) * 2 ^ (h.subBits - 1) ≤ L.toNat
  exact_of_lt : s.toNat < 2 ^ h.subBits → L = s

theorem floor_approximates (h : LatencyHistogram) (s : UInt64) : Approximates h (h.floor s) s where
  same_bucket := h.indexFor_floor s
  le := h.floor_le s
  error := h.sub_floor_mul_le s
  exact_of_lt := h.floor_of_lt

/-- A new histogram that has recorded a sample. -/
def recordAll (precisionBits : Int) (xs : List UInt64) : LatencyHistogram :=
  xs.foldl record (create precisionBits)

/-- **Percentiles are within the bucket of the true order statistic.** For every
precision and every sample, and every rank in it: what is returned is the least value
of the bucket of the value of that rank, later ranks give no less, and the scan always
ends in a bucket. -/
theorem percentile_approximates (precisionBits : Int) (xs : List UInt64)
    (hlen : xs.length < 2 ^ 64) :
    ((recordAll precisionBits xs).subBits : Int) = clampi precisionBits 1 14 ∧
    (recordAll precisionBits xs).total.toNat = xs.length ∧
    let h := recordAll precisionBits xs
    ∀ k : UInt64, 1 ≤ k → k ≤ h.total →
      (∃ s, orderStat xs k.toNat = some s ∧ Approximates h (h.percentile k) s) ∧
      (∃ i < h.counts.length, scanCounts k h.counts 0 0 = some i) ∧
      ∀ j, 1 ≤ j → j ≤ k → h.percentile j ≤ h.percentile k := by
  have ht : Tally xs (recordAll precisionBits xs) := tally_foldl (tally_create precisionBits) xs hlen
  have hbits : ((recordAll precisionBits xs).subBits : Int) = clampi precisionBits 1 14 := by
    have hp : (recordAll precisionBits xs).toPrecision = .ofInt precisionBits :=
      foldl_record_precision xs _
    rw [hp]
    exact Precision.subBits_ofInt precisionBits
  refine ⟨hbits, ht.total, ?_⟩
  intro h
  have hstat : ∀ k : UInt64, 1 ≤ k → k ≤ h.total → ∃ s, orderStat xs k.toNat = some s := by
    intro k h1 hk
    rw [UInt64.le_iff_toNat_le] at h1 hk
    exact orderStat_isSome h1 (by rw [← ht.total]; exact hk)
  intro k h1 hk
  have h1' : 1 ≤ k.toNat := UInt64.le_iff_toNat_le.mp h1
  obtain ⟨s, hs⟩ := hstat k h1 hk
  have hfloor := percentile_eq_floor ht hlen h1' hs hk
  refine ⟨⟨s, hs, ?_⟩, ⟨_, h.indexFor_lt_length s, scanCounts_rank ht hlen h1' hs⟩,
    fun j hj hjk => ?_⟩
  · rw [hfloor]
    exact floor_approximates h s
  · have hj' : 1 ≤ j.toNat := UInt64.le_iff_toNat_le.mp hj
    obtain ⟨t, hr⟩ := hstat j hj (hjk.trans hk)
    rw [hfloor, percentile_eq_floor ht hlen hj' hr (hjk.trans hk)]
    exact h.floor_mono (orderStat_mono hj' (UInt64.le_iff_toNat_le.mp hjk) hr hs)

/-- At the coarsest precision the buckets are the powers of two. -/
theorem percentile_approximates_coarse :
    let h := recordAll (-3) [5, 9, 3, 6]
    (∀ k : UInt64, 1 ≤ k → k ≤ h.total →
      ∃ s, orderStat [5, 9, 3, 6] k.toNat = some s ∧ Approximates h (h.percentile k) s) ∧
    [1, 2, 3, 4].map (orderStat [5, 9, 3, 6]) = [some 3, some 5, some 6, some (9 : UInt64)] ∧
    [1, 2, 3, 4].map h.percentile = [2, 4, 4, 8] :=
  ⟨fun k h1 hk => ((percentile_approximates (-3) [5, 9, 3, 6] (by decide)).2.2 k h1 hk).1,
    by decide, by decide⟩

end Lloms.LatencyHistogram
