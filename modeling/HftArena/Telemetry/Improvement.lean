import HftArena.Telemetry.Buckets
import HftArena.Telemetry.Score

/-!
# The score rewards improvement

Two aggregates that were offered the same load, of which the second passes no
less of the probe, has no lower a peak, and has latencies at the reference load
that are no larger, sample by sample. Then the second scores no less
(`score_le_of_improved`): every step from the samples to the score keeps the
order – buckets, percentiles, the choice of the reference point, which depends
on the rates alone, and the roundings.

One step does not, where the `p99` at the reference load is rounded to zero:
that counts as none at all, which is what the code tests for. So an engine
whose latencies are in a bucket with so small a value loses the share of its
score that latency gives.
-/

open Fleet

namespace Telemetry

/-! ## The reference point

Which rate it is at is known before anything is measured, so that two runs of
the same load are compared at the same rate. -/

/-- The rate nearest the reference load, the first of those. -/
def nearest (refLoad : ℚ) : List ℕ → Option ℕ
  | [] => none
  | r :: rs => some (rs.foldl (fun best r : ℕ =>
      if |(r : ℚ) - refLoad| < |(best : ℚ) - refLoad| then r else best) r)

/-- **Which point is the reference point depends on the rates alone.** -/
theorem refPoint_map (refLoad : ℚ) {f : ℕ → Point} (hf : ∀ r, (f r).offered = r) (rs : List ℕ) :
    refPoint refLoad (rs.map f) = (nearest refLoad rs).map f := by
  cases rs with
  | nil => rfl
  | cons r rs =>
    show some ((rs.map f).foldl _ (f r)) = some (f (rs.foldl _ r))
    rw [List.foldl_map]
    refine congrArg some (List.foldl_hom f (fun best r => ?_))
    rw [hf, hf, apply_ite f]

/-- It is one of the rates. -/
theorem mem_of_nearest {refLoad : ℚ} {rs : List ℕ} {rate : ℕ} (h : nearest refLoad rs = some rate) :
    rate ∈ rs := by
  have hfold : ∀ (rs : List ℕ) (best : ℕ), rs.foldl (fun best r : ℕ =>
      if |(r : ℚ) - refLoad| < |(best : ℚ) - refLoad| then r else best) best ∈ best :: rs := by
    intro rs
    induction rs with
    | nil => exact fun best => List.mem_cons_self
    | cons r rs ih =>
      intro best
      rw [List.foldl_cons]
      split_ifs
      · exact List.mem_cons_of_mem best (ih r)
      · exact List.cons_subset_cons best (List.subset_cons_self r rs) (ih best)
  cases rs with
  | nil => cases h
  | cons r rs =>
    cases h
    exact hfold rs r

/-- The reference rate of an aggregate. -/
def Agg.refRate (refLoad : ℚ) (a : Agg) : Option ℕ :=
  nearest refLoad (a.rates.keys.insertionSort (· ≤ ·))

/-- The `p99` that is scored. -/
def Agg.refP99 (refLoad : ℚ) (bucketUs : Bucket → ℚ) (a : Agg) : ℚ :=
  (refPoint refLoad (a.curve bucketUs)).elim 0 Point.p99Us

/-- It is that of the point of the reference rate. -/
theorem Agg.refP99_eq {refLoad : ℚ} (bucketUs : Bucket → ℚ) {a : Agg} {rate : ℕ} {b : RateBin}
    (hrate : a.refRate refLoad = some rate) (hb : a.rates.get? rate = some b) :
    a.refP99 refLoad bucketUs = roundTo 1 (percentiles bucketUs b.hist).2.2 := by
  have href : nearest refLoad (a.rates.keys.insertionSort (· ≤ ·)) = some rate := hrate
  rw [Agg.refP99, Agg.curve, curveOf_eq_map, refPoint_map refLoad (fun _ => rfl), href,
    Option.map_some, Option.elim_some, hb]
  rfl

/-! ## Improvement

The parts of the score one by one, each in the direction in which an
improvement goes. -/

/-- **An aggregate improves on another**: it was offered the same load, of
which as much was acknowledged, passes no less of the probe, and each latency
sample at the reference rate is no larger. -/
structure Agg.Improves (refLoad : ℚ) (scaled : ℚ → ℤ) (a' a : Agg) : Prop where
  sent : a'.sent = a.sent
  acked : a'.acked = a.acked
  corrTotal : a'.corrTotal = a.corrTotal
  corrPass : a.corrPass ≤ a'.corrPass
  rates : ∀ rate, rate ∈ a'.rates.keys ↔ rate ∈ a.rates.keys
  latencies : ∀ rate ∈ a.refRate refLoad, ∀ b ∈ a.rates.get? rate, ∀ b' ∈ a'.rates.get? rate,
    ∃ latencies latencies' : List ℚ, List.Forall₂ (· ≤ ·) latencies' latencies
      ∧ b.hist = latencyHist scaled latencies ∧ b'.hist = latencyHist scaled latencies'

/-- Counters count up. -/
structure Live.Counting (l : Live) : Prop where
  sent : 0 ≤ l.agg.sent
  acked : 0 ≤ l.agg.acked
  corrPass : 0 ≤ l.agg.corrPass
  corrTotal : 0 ≤ l.agg.corrTotal
  peakTps : 0 ≤ l.peakTps

/-- Where something is scored, there is a bin of the reference rate. -/
theorem Agg.exists_bin {refLoad : ℚ} {bucketUs : Bucket → ℚ} {a : Agg}
    (hpos : 0 < a.refP99 refLoad bucketUs) :
    ∃ rate b, a.refRate refLoad = some rate ∧ a.rates.get? rate = some b := by
  cases hrate : a.refRate refLoad with
  | some rate =>
    obtain ⟨b, hb⟩ := Dict.mem_keys_iff.mp
      ((List.perm_insertionSort _ _).subset (mem_of_nearest hrate))
    exact ⟨rate, b, rfl, hb⟩
  | none =>
    have hnone : nearest refLoad (a.rates.keys.insertionSort (· ≤ ·)) = none := hrate
    rw [Agg.refP99, Agg.curve, curveOf_eq_map, refPoint_map refLoad (fun _ => rfl), hnone] at hpos
    exact absurd hpos (lt_irrefl 0)

section

variable {K : Type} [Field K] [LinearOrder K] [FloorRing K] [IsStrictOrderedRing K]
  {log1p : ℚ → K} {expm1 : ℚ → ℚ} {refLoad : ℚ} {a a' : Agg}

/-- **The `p99` that is scored becomes no larger.** -/
theorem Agg.Improves.refP99_le (hlog1p : MonotoneOn log1p (Set.Ici 0))
    (hexpm1 : MonotoneOn expm1 (Set.Ici 0)) (h : a'.Improves refLoad (scaledBy log1p) a)
    (hpos : 0 < a.refP99 refLoad (bucketUs expm1)) :
    a'.refP99 refLoad (bucketUs expm1) ≤ a.refP99 refLoad (bucketUs expm1) := by
  obtain ⟨rate, b, hrate, hb⟩ := Agg.exists_bin hpos
  have hrate' : a'.refRate refLoad = some rate := by
    rw [← hrate]
    exact congrArg (nearest refLoad) (sorted_keys_congr h.rates)
  obtain ⟨b', hb'⟩ := Dict.mem_keys_iff.mp ((h.rates rate).mpr (Dict.mem_keys_of_get? hb))
  obtain ⟨latencies, latencies', hle, hhist, hhist'⟩ := h.latencies rate hrate b hb b' hb'
  rw [Agg.refP99_eq _ hrate hb, Agg.refP99_eq _ hrate' hb', hhist, hhist']
  exact roundTo_mono 1 (percentiles_le_of_forall₂ hlog1p hexpm1 hle).2.2

/-- Correctness becomes no smaller. -/
theorem Agg.Improves.correctness_le {scaled : ℚ → ℤ} (h : a'.Improves refLoad scaled a)
    (hsent : 0 ≤ a.sent) (hacked : 0 ≤ a.acked) (htotal : 0 ≤ a.corrTotal) :
    a.correctness ≤ a'.correctness := by
  have hreliability : 0 ≤ a.reliability := share_nonneg hacked hsent
  have hsame : a'.reliability = a.reliability := by
    unfold Agg.reliability
    rw [h.sent, h.acked]
  have hpriority : a.priority ≤ a'.priority := by
    unfold Agg.priority
    rw [h.corrTotal]
    split_ifs
    · exact div_le_div_of_nonneg_right (by exact_mod_cast h.corrPass) (by exact_mod_cast htotal)
    · exact le_rfl
  rw [Agg.correctness, Agg.correctness, hsame]
  exact mul_le_mul_of_nonneg_right hpriority hreliability

end

/-- **Performance rises with the peak and falls with the `p99`**, where there
is one. -/
theorem Live.performance_le (cfg : Settings) {l l' : Live} {p99 p99' : ℚ}
    (hpeak : l.peakTps ≤ l'.peakTps) (hpos : 0 < p99') (hle : p99' ≤ p99) :
    l.performance cfg p99 ≤ l'.performance cfg p99' := by
  have hthroughput : l.throughputNorm cfg ≤ l'.throughputNorm cfg := by
    unfold Live.throughputNorm
    split_ifs
    · exact min_le_min_left 1 (div_le_div_of_nonneg_right hpeak cfg.targetTps_nonneg)
    · exact le_rfl
  have hlatency : latencyScore cfg p99 ≤ latencyScore cfg p99' := by
    have href := cfg.latRefUs_nonneg
    unfold latencyScore
    rw [if_pos hpos, if_pos (hpos.trans_le hle)]
    exact div_le_div_of_nonneg_left href (by linarith) (by linarith)
  unfold Live.performance
  linarith

/-! ## Scores

The score is a product of shares, and rounding keeps the order. -/

/-- A well-formed record keeps it, -/
theorem Live.Counting.add {l : Live} {s : Sample} (h : l.Counting) (hs : s.record.WF) :
    Live.Counting { l with agg := l.agg.add s } where
  sent := add_nonneg h.sent hs.sent
  acked := add_nonneg h.acked hs.acked
  corrPass := add_nonneg h.corrPass hs.corrPass
  corrTotal := add_nonneg h.corrTotal (hs.corrPass.trans hs.corrTotal)
  peakTps := h.peakTps

/-- and a snapshot leaves the counters and raises the peak. -/
theorem Live.Counting.tps {l : Live} (h : l.Counting) (now : ℚ) : (l.tps now).1.Counting := by
  refine ⟨?_, ?_, ?_, ?_, h.peakTps.trans (l.peakTps_le_tps now)⟩
  · exact (l.agg_tps now).symm ▸ h.sent
  · exact (l.agg_tps now).symm ▸ h.acked
  · exact (l.agg_tps now).symm ▸ h.corrPass
  · exact (l.agg_tps now).symm ▸ h.corrTotal

/-- **Every aggregate of a process counts up**, whatever well-formed records
are handled. -/
theorem LiveRuns.counting_of_exec {runs : LiveRuns} {deeds : List Deed}
    (hwf : ∀ s, .handle (.sample s) ∈ deeds → s.record.WF)
    (hexec : exec LiveRuns.step .empty deeds = some runs) :
    ∀ run, ∀ l ∈ runs.get? run, l.Counting :=
  LiveRuns.forall_of_exec Live.Counting hexec (fun _ _ => ⟨le_rfl, le_rfl, le_rfl, le_rfl, le_rfl⟩)
    (fun _ s hs h => h.add (hwf s hs)) (fun _ now h => h.tps now)

/-- What is scored. -/
theorem Live.score_eq (cfg : Settings) (bucketUs : Bucket → ℚ) (l : Live) (now : ℚ) :
    (l.snapshot cfg bucketUs now).2.score = roundTo 1 (l.agg.correctness
      * (l.tps now).1.performance cfg (l.agg.refP99 cfg.refLoad bucketUs) * 1000) := by
  rw [← l.agg_tps now]
  rfl

/-- **The score rewards improvement.** Take any two aggregates of processes
that handle well-formed records, and a moment for a snapshot of each. If the
second improves on the first, its peak throughput is no lower, and both have a
`p99` at the reference load, then the second scores no less. -/
theorem score_le_of_improved {K : Type} [Field K] [LinearOrder K] [FloorRing K]
    [IsStrictOrderedRing K] (cfg : Settings) {log1p : ℚ → K} (hlog1p : MonotoneOn log1p (Set.Ici 0))
    {expm1 : ℚ → ℚ} (hexpm1 : MonotoneOn expm1 (Set.Ici 0)) {deeds deeds' : List Deed}
    (hwf : ∀ s, .handle (.sample s) ∈ deeds → s.record.WF)
    (hwf' : ∀ s, .handle (.sample s) ∈ deeds' → s.record.WF) {runs runs' : LiveRuns}
    (hexec : exec LiveRuns.step .empty deeds = some runs)
    (hexec' : exec LiveRuns.step .empty deeds' = some runs') {run run' : String} {l l' : Live}
    (hl : runs.get? run = some l) (hl' : runs'.get? run' = some l') {now now' : ℚ}
    (himproves : l'.agg.Improves cfg.refLoad (scaledBy log1p) l.agg)
    (hpeak : (l.tps now).1.peakTps ≤ (l'.tps now').1.peakTps)
    (hpos : 0 < l.agg.refP99 cfg.refLoad (bucketUs expm1))
    (hpos' : 0 < l'.agg.refP99 cfg.refLoad (bucketUs expm1)) :
    (l.snapshot cfg (bucketUs expm1) now).2.score
      ≤ (l'.snapshot cfg (bucketUs expm1) now').2.score := by
  have hcounting := LiveRuns.counting_of_exec hwf hexec run l hl
  have hcounting' := LiveRuns.counting_of_exec hwf' hexec' run' l' hl'
  have hcorrectness : l.agg.correctness ≤ l'.agg.correctness :=
    himproves.correctness_le hcounting.sent hcounting.acked hcounting.corrTotal
  have hperformance := Live.performance_le cfg hpeak hpos'
    (himproves.refP99_le hlog1p hexpm1 hpos)
  have hnonneg := (Live.performance_range cfg (hcounting.tps now).peakTps
    (l.agg.refP99 cfg.refLoad (bucketUs expm1))).1
  have hnonneg' : 0 ≤ l'.agg.correctness :=
    mul_nonneg (share_nonneg hcounting'.corrPass hcounting'.corrTotal)
      (share_nonneg hcounting'.acked hcounting'.sent)
  rw [Live.score_eq, Live.score_eq]
  refine roundTo_mono 1 (mul_le_mul_of_nonneg_right ?_ (by norm_num))
  exact mul_le_mul hcorrectness hperformance hnonneg hnonneg'

/-! ### One order at the reference load -/

/-- The sample of a run that acknowledged one order, in some bucket. -/
def oneSample (corrPass : ℤ) (b : Bucket) : Sample :=
  ⟨"a", 1, ⟨⟨"open", 10000⟩, 1, 1, 0, corrPass, 2, [(b, 1)]⟩⟩

/-- Its aggregate. -/
def oneOrder (corrPass : ℤ) (b : Bucket) : Live :=
  { Live.new "a" "fast" with agg := (Agg.new "a" "fast").add (oneSample corrPass b) }

/-- A process comes to have it. -/
theorem exec_oneOrder (corrPass : ℤ) (b : Bucket) : ∃ runs, exec LiveRuns.step .empty
      [.handle (start "a" "fast"), .handle (.sample (oneSample corrPass b))] = some runs
    ∧ runs.get? "a" = some (oneOrder corrPass b) :=
  ⟨_, rfl, rfl⟩

/-- The sample is well-formed. -/
theorem wf_oneSample {corrPass : ℤ} (h : 0 ≤ corrPass) (h' : corrPass ≤ 2) (b : Bucket) :
    ∀ s, .handle (.sample s) ∈ ([.handle (start "a" "fast"),
      .handle (.sample (oneSample corrPass b))] : List Deed) → s.record.WF := by
  intro s hs
  rcases List.mem_cons.mp hs with hs | hs
  · cases hs
  · cases List.mem_singleton.mp hs
    exact ⟨rfl, zero_le_one, zero_le_one, le_rfl, h, h', fun hblank => absurd hblank.1 one_ne_zero⟩

/-- The first snapshot finds no throughput. -/
theorem peakTps_oneOrder (corrPass : ℤ) (b : Bucket) (now : ℚ) :
    ((oneOrder corrPass b).tps now).1.peakTps = 0 := by
  have hwindow : (oneOrder corrPass b).window now = [(now, 1)] :=
    List.dropWhile_cons_of_neg (by simp)
  exact Live.peakTps_tps_of_singleton hwindow

/-- The bin of its rate, in terms of the latency. -/
theorem hist_oneOrder (corrPass : ℤ) (scaled : ℚ → ℤ) (us : ℚ) :
    (RateBin.new.add (oneSample corrPass (bucketOf scaled us))).hist = latencyHist scaled [us] := by
  funext b
  rw [RateBin.hist_add, latencyHist_eq, List.countP_singleton]
  show 0 + ((if bucketOf scaled us = b then 1 else 0) + 0) = _
  by_cases hb : bucketOf scaled us = b
  · simp [hb]
  · simp [hb]

/-- It has one bin. -/
theorem get?_oneOrder (corrPass : ℤ) (b : Bucket) :
    (oneOrder corrPass b).agg.rates.get? 10000 = some (RateBin.new.add (oneSample corrPass b)) := by
  have hrates : (oneOrder corrPass b).agg.rates = addToBin .empty (oneSample corrPass b) := by
    show (if 0 < 10000 ∧ "open" = "open" then addToBin .empty (oneSample corrPass b) else .empty) = _
    exact if_pos ⟨by norm_num, rfl⟩
  rw [hrates, addToBin, Dict.get?_set]
  exact if_pos rfl

/-- The `p99` of one latency that is not in the first bucket is scored. -/
theorem refP99_oneOrder_pos {corrPass : ℤ} {scaled : ℚ → ℤ} (hmono : Monotone (bucketOf scaled))
    {expm1 : ℚ → ℚ} (hexpm1 : MonotoneOn expm1 (Set.Ici 0)) {us : ℚ}
    (hbucket : 1 ≤ bucketOf scaled us) (hvalue : 0 < roundTo 1 (bucketUs expm1 1)) :
    0 < (oneOrder corrPass (bucketOf scaled us)).agg.refP99 10000 (bucketUs expm1) := by
  have hkth : ∀ p, 0 < p → p ≤ 100 → kthSmallest [us] (rank p [us].length) = some us := by
    intro p hp hp'
    obtain ⟨x, hx⟩ := exists_kthSmallest_rank (List.cons_ne_nil us []) hp hp'
    rw [hx, List.mem_singleton.mp (mem_of_kthSmallest hx)]
  rw [Agg.refP99_eq (bucketUs expm1) rfl (get?_oneOrder _ _), hist_oneOrder,
    percentiles_latencyHist (bucketUs expm1) hmono (List.cons_ne_nil us [])
      (hkth 50 (by norm_num) (by norm_num)) (hkth 90 (by norm_num) (by norm_num))
      (hkth 99 (by norm_num) (by norm_num))]
  exact hvalue.trans_le (roundTo_mono 1 (bucketUs_mono hexpm1 hbucket))

/-- A latency of 100 microseconds, and then one of 50 and another test of the
probe that is passed. -/
theorem score_le_when_halved :
    let log1p : ℚ → ℝ := fun us => Real.log (1 + us)
    let expm1 : ℚ → ℚ := fun x => x + x ^ 2 / 2 + x ^ 3 / 6 + x ^ 4 / 24 + x ^ 5 / 120 + x ^ 6 / 720
    ((oneOrder 1 (bucketOf (scaledBy log1p) 100)).snapshot .standard (bucketUs expm1) 2).2.score
      ≤ ((oneOrder 2 (bucketOf (scaledBy log1p) 50)).snapshot .standard (bucketUs expm1) 2).2.score
    := by
  intro log1p expm1
  have hlog1p : MonotoneOn log1p (Set.Ici 0) := monotoneOn_log
  have hexpm1 : MonotoneOn expm1 (Set.Ici 0) := monotoneOn_taylor
  have hmono : Monotone (bucketOf (scaledBy log1p)) := bucketOf_mono (scaledBy_mono hlog1p)
  have hbucket : 1 ≤ bucketOf (scaledBy log1p) 1 := by
    have hlog : ((1 : ℤ) : ℝ) ≤ LogScale.real.log1p (1 : ℚ) * scale := by
      have hle := Real.one_sub_inv_le_log_of_pos (show (0 : ℝ) < 1 + (1 : ℚ) by norm_num)
      rw [cast_scale]
      show _ ≤ Real.log (1 + (1 : ℚ)) * 16
      norm_num at hle ⊢
      linarith
    have hval : ((LogScale.real.bucketOf (1 : ℚ)).val : ℤ)
        = min 255 ⌊LogScale.real.log1p (1 : ℚ) * scale⌋ :=
      LogScale.val_bucketOf (by norm_num)
    have hpos := Int.le_floor.mpr hlog
    have hcast : bucketOf (scaledBy log1p) 1 = LogScale.real.bucketOf (1 : ℚ) :=
      (LogScale.bucketOf_cast LogScale.real 1).symm
    rw [hcast, Fin.le_def]
    show 1 ≤ (LogScale.real.bucketOf (1 : ℚ)).val
    omega
  have hvalue : 0 < roundTo 1 (bucketUs expm1 1) := by decide +kernel
  obtain ⟨runs, hexec, hl⟩ := exec_oneOrder 1 (bucketOf (scaledBy log1p) 100)
  obtain ⟨runs', hexec', hl'⟩ := exec_oneOrder 2 (bucketOf (scaledBy log1p) 50)
  refine score_le_of_improved .standard hlog1p hexpm1 (wf_oneSample (by norm_num) (by norm_num) _)
    (wf_oneSample (by norm_num) (by norm_num) _) hexec hexec' hl hl'
    ⟨rfl, rfl, rfl, by decide, fun _ => Iff.rfl, ?_⟩
    ((peakTps_oneOrder _ _ 2).trans_le (peakTps_oneOrder _ _ 2).ge)
    (refP99_oneOrder_pos hmono hexpm1 (hbucket.trans (hmono (by norm_num))) hvalue)
    (refP99_oneOrder_pos hmono hexpm1 (hbucket.trans (hmono (by norm_num))) hvalue)
  intro rate hrate b hb b' hb'
  cases hrate
  cases hb
  cases hb'
  exact ⟨[100], [50], .cons (by norm_num) .nil, hist_oneOrder _ _ _, hist_oneOrder _ _ _⟩

end Telemetry
