import HftArena.Telemetry.Quantiles

/-!
# Histograms of several workers

Every worker transmits counts of its own, and telemetry adds them up before it
looks for the percentiles. What it shows of a rate of either sweep is then
between what it would show of the parts alone (`merged_between`): one of the
workers that had orders acknowledged at that rate is no better, and one is no
worse, however their records interleave.

The reason is one of order and not of averages. A percentile is the first
bucket up to which a share of the weight lies, and for a sum of histograms that
bucket lies between the first and the last of those of the summands that have
weight (`IsQuantile.exists_part_le`, `IsQuantile.exists_part_ge`).
-/

open Fleet

namespace Telemetry

/-- The two sweeps of a run, each with a curve of its own. -/
inductive Sweep where
  | steady
  | burst
deriving DecidableEq

/-- The phase that its records are tagged with. -/
def Sweep.phase : Sweep → String
  | .steady => "open"
  | .burst => "burst"

/-- `self.rates` or `self.burst_rates`. -/
def Agg.points (a : Agg) : Sweep → Dict ℕ RateBin
  | .steady => a.rates
  | .burst => a.burstRates

/-- Its points, as functions of the rate. -/
def Totals.points (t : Totals) : Sweep → ℕ → Option RateBin
  | .steady => t.rates
  | .burst => t.burstRates

/-- A sample goes to the curve of its phase. -/
theorem Totals.points_add (t : Totals) (s : Sample) (sweep : Sweep) :
    (t.add s).points sweep
      = if s.OnCurve sweep.phase then addToPoint (t.points sweep) s else t.points sweep := by
  cases sweep <;> rfl

/-- They are the aggregate's. -/
theorem Agg.points_totals (a : Agg) (sweep : Sweep) (rate : ℕ) :
    a.totals.points sweep rate = (a.points sweep).get? rate := by
  cases sweep <;> rfl

/-- A record of a run that belongs to a point of a curve. -/
def Sample.At (run : String) (sweep : Sweep) (rate : ℕ) (s : Sample) : Prop :=
  run = s.runId ∧ s.OnCurve sweep.phase ∧ s.record.tag.rate = rate

instance (run : String) (sweep : Sweep) (rate : ℕ) (s : Sample) :
    Decidable (s.At run sweep rate) :=
  inferInstanceAs (Decidable (_ ∧ _ ∧ _))

/-- The bin of a rate, which is new until a record belongs to it. -/
def binOf (sweep : Sweep) (rate : ℕ) (t : Option Totals) : RateBin :=
  (t.bind (fun t => t.points sweep rate)).getD .new

/-- A record of a run changes the bin that it belongs to, and no other. -/
theorem binOf_addToRun (run : String) (sweep : Sweep) (rate : ℕ) (t : Option Totals) (s : Sample) :
    binOf sweep rate (addToRun run t s)
      = if s.At run sweep rate then (binOf sweep rate t).add s else binOf sweep rate t := by
  by_cases hrun : run = s.runId
  · have hnew : (t.getD (Agg.new run "?").totals).points sweep rate
        = t.bind (fun t => t.points sweep rate) := by
      cases t <;> cases sweep <;> rfl
    rw [addToRun, if_pos hrun]
    show (((t.getD (Agg.new run "?").totals).add s).points sweep rate).getD .new = _
    rw [Totals.points_add]
    by_cases hcurve : s.OnCurve sweep.phase
    · rw [if_pos hcurve, addToPoint]
      by_cases hrate : s.record.tag.rate = rate
      · rw [if_pos ⟨hrun, hcurve, hrate⟩, hrate, Function.update_self, hnew]
        rfl
      · rw [if_neg (fun h => hrate h.2.2), Function.update_of_ne (Ne.symm hrate), hnew]
        rfl
    · rw [if_neg hcurve, if_neg (fun h => hcurve h.2.1), hnew]
      rfl
  · rw [addToRun, if_neg hrun, if_neg (fun h => hrun h.1)]

/-- **A bin is fed by the records that belong to it.** -/
theorem binOf_foldl (run : String) (sweep : Sweep) (rate : ℕ) (samples : List Sample)
    (t : Option Totals) :
    binOf sweep rate (samples.foldl (addToRun run) t)
      = (samples.filter (fun s => decide (s.At run sweep rate))).foldl RateBin.add
          (binOf sweep rate t) := by
  induction samples generalizing t with
  | nil => rfl
  | cons s samples ih =>
    rw [List.foldl_cons, ih, binOf_addToRun]
    by_cases hat : s.At run sweep rate
    · rw [if_pos hat, List.filter_cons_of_pos (by simpa using hat), List.foldl_cons]
    · rw [if_neg hat, List.filter_cons_of_neg (by simpa using hat)]

/-- What some records add to a bucket. -/
def added (samples : List Sample) (i : Bucket) : ℤ :=
  (samples.map (fun s => (s.record.hist.map (fun p => if p.1 = i then p.2 else 0)).sum)).sum

/-- Records add up in every bucket, -/
theorem foldl_add_hist (samples : List Sample) (b : RateBin) (i : Bucket) :
    (samples.foldl RateBin.add b).hist i = b.hist i + added samples i := by
  induction samples generalizing b with
  | nil => exact (add_zero _).symm
  | cons s samples ih =>
    rw [List.foldl_cons, ih, RateBin.hist_add, added, added, List.map_cons, List.sum_cons]
    exact add_assoc _ _ _

/-- and so do the acknowledgements they carry. -/
theorem foldl_add_acked (samples : List Sample) (b : RateBin) :
    (samples.foldl RateBin.add b).acked
      = b.acked + (samples.map (fun s => s.record.acked)).sum := by
  induction samples generalizing b with
  | nil => exact (add_zero _).symm
  | cons s samples ih =>
    rw [List.foldl_cons, ih, List.map_cons, List.sum_cons]
    exact add_assoc _ _ _

/-- The bin of a rate of a run, after some records. -/
def binAt (run : String) (sweep : Sweep) (rate : ℕ) (samples : List Sample) : RateBin :=
  (samples.filter (fun s => decide (s.At run sweep rate))).foldl RateBin.add .new

/-- It is the one of the run's aggregate, if there is one. -/
theorem binOf_totals (run : String) (sweep : Sweep) (rate : ℕ) (samples : List Sample) :
    binOf sweep rate ((samples.foldl Runs.apply .empty).totals run)
      = binAt run sweep rate samples := by
  rw [Runs.totals_foldl, binOf_foldl]
  rfl

section

variable (run : String) (sweep : Sweep) (rate : ℕ) {samples : List Sample}
  {parts : List (List Sample)}

/-- **The counts of a whole are the sums of those of its parts.** -/
theorem hist_binAt_of_perm (h : samples.Perm parts.flatten) (i : Bucket) :
    (binAt run sweep rate samples).hist i
      = ((parts.map (fun part => (binAt run sweep rate part).hist)).map (fun v => v i)).sum := by
  have hone : ∀ samples, (binAt run sweep rate samples).hist i
      = added (samples.filter (fun s => decide (s.At run sweep rate))) i := fun samples =>
    (foldl_add_hist _ _ i).trans (zero_add _)
  have hflat : ∀ parts : List (List Sample),
      added (parts.flatten.filter (fun s => decide (s.At run sweep rate))) i
        = (parts.map (fun part =>
          added (part.filter (fun s => decide (s.At run sweep rate))) i)).sum := by
    intro parts
    induction parts with
    | nil => rfl
    | cons part parts ih =>
      rw [List.flatten_cons, List.filter_append, List.map_cons, List.sum_cons, ← ih, added,
        List.map_append, List.sum_append]
      rfl
  rw [hone, List.map_map, added, ((h.filter _).map _).sum_eq]
  refine (hflat parts).trans (congrArg List.sum (List.map_congr_left (fun part _ => ?_)))
  exact (hone part).symm

/-- Transmitted records have as many counts as acknowledgements, and no
negative ones. -/
theorem binAt_counts (h : ∀ s ∈ samples, s.record.Transmitted) :
    0 ≤ (binAt run sweep rate samples).hist
      ∧ ∑ i, (binAt run sweep rate samples).hist i = (binAt run sweep rate samples).acked := by
  have hmem : ∀ s ∈ samples.filter (fun s => decide (s.At run sweep rate)), s.record.Transmitted :=
    fun s hs => h s (List.mem_of_mem_filter hs)
  constructor
  · intro i
    rw [binAt, foldl_add_hist]
    refine add_nonneg le_rfl (List.sum_nonneg (fun n hn => ?_))
    obtain ⟨s, hs, rfl⟩ := List.mem_map.mp hn
    refine List.sum_nonneg (fun n hn => ?_)
    obtain ⟨p, hp, rfl⟩ := List.mem_map.mp hn
    split_ifs
    · exact ((hmem s hs).hist_pos p hp).le
    · exact le_rfl
  · have hsum : ∀ samples : List Sample, (∀ s ∈ samples, s.record.Transmitted) →
        ∑ i, added samples i = (samples.map (fun s => s.record.acked)).sum := by
      intro samples h
      induction samples with
      | nil => exact Finset.sum_const_zero
      | cons s samples ih =>
        obtain ⟨hs, hrest⟩ := List.forall_mem_cons.mp h
        rw [List.map_cons, List.sum_cons, ← ih hrest, ← hs.wf.mass, sum_map_snd,
          ← Finset.sum_add_distrib]
        rfl
    have hzero : ∀ i, RateBin.new.hist i = 0 := fun _ => rfl
    rw [binAt, foldl_add_acked]
    simp only [foldl_add_hist, hzero, zero_add]
    rw [hsum _ hmem]
    exact (zero_add _).symm

end

/-- **What is shown of a rate** at which orders were acknowledged. -/
def ShowsAt (bucketUs : Bucket → ℚ) (samples : List Sample) (run : String) (sweep : Sweep)
    (rate : ℕ) (p : Point) : Prop :=
  ∃ a b, (samples.foldl Runs.apply .empty).get? run = some a
    ∧ (a.points sweep).get? rate = some b ∧ 0 < b.acked ∧ p = b.point bucketUs rate

/-- In terms of the bin alone. -/
theorem showsAt_iff (bucketUs : Bucket → ℚ) (samples : List Sample) (run : String) (sweep : Sweep)
    (rate : ℕ) (p : Point) : ShowsAt bucketUs samples run sweep rate p
      ↔ 0 < (binAt run sweep rate samples).acked
        ∧ p = (binAt run sweep rate samples).point bucketUs rate := by
  rw [← binOf_totals, Runs.totals]
  constructor
  · rintro ⟨a, b, ha, hb, hacked, rfl⟩
    have hbin : binOf sweep rate ((Dict.get? (samples.foldl Runs.apply .empty) run).map Agg.totals)
        = b := by
      rw [ha]
      show (a.totals.points sweep rate).getD .new = b
      rw [Agg.points_totals, hb]
      rfl
    rw [hbin]
    exact ⟨hacked, rfl⟩
  · rintro ⟨hacked, rfl⟩
    cases ha : Dict.get? (samples.foldl Runs.apply .empty) run with
    | none =>
      rw [ha] at hacked
      exact absurd hacked (lt_irrefl _)
    | some a =>
      cases hb : (a.points sweep).get? rate with
      | none =>
        rw [ha] at hacked
        replace hacked : 0 < ((a.totals.points sweep rate).getD .new).acked := hacked
        rw [Agg.points_totals, hb] at hacked
        exact absurd hacked (lt_irrefl _)
      | some b =>
        have hbin : binOf sweep rate ((some a).map Agg.totals) = b := by
          show (a.totals.points sweep rate).getD .new = b
          rw [Agg.points_totals, hb]
          rfl
        rw [ha, hbin] at hacked
        rw [hbin]
        exact ⟨a, b, ha, hb, hacked, rfl⟩

/-- **What is shown of a rate is between what would be shown of the parts**,
whatever the order in which their records come.

So a fleet cannot look better than its best worker or worse than its worst, and
splitting a worker in two makes no difference to where the percentile may lie.
It is by the rule about quantiles of sums. -/
theorem merged_between {bucketUs : Bucket → ℚ} (hmono : Monotone bucketUs)
    {parts : List (List Sample)} {samples : List Sample} (hperm : samples.Perm parts.flatten)
    (hsent : ∀ s ∈ samples, s.record.Transmitted) {run : String} {sweep : Sweep} {rate : ℕ}
    {p : Point} (hp : ShowsAt bucketUs samples run sweep rate p) :
    ∀ f ∈ [Point.p50Us, Point.p90Us, Point.p99Us],
      (∃ part ∈ parts, ∃ p', ShowsAt bucketUs part run sweep rate p' ∧ f p' ≤ f p)
        ∧ ∃ part ∈ parts, ∃ p', ShowsAt bucketUs part run sweep rate p' ∧ f p ≤ f p' := by
  obtain ⟨hacked, rfl⟩ := (showsAt_iff _ _ _ _ _ _).mp hp
  have hpart : ∀ part ∈ parts, ∀ s ∈ part, s.record.Transmitted := fun part hpart s hs =>
    hsent s (hperm.mem_iff.mpr (List.mem_flatten.mpr ⟨part, hpart, hs⟩))
  obtain ⟨hpos, hmass⟩ := binAt_counts run sweep rate hsent
  -- each of the figures is the value of a quantile
  have hfigure : ∀ f ∈ [Point.p50Us, Point.p90Us, Point.p99Us], ∃ q ≤ (1 : ℚ),
      ∀ (b : RateBin) (c : Bucket), 0 ≤ b.hist → ∑ i, b.hist i ≠ 0 → IsQuantile q b.hist c →
        f (b.point bucketUs rate) = roundTo 1 (bucketUs c) := by
    intro f hf
    have hout : ∀ b : RateBin, 0 ≤ b.hist → ∑ i, b.hist i ≠ 0 → ∃ b₅₀ b₉₀ b₉₉,
        IsQuantile (1 / 2) b.hist b₅₀ ∧ IsQuantile (9 / 10) b.hist b₉₀
          ∧ IsQuantile (99 / 100) b.hist b₉₉
          ∧ percentiles bucketUs b.hist = (bucketUs b₅₀, bucketUs b₉₀, bucketUs b₉₉) :=
      fun b hb => exists_percentiles bucketUs hb
    simp only [List.mem_cons, List.not_mem_nil, or_false] at hf
    rcases hf with rfl | rfl | rfl
    · refine ⟨1 / 2, by norm_num, fun b c hb htotal hc => ?_⟩
      obtain ⟨_, _, _, h, -, -, heq⟩ := hout b hb htotal
      rw [RateBin.point, heq, hc.eq h hb]
    · refine ⟨9 / 10, by norm_num, fun b c hb htotal hc => ?_⟩
      obtain ⟨_, _, _, -, h, -, heq⟩ := hout b hb htotal
      rw [RateBin.point, heq, hc.eq h hb]
    · refine ⟨99 / 100, by norm_num, fun b c hb htotal hc => ?_⟩
      obtain ⟨_, _, _, -, -, h, heq⟩ := hout b hb htotal
      rw [RateBin.point, heq, hc.eq h hb]
  intro f hf
  obtain ⟨q, hq, hvalue⟩ := hfigure f hf
  have hweight : 0 < ∑ i, (binAt run sweep rate samples).hist i := hmass ▸ hacked
  obtain ⟨c, hc⟩ := exists_isQuantile hpos hq
  have hsum := hist_binAt_of_perm run sweep rate hperm
  have hnonneg : ∀ v ∈ parts.map (fun part => (binAt run sweep rate part).hist), 0 ≤ v := by
    intro v hv
    obtain ⟨part, hmem, rfl⟩ := List.mem_map.mp hv
    exact (binAt_counts run sweep rate (hpart part hmem)).1
  have hshown : ∀ v ∈ parts.map (fun part => (binAt run sweep rate part).hist), 0 < ∑ i, v i →
      ∀ c', IsQuantile q v c' → ∃ part ∈ parts, ∃ p', ShowsAt bucketUs part run sweep rate p'
        ∧ f p' = roundTo 1 (bucketUs c') := by
    intro v hv htotal c' hc'
    obtain ⟨part, hmem, rfl⟩ := List.mem_map.mp hv
    obtain ⟨hposPart, hmassPart⟩ := binAt_counts run sweep rate (hpart part hmem)
    exact ⟨part, hmem, _, (showsAt_iff _ _ _ _ _ _).mpr ⟨hmassPart ▸ htotal, rfl⟩,
      hvalue _ c' hposPart htotal.ne' hc'⟩
  rw [hvalue _ c hpos hweight.ne' hc]
  constructor
  · obtain ⟨v, hv, htotal, c', hc', hle⟩ := hc.exists_part_le hnonneg hsum hweight hq
    obtain ⟨part, hmem, p', hp', hf'⟩ := hshown v hv htotal c' hc'
    exact ⟨part, hmem, p', hp', hf'.trans_le (roundTo_mono 1 (hmono hle))⟩
  · obtain ⟨v, hv, htotal, c', hc', hle⟩ := hc.exists_part_ge hnonneg hsum hweight hq
    obtain ⟨part, hmem, p', hp', hf'⟩ := hshown v hv htotal c' hc'
    exact ⟨part, hmem, p', hp', (roundTo_mono 1 (hmono hle)).trans_eq hf'.symm⟩

/-- Two workers with an order each, of which the second waits longer. -/
theorem merged_between_two :
    ∃ l l' r r', exec Ledger.step .new (Ledger.oneAck 100) = some l ∧ l.records = [r]
      ∧ exec Ledger.step .new (Ledger.oneAck 120) = some l' ∧ l'.records = [r']
      ∧ ∃ p, ShowsAt (fun b => b.val) [⟨"a", 1, r'⟩, ⟨"a", 2, r⟩] "a" .steady 10000 p
      ∧ ∀ f ∈ [Point.p50Us, Point.p90Us, Point.p99Us],
        (∃ part ∈ [[⟨"a", 2, r⟩], [⟨"a", 1, r'⟩]], ∃ p',
          ShowsAt (fun b => b.val) part "a" .steady 10000 p' ∧ f p' ≤ f p)
        ∧ ∃ part ∈ [[⟨"a", 2, r⟩], [⟨"a", 1, r'⟩]], ∃ p',
          ShowsAt (fun b => b.val) part "a" .steady 10000 p' ∧ f p ≤ f p' := by
  refine ⟨_, _, _, _, rfl, rfl, rfl, rfl, _, (showsAt_iff _ _ _ _ _ _).mpr ⟨by decide, rfl⟩,
    merged_between (fun b b' h => by exact_mod_cast h) (List.Perm.swap _ _ _) (fun s hs => ?_)
      ((showsAt_iff _ _ _ _ _ _).mpr ⟨by decide, rfl⟩)⟩
  obtain rfl | rfl := List.mem_pair.mp hs
  · exact ⟨Ledger.oneAck 120, _, rfl, List.mem_cons_self⟩
  · exact ⟨Ledger.oneAck 100, _, rfl, List.mem_cons_self⟩

end Telemetry
