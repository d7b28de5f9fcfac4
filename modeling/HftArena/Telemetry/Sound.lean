import HftArena.Telemetry.Quantiles

/-!
# What a snapshot says

A snapshot is a dictionary of numbers that the dashboard and the database take
as they are. This is what can be relied on, whatever the workers have sent and
however often snapshots were taken (`snapshots_sound`): the curves go up in the
offered rate, the percentiles of a point are in order, the latencies that are
shown are those of the point nearest the reference load, the jitter is the
distance between two of them and never negative, and the greatest sustained
rate is one that was offered, and the greatest of those. If the microbursts
were offered at the rates of the steady sweep, their latencies are shown at the
same load.

All of it is said of the numbers as they are shown, after rounding. What is
shown of a point was rounded when the point was made, so that rounding it once
more for the snapshot changes nothing (`roundTo_roundTo`).
-/

open Fleet

namespace Telemetry

/-- **The percentiles of a point are in order.** -/
structure Point.Ordered (p : Point) : Prop where
  nonneg : 0 ≤ p.p50Us
  p50_le : p.p50Us ≤ p.p90Us
  p90_le : p.p90Us ≤ p.p99Us

/-- A curve: its rates go up, and the percentiles of each are in order. -/
structure IsCurve (pts : List Point) : Prop where
  ascending : (pts.map Point.offered).Pairwise (· < ·)
  positive : ∀ p ∈ pts, 0 < p.offered
  ordered : ∀ p ∈ pts, p.Ordered

/-- **The point at the reference load**: no other is nearer, and none as near
has a lower rate. -/
structure AtRef (refLoad : ℚ) (pts : List Point) (p : Point) : Prop where
  mem : p ∈ pts
  nearest : ∀ p' ∈ pts, |(p.offered : ℚ) - refLoad| < |(p'.offered : ℚ) - refLoad|
    ∨ |(p.offered : ℚ) - refLoad| = |(p'.offered : ℚ) - refLoad| ∧ p.offered ≤ p'.offered

/-- **What can be relied on.** -/
structure Snapshot.Sound (cfg : Settings) (s : Snapshot) : Prop where
  curve : IsCurve s.curve
  burstCurve : IsCurve s.burstCurve
  blank : s.curve = [] → s.refLoad = 0 ∧ s.p50Us = 0 ∧ s.p90Us = 0 ∧ s.p99Us = 0 ∧ s.jitterUs = 0
  steady : s.curve ≠ [] → ∃ p, AtRef cfg.refLoad s.curve p ∧ s.refLoad = p.offered
    ∧ s.p50Us = p.p50Us ∧ s.p90Us = p.p90Us ∧ s.p99Us = p.p99Us
    ∧ s.jitterUs = p.p99Us - p.p50Us
  burst : s.burstCurve ≠ [] → ∃ p, AtRef cfg.refLoad s.burstCurve p
    ∧ s.burstP50Us = p.p50Us ∧ s.burstP99Us = p.p99Us ∧ s.burstJitterUs = p.p99Us - p.p50Us
  sameLoad : s.curve.map Point.offered = s.burstCurve.map Point.offered →
    ∀ p, AtRef cfg.refLoad s.burstCurve p → s.refLoad = p.offered
  sustained : ∀ p ∈ s.curve, cfg.sustain * p.offered ≤ p.achieved →
    p.offered ≤ s.maxSustainedTps
  reached : s.maxSustainedTps = 0 ∨ ∃ p ∈ s.curve, p.offered = s.maxSustainedTps
    ∧ cfg.sustain * p.offered ≤ p.achieved

/-! ## The reference point

The loop keeps the first of the nearest, and the curve ascends. -/

/-- `_ref_point` finds it. -/
theorem atRef_refPoint {refLoad : ℚ} {pts : List Point}
    (hpts : (pts.map Point.offered).Pairwise (· < ·)) {p : Point}
    (h : refPoint refLoad pts = some p) : AtRef refLoad pts p := by
  -- of the points up to one the fold has the nearest, and of those the first
  have hfold : ∀ (pts : List Point) (best : Point),
      (best.offered :: pts.map Point.offered).Pairwise (· < ·) →
      AtRef refLoad (best :: pts) (pts.foldl (fun best p =>
        if |p.offered - refLoad| < |best.offered - refLoad| then p else best) best) := by
    intro pts
    induction pts with
    | nil => exact fun best _ => ⟨List.mem_cons_self, fun p' hp' =>
        (List.mem_singleton.mp hp') ▸ .inr ⟨rfl, le_rfl⟩⟩
    | cons q pts ih =>
      intro best hpairs
      obtain ⟨hbest, hrest⟩ := List.pairwise_cons.mp hpairs
      rw [List.foldl_cons]
      by_cases hnear : |(q.offered : ℚ) - refLoad| < |(best.offered : ℚ) - refLoad|
      · rw [if_pos hnear]
        obtain ⟨hmem, hall⟩ := ih q hrest
        refine ⟨List.mem_cons_of_mem best hmem, List.forall_mem_cons.mpr ⟨.inl ?_, hall⟩⟩
        rcases hall q List.mem_cons_self with hlt | ⟨heq, -⟩
        · exact hlt.trans hnear
        · exact heq.trans_lt hnear
      · rw [if_neg hnear]
        have hpairs' : (best.offered :: pts.map Point.offered).Pairwise (· < ·) :=
          List.pairwise_cons.mpr ⟨fun r hr => hbest r (List.mem_cons_of_mem _ hr),
            (List.pairwise_cons.mp hrest).2⟩
        obtain ⟨hmem, hall⟩ := ih best hpairs'
        have hq := hall best List.mem_cons_self
        refine ⟨List.cons_subset_cons best (List.subset_cons_self q pts) hmem,
          List.forall_mem_cons.mpr ⟨hq, List.forall_mem_cons.mpr ⟨?_,
            fun p' hp' => hall p' (List.mem_cons_of_mem best hp')⟩⟩⟩
        rcases hq with hlt | ⟨heq, hle⟩
        · exact .inl (hlt.trans_le (not_lt.mp hnear))
        · rcases (not_lt.mp hnear).lt_or_eq with hlt | heq'
          · exact .inl (heq.trans_lt hlt)
          · exact .inr ⟨heq.trans heq', hle.trans (hbest q.offered List.mem_cons_self).le⟩
  cases pts with
  | nil => cases h
  | cons best pts =>
    cases h
    exact hfold pts best hpts

/-- Which point it is is up to the rates. -/
theorem AtRef.offered_eq {refLoad : ℚ} {pts pts' : List Point} {p p' : Point}
    (h : AtRef refLoad pts p) (h' : AtRef refLoad pts' p')
    (hrates : pts.map Point.offered = pts'.map Point.offered) : p.offered = p'.offered := by
  obtain ⟨q, hq, hqp⟩ := List.mem_map.mp (hrates ▸ List.mem_map_of_mem h.mem)
  obtain ⟨q', hq', hqp'⟩ := List.mem_map.mp (hrates ▸ List.mem_map_of_mem h'.mem)
  have hle := h'.nearest q hq
  have hge := h.nearest q' hq'
  rw [hqp] at hle
  rw [hqp'] at hge
  rcases hle with hlt | ⟨heq, hle⟩
  · rcases hge with hlt' | ⟨heq', -⟩
    · exact absurd hlt (not_lt.mpr hlt'.le)
    · exact absurd hlt (heq'.le.not_gt)
  · rcases hge with hlt' | ⟨-, hge⟩
    · exact absurd hlt' (heq.le.not_gt)
    · exact le_antisymm hge hle

/-- It finds some point if there is one. -/
theorem exists_refPoint (refLoad : ℚ) {pts : List Point} (h : pts ≠ []) :
    ∃ p, refPoint refLoad pts = some p := by
  cases pts with
  | nil => exact absurd rfl h
  | cons p pts => exact ⟨_, rfl⟩

/-! ## Numbers with one digit

They are closed under subtraction, so that the jitter needs no rounding. -/

/-- Rounding twice is rounding once. -/
theorem roundTo_roundTo (digits : ℕ) (q : ℚ) : roundTo digits (roundTo digits q)
    = roundTo digits q := by
  have hpow : (10 : ℚ) ^ digits ≠ 0 := by positivity
  rw [roundTo, roundTo, div_mul_cancel₀ _ hpow, roundEven_intCast]

/-- The distance between two of them is one. -/
theorem roundTo_sub (digits : ℕ) (q q' : ℚ) : roundTo digits (roundTo digits q - roundTo digits q')
    = roundTo digits q - roundTo digits q' := by
  have hpow : (10 : ℚ) ^ digits ≠ 0 := by positivity
  rw [roundTo, roundTo, roundTo, ← sub_div, div_mul_cancel₀ _ hpow, ← Int.cast_sub,
    roundEven_intCast]

/-! ## The points of a curve

That no count is negative is all that a bin needs. -/

/-- Where the values of the buckets ascend, the percentiles of a bin are in
order. -/
theorem ordered_point {bucketUs : Bucket → ℚ} (hmono : Monotone bucketUs)
    (hpos : ∀ b, 0 ≤ bucketUs b) (rate : ℕ) {b : RateBin} (hb : 0 ≤ b.hist) :
    (b.point bucketUs rate).Ordered := by
  by_cases htotal : ∑ i, b.hist i = 0
  · rw [RateBin.point, percentiles_of_empty bucketUs htotal]
    exact ⟨roundTo_nonneg 1 le_rfl, le_rfl, le_rfl⟩
  · obtain ⟨b₅₀, b₉₀, b₉₉, h₅₀, h₉₀, h₉₉, hout⟩ := exists_percentiles bucketUs hb htotal
    rw [RateBin.point, hout]
    exact ⟨roundTo_nonneg 1 (hpos b₅₀),
      roundTo_mono 1 (hmono (h₅₀.le_of_le h₉₀ hb (by norm_num))),
      roundTo_mono 1 (hmono (h₉₀.le_of_le h₉₉ hb (by norm_num)))⟩

/-- **The bins of a run**: of positive rates, and with no negative counts. -/
def Counted (bins : Dict ℕ RateBin) : Prop :=
  ∀ rate, ∀ b ∈ bins.get? rate, 0 < rate ∧ 0 ≤ b.hist

/-- Their points are a curve. -/
theorem isCurve_of_counted {bucketUs : Bucket → ℚ} (hmono : Monotone bucketUs)
    (hpos : ∀ b, 0 ≤ bucketUs b) {bins : Dict ℕ RateBin} (h : Counted bins) :
    IsCurve (curveOf bucketUs bins) := by
  have hpoint : ∀ p ∈ curveOf bucketUs bins,
      ∃ rate, ∃ b ∈ bins.get? rate, p = b.point bucketUs rate := by
    intro p hp
    obtain ⟨rate, -, hrate⟩ := List.mem_filterMap.mp hp
    obtain ⟨b, hb, rfl⟩ := Option.map_eq_some_iff.mp hrate
    exact ⟨rate, b, hb, rfl⟩
  refine ⟨?_, fun p hp => ?_, fun p hp => ?_⟩
  · rw [curveOf_eq_map, List.map_map]
    have hsame : Point.offered ∘ (fun offered => RateBin.point bucketUs offered
        ((bins.get? offered).getD .new)) = id := rfl
    rw [hsame, List.map_id]
    have hnodup : (bins.keys.insertionSort (· ≤ ·)).Nodup :=
      (List.perm_insertionSort _ _).nodup_iff.mpr bins.nodup_keys
    exact (List.pairwise_insertionSort (· ≤ ·) bins.keys).imp₂
      (fun a b hle hne => lt_of_le_of_ne hle hne) hnodup
  · obtain ⟨rate, b, hb, rfl⟩ := hpoint p hp
    exact (h rate b hb).1
  · obtain ⟨rate, b, hb, rfl⟩ := hpoint p hp
    exact ordered_point hmono hpos rate (h rate b hb).2

/-- There are none at first. -/
theorem counted_empty : Counted .empty := fun _ _ hb => by cases hb

/-- A record that adds counts keeps it. -/
theorem Counted.addToBin {bins : Dict ℕ RateBin} (h : Counted bins) {s : Sample}
    (hrate : 0 < s.record.tag.rate) (hs : ∀ p ∈ s.record.hist, 0 < p.2) :
    Counted (addToBin bins s) := by
  intro rate b hb
  rw [Telemetry.addToBin, Dict.get?_set] at hb
  split_ifs at hb with hsame
  · cases hb
    refine ⟨hsame ▸ hrate, fun i => ?_⟩
    have hold : 0 ≤ ((bins.get? s.record.tag.rate).getD .new).hist i := by
      cases hbin : bins.get? s.record.tag.rate with
      | none => exact le_rfl
      | some b => exact (h _ b hbin).2 i
    rw [RateBin.hist_add]
    refine add_nonneg hold (List.sum_nonneg (fun n hn => ?_))
    obtain ⟨p, hp, rfl⟩ := List.mem_map.mp hn
    split_ifs
    · exact (hs p hp).le
    · exact le_rfl
  · exact h rate b hb

/-- **The bins of an aggregate.** -/
def Agg.Counted (a : Agg) : Prop := Telemetry.Counted a.rates ∧ Telemetry.Counted a.burstRates

/-- A record that adds counts keeps it. -/
theorem Agg.Counted.add {a : Agg} (h : a.Counted) {s : Sample}
    (hs : ∀ p ∈ s.record.hist, 0 < p.2) : (a.add s).Counted := by
  constructor
  · show Telemetry.Counted (if _ then _ else _)
    split_ifs with hopen
    · exact h.1.addToBin hopen.1 hs
    · exact h.1
  · show Telemetry.Counted (if _ then _ else _)
    split_ifs with hburst
    · exact h.2.addToBin hburst.1 hs
    · exact h.2

/-! ## The greatest sustained rate -/

/-- What `_max_sustained` finds: no sustained rate is greater, and it is one of
them unless there is none. -/
theorem maxSustained_spec (sustain : ℚ) (pts : List Point) :
    (∀ p ∈ pts, sustain * p.offered ≤ p.achieved → p.offered ≤ maxSustained sustain pts)
      ∧ (maxSustained sustain pts = 0 ∨ ∃ p ∈ pts, p.offered = maxSustained sustain pts
        ∧ sustain * p.offered ≤ p.achieved) := by
  -- The fold, from any rate that is the best so far.
  have hfold : ∀ (pts : List Point) (best : ℕ),
      let top := pts.foldl (fun best p =>
        if sustain * p.offered ≤ p.achieved then max best p.offered else best) best
      best ≤ top ∧ (∀ p ∈ pts, sustain * p.offered ≤ p.achieved → p.offered ≤ top)
        ∧ (top = best ∨ ∃ p ∈ pts, p.offered = top ∧ sustain * p.offered ≤ p.achieved) := by
    intro pts
    induction pts with
    | nil => exact fun best => ⟨le_rfl, List.forall_mem_nil _, .inl rfl⟩
    | cons p pts ih =>
      intro best
      obtain ⟨hbest, hall, hone⟩ :=
        ih (if sustain * p.offered ≤ p.achieved then max best p.offered else best)
      rw [List.foldl_cons]
      refine ⟨le_trans ?_ hbest, List.forall_mem_cons.mpr ⟨fun hp => le_trans ?_ hbest, hall⟩, ?_⟩
      · split_ifs
        · exact le_max_left _ _
        · exact le_rfl
      · rw [if_pos hp]
        exact le_max_right _ _
      · rcases hone with heq | ⟨q, hq, hqs⟩
        · rw [heq]
          split_ifs with hp
          · rcases max_choice best p.offered with hmax | hmax
            · exact .inl hmax
            · exact .inr ⟨p, List.mem_cons_self, hmax.symm, hp⟩
          · exact .inl rfl
        · exact .inr ⟨q, List.mem_cons_of_mem p hq, hqs⟩
  obtain ⟨-, hall, hone⟩ := hfold pts 0
  exact ⟨hall, hone⟩

/-! ## Snapshots

The parts put together, for every aggregate that records have made. -/

/-- **A snapshot of such an aggregate is sound.** -/
theorem Live.sound_snapshot (cfg : Settings) {bucketUs : Bucket → ℚ} (hmono : Monotone bucketUs)
    (hpos : ∀ b, 0 ≤ bucketUs b) {l : Live} (h : l.agg.Counted) (now : ℚ) :
    (l.snapshot cfg bucketUs now).2.Sound cfg := by
  rw [← l.agg_tps now] at h
  have hcurve := isCurve_of_counted hmono hpos h.1
  have hburst := isCurve_of_counted hmono hpos h.2
  have hmax := maxSustained_spec cfg.sustain ((l.tps now).1.agg.curve bucketUs)
  -- what is shown of the point at the reference load has one digit
  have hshown : ∀ (bins : Dict ℕ RateBin) (p : Point),
      refPoint cfg.refLoad (curveOf bucketUs bins) = some p → IsCurve (curveOf bucketUs bins) →
      AtRef cfg.refLoad (curveOf bucketUs bins) p ∧ roundTo 1 p.p50Us = p.p50Us
        ∧ roundTo 1 p.p90Us = p.p90Us ∧ roundTo 1 p.p99Us = p.p99Us
        ∧ roundTo 1 (max 0 (p.p99Us - p.p50Us)) = p.p99Us - p.p50Us := by
    intro bins p hp hbins
    have hat := atRef_refPoint hbins.ascending hp
    obtain ⟨rate, -, hrate⟩ := List.mem_filterMap.mp hat.mem
    obtain ⟨b, -, rfl⟩ := Option.map_eq_some_iff.mp hrate
    have hordered := hbins.ordered _ hat.mem
    have hle := hordered.p50_le.trans hordered.p90_le
    rw [max_eq_right (sub_nonneg.mpr hle)]
    exact ⟨hat, roundTo_roundTo 1 _, roundTo_roundTo 1 _, roundTo_roundTo 1 _, roundTo_sub 1 _ _⟩
  refine ⟨hcurve, hburst, fun hblank => ?_, fun hne => ?_, fun hne => ?_, fun hrates p hp => ?_,
    hmax.1, hmax.2⟩
  · have hnone : refPoint cfg.refLoad ((l.tps now).1.agg.curve bucketUs) = none := by
      rw [show (l.tps now).1.agg.curve bucketUs = [] from hblank]
      rfl
    dsimp only [Live.snapshot]
    rw [hnone]
    exact ⟨rfl, roundTo_intCast 1 0, roundTo_intCast 1 0, roundTo_intCast 1 0, by
      rw [Option.elim_none, Option.elim_none, sub_zero, max_self]
      exact roundTo_intCast 1 0⟩
  · obtain ⟨p, hp⟩ := exists_refPoint cfg.refLoad hne
    obtain ⟨hat, h₅₀, h₉₀, h₉₉, hjitter⟩ := hshown _ p hp hcurve
    have hp : refPoint cfg.refLoad ((l.tps now).1.agg.curve bucketUs) = some p := hp
    refine ⟨p, hat, ?_⟩
    dsimp only [Live.snapshot]
    rw [hp]
    exact ⟨rfl, h₅₀, h₉₀, h₉₉, hjitter⟩
  · obtain ⟨p, hp⟩ := exists_refPoint cfg.refLoad hne
    obtain ⟨hat, h₅₀, -, h₉₉, hjitter⟩ := hshown _ p hp hburst
    have hp : refPoint cfg.refLoad ((l.tps now).1.agg.burstCurve bucketUs) = some p := hp
    refine ⟨p, hat, ?_⟩
    dsimp only [Live.snapshot]
    rw [hp]
    exact ⟨h₅₀, h₉₉, hjitter⟩
  · have hne : (l.tps now).1.agg.curve bucketUs ≠ [] := by
      intro hblank
      have hmem := List.mem_map_of_mem (f := Point.offered) hp.mem
      rw [← hrates, show (l.snapshot cfg bucketUs now).2.curve = [] from hblank] at hmem
      exact absurd hmem List.not_mem_nil
    obtain ⟨q, hq⟩ := exists_refPoint cfg.refLoad hne
    have hat := atRef_refPoint hcurve.ascending hq
    rw [← hat.offered_eq hp hrates]
    dsimp only [Live.snapshot]
    rw [hq]
    rfl

/-- **Every snapshot of every run is sound**, whatever workers transmit and
however often snapshots are taken.

Of the exponential it is only asked that it ascends and is not negative at
zero; so the percentiles are in order whatever the values of the buckets
are. -/
theorem snapshots_sound (cfg : Settings) {expm1 : ℚ → ℚ} (hexpm1 : MonotoneOn expm1 (Set.Ici 0))
    (hzero : 0 ≤ expm1 0) {deeds : List Deed}
    (hsent : ∀ s, .handle (.sample s) ∈ deeds → s.record.Transmitted) {runs : LiveRuns}
    (hexec : exec LiveRuns.step .empty deeds = some runs) :
    ∀ run, ∀ l ∈ runs.get? run, ∀ now, (l.snapshot cfg (bucketUs expm1) now).2.Sound cfg := by
  have hpos : ∀ b, 0 ≤ bucketUs expm1 b := fun b =>
    hzero.trans (hexpm1 Set.self_mem_Ici (by show (0 : ℚ) ≤ _; positivity) (by positivity))
  have hcounted : ∀ run, ∀ l ∈ runs.get? run, l.agg.Counted :=
    LiveRuns.forall_of_exec (fun l => l.agg.Counted) hexec
      (fun _ _ => ⟨counted_empty, counted_empty⟩)
      (fun l s hs h => h.add (hsent s hs).hist_pos)
      (fun l now h => by rw [l.agg_tps now]; exact h)
  exact fun run l hl now => l.sound_snapshot cfg (bucketUs_mono hexpm1) hpos (hcounted run l hl) now

/-- A run with one order in it. -/
theorem snapshots_sound_oneAck :
    ∃ l r runs, exec Ledger.step .new (Ledger.oneAck 100) = some l ∧ l.records = [r]
      ∧ exec LiveRuns.step .empty [.handle (start "a" "fast"), .handle (.sample ⟨"a", 1, r⟩)]
        = some runs
      ∧ ∀ run, ∀ l ∈ runs.get? run, ∀ now, (l.snapshot .standard (bucketUs (fun x =>
        x + x ^ 2 / 2 + x ^ 3 / 6 + x ^ 4 / 24 + x ^ 5 / 120 + x ^ 6 / 720)) now).2.Sound
          .standard := by
  refine ⟨_, _, _, rfl, rfl, rfl, @snapshots_sound .standard _ monotoneOn_taylor (by norm_num)
    [.handle (start "a" "fast"), .handle (.sample ⟨"a", 1, _⟩)] (fun s hs => ?_) _ rfl⟩
  obtain hs | hs := List.mem_pair.mp hs
  · cases hs
  · cases hs
    exact ⟨Ledger.oneAck 100, _, rfl, List.mem_cons_self⟩

end Telemetry
