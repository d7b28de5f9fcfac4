import HftArena.Lib.GroupBy
import HftArena.Telemetry.Leaderboard
import HftArena.Telemetry.Score

/-!
# The rollup of the runs

`percentile_trends` of `telemetry/store.py` over `runs_rollup`, which is a
*continuous aggregate* with `materialized_only = false`. The database keeps the
groups of the rows that were there when the aggregate was refreshed last, up to
a watermark that is the beginning of a span of time; from the watermark on, a
query groups the rows of the table as it is. That is how TimescaleDB documents
it, and all that is assumed of it here: when the policy refreshes the aggregate
and how far it comes is left open.

As no span lies on both sides of the watermark, what a query sees is the
grouping of one list of rows (`Aggregate.view_eq`): those below the watermark
that were there at the last refresh, and all that are not below it. A run that
is inserted below the watermark is in none of them until the aggregate is
refreshed again. The trends of the rows that are seen are sorted, limited, and
rounded (`isTrends_percentileTrends`).
-/

namespace Telemetry

/-! ## The continuous aggregate

The groups and a watermark. That there is nothing else to it, whatever the
database does to come by it, is the assumption. -/

/-- `time_bucket`: the beginning of the span of time that a time is in. -/
def timeBucket (width origin ts : ℚ) : ℚ := origin + width * ⌊(ts - origin) / width⌋

/-- A group of `runs_rollup`: a submission and the beginning of a span, with
the runs. -/
abbrev Rollup := (String × ℚ) × List Stored

/-- What the rollup is set up with: the length of a span, where the first one
begins, and the square root in the deviations. -/
structure Spans where
  /-- `TREND_BUCKET`, which `time_bucket` does not take to be 0. -/
  width : ℚ
  origin : ℚ
  sqrt : ℚ → ℚ
  width_pos : 0 < width

/-- What a row is grouped by: `submission, bucket`. -/
def Spans.key (spans : Spans) (r : Stored) : String × ℚ :=
  (r.submission, timeBucket spans.width spans.origin r.ts)

/-- `GROUP BY submission, bucket`, of rows that are given. -/
def rollup (spans : Spans) (rows : List Stored) : List Rollup := groupBy spans.key rows

/-- **What the database keeps of the aggregate.** -/
structure Aggregate where
  /-- The groups that are materialised. -/
  groups : List Rollup
  /-- Up to where they are; `WITH NO DATA` there is no such time. -/
  watermark : Option ℚ

/-- The aggregate when it is created. -/
def Aggregate.new : Aggregate := ⟨[], none⟩

/-- A row is below a watermark. -/
def Below (watermark : Option ℚ) (r : Stored) : Prop := ∃ w ∈ watermark, r.ts < w

instance (watermark : Option ℚ) (r : Stored) : Decidable (Below watermark r) :=
  match watermark with
  | none => isFalse (fun ⟨_, hw, _⟩ => nomatch hw)
  | some w =>
    decidable_of_iff (r.ts < w) ⟨fun h => ⟨w, rfl, h⟩, fun ⟨_, hw, h⟩ => by cases hw; exact h⟩

/-- **A refresh** up to the beginning of a span. -/
def Aggregate.materialize (spans : Spans) (k : ℤ) (table : List Stored) : Aggregate :=
  let watermark := some (spans.origin + spans.width * k)
  ⟨rollup spans (table.filter (fun r => decide (Below watermark r))), watermark⟩

/-- **What a query sees**: what is materialised, and the rows that are not
below the watermark. -/
def Aggregate.view (spans : Spans) (agg : Aggregate) (table : List Stored) : List Rollup :=
  agg.groups ++ rollup spans (table.filter (fun r => decide (¬ Below agg.watermark r)))

/-! ## `percentile_trends`

The query over the aggregate, and what is made of its rows for the panel. -/

/-- A row of the trends panel: a submission in a span of time, with what its
runs came to. -/
structure TrendRow where
  bucket : ℚ
  submission : String
  runs : ℕ
  p50Avg : ℚ
  p90Avg : ℚ
  p99Avg : ℚ
  p99Max : ℚ
  p50Jitter : ℚ
  p99Jitter : ℚ
  tailSpreadAvg : ℚ
  burstP99Avg : ℚ
  scoreAvg : ℚ

/-- `_r`: what is null is shown as zero. -/
def roundOrZero (v : Option ℚ) : ℚ := v.elim 0 (roundTo 1)

/-- What is shown of a group. -/
def Rollup.trendRow (sqrt : ℚ → ℚ) (g : Rollup) : TrendRow where
  bucket := g.1.2
  submission := g.1.1
  runs := g.2.length
  p50Avg := roundOrZero (some (average (fun r => r.p50Us) g.2))
  p90Avg := roundOrZero (some (average (fun r => r.p90Us) g.2))
  p99Avg := roundOrZero (some (average (fun r => r.p99Us) g.2))
  p99Max := roundOrZero (some (greatest (fun r => r.p99Us) g.2))
  p50Jitter := roundOrZero (deviation sqrt (fun r => r.p50Us) g.2)
  p99Jitter := roundOrZero (deviation sqrt (fun r => r.p99Us) g.2)
  tailSpreadAvg := roundOrZero (some (average (fun r => r.jitterUs) g.2))
  burstP99Avg := roundOrZero (some (average (fun r => r.burstP99Us) g.2))
  scoreAvg := roundOrZero (some (average (fun r => r.score) g.2))

/-- `percentile_trends`: `ORDER BY bucket DESC LIMIT $1`, over what is seen.
Groups of one span come in some order. -/
def percentileTrends (spans : Spans) (tie : String × ℚ → ℕ) (limit : ℕ) (view : List Rollup) :
    List TrendRow :=
  ((sortBy (fun g => toLex (OrderDual.toDual g.1.2, tie g.1)) view).take limit).map
    (Rollup.trendRow spans.sqrt)

/-! ## What is seen

The groups that are materialised and those that are made by the query have no
key in common, so they are the groups of one list. -/

section

variable {spans : Spans} {agg : Aggregate} {seen table : List Stored} {r r' : Stored}

/-- **A span is on one side of the watermark.** -/
theorem below_iff_of_key_eq {k : ℤ} (hkey : spans.key r = spans.key r') :
    Below (some (spans.origin + spans.width * k)) r
      ↔ Below (some (spans.origin + spans.width * k)) r' := by
  have hbelow : ∀ r : Stored, Below (some (spans.origin + spans.width * k)) r
      ↔ ⌊(r.ts - spans.origin) / spans.width⌋ < k := by
    intro r
    rw [Int.floor_lt, div_lt_iff₀ spans.width_pos]
    constructor
    · rintro ⟨w, hw, hlt⟩
      cases hw
      linarith
    · exact fun hlt => ⟨_, rfl, by linarith⟩
  have hfloor : ⌊(r.ts - spans.origin) / spans.width⌋
      = ⌊(r'.ts - spans.origin) / spans.width⌋ := by
    have hbucket := congrArg Prod.snd hkey
    have hmul := mul_left_cancel₀ spans.width_pos.ne' (add_left_cancel hbucket)
    exact_mod_cast hmul
  rw [hbelow, hbelow, hfloor]

/-- The rows that a query sees, if these were there at the last refresh. -/
def visible (watermark : Option ℚ) (seen table : List Stored) : List Stored :=
  seen.filter (fun r => decide (Below watermark r))
    ++ table.filter (fun r => decide (¬ Below watermark r))

/-- **What the aggregate keeps of the rows that were there.** -/
structure Aggregate.Of (spans : Spans) (agg : Aggregate) (seen : List Stored) : Prop where
  groups : agg.groups = rollup spans (seen.filter (fun r => decide (Below agg.watermark r)))
  watermark : ∀ w ∈ agg.watermark, ∃ k : ℤ, w = spans.origin + spans.width * k

/-- It keeps nothing at first, -/
theorem Aggregate.of_new (spans : Spans) : Aggregate.Of spans .new [] := ⟨rfl, nofun⟩

/-- and what there is when it is refreshed. -/
theorem Aggregate.of_materialize (spans : Spans) (k : ℤ) (table : List Stored) :
    Aggregate.Of spans (.materialize spans k table) table :=
  ⟨rfl, fun _ hw => ⟨k, (Option.some.inj hw).symm⟩⟩

/-- **It sees the grouping of one list of rows.** -/
theorem Aggregate.view_eq (h : agg.Of spans seen) (table : List Stored) :
    agg.view spans table = rollup spans (visible agg.watermark seen table) := by
  have hdisjoint : ((seen.filter (fun r => decide (Below agg.watermark r))).map spans.key).Disjoint
      ((table.filter (fun r => decide (¬ Below agg.watermark r))).map spans.key) := by
    intro key hkey hkey'
    obtain ⟨r, hr, rfl⟩ := List.mem_map.mp hkey
    obtain ⟨r', hr', hsame⟩ := List.mem_map.mp hkey'
    have hbelow := of_decide_eq_true (List.mem_filter.mp hr).2
    have hnot := of_decide_eq_true (List.mem_filter.mp hr').2
    obtain ⟨w, hw, -⟩ := id hbelow
    obtain ⟨k, rfl⟩ := h.watermark w hw
    rw [Option.mem_def.mp hw] at hbelow hnot
    exact hnot ((below_iff_of_key_eq hsame).mpr hbelow)
  rw [Aggregate.view, h.groups, visible, rollup, rollup, rollup, groupBy_append hdisjoint]

/-- All that is seen is in the table. -/
theorem visible_subset (watermark : Option ℚ) (hseen : seen <+: table) :
    visible watermark seen table ⊆ table := by
  intro r hr
  rcases List.mem_append.mp hr with hr | hr
  · exact hseen.subset (List.mem_of_mem_filter hr)
  · exact List.mem_of_mem_filter hr

/-- **A row below the watermark is not seen** before the next refresh. -/
theorem Aggregate.view_append_below (h : Below agg.watermark r) (table : List Stored) :
    agg.view spans (table ++ [r]) = agg.view spans table := by
  rw [Aggregate.view, List.filter_append, List.filter_cons_of_neg (by simpa using h),
    List.filter_nil, List.append_nil, Aggregate.view]

/-- Where all rows below the watermark were there, it sees all rows. -/
theorem perm_visible {watermark : Option ℚ}
    (h : table.filter (fun r => decide (Below watermark r))
      = seen.filter (fun r => decide (Below watermark r))) :
    (visible watermark seen table).Perm table := by
  rw [visible, ← h]
  have hnot : (fun r : Stored => decide (¬ Below watermark r))
      = fun r => !decide (Below watermark r) := funext (fun r => decide_not)
  rw [hnot]
  exact List.filter_append_perm _ table

end

/-! ## What the trends are

What does not depend on which rows are seen, nor on their order. -/

/-- **What is persisted of the percentiles.** -/
structure Stored.Ordered (r : Stored) : Prop where
  nonneg : 0 ≤ r.p50Us
  p50_le : r.p50Us ≤ r.p90Us
  p90_le : r.p90Us ≤ r.p99Us
  jitter : r.jitterUs = r.p99Us - r.p50Us

/-- **What the trends are of a table.** -/
structure IsTrends (spans : Spans) (table : List Stored) (rows : List TrendRow) : Prop where
  length_le : rows.length ≤ 200
  /-- The newest spans first. -/
  newest : rows.Pairwise (fun r r' => r'.bucket ≤ r.bucket)
  /-- Each submission once in a span. -/
  once : (rows.map (fun r => (r.submission, r.bucket))).Nodup
  runs : ∀ r ∈ rows, 0 < r.runs
    ∧ r.runs = table.countP (fun t => decide (spans.key t = (r.submission, r.bucket)))
  /-- A run that is not counted is of a span that is no newer than those that
  are shown. -/
  left : ∀ t ∈ table,
    (∃ r ∈ rows, (r.submission, r.bucket) = spans.key t)
      ∨ rows.length = 200 ∧ ∀ r ∈ rows, (spans.key t).2 ≤ r.bucket
  all : rows.length < 200 → (rows.map TrendRow.runs).sum = table.length
  ordered : ∀ r ∈ rows, 0 ≤ r.p50Avg ∧ r.p50Avg ≤ r.p90Avg ∧ r.p90Avg ≤ r.p99Avg
    ∧ r.p99Avg ≤ r.p99Max
  /-- The spread of the tail is the distance of the averages, before they are
  rounded. -/
  spread : ∀ r ∈ rows, ∃ p₅₀ p₉₉, r.p50Avg = roundTo 1 p₅₀ ∧ r.p99Avg = roundTo 1 p₉₉
    ∧ r.tailSpreadAvg = roundTo 1 (p₉₉ - p₅₀)

section

variable {spans : Spans} {table table' : List Stored} {rows : List TrendRow} {g : Rollup}

/-- The order of the rows does not matter. -/
theorem IsTrends.perm (h : IsTrends spans table rows) (hperm : table.Perm table') :
    IsTrends spans table' rows where
  length_le := h.length_le
  newest := h.newest
  once := h.once
  runs := fun r hr => ⟨(h.runs r hr).1, (h.runs r hr).2.trans (hperm.countP_eq _)⟩
  left := fun t ht => h.left t (hperm.mem_iff.mpr ht)
  all := fun hlen => (h.all hlen).trans hperm.length_eq
  ordered := h.ordered
  spread := h.spread

/-- Averages keep the order of what they are taken of, and so does rounding. -/
theorem ordered_trendRow (hordered : ∀ r ∈ table, r.Ordered)
    (hg : g ∈ rollup spans table) :
    0 ≤ (g.trendRow spans.sqrt).p50Avg
      ∧ (g.trendRow spans.sqrt).p50Avg ≤ (g.trendRow spans.sqrt).p90Avg
      ∧ (g.trendRow spans.sqrt).p90Avg ≤ (g.trendRow spans.sqrt).p99Avg
      ∧ (g.trendRow spans.sqrt).p99Avg ≤ (g.trendRow spans.sqrt).p99Max := by
  have hrows : ∀ r ∈ g.2, r.Ordered := fun r hr => hordered r (subset_of_mem_groupBy hg hr)
  refine ⟨roundTo_nonneg 1 (average_nonneg (fun r hr => (hrows r hr).nonneg)), ?_, ?_, ?_⟩
  · exact roundTo_mono 1 (average_le_average (fun r hr => (hrows r hr).p50_le))
  · exact roundTo_mono 1 (average_le_average (fun r hr => (hrows r hr).p90_le))
  · exact roundTo_mono 1 (average_le_greatest (ne_nil_of_mem_groupBy hg))

/-- The average of the distances is the distance of the averages. -/
theorem spread_trendRow (hordered : ∀ r ∈ table, r.Ordered)
    (hg : g ∈ rollup spans table) :
    (g.trendRow spans.sqrt).tailSpreadAvg
      = roundTo 1 (average (fun r => r.p99Us) g.2 - average (fun r => r.p50Us) g.2) := by
  have hjitter : average (fun r => r.jitterUs) g.2 = average (fun r => r.p99Us - r.p50Us) g.2 :=
    congrArg (fun ps : List ℚ => ps.sum / g.2.length) (List.map_congr_left (fun r hr =>
      (hordered r (subset_of_mem_groupBy hg hr)).jitter))
  rw [← average_sub, ← hjitter]
  rfl

/-- **What is shown are the trends** of the rows that were grouped, whichever
way the groups of one span come. -/
theorem isTrends_percentileTrends (hordered : ∀ r ∈ table, r.Ordered) (tie : String × ℚ → ℕ) :
    IsTrends spans table (percentileTrends spans tie 200 (rollup spans table)) := by
  unfold percentileTrends
  set order := sortBy (fun g : Rollup => toLex (OrderDual.toDual g.1.2, tie g.1))
    (rollup spans table) with horder
  have hperm : order.Perm (rollup spans table) := perm_sortBy _ _
  have hsorted : order.Pairwise (fun g g' => g'.1.2 ≤ g.1.2) :=
    (sortedBy_sortBy (fun g : Rollup => toLex (OrderDual.toDual g.1.2, tie g.1)) _).imp
      (fun h => Prod.Lex.monotone_fst _ _ h)
  have hmem : ∀ r ∈ (order.take 200).map (Rollup.trendRow spans.sqrt),
      ∃ g ∈ rollup spans table, r = g.trendRow spans.sqrt := by
    intro r hr
    obtain ⟨g, hg, rfl⟩ := List.mem_map.mp hr
    exact ⟨g, hperm.mem_iff.mp (List.mem_of_mem_take hg), rfl⟩
  refine ⟨?_, ?_, ?_, fun r hr => ?_, fun t ht => ?_, fun hlen => ?_, fun r hr => ?_, fun r hr => ?_⟩
  · rw [List.length_map]
    exact List.length_take_le 200 order
  · exact List.pairwise_map.mpr (hsorted.sublist (List.take_sublist 200 order))
  · rw [List.map_map]
    have hkeys : (order.map Prod.fst).Nodup :=
      (hperm.map Prod.fst).nodup_iff.mpr (nodup_keys_groupBy _ table)
    exact hkeys.sublist ((List.take_sublist 200 order).map Prod.fst)
  · obtain ⟨g, hg, rfl⟩ := hmem r hr
    exact ⟨List.length_pos_iff.mpr (ne_nil_of_mem_groupBy hg), length_of_mem_groupBy hg⟩
  · -- the group of the run is among the first two hundred, or comes after all of them
    have hgroup :
        (spans.key t, table.filter (fun t' => decide (spans.key t' = spans.key t))) ∈ order :=
      hperm.mem_iff.mpr (mem_groupBy.mpr ⟨List.mem_map_of_mem ht, rfl⟩)
    rw [← List.take_append_drop 200 order] at hgroup hsorted
    rcases List.mem_append.mp hgroup with htake | hdrop
    · exact .inl ⟨_, List.mem_map_of_mem htake, rfl⟩
    · refine .inr ⟨?_, fun r hr => ?_⟩
      · rw [List.length_map, List.length_take]
        have hpos := List.length_pos_of_mem hdrop
        rw [List.length_drop] at hpos
        omega
      · obtain ⟨g, hg, rfl⟩ := List.mem_map.mp hr
        exact (List.pairwise_append.mp hsorted).2.2 g hg _ hdrop
  · rw [List.length_map, List.length_take] at hlen
    rw [List.take_of_length_le (by omega), List.map_map,
      (hperm.map (TrendRow.runs ∘ Rollup.trendRow spans.sqrt)).sum_eq]
    exact sum_length_groupBy _ table
  · obtain ⟨g, hg, rfl⟩ := hmem r hr
    exact ordered_trendRow hordered hg
  · obtain ⟨g, hg, rfl⟩ := hmem r hr
    exact ⟨_, _, rfl, rfl, spread_trendRow hordered hg⟩

end

end Telemetry
