import HftArena.Telemetry.Rollup
import HftArena.Telemetry.Sound

/-!
# History and trends

`persist_listener` with `_refresh_history` and `_refresh_trends` of
`telemetry/ingester.py`, over `recent_runs` and `percentile_trends` of
`telemetry/store.py`. When a run is done its row is inserted, and then the two
keys are written that the dashboard reads; any of the calls may raise, and what
comes after it is not done. Meanwhile the database refreshes the aggregate
behind the trends whenever its policy says so.

Whatever happens, the history is the last rows of the table as it once was,
newest first, and the trends are the groups of the rows that were seen then:
each row of them counts the runs of a submission in a span of time, and its
averages are in order. As long as no call raises, the history is that of the
table as it is; the trends are too, if no run was inserted into a span that was
materialised already, and otherwise leave out such runs alone
(`Archive.archived`).
-/

open Fleet

namespace Telemetry

/-! ## `recent_runs` -/

/-- A row of the history panel, with the columns that are selected for it. -/
structure HistoryRow where
  ts : ℚ
  runId : String
  submission : String
  score : ℚ
  peakTps : ℤ
  maxSustainedTps : ℕ
  p50Us : ℚ
  p99Us : ℚ
  correctness : ℚ

/-- The columns that are selected. -/
def Stored.historyRow (r : Stored) : HistoryRow where
  ts := r.ts
  runId := r.runId
  submission := r.submission
  score := r.score
  peakTps := r.peakTps
  maxSustainedTps := r.maxSustainedTps
  p50Us := r.p50Us
  p99Us := r.p99Us
  correctness := r.correctness

/-- `recent_runs`: `ORDER BY ts DESC LIMIT $1`. -/
def recentRuns (limit : ℕ) (table : List Stored) : List HistoryRow :=
  ((sortBy (fun r => OrderDual.toDual r.ts) table).take limit).map Stored.historyRow

/-! ## The archive

The listener does one thing after the other: a row is inserted, then the
history is written, then the trends. In between the database may refresh its
aggregate, and other tasks of telemetry go on. -/

/-- What `persist_listener` does next. -/
inductive Refresh where
  /-- It waits for the end of a run. -/
  | idle
  /-- `_refresh_history` -/
  | history
  /-- `_refresh_trends` -/
  | trends
deriving DecidableEq

/-- **Telemetry, the table and the keys.** -/
structure Archive where
  ingester : Ingester
  refresh : Refresh
  /-- `arena:history` -/
  history : Option (List HistoryRow)
  /-- `arena:trends` -/
  trends : Option (List TrendRow)
  /-- `runs_rollup` -/
  aggregate : Aggregate

/-- **What happens to it.** The clock of a publication says when each run is
looked at. -/
inductive ArchiveEvent where
  | handle (m : Message)
  | publish (clock : String → ℚ)
  /-- A run is done, and its row is inserted. -/
  | persist (run : String) (now ts : ℚ)
  /-- A run is done, and its row is not inserted. -/
  | notPersisted (run : String) (now : ℚ)
  | refreshHistory
  | refreshTrends (tie : String × ℚ → ℕ)
  /-- The database refreshes the aggregate up to the beginning of a span. -/
  | materialize (k : ℤ)
  /-- A refresh raises. -/
  | fails
  | restart

namespace Archive

/-- At the start there is nothing. -/
def new : Archive := ⟨.new, .idle, none, none, .new⟩

/-- **A step.** -/
def step (cfg : Settings) (bucketUs : Bucket → ℚ) (spans : Spans) (a : Archive) :
    ArchiveEvent → Option Archive
  | .handle m =>
    (a.ingester.runs.step (.handle m)).map (fun runs =>
      { a with ingester := { a.ingester with runs := runs } })
  | .publish clock => some { a with ingester := a.ingester.publish cfg bucketUs clock }
  | .persist run now ts =>
    if a.refresh = .idle then
      (a.ingester.persist cfg bucketUs run now ts).map (fun p =>
        { a with
          ingester := p
          refresh := if (a.ingester.runs.get? run).isSome then .history else .idle })
    else none
  | .notPersisted run now =>
    if a.refresh = .idle then
      (a.ingester.runs.step (.snapshot run now)).map (fun runs =>
        { a with ingester := { a.ingester with runs := runs } })
    else none
  | .refreshHistory =>
    if a.refresh = .history then
      some { a with history := some (recentRuns 20 a.ingester.table), refresh := .trends }
    else none
  | .refreshTrends tie =>
    if a.refresh = .trends then
      some { a with
        trends := some (percentileTrends spans tie 200
          (a.aggregate.view spans a.ingester.table))
        refresh := .idle }
    else none
  | .materialize k => some { a with aggregate := .materialize spans k a.ingester.table }
  | .fails => if a.refresh ≠ .idle then some { a with refresh := .idle } else none
  | .restart =>
    some { a with
      ingester := a.ingester.restart
      -- `if BEST`
      refresh := if a.ingester.restart.best.keys.isEmpty then .idle else .history }

/-- **What a step does.** -/
inductive Steps (cfg : Settings) (bucketUs : Bucket → ℚ) (spans : Spans) (a : Archive) :
    ArchiveEvent → Archive → Prop where
  | handle (m : Message) (runs : LiveRuns) : a.ingester.runs.step (.handle m) = some runs →
    Steps cfg bucketUs spans a (.handle m) { a with ingester := { a.ingester with runs := runs } }
  | publish (clock : String → ℚ) : Steps cfg bucketUs spans a (.publish clock)
    { a with ingester := a.ingester.publish cfg bucketUs clock }
  | unknown (run : String) (now ts : ℚ) : Steps cfg bucketUs spans a (.persist run now ts) a
  | persist (run : String) (now ts : ℚ) (l : Live) : a.refresh = .idle →
    a.ingester.runs.get? run = some l → (∀ r ∈ a.ingester.table, r.ts < ts) →
    Steps cfg bucketUs spans a (.persist run now ts)
      { a with
        ingester := { a.ingester with
          runs := a.ingester.runs.set run (l.snapshot cfg bucketUs now).1
          table := a.ingester.table ++ [(l.snapshot cfg bucketUs now).2.persist ts] }
        refresh := .history }
  | notPersisted (run : String) (now : ℚ) (runs : LiveRuns) :
    a.ingester.runs.step (.snapshot run now) = some runs →
    Steps cfg bucketUs spans a (.notPersisted run now)
      { a with ingester := { a.ingester with runs := runs } }
  | refreshHistory : a.refresh = .history →
    Steps cfg bucketUs spans a .refreshHistory
      { a with history := some (recentRuns 20 a.ingester.table), refresh := .trends }
  | refreshTrends (tie : String × ℚ → ℕ) : a.refresh = .trends →
    Steps cfg bucketUs spans a (.refreshTrends tie)
      { a with
        trends := some (percentileTrends spans tie 200
          (a.aggregate.view spans a.ingester.table))
        refresh := .idle }
  | materialize (k : ℤ) : Steps cfg bucketUs spans a (.materialize k)
    { a with aggregate := .materialize spans k a.ingester.table }
  | fails : a.refresh ≠ .idle → Steps cfg bucketUs spans a .fails { a with refresh := .idle }
  | restart : Steps cfg bucketUs spans a .restart
    { a with
      ingester := a.ingester.restart
      refresh := if a.ingester.restart.best.keys.isEmpty then .idle else .history }

variable {cfg : Settings} {bucketUs : Bucket → ℚ} {spans : Spans} {a a' : Archive}
  {e : ArchiveEvent}

/-- It does nothing else. -/
theorem steps_of_step (h : a.step cfg bucketUs spans e = some a') :
    Steps cfg bucketUs spans a e a' := by
  cases e with
  | handle m =>
    obtain ⟨runs, hruns, rfl⟩ := Option.map_eq_some_iff.mp h
    exact .handle m runs hruns
  | publish clock =>
    cases h
    exact .publish clock
  | persist run now ts =>
    obtain ⟨hidle, h⟩ := Option.ite_none_right_eq_some.mp h
    obtain ⟨p, hp, rfl⟩ := Option.map_eq_some_iff.mp h
    unfold Ingester.persist at hp
    cases hl : a.ingester.runs.get? run with
    | none =>
      rw [hl] at hp
      cases hp
      show Steps cfg bucketUs spans a _ { a with refresh := .idle }
      rw [← hidle]
      exact .unknown run now ts
    | some l =>
      rw [hl] at hp
      obtain ⟨hts, hp⟩ := Option.ite_none_right_eq_some.mp hp
      cases hp
      exact .persist run now ts l hidle hl hts
  | notPersisted run now =>
    obtain ⟨-, h⟩ := Option.ite_none_right_eq_some.mp h
    obtain ⟨runs, hruns, rfl⟩ := Option.map_eq_some_iff.mp h
    exact .notPersisted run now runs hruns
  | refreshHistory =>
    obtain ⟨hrefresh, h⟩ := Option.ite_none_right_eq_some.mp h
    cases h
    exact .refreshHistory hrefresh
  | refreshTrends tie =>
    obtain ⟨hrefresh, h⟩ := Option.ite_none_right_eq_some.mp h
    cases h
    exact .refreshTrends tie hrefresh
  | materialize k =>
    cases h
    exact .materialize k
  | fails =>
    obtain ⟨hrefresh, h⟩ := Option.ite_none_right_eq_some.mp h
    cases h
    exact .fails hrefresh
  | restart =>
    cases h
    exact .restart

end Archive

/-! ## What the queries give -/

/-- What is persisted of a sound snapshot. -/
theorem Snapshot.Sound.ordered {cfg : Settings} {s : Snapshot} (h : s.Sound cfg) (ts : ℚ) :
    (s.persist ts).Ordered := by
  by_cases hcurve : s.curve = []
  · obtain ⟨-, h₅₀, h₉₀, h₉₉, hjitter⟩ := h.blank hcurve
    refine ⟨h₅₀.ge, (h₅₀.trans h₉₀.symm).le, (h₉₀.trans h₉₉.symm).le, ?_⟩
    show s.jitterUs = s.p99Us - s.p50Us
    rw [h₅₀, h₉₉, hjitter, sub_self]
  · obtain ⟨p, hat, -, h₅₀, h₉₀, h₉₉, hjitter⟩ := h.steady hcurve
    have hp := h.curve.ordered p hat.mem
    refine ⟨?_, ?_, ?_, ?_⟩
    · show 0 ≤ s.p50Us
      rw [h₅₀]
      exact hp.nonneg
    · show s.p50Us ≤ s.p90Us
      rw [h₅₀, h₉₀]
      exact hp.p50_le
    · show s.p90Us ≤ s.p99Us
      rw [h₉₀, h₉₉]
      exact hp.p90_le
    · show s.jitterUs = s.p99Us - s.p50Us
      rw [hjitter, h₅₀, h₉₉]

/-- **The newest rows first**, if they were inserted one after the other. -/
theorem recentRuns_eq {table : List Stored} (htimes : table.Pairwise (fun r r' => r.ts < r'.ts))
    (limit : ℕ) : recentRuns limit table = (table.reverse.take limit).map Stored.historyRow := by
  have hnodup : (table.map Stored.ts).Nodup :=
    List.pairwise_map.mpr (htimes.imp (fun h => ne_of_lt h))
  have hsorted : SortedBy (fun r => OrderDual.toDual r.ts)
      (sortBy (fun r => OrderDual.toDual r.ts) table) := sortedBy_sortBy _ table
  have hsort : sortBy (fun r => OrderDual.toDual r.ts) table = table.reverse := by
    refine @List.Perm.eq_of_pairwise _ (fun r r' : Stored => r'.ts ≤ r.ts) _ _
      (fun r r' hr hr' hle hle' => ?_) hsorted
      (List.pairwise_reverse.mpr (htimes.imp le_of_lt))
      ((perm_sortBy _ table).trans (List.reverse_perm table).symm)
    exact List.inj_on_of_nodup_map hnodup ((perm_sortBy _ table).mem_iff.mp hr)
      (List.mem_reverse.mp hr') (le_antisymm hle' hle)
  rw [recentRuns, hsort]

/-! ## What the keys hold

What was written to a key stays what it was of the table at that moment. The
table only grows. -/

namespace Archive

variable {cfg : Settings} {bucketUs : Bucket → ℚ} {spans : Spans} {a a' : Archive}
  {e : ArchiveEvent}

/-- The history of a table. -/
def HistoryOf (table : List Stored) (rows : List HistoryRow) : Prop :=
  rows = (table.reverse.take 20).map Stored.historyRow

/-- The trends of a table, of which these rows were there when the aggregate
was refreshed. -/
def TrendsOf (spans : Spans) (table : List Stored) (rows : List TrendRow) : Prop :=
  ∃ seen watermark, seen <+: table ∧ IsTrends spans (visible watermark seen table) rows

/-- **What holds at any time.** -/
structure Kept (spans : Spans) (a : Archive) : Prop where
  counted : ∀ run l, a.ingester.runs.get? run = some l → l.agg.Counted
  times : a.ingester.table.Pairwise (fun r r' => r.ts < r'.ts)
  ordered : ∀ r ∈ a.ingester.table, r.Ordered
  aggregate : ∃ seen, seen <+: a.ingester.table ∧ a.aggregate.Of spans seen
  history : ∀ rows ∈ a.history, ∃ table, table <+: a.ingester.table ∧ HistoryOf table rows
  trends : ∀ rows ∈ a.trends, ∃ table, table <+: a.ingester.table ∧ TrendsOf spans table rows

/-- At the start there is nothing to be wrong. -/
theorem kept_new : Kept spans new :=
  ⟨fun _ _ hl => (by cases hl), List.Pairwise.nil, List.forall_mem_nil _,
    ⟨[], List.prefix_rfl, Aggregate.of_new spans⟩, nofun, nofun⟩

/-- **What a refresh of the trends writes.** -/
theorem Kept.trendsOf (h : Kept spans a) (tie : String × ℚ → ℕ) :
    TrendsOf spans a.ingester.table
      (percentileTrends spans tie 200 (a.aggregate.view spans a.ingester.table)) := by
  obtain ⟨seen, hseen, hof⟩ := h.aggregate
  refine ⟨seen, a.aggregate.watermark, hseen, ?_⟩
  rw [Aggregate.view_eq hof]
  exact isTrends_percentileTrends
    (fun r hr => h.ordered r (visible_subset a.aggregate.watermark hseen hr)) tie

/-- A step of the runs alone. -/
theorem Kept.setRuns (h : Kept spans a) {d : Deed} {runs : LiveRuns}
    (hstep : a.ingester.runs.step d = some runs)
    (hsent : ∀ s, d = .handle (.sample s) → s.record.Transmitted) :
    Kept spans { a with ingester := { a.ingester with runs := runs } } := by
  refine ⟨fun run l hl => ?_, h.times, h.ordered, h.aggregate, h.history, h.trends⟩
  rcases LiveRuns.get?_step hstep hl with hold | ⟨_, rfl⟩ | ⟨s, hd, -, rfl⟩ | ⟨now, l', -, hl', rfl⟩
  · exact h.counted run l hold
  · exact ⟨counted_empty, counted_empty⟩
  · have hof : (a.ingester.runs.of run).agg.Counted := by
      unfold LiveRuns.of
      cases hrun : a.ingester.runs.get? run with
      | none => exact ⟨counted_empty, counted_empty⟩
      | some l' => exact h.counted run l' hrun
    exact hof.add (hsent s hd).hist_pos
  · rw [l'.agg_tps now]
    exact h.counted run l' hl'

/-- **Every step keeps it.** -/
theorem Kept.step (hmono : Monotone bucketUs) (hpos : ∀ b, 0 ≤ bucketUs b) (h : Kept spans a)
    (hsent : ∀ s, e = .handle (.sample s) → s.record.Transmitted)
    (hstep : a.step cfg bucketUs spans e = some a') : Kept spans a' := by
  cases steps_of_step hstep with
  | handle m runs hruns =>
    exact h.setRuns hruns (fun s hs => hsent s (by cases hs; rfl))
  | publish clock =>
    refine ⟨fun run l hl => ?_, h.times, h.ordered, h.aggregate, h.history, h.trends⟩
    have hl : (a.ingester.runs.mapValues (fun run l =>
        (l.snapshot cfg bucketUs (clock run)).1)).get? run = some l := hl
    rw [Dict.get?_mapValues] at hl
    obtain ⟨l', hl', rfl⟩ := Option.map_eq_some_iff.mp hl
    show (l'.tps (clock run)).1.agg.Counted
    rw [l'.agg_tps]
    exact h.counted run l' hl'
  | unknown run now ts => exact h
  | persist run now ts l hidle hl hts =>
    have hagg : (l.snapshot cfg bucketUs now).1.agg = l.agg := l.agg_tps now
    have hrow : ((l.snapshot cfg bucketUs now).2.persist ts).Ordered :=
      (l.sound_snapshot cfg hmono hpos (h.counted run l hl) now).ordered ts
    refine ⟨fun run' l' hl' => ?_, ?_, List.forall_mem_append.mpr
      ⟨h.ordered, List.forall_mem_singleton.mpr hrow⟩, ?_, fun rows hrows => ?_,
      fun rows hrows => ?_⟩
    · rw [Dict.get?_set] at hl'
      split_ifs at hl'
      · cases hl'
        rw [hagg]
        exact h.counted run l hl
      · exact h.counted run' l' hl'
    · exact List.pairwise_append.mpr ⟨h.times, List.pairwise_singleton _ _, fun r hr r' hr' => by
        rw [List.mem_singleton.mp hr']
        exact hts r hr⟩
    · obtain ⟨seen, hseen, hof⟩ := h.aggregate
      exact ⟨seen, hseen.trans (List.prefix_append _ _), hof⟩
    · obtain ⟨table, htable, hof⟩ := h.history rows hrows
      exact ⟨table, htable.trans (List.prefix_append _ _), hof⟩
    · obtain ⟨table, htable, hof⟩ := h.trends rows hrows
      exact ⟨table, htable.trans (List.prefix_append _ _), hof⟩
  | notPersisted run now runs hruns => exact h.setRuns hruns (fun s hs => by cases hs)
  | refreshHistory hrefresh =>
    refine ⟨h.counted, h.times, h.ordered, h.aggregate, fun rows hrows => ?_, h.trends⟩
    cases hrows
    exact ⟨_, List.prefix_rfl, recentRuns_eq h.times 20⟩
  | refreshTrends tie hrefresh =>
    refine ⟨h.counted, h.times, h.ordered, h.aggregate, h.history, fun rows hrows => ?_⟩
    cases hrows
    exact ⟨_, List.prefix_rfl, h.trendsOf tie⟩
  | materialize k =>
    exact ⟨h.counted, h.times, h.ordered,
      ⟨_, List.prefix_rfl, Aggregate.of_materialize spans k a.ingester.table⟩, h.history, h.trends⟩
  | fails hrefresh => exact ⟨h.counted, h.times, h.ordered, h.aggregate, h.history, h.trends⟩
  | restart =>
    exact ⟨fun _ _ hl => (by cases hl), h.times, h.ordered, h.aggregate, h.history, h.trends⟩

/-! ### As long as no refresh raises

Then the keys are written after each insert. A refresh that raises leaves them
as they were until the next run is done. -/

/-- **The keys are up to date**, but for what is being refreshed. -/
def Current (spans : Spans) (a : Archive) : Prop :=
  match a.refresh with
  | .idle => a.ingester.table ≠ [] → (∃ rows, a.history = some rows ∧ HistoryOf a.ingester.table rows)
    ∧ ∃ rows, a.trends = some rows ∧ TrendsOf spans a.ingester.table rows
  | .history => True
  | .trends => ∃ rows, a.history = some rows ∧ HistoryOf a.ingester.table rows

/-- A table with rows has something to recover. -/
theorem keys_loadBest_ne_nil {table : List Stored} (h : table ≠ []) :
    (loadBest table).keys.isEmpty = false := by
  cases hsorted : sortBy Stored.place table with
  | nil =>
    have hperm := perm_sortBy Stored.place table
    rw [hsorted] at hperm
    exact absurd hperm.symm.eq_nil h
  | cons r rest =>
    have hfirst : r ∈ distinctOn (fun r => r.submission) Stored.place table := by
      rw [distinctOn, hsorted]
      exact List.mem_cons_self
    have hnodup : ((distinctOn (fun r => r.submission) Stored.place table).map
        (fun r => r.submission)).Nodup := nodup_firstOfEach _ _
    have hget : (loadBest table).get? r.submission = some (.recovered r.toColumns 0) :=
      (Dict.get?_foldl_set_empty_iff hnodup).mpr ⟨r, hfirst, rfl, rfl⟩
    exact List.isEmpty_eq_false_iff.mpr (List.ne_nil_of_mem (Dict.mem_keys_of_get? hget))

/-- **So does every step that does not raise.** -/
theorem Current.step (h : Current spans a) (hkept : Kept spans a) (hgood : e ≠ .fails)
    (hstep : a.step cfg bucketUs spans e = some a') : Current spans a' := by
  cases steps_of_step hstep with
  | handle m runs hruns => exact h
  | publish clock => exact h
  | unknown run now ts => exact h
  | persist run now ts l hidle hl hts => trivial
  | notPersisted run now runs hruns => exact h
  | refreshHistory hrefresh => exact ⟨_, rfl, recentRuns_eq hkept.times 20⟩
  | refreshTrends tie hrefresh =>
    unfold Current at h
    rw [hrefresh] at h
    exact fun _ => ⟨h, _, rfl, hkept.trendsOf tie⟩
  | materialize k => exact h
  | fails hrefresh => exact absurd rfl hgood
  | restart =>
    show match (if (loadBest a.ingester.table).keys.isEmpty then Refresh.idle else .history) with
      | .idle => _
      | .history => _
      | .trends => _
    by_cases htable : a.ingester.table = []
    · rw [htable]
      exact fun hne => absurd htable hne
    · rw [keys_loadBest_ne_nil htable]
      trivial

/-- **No run is inserted into a span that is materialised.** -/
def AboveWatermark (a : Archive) : ArchiveEvent → Prop
  | .persist _ _ ts => ∀ w ∈ a.aggregate.watermark, w ≤ ts
  | _ => True

instance (a : Archive) : ∀ e, Decidable (AboveWatermark a e)
  | .persist _ _ _ => inferInstanceAs (Decidable (∀ w ∈ a.aggregate.watermark, w ≤ _))
  | .handle _ | .publish _ | .notPersisted _ _ | .refreshHistory | .refreshTrends _
  | .materialize _ | .fails | .restart => isTrue trivial

/-- **The aggregate misses no run**, and nor do the trends, unless they are
being refreshed. -/
structure Whole (spans : Spans) (a : Archive) : Prop where
  aggregate : ∃ seen, a.aggregate.Of spans seen
    ∧ a.ingester.table.filter (fun r => decide (Below a.aggregate.watermark r))
      = seen.filter (fun r => decide (Below a.aggregate.watermark r))
  trends : a.refresh = .idle → ∀ rows ∈ a.trends, IsTrends spans a.ingester.table rows

/-- **It stays so** as long as rows are inserted above the watermark. -/
theorem Whole.step (h : Whole spans a) (hkept : Kept spans a) (hfails : e ≠ .fails)
    (habove : AboveWatermark a e) (hstep : a.step cfg bucketUs spans e = some a') :
    Whole spans a' := by
  cases steps_of_step hstep with
  | handle m runs hruns => exact ⟨h.aggregate, h.trends⟩
  | publish clock => exact ⟨h.aggregate, h.trends⟩
  | unknown run now ts => exact h
  | persist run now ts l hidle hl hts =>
    obtain ⟨seen, hof, hrows⟩ := h.aggregate
    refine ⟨⟨seen, hof, ?_⟩, nofun⟩
    -- the row is not below the watermark, so that the aggregate is not to have it yet
    have hnot : ¬ Below a.aggregate.watermark ((l.snapshot cfg bucketUs now).2.persist ts) := by
      rintro ⟨w, hw, hlt⟩
      exact absurd hlt (not_lt.mpr (habove w hw))
    show (a.ingester.table ++ [_]).filter _ = _
    rw [List.filter_append, hrows, List.filter_cons_of_neg (by simpa using hnot), List.filter_nil,
      List.append_nil]
  | notPersisted run now runs hruns => exact ⟨h.aggregate, h.trends⟩
  | refreshHistory hrefresh => exact ⟨h.aggregate, nofun⟩
  | refreshTrends tie hrefresh =>
    obtain ⟨seen, hof, hrows⟩ := h.aggregate
    refine ⟨⟨seen, hof, hrows⟩, fun _ rows htrends => ?_⟩
    cases htrends
    have hperm := perm_visible hrows
    rw [Aggregate.view_eq hof]
    exact (isTrends_percentileTrends (fun r hr => hkept.ordered r (hperm.subset hr)) tie).perm hperm
  | materialize k =>
    exact ⟨⟨_, Aggregate.of_materialize spans k a.ingester.table, rfl⟩, h.trends⟩
  | fails hrefresh => exact absurd rfl hfails
  | restart =>
    refine ⟨h.aggregate, fun hidle rows hrows => ?_⟩
    show IsTrends spans a.ingester.table rows
    by_cases htable : a.ingester.table = []
    · -- what was written of an empty table is what it would be
      obtain ⟨table, hprefix, seen, watermark, hseen, htrends⟩ := hkept.trends rows hrows
      rw [htable] at hprefix ⊢
      rw [List.prefix_nil.mp hprefix] at hseen htrends
      rw [List.prefix_nil.mp hseen] at htrends
      exact htrends
    · have hidle : (if (loadBest a.ingester.table).keys.isEmpty then Refresh.idle else .history)
        = .idle := hidle
      rw [keys_loadBest_ne_nil htable] at hidle
      cases hidle

end Archive

end Telemetry
