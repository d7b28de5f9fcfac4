import Mathlib.Data.Prod.Lex
import Mathlib.Data.String.Basic
import HftArena.Lib.DistinctOn
import HftArena.Telemetry.Score

/-!
# The leaderboard and its recovery

`publisher` and `persist_listener` of `telemetry/ingester.py` with
`persist_run` and `load_best` of `telemetry/store.py`. The publisher shows of
every submission the run that was started last; what a restart recovers is the
run that scored most, and of that the columns that are selected.

So the two boards agree on these columns exactly if the last run of every
submission leads it (`recovered_iff`), and on everything that is persisted only
where the process has seen no run at all: `jitter_us` and `burst_p99_us` are
persisted and not selected.

A snapshot is not the same at every time, as the score has the peak in it, and
the peak may rise from one look to the next. A row that was persisted of a run
therefore has the run's columns but for these two (`Live.columns_eq`), which is
what `LastLeads` asks for.
-/

open Fleet

namespace Telemetry

/-! ## Rows

A row of the board is a snapshot, with all that it has, or what a query
selected. -/

/-- `_COLS`: what is selected back out. -/
structure Columns where
  submission : String
  runId : String
  score : ℚ
  peakTps : ℤ
  maxSustainedTps : ℕ
  refLoad : ℕ
  p50Us : ℚ
  p90Us : ℚ
  p99Us : ℚ
  correctness : ℚ
  sent : ℤ
  acked : ℤ
  errors : ℤ
  curve : List Point

/-- A row of the table `runs`. -/
structure Stored extends Columns where
  ts : ℚ
  jitterUs : ℚ
  burstP99Us : ℚ

/-- The columns of a snapshot. -/
def Snapshot.columns (s : Snapshot) : Columns where
  submission := s.submission
  runId := s.runId
  score := s.score
  peakTps := s.peakTps
  maxSustainedTps := s.maxSustainedTps
  refLoad := s.refLoad
  p50Us := s.p50Us
  p90Us := s.p90Us
  p99Us := s.p99Us
  correctness := s.correctness
  sent := s.sent
  acked := s.acked
  errors := s.errors
  curve := s.curve

/-- `persist_run`, for a row that is inserted at a time. -/
def Snapshot.persist (s : Snapshot) (ts : ℚ) : Stored :=
  ⟨s.columns, ts, s.jitterUs, s.burstP99Us⟩

/-- **A row of the board**: a snapshot, or what was recovered. -/
inductive Row where
  | live (s : Snapshot)
  | recovered (c : Columns) (tps : ℤ)

/-- Its columns. -/
def Row.columns : Row → Columns
  | .live s => s.columns
  | .recovered c _ => c

/-- All of it that is persisted, as far as the row has it. -/
def Row.persisted : Row → Columns × Option ℚ × Option ℚ
  | .live s => (s.columns, some s.jitterUs, some s.burstP99Us)
  | .recovered c _ => (c, none, none)

/-! ## `load_best`

The first row of each submission in the order of the query. -/

/-- `ORDER BY submission, score DESC, ts DESC`. -/
def Stored.place (r : Stored) : String ×ₗ ℚᵒᵈ ×ₗ ℚᵒᵈ :=
  toLex (r.submission, toLex (.toDual r.score, .toDual r.ts))

/-- `load_best`: `DISTINCT ON (submission)`, each with no throughput. -/
def loadBest (table : List Stored) : Dict String Row :=
  (distinctOn (fun r => r.submission) Stored.place table).foldl
    (fun best r => best.set r.submission (.recovered r.toColumns 0)) .empty

/-- **It leads its submission**: the others score less, or as much and
earlier. -/
def Stored.Leads (r : Stored) (table : List Stored) : Prop :=
  r ∈ table ∧ ∀ r' ∈ table, r'.submission = r.submission →
    r' = r ∨ r'.score < r.score ∨ r'.score = r.score ∧ r'.ts < r.ts

/-- Of one submission, the rows come by descending score, and the later first
where scores are equal. -/
theorem Stored.place_le_iff {r r' : Stored} (h : r'.submission = r.submission) :
    r.place ≤ r'.place ↔ r'.score < r.score ∨ r'.score = r.score ∧ r'.ts ≤ r.ts := by
  unfold Stored.place
  rw [Prod.Lex.toLex_le_toLex, Prod.Lex.toLex_le_toLex, h]
  simp only [lt_self_iff_false, false_or, true_and, OrderDual.toDual_lt_toDual,
    OrderDual.toDual_le_toDual, OrderDual.toDual_inj, eq_comm (a := r.score)]

/-- Rows of different times have different places. -/
theorem Stored.eq_of_place {table : List Stored}
    (htimes : table.Pairwise (fun r r' => r.ts < r'.ts)) :
    ∀ r ∈ table, ∀ r' ∈ table, r.place = r'.place → r = r' := by
  intro r hr r' hr' hplace
  have hrest := (Prod.mk.inj (toLex.injective hplace)).2
  have hts : r.ts = r'.ts := OrderDual.toDual.injective (Prod.mk.inj (toLex.injective hrest)).2
  have hnodup : (table.map Stored.ts).Nodup :=
    List.pairwise_map.mpr (htimes.imp (fun h => ne_of_lt h))
  exact List.inj_on_of_nodup_map hnodup hr hr' hts

/-- **What is recovered of a submission is the row that leads it.** -/
theorem get?_loadBest_iff {table : List Stored}
    (htimes : table.Pairwise (fun r r' => r.ts < r'.ts)) {s : String} {row : Row} :
    (loadBest table).get? s = some row
      ↔ ∃ r : Stored, r.Leads table ∧ r.submission = s ∧ row = .recovered r.toColumns 0 := by
  have hinj := Stored.eq_of_place htimes
  have hleads : ∀ r, r ∈ distinctOn (fun r => r.submission) Stored.place table ↔ r.Leads table := by
    intro r
    rw [mem_distinctOn_iff hinj]
    refine and_congr_right (fun hr => forall₃_congr (fun r' hr' hs => ?_))
    rw [Stored.place_le_iff hs]
    constructor
    · rintro (hlt | ⟨heq, hle⟩)
      · exact .inr (.inl hlt)
      · rcases hle.lt_or_eq with hlt | hts
        · exact .inr (.inr ⟨heq, hlt⟩)
        · exact .inl (hinj r' hr' r hr (by unfold Stored.place; rw [hs, heq, hts]))
    · rintro (rfl | hlt | ⟨heq, hlt⟩)
      · exact .inr ⟨rfl, le_rfl⟩
      · exact .inl hlt
      · exact .inr ⟨heq, hlt.le⟩
  have hnodup : ((distinctOn (fun r => r.submission) Stored.place table).map
      (fun r => r.submission)).Nodup := nodup_firstOfEach _ _
  rw [loadBest, Dict.get?_foldl_set_empty_iff hnodup]
  exact exists_congr (fun r => and_congr (hleads r) (and_congr_right (fun _ => eq_comm)))

/-- A row of one submission changes nothing for another. -/
theorem get?_loadBest_append {table : List Stored} {r : Stored}
    (htimes : (table ++ [r]).Pairwise (fun r r' => r.ts < r'.ts)) {s : String}
    (hs : r.submission ≠ s) : (loadBest (table ++ [r])).get? s = (loadBest table).get? s := by
  refine Option.ext (fun row => ?_)
  rw [get?_loadBest_iff htimes, get?_loadBest_iff (List.pairwise_append.mp htimes).1]
  refine exists_congr (fun q => ?_)
  rw [← and_assoc, ← and_assoc]
  refine and_congr_left (fun _ => and_congr_left (fun hq => ?_))
  subst hq
  have hne : q ≠ r := fun heq => hs (heq ▸ rfl)
  unfold Stored.Leads
  rw [List.mem_append, List.mem_singleton, or_iff_left hne, List.forall_mem_append,
    List.forall_mem_singleton]
  exact and_congr_right (fun _ => and_iff_left (fun heq => absurd heq hs))

/-! ## The ingester

Its tasks share the runs and the rows, and what one of them does between two
awaits is one turn. -/

/-- `RUNS`, `BEST` and the table `runs`. -/
structure Ingester where
  runs : LiveRuns
  best : Dict String Row
  table : List Stored

/-- It starts with no run, and with a table that has no row. -/
def Ingester.new : Ingester := ⟨.empty, .empty, []⟩

/-- A round of `publisher`, with the time at which each run is looked at. -/
def Ingester.publish (cfg : Settings) (bucketUs : Bucket → ℚ) (p : Ingester)
    (clock : String → ℚ) : Ingester where
  runs := p.runs.mapValues (fun run l => (l.snapshot cfg bucketUs (clock run)).1)
  best := p.runs.entries.foldl (fun best e =>
    best.set e.2.agg.submission (.live (e.2.snapshot cfg bucketUs (clock e.1)).2)) p.best
  table := p.table

/-- `persist_listener`, for the end of a run; the rows of the table are
inserted one after the other. -/
def Ingester.persist (cfg : Settings) (bucketUs : Bucket → ℚ) (p : Ingester) (run : String)
    (now ts : ℚ) : Option Ingester :=
  match p.runs.get? run with
  | none => some p
  | some l =>
    if ∀ r ∈ p.table, r.ts < ts then
      let snap := l.snapshot cfg bucketUs now
      some { p with runs := p.runs.set run snap.1, table := p.table ++ [snap.2.persist ts] }
    else none

/-- `main`, in a process that starts. -/
def Ingester.restart (p : Ingester) : Ingester := ⟨.empty, loadBest p.table, p.table⟩

/-- **What happens to it.** -/
inductive Turn where
  | handle (m : Message)
  | publish (clock : String → ℚ)
  | persist (run : String) (now ts : ℚ)
  | restart

/-- A turn. -/
def Ingester.step (cfg : Settings) (bucketUs : Bucket → ℚ) (p : Ingester) : Turn → Option Ingester
  | .handle m => (p.runs.step (.handle m)).map (fun runs => { p with runs := runs })
  | .publish clock => some (p.publish cfg bucketUs clock)
  | .persist run now ts => p.persist cfg bucketUs run now ts
  | .restart => some p.restart

/-- Whether a message says something of a run. -/
def Message.Concerns (run : String) : Message → Prop
  | .control m => m.cmd = "start" ∧ m.runId = run
  | .sample s => s.runId = run

instance (run : String) : ∀ m : Message, Decidable (m.Concerns run)
  | .control _ => inferInstanceAs (Decidable (_ ∧ _))
  | .sample _ => inferInstanceAs (Decidable (_ = _))

/-- **Runs complete**: a run is persisted once, when all that is said of it has
been handled. -/
def Ingester.Completes (p : Ingester) : Turn → Prop
  | .handle m => ∀ r ∈ p.table, ¬ m.Concerns r.runId
  | .persist run _ _ => ∀ r ∈ p.table, r.runId ≠ run
  | .publish _ | .restart => True

/-- The run of a submission that was started last. -/
def Ingester.lastOf (p : Ingester) (s : String) : Option (String × Live) :=
  (p.runs.entries.filter (fun e => e.2.agg.submission = s)).getLast?

variable {cfg : Settings} {bucketUs : Bucket → ℚ}

/-- What the publisher shows of a submission. -/
theorem Ingester.get?_publish (p : Ingester) (clock : String → ℚ) (s : String) :
    (p.publish cfg bucketUs clock).best.get? s = (p.lastOf s).elim (p.best.get? s)
      (fun e => some (.live (e.2.snapshot cfg bucketUs (clock e.1)).2)) :=
  Dict.get?_foldl_set (fun e : String × Live => e.2.agg.submission) _ p.best p.runs.entries s

/-- It is one of the runs, and the submission's, -/
theorem Ingester.mem_of_lastOf {p : Ingester} {s : String} {e : String × Live}
    (h : p.lastOf s = some e) : p.runs.get? e.1 = some e.2 ∧ e.2.agg.submission = s := by
  obtain ⟨hmem, hs⟩ := List.mem_filter.mp (List.mem_of_getLast? h)
  exact ⟨Dict.get?_eq_some_iff.mpr hmem, by simpa using hs⟩

/-- and there is one where the submission has a run. -/
theorem Ingester.exists_lastOf {p : Ingester} {run : String} {l : Live}
    (h : p.runs.get? run = some l) : ∃ e, p.lastOf l.agg.submission = some e := by
  have hmem : (run, l) ∈ p.runs.entries.filter (fun e => e.2.agg.submission = l.agg.submission) :=
    List.mem_filter.mpr ⟨Dict.get?_eq_some_iff.mp h, by simp⟩
  exact ⟨_, List.getLast?_eq_some_getLast (List.ne_nil_of_mem hmem)⟩

/-! ## What holds of it

The table has one row for a run at most, and as nothing is counted of a run
after that the row is still what the run would give. -/

/-- **A row was taken of a run** as it is: nothing was counted since. -/
def Live.Gave (cfg : Settings) (bucketUs : Bucket → ℚ) (l : Live) (r : Stored) : Prop :=
  ∃ (l' : Live) (now : ℚ), l'.agg = l.agg ∧ r = (l'.snapshot cfg bucketUs now).2.persist r.ts

/-- The row is of the same submission. -/
theorem Live.Gave.submission {l : Live} {r : Stored} (h : l.Gave cfg bucketUs r) :
    r.submission = l.agg.submission := by
  obtain ⟨l', now, hl', hr⟩ := h
  rw [hr, ← hl', ← l'.agg_tps now]
  rfl

/-- But for the score and the peak, the columns of a snapshot are the
aggregate's. -/
theorem Live.columns_eq {l l' : Live} (h : l'.agg = l.agg) {now now' : ℚ}
    (hscore : (l'.snapshot cfg bucketUs now').2.score = (l.snapshot cfg bucketUs now).2.score)
    (hpeak : (l'.snapshot cfg bucketUs now').2.peakTps = (l.snapshot cfg bucketUs now).2.peakTps) :
    (l'.snapshot cfg bucketUs now').2.columns = (l.snapshot cfg bucketUs now).2.columns := by
  unfold Snapshot.columns
  rw [hscore, hpeak]
  unfold Live.snapshot
  simp only [Live.agg_tps, h]

/-- What holds of the ingester. -/
structure Ingester.WF (cfg : Settings) (bucketUs : Bucket → ℚ) (p : Ingester) : Prop where
  runId : ∀ run l, p.runs.get? run = some l → l.agg.runId = run
  times : p.table.Pairwise (fun r r' => r.ts < r'.ts)
  once : (p.table.map (fun r => r.runId)).Nodup
  /-- Rows of its runs were taken of them. -/
  gave : ∀ r ∈ p.table, ∀ l, p.runs.get? r.runId = some l → l.Gave cfg bucketUs r
  /-- What it shows as a run is one of its runs. -/
  live : ∀ s snap, p.best.get? s = some (.live snap) → ∃ l, p.runs.get? snap.runId = some l
  /-- Where it has shown no run and persisted none, it shows what there was to
  recover. -/
  recovered : ∀ s, (∀ r ∈ p.table, r.submission = s → p.runs.get? r.runId = none) →
    (∀ snap, p.best.get? s ≠ some (.live snap)) → p.best.get? s = (loadBest p.table).get? s

/-- It holds at the start. -/
theorem Ingester.WF.new : Ingester.WF cfg bucketUs .new where
  runId := fun run l hl => by cases hl
  times := List.Pairwise.nil
  once := List.nodup_nil
  gave := List.forall_mem_nil _
  live := fun s snap h => by cases h
  recovered := fun s _ _ => rfl

/-- A message writes to the run that it concerns, if to any. -/
theorem LiveRuns.handle_cases {runs runs' : LiveRuns} {m : Message}
    (h : runs.step (.handle m) = some runs') :
    runs' = runs ∨ ∃ run l, m.Concerns run ∧ runs' = runs.set run l
      ∧ ((∀ l, runs.get? run = some l → l.agg.runId = run) → l.agg.runId = run) := by
  cases m with
  | control m =>
    cases h
    unfold LiveRuns.control
    by_cases hcmd : m.cmd = "start"
    · rw [if_pos hcmd]
      exact .inr ⟨m.runId, _, ⟨hcmd, rfl⟩, rfl, fun _ => rfl⟩
    · rw [if_neg hcmd]
      exact .inl rfl
  | sample s =>
    cases h
    refine .inr ⟨s.runId, _, rfl, rfl, fun hold => ?_⟩
    show (runs.of s.runId).agg.runId = s.runId
    unfold LiveRuns.of
    cases hl : runs.get? s.runId with
    | none => rfl
    | some l => exact hold l hl

/-- A message keeps it, since nothing is said of a run that is persisted, -/
theorem Ingester.WF.handle {p : Ingester} {m : Message} {runs : LiveRuns}
    (h : p.WF cfg bucketUs) (hcompletes : p.Completes (.handle m))
    (hruns : p.runs.step (.handle m) = some runs) :
    Ingester.WF cfg bucketUs { p with runs := runs } := by
  rcases LiveRuns.handle_cases hruns with rfl | ⟨run, l, hconcerns, rfl, hrunId⟩
  · exact h
  · have hne : ∀ r ∈ p.table, r.runId ≠ run := fun r hr heq =>
      hcompletes r hr (heq ▸ hconcerns)
    refine ⟨fun run' l' hl' => ?_, h.times, h.once, fun r hr l' hl' => ?_, fun s snap hsnap => ?_,
      fun s hnone => h.recovered s (fun r hr hs => ?_)⟩
    · rw [Dict.get?_set] at hl'
      split_ifs at hl' with hrun
      · cases hl'
        rw [hrun]
        exact hrunId (h.runId run)
      · exact h.runId run' l' hl'
    · rw [Dict.get?_set, if_neg (hne r hr)] at hl'
      exact h.gave r hr l' hl'
    · rw [Dict.get?_set]
      split_ifs
      · exact ⟨l, rfl⟩
      · exact h.live s snap hsnap
    · have hnone := hnone r hr hs
      rwa [Dict.get?_set, if_neg (hne r hr)] at hnone

/-- a round of the publisher keeps it, -/
theorem Ingester.WF.publish {p : Ingester} (h : p.WF cfg bucketUs) (clock : String → ℚ) :
    (p.publish cfg bucketUs clock).WF cfg bucketUs := by
  have hget : ∀ run, (p.publish cfg bucketUs clock).runs.get? run
      = (p.runs.get? run).map (fun l => (l.snapshot cfg bucketUs (clock run)).1) :=
    Dict.get?_mapValues p.runs _
  have hagg : ∀ (l : Live) now, (l.snapshot cfg bucketUs now).1.agg = l.agg :=
    fun l now => l.agg_tps now
  refine ⟨fun run l hl => ?_, h.times, h.once, fun r hr l hl => ?_, fun s snap hsnap => ?_,
    fun s hnone hlive => ?_⟩
  · rw [hget] at hl
    obtain ⟨l', hl', rfl⟩ := Option.map_eq_some_iff.mp hl
    rw [hagg]
    exact h.runId run l' hl'
  · rw [hget] at hl
    obtain ⟨l', hl', rfl⟩ := Option.map_eq_some_iff.mp hl
    obtain ⟨l₀, now, hl₀, hr⟩ := h.gave r hr l' hl'
    exact ⟨l₀, now, hl₀.trans (hagg l' _).symm, hr⟩
  · rw [hget]
    rw [Ingester.get?_publish] at hsnap
    suffices hrun : ∃ l, p.runs.get? snap.runId = some l by
      obtain ⟨l, hl⟩ := hrun
      exact ⟨_, by rw [hl]; rfl⟩
    cases hlast : p.lastOf s with
    | none =>
      rw [hlast] at hsnap
      exact h.live s snap hsnap
    | some e =>
      rw [hlast] at hsnap
      cases hsnap
      obtain ⟨hget', -⟩ := Ingester.mem_of_lastOf hlast
      refine ⟨e.2, ?_⟩
      show p.runs.get? (e.2.tps (clock e.1)).1.agg.runId = some e.2
      rw [Live.agg_tps, h.runId e.1 e.2 hget']
      exact hget'
  · rw [Ingester.get?_publish] at hlive ⊢
    cases hlast : p.lastOf s with
    | some e =>
      rw [hlast] at hlive
      exact absurd rfl (hlive _)
    | none =>
      rw [hlast] at hlive
      refine h.recovered s (fun r hr hs => ?_) hlive
      have hnone := hnone r hr hs
      rw [hget] at hnone
      exact Option.map_eq_none_iff.mp hnone

/-- the end of a run does, since none is persisted twice, -/
theorem Ingester.WF.persist {p p' : Ingester} {run : String} {now ts : ℚ} (h : p.WF cfg bucketUs)
    (hcompletes : p.Completes (.persist run now ts))
    (hstep : p.persist cfg bucketUs run now ts = some p') : p'.WF cfg bucketUs := by
  unfold Ingester.persist at hstep
  cases hl : p.runs.get? run with
  | none =>
    rw [hl] at hstep
    cases hstep
    exact h
  | some l =>
    rw [hl] at hstep
    dsimp only at hstep
    split_ifs at hstep with hts
    cases hstep
    have hne : ∀ r ∈ p.table, r.runId ≠ run := hcompletes
    have hagg : (l.snapshot cfg bucketUs now).1.agg = l.agg := l.agg_tps now
    have hrow : ((l.snapshot cfg bucketUs now).2.persist ts).runId = run := by
      show (l.tps now).1.agg.runId = run
      rw [Live.agg_tps]
      exact h.runId run l hl
    have htimes : (p.table ++ [(l.snapshot cfg bucketUs now).2.persist ts]).Pairwise
        (fun r r' => r.ts < r'.ts) :=
      List.pairwise_append.mpr ⟨h.times, List.pairwise_singleton _ _, fun r hr r' hr' => by
        rw [List.mem_singleton.mp hr']
        exact hts r hr⟩
    refine ⟨fun run' l' hl' => ?_, htimes, ?_, fun r hr l' hl' => ?_, fun s snap hsnap => ?_,
      fun s hnone hlive => ?_⟩
    · rw [Dict.get?_set] at hl'
      split_ifs at hl' with hrun
      · cases hl'
        rw [hrun, hagg]
        exact h.runId run l hl
      · exact h.runId run' l' hl'
    · rw [List.map_append, List.nodup_append]
      refine ⟨h.once, List.nodup_singleton _, fun a ha b hb => ?_⟩
      obtain ⟨r, hr, rfl⟩ := List.mem_map.mp ha
      rw [List.mem_singleton.mp hb]
      exact fun heq => hne r hr (heq.trans hrow)
    · -- The new row was taken of the run as it is, and no other is of it.
      rcases List.mem_append.mp hr with hr | hr
      · rw [Dict.get?_set, if_neg (hne r hr)] at hl'
        exact h.gave r hr l' hl'
      · rw [List.mem_singleton.mp hr] at hl' ⊢
        rw [Dict.get?_set, if_pos hrow] at hl'
        cases hl'
        exact ⟨l, now, hagg.symm, rfl⟩
    · rw [Dict.get?_set]
      split_ifs
      · exact ⟨_, rfl⟩
      · exact h.live s snap hsnap
    · obtain ⟨hold, hnew⟩ := List.forall_mem_append.mp hnone
      have hs : ((l.snapshot cfg bucketUs now).2.persist ts).submission ≠ s := fun hs => by
        have := List.forall_mem_singleton.mp hnew hs
        rw [Dict.get?_set, if_pos hrow] at this
        cases this
      rw [get?_loadBest_append htimes hs]
      refine h.recovered s (fun r hr hrs => ?_) hlive
      have hget := hold r hr hrs
      rwa [Dict.get?_set, if_neg (hne r hr)] at hget

/-- What is recovered is no snapshot. -/
theorem get?_loadBest_ne_live {table : List Stored}
    (htimes : table.Pairwise (fun r r' => r.ts < r'.ts)) (s : String) (snap : Snapshot) :
    (loadBest table).get? s ≠ some (.live snap) := by
  intro h
  obtain ⟨r, -, -, hrow⟩ := (get?_loadBest_iff htimes).mp h
  cases hrow

/-- and a restart, which leaves nothing but what was recovered. -/
theorem Ingester.WF.restart {p : Ingester} (h : p.WF cfg bucketUs) :
    p.restart.WF cfg bucketUs where
  runId := fun run l hl => by cases hl
  times := h.times
  once := h.once
  gave := fun r _ l hl => by cases hl
  live := fun s snap hsnap => absurd hsnap (get?_loadBest_ne_live h.times s snap)
  recovered := fun s _ _ => rfl

/-- **A turn keeps it.** -/
theorem Ingester.WF.step {p p' : Ingester} {turn : Turn} (h : p.WF cfg bucketUs)
    (hcompletes : p.Completes turn) (hstep : p.step cfg bucketUs turn = some p') :
    p'.WF cfg bucketUs := by
  cases turn with
  | handle m =>
    obtain ⟨runs, hruns, rfl⟩ := Option.map_eq_some_iff.mp hstep
    exact h.handle hcompletes hruns
  | publish clock =>
    cases hstep
    exact h.publish clock
  | persist run now ts => exact h.persist hcompletes hstep
  | restart =>
    cases hstep
    exact h.restart

/-- **So does everything that happens.** -/
theorem Ingester.wf_of_reaches {p : Ingester}
    (h : Reaches (Ingester.step cfg bucketUs) Ingester.Completes .new p) : p.WF cfg bucketUs :=
  h.inv (Ingester.WF cfg bucketUs) (fun _ _ _ hwf hcompletes hstep => hwf.step hcompletes hstep)
    .new

/-! ## The recovered board

Both boards have one row for a submission. They are compared submission by
submission. -/

/-- **The last run of each submission leads it**, with the score and the peak
that it is shown with. -/
def Ingester.LastLeads (cfg : Settings) (bucketUs : Bucket → ℚ) (p : Ingester)
    (clock : String → ℚ) : Prop :=
  ∀ s, ∀ e ∈ p.lastOf s, ∃ r : Stored, r.Leads p.table ∧ r.runId = e.1
    ∧ r.score = (e.2.snapshot cfg bucketUs (clock e.1)).2.score
    ∧ r.peakTps = (e.2.snapshot cfg bucketUs (clock e.1)).2.peakTps

/-- What is shown of a submission as a run is a run that is still the
submission's. -/
def Ingester.Labelled (p : Ingester) : Prop :=
  ∀ s snap, p.best.get? s = some (.live snap) → ∃ e, p.lastOf s = some e

/-- The columns of the last run are recovered if its row leads. -/
theorem Ingester.WF.columns_iff {p : Ingester} (h : p.WF cfg bucketUs) {s : String}
    {e : String × Live} (hlast : p.lastOf s = some e) (now : ℚ) :
    ((loadBest p.table).get? s).map Row.columns = some (e.2.snapshot cfg bucketUs now).2.columns
      ↔ ∃ r : Stored, r.Leads p.table ∧ r.runId = e.1
        ∧ r.score = (e.2.snapshot cfg bucketUs now).2.score
        ∧ r.peakTps = (e.2.snapshot cfg bucketUs now).2.peakTps := by
  obtain ⟨hget, hs⟩ := Ingester.mem_of_lastOf hlast
  have hrun : (e.2.snapshot cfg bucketUs now).2.runId = e.1 := by
    show (e.2.tps now).1.agg.runId = e.1
    rw [Live.agg_tps]
    exact h.runId e.1 e.2 hget
  rw [Option.map_eq_some_iff]
  constructor
  · rintro ⟨row, hrow, hcolumns⟩
    obtain ⟨r, hleads, -, rfl⟩ := (get?_loadBest_iff h.times).mp hrow
    exact ⟨r, hleads, (congrArg Columns.runId hcolumns).trans hrun,
      congrArg Columns.score hcolumns, congrArg Columns.peakTps hcolumns⟩
  · rintro ⟨r, hleads, hr, hscore, hpeak⟩
    have hgave := h.gave r hleads.1 e.2 (hr ▸ hget)
    refine ⟨_, (get?_loadBest_iff h.times).mpr ⟨r, hleads, hgave.submission.trans hs, rfl⟩, ?_⟩
    obtain ⟨l, now', hl, hrow⟩ := hgave
    have hcolumns : r.toColumns = (l.snapshot cfg bucketUs now').2.columns :=
      congrArg Stored.toColumns hrow
    rw [hcolumns] at hscore hpeak
    exact hcolumns.trans (Live.columns_eq hl hscore hpeak)

/-- A run that is shown under a name it no longer has is not recovered under
it. -/
theorem Ingester.WF.columns_ne {p : Ingester} (h : p.WF cfg bucketUs) {s : String}
    {snap : Snapshot} (hsnap : p.best.get? s = some (.live snap)) (hnone : p.lastOf s = none) :
    ((loadBest p.table).get? s).map Row.columns ≠ some snap.columns := by
  intro heq
  obtain ⟨row, hrow, hcolumns⟩ := Option.map_eq_some_iff.mp heq
  obtain ⟨r, hleads, hs, rfl⟩ := (get?_loadBest_iff h.times).mp hrow
  obtain ⟨l, hl⟩ := h.live s snap hsnap
  have hrun : r.runId = snap.runId := congrArg Columns.runId hcolumns
  -- the row was taken of the run, so it has the name that the run has
  have hname : r.submission = l.agg.submission := (h.gave r hleads.1 l (hrun ▸ hl)).submission
  obtain ⟨e, he⟩ := Ingester.exists_lastOf hl
  rw [← hname, hs, hnone] at he
  cases he

/-- A submission with no run in the process is shown as it was recovered
before. -/
theorem Ingester.WF.get?_of_none {p : Ingester} (h : p.WF cfg bucketUs) {s : String}
    (hnone : p.lastOf s = none) (hlive : ∀ snap, p.best.get? s ≠ some (.live snap)) :
    p.best.get? s = (loadBest p.table).get? s := by
  refine h.recovered s (fun r hr hs => Option.eq_none_iff_forall_ne_some.mpr fun l hl => ?_) hlive
  obtain ⟨e, he⟩ := Ingester.exists_lastOf hl
  rw [← (h.gave r hr l hl).submission, hs, hnone] at he
  cases he

/-- **A restart recovers the leaderboard where the last runs lead.** In every
history in which runs are persisted once, when all that is said of them has
been handled: what a restart recovers has the same selected columns for every
submission as what the publisher shows, if and only if the last run of each
submission leads it, with the score and the peak that it is shown with, and
none is shown under a name it no longer has. It has everything that is
persisted if and only if there is no run in the process. -/
theorem Ingester.recovered_iff {p : Ingester}
    (hreach : Reaches (Ingester.step cfg bucketUs) Ingester.Completes .new p)
    (clock : String → ℚ) :
    ((∀ s, ((p.publish cfg bucketUs clock).restart.best.get? s).map Row.columns
        = ((p.publish cfg bucketUs clock).best.get? s).map Row.columns)
      ↔ p.LastLeads cfg bucketUs clock ∧ p.Labelled)
    ∧ ((∀ s, ((p.publish cfg bucketUs clock).restart.best.get? s).map Row.persisted
        = ((p.publish cfg bucketUs clock).best.get? s).map Row.persisted)
      ↔ p.runs = .empty) := by
  have h := Ingester.wf_of_reaches hreach
  have hrestart : (p.publish cfg bucketUs clock).restart.best = loadBest p.table := rfl
  rw [hrestart]
  constructor
  · constructor
    · -- If the columns agree, it is because the rows that are recovered are
      -- those of the last runs.
      refine fun hall => ⟨fun s e he => ?_, fun s snap hsnap => ?_⟩
      · have hs := hall s
        rw [Ingester.get?_publish, he] at hs
        exact (h.columns_iff he _).mp hs
      · by_contra hnone
        have hnone : p.lastOf s = none := Option.eq_none_iff_forall_ne_some.mpr
          (fun e he => hnone ⟨e, he⟩)
        have hs := hall s
        rw [Ingester.get?_publish, hnone] at hs
        exact h.columns_ne hsnap hnone (hs.trans (congrArg (Option.map Row.columns) hsnap))
    · rintro ⟨hleads, hlabelled⟩ s
      rw [Ingester.get?_publish]
      cases hlast : p.lastOf s with
      | some e => exact (h.columns_iff hlast _).mpr (hleads s e hlast)
      | none =>
        refine congrArg (Option.map Row.columns) (h.get?_of_none hlast (fun snap hsnap => ?_)).symm
        obtain ⟨e, he⟩ := hlabelled s snap hsnap
        rw [hlast] at he
        cases he
  · constructor
    · intro hall
      by_contra hruns
      obtain ⟨e, he⟩ := List.exists_mem_of_ne_nil _ (fun hnil => hruns (Dict.ext hnil))
      obtain ⟨last, hlast⟩ := Ingester.exists_lastOf (Dict.get?_eq_some_iff.mpr he)
      have hs := hall e.2.agg.submission
      rw [Ingester.get?_publish, hlast] at hs
      obtain ⟨row, hrow, hpersisted⟩ := Option.map_eq_some_iff.mp hs
      obtain ⟨r, -, -, rfl⟩ := (get?_loadBest_iff h.times).mp hrow
      -- A recovered row has no jitter, and that of a run has one.
      cases congrArg (fun x => x.2.1) hpersisted
    · intro hruns s
      have hnone : p.lastOf s = none := by
        unfold Ingester.lastOf
        rw [hruns]
        rfl
      rw [Ingester.get?_publish, hnone]
      refine congrArg (Option.map Row.persisted) (h.get?_of_none hnone (fun snap hsnap => ?_)).symm
      obtain ⟨l, hl⟩ := h.live s snap hsnap
      rw [hruns] at hl
      cases hl

instance (p : Ingester) : ∀ turn, Decidable (p.Completes turn)
  | .handle _ | .persist _ _ _ => List.decidableBAll _ _
  | .publish _ | .restart => isTrue trivial

/-- One run, which is persisted. -/
def oneRun : List Turn :=
  [.handle (start "a" "fast"), .publish (fun _ => 0),
    .handle (.sample ⟨"a", 1, ⟨⟨"closed", 0⟩, 100000, 100000, 0, 0, 0,
      [(bucketOf (fun _ => 0) 0, 100000)]⟩⟩),
    .persist "a" 1 1]

/-- A second run of the submission follows, whose engine answers nothing. -/
def worseRun : List Turn :=
  oneRun ++ [.handle (start "b" "fast"),
    .handle (.sample ⟨"b", 2, ⟨⟨"closed", 0⟩, 10, 0, 0, 0, 0, []⟩⟩), .persist "b" 2 2]

/-- Recovered after the first run: all but what is not selected. -/
theorem Ingester.recovered_after_one : ∃ p,
    exec (Ingester.step .standard (fun b => b.val)) .new oneRun = some p
      ∧ ((∀ s, ((p.publish .standard (fun b => b.val) (fun _ => 2)).restart.best.get? s).map
            Row.columns
          = ((p.publish .standard (fun b => b.val) (fun _ => 2)).best.get? s).map Row.columns)
        ↔ p.LastLeads .standard (fun b => b.val) (fun _ => 2) ∧ p.Labelled)
      ∧ ((∀ s, ((p.publish .standard (fun b => b.val) (fun _ => 2)).restart.best.get? s).map
            Row.persisted
          = ((p.publish .standard (fun b => b.val) (fun _ => 2)).best.get? s).map Row.persisted)
        ↔ p.runs = .empty) := by
  obtain ⟨p, hp⟩ : ∃ p, exec (Ingester.step .standard (fun b => b.val)) .new oneRun = some p :=
    ⟨_, rfl⟩
  exact ⟨p, hp, Ingester.recovered_iff (.of_exec hp (by decide +kernel)) _⟩

/-- **Both runs are persisted, and the second scores less**: it is shown, and a
restart recovers the first. -/
theorem Ingester.not_recovered_after_worse : ∃ p,
    exec (Ingester.step .standard (fun b => b.val)) .new worseRun = some p
      ∧ Along (Ingester.step .standard (fun b => b.val)) Ingester.Completes .new worseRun
      ∧ (∀ run ∈ p.runs.keys, ∃ r ∈ p.table, r.runId = run)
      ∧ ((p.publish .standard (fun b => b.val) (fun _ => 3)).best.get? "fast").map
          (fun row => row.columns.runId) = some "b"
      ∧ ((p.publish .standard (fun b => b.val) (fun _ => 3)).restart.best.get? "fast").map
          (fun row => row.columns.runId) = some "a" := by
  refine ⟨_, rfl, by decide +kernel, ?_, by decide +kernel, by decide +kernel⟩
  decide +kernel

end Telemetry
