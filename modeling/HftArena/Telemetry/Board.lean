import HftArena.Lib.StableSort
import HftArena.Telemetry.Leaderboard

/-!
# The ranked board

Every half a second `publisher` takes a snapshot of each run into `BEST`, ranks
what is there by score, writes the ranked list to `arena:snapshot`, publishes
it on `arena:events`, and writes each row to the hash `arena:leaderboard`. In
between, the other tasks of telemetry go on, the orchestrator writes a status
to the same key, and telemetry may end and be started anew, with what it
recovers from the table.

What the dashboards are sent is a ranking in every run (`Board.shows_ranking`).
Its rows are of different submissions, by descending score. Each is what
telemetry had to show when it ranked them: the snapshot of the last run of the
submission that was started, or of none what it showed before. A submission
that is known is on every later board, until telemetry is started anew. The
hash has no row that was not shown; and it has the last that was shown of each
submission, also of those that a restart has not recovered, as long as
telemetry does not end just between the publication of a board and the write to
the hash.
-/

open Fleet

namespace Telemetry

/-- `sorted(BEST.values(), key=lambda s: s["score"], reverse=True)`: rows of
equal score stay in order. -/
def ranked (best : Dict String Row) : List Row :=
  sortBy (fun row => OrderDual.toDual row.columns.score) best.values

/-- `hset(KEY_LB, mapping=…)` -/
def hset (hash best : Dict String Row) : Dict String Row :=
  best.entries.foldl (fun hash e => hash.set e.1 e.2) hash

/-- What `arena:snapshot` may hold. -/
inductive Written where
  | board (rows : List Row)
  /-- A status of the orchestrator. -/
  | status

/-- What `publisher` does next. -/
inductive Publisher where
  | sleeping
  | writing (rows : List Row)
  | publishing (rows : List Row)
  /-- `KEY_LB` is next. -/
  | hashing

/-- The list that is ranked and not published. -/
def Publisher.rows : Publisher → Option (List Row)
  | .writing rows | .publishing rows => some rows
  | .sleeping | .hashing => none

/-- **Telemetry and what it writes for the dashboards.** -/
structure Board where
  ingester : Ingester
  publisher : Publisher
  /-- `arena:snapshot` -/
  key : Option Written
  /-- What was published on `arena:events`, oldest first. -/
  published : List (List Row)
  /-- `arena:leaderboard` -/
  hash : Dict String Row

/-- **What happens to it.** -/
inductive BoardEvent where
  | handle (m : Message)
  | persist (run : String) (now ts : ℚ)
  /-- The sleep is over: `BEST` is updated and ranked. -/
  | wake (clock : String → ℚ)
  | write
  | publish
  | store
  /-- The orchestrator publishes a status. -/
  | status
  | restart

namespace Board

/-- At the start nothing is shown. -/
def new : Board := ⟨.new, .sleeping, none, [], .empty⟩

/-- **A step.** -/
def step (cfg : Settings) (bucketUs : Bucket → ℚ) (b : Board) : BoardEvent → Option Board
  | .handle m => (b.ingester.step cfg bucketUs (.handle m)).map (fun p => { b with ingester := p })
  | .persist run now ts =>
    (b.ingester.step cfg bucketUs (.persist run now ts)).map (fun p => { b with ingester := p })
  | .wake clock =>
    match b.publisher with
    | .sleeping =>
      let p := b.ingester.publish cfg bucketUs clock
      let rows := ranked p.best
      -- `if not ranked: continue`
      some { b with ingester := p, publisher := if rows.isEmpty then .sleeping else .writing rows }
    | _ => none
  | .write =>
    match b.publisher with
    | .writing rows => some { b with key := some (.board rows), publisher := .publishing rows }
    | _ => none
  | .publish =>
    match b.publisher with
    | .publishing rows => some { b with published := b.published ++ [rows], publisher := .hashing }
    | _ => none
  | .store =>
    match b.publisher with
    | .hashing => some { b with hash := hset b.hash b.ingester.best, publisher := .sleeping }
    | _ => none
  | .status => some { b with key := some .status }
  | .restart => some { b with ingester := b.ingester.restart, publisher := .sleeping }

/-- **What a step can do.** -/
inductive Steps (cfg : Settings) (bucketUs : Bucket → ℚ) (b : Board) :
    BoardEvent → Board → Prop where
  | quiet (e : BoardEvent) (p : Ingester) (key : Option Written) : e ≠ .restart →
    p.best = b.ingester.best → Steps cfg bucketUs b e { b with ingester := p, key := key }
  | wake (clock : String → ℚ) (publisher : Publisher) : b.publisher = .sleeping →
    (∀ rows ∈ publisher.rows, rows = ranked (b.ingester.publish cfg bucketUs clock).best
      ∧ rows ≠ []) → publisher ≠ .hashing →
    Steps cfg bucketUs b (.wake clock)
      { b with ingester := b.ingester.publish cfg bucketUs clock, publisher := publisher }
  | write (rows : List Row) : b.publisher = .writing rows →
    Steps cfg bucketUs b .write
      { b with key := some (.board rows), publisher := .publishing rows }
  | publish (rows : List Row) : b.publisher = .publishing rows →
    Steps cfg bucketUs b .publish
      { b with published := b.published ++ [rows], publisher := .hashing }
  | store : b.publisher = .hashing →
    Steps cfg bucketUs b .store
      { b with hash := hset b.hash b.ingester.best, publisher := .sleeping }
  | restart : Steps cfg bucketUs b .restart
      { b with ingester := b.ingester.restart, publisher := .sleeping }

variable {cfg : Settings} {bucketUs : Bucket → ℚ} {b b' : Board} {e : BoardEvent}

/-- It can do nothing else. -/
theorem step_cases (h : b.step cfg bucketUs e = some b') : Steps cfg bucketUs b e b' := by
  unfold step at h
  cases e with
  | handle m =>
    obtain ⟨p, hp, rfl⟩ := Option.map_eq_some_iff.mp h
    obtain ⟨runs, -, rfl⟩ := Option.map_eq_some_iff.mp hp
    exact .quiet _ _ b.key (by simp) rfl
  | persist run now ts =>
    obtain ⟨p, hp, rfl⟩ := Option.map_eq_some_iff.mp h
    refine .quiet _ _ b.key (by simp) ?_
    unfold Ingester.step Ingester.persist at hp
    dsimp only at hp
    split at hp
    · cases hp
      rfl
    · split_ifs at hp
      cases hp
      rfl
  | wake clock =>
    dsimp only at h
    split at h
    · rename_i hsleep
      cases h
      refine .wake clock _ hsleep (fun rows hrows => ?_) ?_
      · split_ifs at hrows with hempty
        · cases hrows
        · cases hrows
          exact ⟨rfl, fun hnil => hempty (List.isEmpty_iff.mpr hnil)⟩
      · split_ifs <;> exact fun h => by cases h
    · cases h
  | write =>
    dsimp only at h
    split at h
    · rename_i rows hrows
      cases h
      exact .write rows hrows
    · cases h
  | publish =>
    dsimp only at h
    split at h
    · rename_i rows hrows
      cases h
      exact .publish rows hrows
    · cases h
  | store =>
    dsimp only at h
    split at h
    · rename_i hhash
      cases h
      exact .store hhash
    · cases h
  | status =>
    cases h
    exact .quiet _ b.ingester _ (by simp) rfl
  | restart =>
    cases h
    exact .restart

end Board

/-! ## Rankings

`BEST` has one row for a submission, under its name. -/

/-- The rows are under their submissions. -/
def Named (best : Dict String Row) : Prop :=
  ∀ s row, best.get? s = some row → row.columns.submission = s

/-- **A ranking**: some rows, of different submissions, by descending score. -/
structure IsRanking (rows : List Row) : Prop where
  nonempty : rows ≠ []
  sorted : rows.Pairwise (fun r r' => r'.columns.score ≤ r.columns.score)
  once : (rows.map (fun r => r.columns.submission)).Nodup

/-- The rows are those that are known, each under its submission. -/
theorem mem_ranked {best : Dict String Row} {row : Row} :
    row ∈ ranked best ↔ ∃ s, best.get? s = some row :=
  (perm_sortBy _ _).mem_iff.trans Dict.mem_values_iff

/-- So the submissions of the rows are the keys. -/
theorem Named.map_submission {best : Dict String Row} (h : Named best) :
    best.values.map (fun r => r.columns.submission) = best.keys := by
  unfold Dict.values Dict.keys
  rw [List.map_map]
  exact List.map_congr_left (fun e he => h e.1 e.2 (Dict.get?_eq_some_iff.mpr he))

/-- **Then what is ranked is a ranking.** -/
theorem Named.isRanking {best : Dict String Row} (h : Named best) (hne : ranked best ≠ []) :
    IsRanking (ranked best) where
  nonempty := hne
  sorted := (sortedBy_sortBy (fun row : Row => OrderDual.toDual row.columns.score) best.values).imp
    OrderDual.toDual_le_toDual.mp
  once := by
    have hperm := (perm_sortBy (fun row : Row => OrderDual.toDual row.columns.score)
      best.values).map (fun r => r.columns.submission)
    rw [h.map_submission] at hperm
    exact hperm.nodup_iff.mpr best.nodup_keys

/-- No row is on it twice. -/
theorem Named.nodup_ranked {best : Dict String Row} (h : Named best) : (ranked best).Nodup := by
  by_cases hne : ranked best = []
  · rw [hne]
    exact List.nodup_nil
  · exact (h.isRanking hne).once.of_map

/-- A list with at most one element. -/
theorem eq_toList_of_mem_iff {α : Type} {l : List α} (hl : l.Nodup) {o : Option α}
    (h : ∀ a, a ∈ l ↔ o = some a) : l = o.toList := by
  cases o with
  | none => exact List.eq_nil_iff_forall_not_mem.mpr (fun a ha => by cases (h a).mp ha)
  | some a =>
    refine List.perm_singleton.mp ((List.perm_ext_iff_of_nodup hl (List.nodup_singleton a)).mpr
      (fun a' => ?_))
    rw [h, List.mem_singleton, Option.some_inj, eq_comm]

/-- Of a submission, a ranking has the row that is known. -/
theorem Named.filter_ranked {best : Dict String Row} (h : Named best) (s : String) :
    (ranked best).filter (fun r => r.columns.submission = s) = (best.get? s).toList := by
  refine eq_toList_of_mem_iff (h.nodup_ranked.filter _) (fun row => ?_)
  rw [List.mem_filter, mem_ranked, decide_eq_true_eq]
  constructor
  · rintro ⟨⟨s', hs'⟩, rfl⟩
    rwa [h s' row hs']
  · exact fun hrow => ⟨⟨s, hrow⟩, h s row hrow⟩

/-- The rows that are written take the place of those that were there. -/
theorem get?_hset (hash best : Dict String Row) (s : String) :
    (hset hash best).get? s = (best.get? s).or (hash.get? s) := by
  have hfilter : best.entries.filter (fun e => e.1 = s)
      = ((best.get? s).map (fun row => (s, row))).toList := by
    refine eq_toList_of_mem_iff (best.nodup.of_map.filter _) (fun e => ?_)
    rw [List.mem_filter, decide_eq_true_eq, Option.map_eq_some_iff]
    constructor
    · rintro ⟨hmem, rfl⟩
      exact ⟨e.2, Dict.get?_eq_some_iff.mpr hmem, rfl⟩
    · rintro ⟨row, hrow, rfl⟩
      exact ⟨Dict.get?_eq_some_iff.mp hrow, rfl⟩
  unfold hset
  rw [Dict.get?_foldl_set, hfilter]
  cases best.get? s <;> rfl

/-! ## Runs

A board is ranked at one moment and published at another, and the hash is
written at a third. The invariant says of each what it is of the moments
before. -/

/-- **What telemetry has to show at a moment**: of each submission the snapshot
of the last of its runs, or what it shows already. -/
def Ingester.Shows (cfg : Settings) (bucketUs : Bucket → ℚ) (p : Ingester) (clock : String → ℚ)
    (rows : List Row) : Prop :=
  ∀ row, row ∈ rows ↔ ∃ s, (p.lastOf s).elim (p.best.get? s)
    (fun e => some (.live (e.2.snapshot cfg bucketUs (clock e.1)).2)) = some row

section

variable {cfg : Settings} {bucketUs : Bucket → ℚ}

/-- That is what it ranks. -/
theorem Ingester.shows_publish (p : Ingester) (clock : String → ℚ) :
    p.Shows cfg bucketUs clock (ranked (p.publish cfg bucketUs clock).best) := by
  intro row
  rw [mem_ranked]
  exact exists_congr (fun s => by rw [Ingester.get?_publish])

/-- A round of the publisher puts rows under their submissions, -/
theorem Named.publish {p : Ingester} (h : Named p.best) (clock : String → ℚ) :
    Named (p.publish cfg bucketUs clock).best := by
  intro s row hrow
  rw [Ingester.get?_publish] at hrow
  cases hlast : p.lastOf s with
  | none =>
    rw [hlast] at hrow
    exact h s row hrow
  | some e =>
    rw [hlast] at hrow
    obtain rfl := Option.some.inj hrow
    rw [← (Ingester.mem_of_lastOf hlast).2, ← e.2.agg_tps (clock e.1)]
    rfl

/-- and so does what is recovered. -/
theorem Named.loadBest (table : List Stored) : Named (Telemetry.loadBest table) := by
  intro s row hrow
  unfold Telemetry.loadBest at hrow
  rw [Dict.get?_foldl_set] at hrow
  cases hlast : ((distinctOn (fun r => r.submission) Stored.place table).filter
      (fun r => r.submission = s)).getLast? with
  | none =>
    rw [hlast] at hrow
    cases hrow
  | some r =>
    rw [hlast] at hrow
    obtain rfl := Option.some.inj hrow
    have hmem := (List.mem_filter.mp (List.mem_of_getLast? hlast)).2
    exact of_decide_eq_true hmem

end

namespace Board

/-- The last row of a submission on some boards. -/
def lastShown (boards : List (List Row)) (s : String) : Option Row :=
  (boards.flatten.filter (fun r => r.columns.submission = s)).getLast?

/-- Telemetry does not end between the publication of a board and the write to
the hash. -/
def Stores (b : Board) (e : BoardEvent) : Prop := e = .restart → b.publisher ≠ .hashing

variable {cfg : Settings} {bucketUs : Bucket → ℚ} {b b' : Board} {e : BoardEvent}
  {es : List BoardEvent}

/-- The list was ranked at a moment of the run. -/
def Origin (cfg : Settings) (bucketUs : Bucket → ℚ) (es : List BoardEvent) (rows : List Row) :
    Prop :=
  ∃ as a clock, as <+: es ∧ exec (step cfg bucketUs) new as = some a
    ∧ a.ingester.Shows cfg bucketUs clock rows

/-- The moment stays one of the run. -/
theorem Origin.concat {rows : List Row} (h : Origin cfg bucketUs es rows) (e : BoardEvent) :
    Origin cfg bucketUs (es ++ [e]) rows := by
  obtain ⟨as, a, clock, hpre, hexec, hshows⟩ := h
  exact ⟨as, a, clock, hpre.trans (List.prefix_append es [e]), hexec, hshows⟩

/-- **What holds after a run.** -/
structure Kept (cfg : Settings) (bucketUs : Bucket → ℚ) (es : List BoardEvent) (b : Board) :
    Prop where
  reached : exec (step cfg bucketUs) new es = some b
  named : Named b.ingester.best
  pending : ∀ rows ∈ b.publisher.rows,
    rows = ranked b.ingester.best ∧ rows ≠ [] ∧ Origin cfg bucketUs es rows
  published : ∀ rows ∈ b.published, IsRanking rows ∧ Origin cfg bucketUs es rows
  hashing : b.publisher = .hashing → ranked b.ingester.best ∈ b.published
  hash : ∀ s row, b.hash.get? s = some row →
    row.columns.submission = s ∧ ∃ rows ∈ b.published, row ∈ rows

/-- It holds at the start. -/
theorem kept_new : Kept cfg bucketUs [] new where
  reached := rfl
  named _ _ h := by cases h
  pending _ h := by cases h
  published _ h := absurd h List.not_mem_nil
  hashing h := by cases h
  hash _ _ h := by cases h

/-- **A step keeps it.** -/
theorem Kept.step (h : Kept cfg bucketUs es b) (hstep : b.step cfg bucketUs e = some b') :
    Kept cfg bucketUs (es ++ [e]) b' := by
  have hexec := exec_concat h.reached hstep
  have hpublished : ∀ rows ∈ b.published,
      IsRanking rows ∧ Origin cfg bucketUs (es ++ [e]) rows :=
    fun rows hrows => (h.published rows hrows).imp_right (·.concat e)
  cases step_cases hstep with
  | quiet _ p key hne hbest =>
    refine ⟨hexec, ?_, fun rows hrows => ?_, hpublished, ?_, h.hash⟩
    · show Named p.best
      rw [hbest]
      exact h.named
    · show rows = ranked p.best ∧ _
      rw [hbest]
      exact (h.pending rows hrows).imp_right (·.imp_right (·.concat _))
    · show b.publisher = .hashing → ranked p.best ∈ b.published
      rw [hbest]
      exact h.hashing
  | wake clock publisher hsleep hrows hnot =>
    refine ⟨hexec, h.named.publish clock, fun rows hmem => ?_, hpublished,
      fun hhash => absurd hhash hnot, h.hash⟩
    obtain ⟨hranked, hne⟩ := hrows rows hmem
    have hshows : b.ingester.Shows cfg bucketUs clock rows := by
      rw [hranked]
      exact b.ingester.shows_publish clock
    exact ⟨hranked, hne, es, b, clock, List.prefix_append es _, h.reached, hshows⟩
  | write rows hrows =>
    refine ⟨hexec, h.named, fun rows' hmem => ?_, hpublished, fun hhash => (by cases hhash), h.hash⟩
    obtain rfl : rows = rows' := Option.some.inj hmem
    have hpending := h.pending rows (by rw [hrows]; rfl)
    exact hpending.imp_right (·.imp_right (·.concat _))
  | publish rows hrows =>
    obtain ⟨hranked, hne, horigin⟩ := h.pending rows (by rw [hrows]; rfl)
    refine ⟨hexec, h.named, fun rows' hmem => (by cases hmem), fun rows' hmem => ?_,
      fun _ => ?_, fun s row hrow => ?_⟩
    · -- The new board was pending, and so it was ranked in this run.
      rcases List.mem_append.mp hmem with hmem | hmem
      · exact hpublished rows' hmem
      · obtain rfl := List.mem_singleton.mp hmem
        refine ⟨?_, horigin.concat _⟩
        rw [hranked] at hne ⊢
        exact h.named.isRanking hne
    · show ranked b.ingester.best ∈ b.published ++ [rows]
      rw [hranked]
      exact List.mem_append_right _ (List.mem_singleton_self _)
    · obtain ⟨hname, rows', hmem, hin⟩ := h.hash s row hrow
      exact ⟨hname, rows', List.mem_append_left _ hmem, hin⟩
  | store hhash =>
    refine ⟨hexec, h.named, fun rows hmem => (by cases hmem), hpublished,
      fun hne => (by cases hne), fun s row hrow => ?_⟩
    dsimp only at hrow ⊢
    rw [get?_hset, Option.or_eq_some_iff] at hrow
    -- What is written was published right before.
    rcases hrow with hbest | ⟨-, hold⟩
    · exact ⟨h.named s row hbest, _, h.hashing hhash, mem_ranked.mpr ⟨s, hbest⟩⟩
    · exact h.hash s row hold
  | restart =>
    exact ⟨hexec, Named.loadBest _, fun rows hmem => (by cases hmem), hpublished,
      fun hne => (by cases hne), h.hash⟩

/-- What is published and not yet in the hash. -/
def unstored (b : Board) : List (List Row) :=
  match b.publisher with
  | .hashing => [ranked b.ingester.best]
  | _ => []

/-- **The hash has what the boards before have shown.** -/
def Current (b : Board) : Prop :=
  ∃ boards, b.published = boards ++ b.unstored ∧ ∀ s, b.hash.get? s = lastShown boards s

/-- A board more: of the submissions on it, it has the last row. -/
theorem lastShown_concat (boards : List (List Row)) {best : Dict String Row} (h : Named best)
    (s : String) :
    lastShown (boards ++ [ranked best]) s = (best.get? s).or (lastShown boards s) := by
  unfold lastShown
  rw [List.flatten_append, List.flatten_singleton, List.filter_append, h.filter_ranked,
    List.getLast?_append]
  cases best.get? s <;> rfl

/-- There is nothing of the kind but right before the write. -/
theorem unstored_of_ne (h : b.publisher ≠ .hashing) : b.unstored = [] := by
  unfold unstored
  split
  · exact absurd ‹_› h
  · rfl

/-- A step keeps it, if telemetry does not end in between. -/
theorem Current.step (h : Current b) (hkept : Kept cfg bucketUs es b) (hstores : b.Stores e)
    (hstep : b.step cfg bucketUs e = some b') : Current b' := by
  obtain ⟨boards, hpublished, hhash⟩ := h
  cases step_cases hstep with
  | quiet _ p key hne hbest =>
    refine ⟨boards, ?_, hhash⟩
    unfold unstored at hpublished ⊢
    dsimp only
    rwa [hbest]
  | wake clock publisher hsleep hrows hnot =>
    rw [unstored_of_ne (by rw [hsleep]; exact fun h => by cases h)] at hpublished
    exact ⟨boards, by rw [unstored_of_ne hnot]; exact hpublished, hhash⟩
  | write rows hrows =>
    rw [unstored_of_ne (by rw [hrows]; exact fun h => by cases h)] at hpublished
    exact ⟨boards, hpublished, hhash⟩
  | publish rows hrows =>
    have hranked := (hkept.pending rows (by rw [hrows]; rfl)).1
    rw [unstored_of_ne (by rw [hrows]; exact fun h => by cases h), List.append_nil] at hpublished
    refine ⟨boards, ?_, hhash⟩
    show b.published ++ [rows] = boards ++ [ranked b.ingester.best]
    rw [hpublished, hranked]
  | store hhashing =>
    refine ⟨boards ++ [ranked b.ingester.best], ?_, fun s => ?_⟩
    · show b.published = (boards ++ [ranked b.ingester.best]) ++ []
      rw [List.append_nil, hpublished, unstored, hhashing]
    · dsimp only
      rw [get?_hset, lastShown_concat boards hkept.named, hhash]
  | restart =>
    rw [unstored_of_ne (hstores rfl)] at hpublished
    exact ⟨boards, hpublished, hhash⟩

/-- Along a run without a restart nothing that is known is missing. -/
structure Grown (b t : Board) : Prop where
  length : b.published.length ≤ t.published.length
  known : ∀ s, (b.ingester.best.get? s).isSome → (t.ingester.best.get? s).isSome
  shown : ∀ rows ∈ t.published.drop b.published.length, ∀ s, (b.ingester.best.get? s).isSome →
    ∃ row ∈ rows, row.columns.submission = s

/-- Nothing is missing at once, -/
theorem Grown.refl (b : Board) : Grown b b where
  length := le_refl _
  known _ h := h
  shown rows hrows := by
    rw [List.drop_length] at hrows
    exact absurd hrows List.not_mem_nil

/-- nor after a step that is no restart. -/
theorem Grown.step {t t' : Board} (h : Grown b t) (hkept : Kept cfg bucketUs es t)
    (hne : e ≠ .restart) (hstep : t.step cfg bucketUs e = some t') : Grown b t' := by
  cases step_cases hstep with
  | quiet _ p key _ hbest =>
    refine ⟨h.length, fun s hs => ?_, h.shown⟩
    show (p.best.get? s).isSome
    rw [hbest]
    exact h.known s hs
  | wake clock publisher hsleep hrows hnot =>
    refine ⟨h.length, fun s hs => ?_, h.shown⟩
    dsimp only
    rw [Ingester.get?_publish]
    -- A round adds rows and takes none away.
    cases t.ingester.lastOf s with
    | none => exact h.known s hs
    | some l => rfl
  | write rows hrows => exact ⟨h.length, h.known, h.shown⟩
  | publish rows hrows =>
    have hranked := (hkept.pending rows (by rw [hrows]; rfl)).1
    refine ⟨?_, h.known, fun rows' hmem s hs => ?_⟩
    · show _ ≤ (t.published ++ [rows]).length
      rw [List.length_append]
      exact h.length.trans (Nat.le_add_right _ _)
    · dsimp only at hmem
      rw [List.drop_append_of_le_length h.length] at hmem
      rcases List.mem_append.mp hmem with hmem | hmem
      · exact h.shown rows' hmem s hs
      · obtain rfl := List.mem_singleton.mp hmem
        obtain ⟨row, hrow⟩ := Option.isSome_iff_exists.mp (h.known s hs)
        refine ⟨row, ?_, hkept.named s row hrow⟩
        rw [hranked]
        exact mem_ranked.mpr ⟨s, hrow⟩
  | store hhash => exact ⟨h.length, h.known, h.shown⟩
  | restart => exact absurd rfl hne

/-- **So it holds after every run.** -/
theorem kept_of_exec (hexec : exec (step cfg bucketUs) new es = some b) :
    Kept cfg bucketUs es b :=
  inv_of_exec_past (Kept cfg bucketUs) [] hexec (fun _ _ _ _ _ h hstep => h.step hstep) kept_new

/-- **What the dashboards are sent is a ranking, in every run**, of what
telemetry had to show when it was made. The hash has nothing else, and it has
the last that was shown of each submission, if telemetry does not end between
the two writes. And what is known is on every board, until telemetry is started
anew. -/
theorem shows_ranking (hexec : exec (step cfg bucketUs) new es = some b) :
    (∀ rows ∈ b.published, IsRanking rows ∧ Origin cfg bucketUs es rows)
    ∧ (∀ s row, b.hash.get? s = some row →
        row.columns.submission = s ∧ ∃ rows ∈ b.published, row ∈ rows)
    ∧ (Along (step cfg bucketUs) Stores new es → b.publisher ≠ .hashing →
        ∀ s, b.hash.get? s = lastShown b.published s)
    ∧ ∀ bs t, exec (step cfg bucketUs) b bs = some t → .restart ∉ bs →
        ∀ rows ∈ t.published.drop b.published.length, ∀ s, (b.ingester.best.get? s).isSome →
          ∃ row ∈ rows, row.columns.submission = s := by
  have hkept := kept_of_exec hexec
  refine ⟨hkept.published, hkept.hash, fun halong hne => ?_, fun bs t hrun hnot => ?_⟩
  · have hcurrent : (∃ es, Kept cfg bucketUs es b) ∧ Current b := by
      refine (Reaches.of_exec hexec halong).inv (fun b => (∃ es, Kept cfg bucketUs es b)
        ∧ Current b) (fun t a u hinv hgood hnext => ?_) ⟨⟨[], kept_new⟩, [], rfl, fun _ => rfl⟩
      obtain ⟨⟨as, hkept⟩, hcurrent⟩ := hinv
      exact ⟨⟨_, hkept.step hnext⟩, hcurrent.step hkept hgood hnext⟩
    obtain ⟨-, boards, hpublished, hhash⟩ := hcurrent
    rw [unstored_of_ne hne, List.append_nil] at hpublished
    rw [hpublished]
    exact hhash
  · have hgrown : Kept cfg bucketUs (es ++ bs) t ∧ Grown b t :=
      inv_of_exec_past (fun as t => Kept cfg bucketUs as t ∧ Grown b t) es hrun
        (fun as u a u' ha hinv hnext => ⟨hinv.1.step hnext,
          hinv.2.step hinv.1 (fun h => hnot (h ▸ ha)) hnext⟩) ⟨hkept, .refl b⟩
    exact hgrown.2.shown

/-- It never ends so where it never ends. -/
theorem stores_of_notMem (b : Board) (h : .restart ∉ es) :
    Along (step cfg bucketUs) Stores b es := by
  induction es generalizing b with
  | nil => trivial
  | cons e es ih =>
    rw [List.mem_cons, not_or] at h
    exact ⟨fun heq => absurd heq.symm h.1, fun b' _ => ih b' h.2⟩

/-- A run starts, and is shown. -/
def oneBoard : List BoardEvent :=
  [.handle (start "a" "fast"), .wake (fun _ => 0), .write, .publish, .store, .status]

/-- One row is on the board, and in the hash. -/
theorem shows_ranking_oneBoard :
    ∃ b, exec (step .standard (fun b => b.val)) new oneBoard = some b ∧ b.published.length = 1
      ∧ (∀ rows ∈ b.published, IsRanking rows)
      ∧ ∀ s, b.hash.get? s = lastShown b.published s := by
  obtain ⟨b, hb, hlength, hpublisher⟩ : ∃ b,
      exec (step .standard (fun b => b.val)) new oneBoard = some b ∧ b.published.length = 1
        ∧ b.publisher = .sleeping := ⟨_, rfl, rfl, rfl⟩
  obtain ⟨hranking, -, hhash, -⟩ := shows_ranking hb
  have hnot : BoardEvent.restart ∉ oneBoard := by simp [oneBoard]
  refine ⟨b, hb, hlength, fun rows hrows => (hranking rows hrows).1, ?_⟩
  exact hhash (stores_of_notMem new hnot) (by rw [hpublisher]; exact fun h => by cases h)

end Board

end Telemetry
