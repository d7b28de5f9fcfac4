import HftArena.Fleet.Ledger

/-!
# What is counted under a tag

A reporter transmits what was counted since it last looked under the tag that
it finds, and the tag is set at other times: of what a record holds, some may
have been counted before its tag was set. That the tag is set to zero for a
second before each rate keeps the orders of the last rate away, but not those
of that second that the reporter has not yet transmitted when the second is
over.

Next to a worker there is kept what was counted, and in which period of the tag
(`TaggedWorker`). A record that is tagged with a rate holds what was counted in
its own period as long as nothing is pending when a tag is set to a rate
(`TaggedWorker.clean_of_settled`); what is pending then is in the next record
(`TaggedWorker.smeared_of_not_settled`).

Verdicts and errors do not count here: what is measured at a rate is its orders
and its acknowledgements.
-/

open Wire

namespace Fleet

/-- Whether an order that is sent or an acknowledgement is counted. -/
def Tally.measures : Tally → Bool
  | .sent => true
  | .acked _ => true
  | _ => false

/-- The rate that a phase sets its tag to in its next step, if it does. -/
def Phase.setsRate (ph : Phase) : Option ℕ :=
  match ph.main with
  | .running (.tagRate rate :: _) => some rate
  | _ => none

/-- Whether the reporter looks at the counters in its next step: it does unless
it goes to sleep. -/
def Phase.looks (ph : Phase) : Bool :=
  match ph.reporter with
  | .testing _ => ph.stop
  | _ => true

namespace Worker

/-- The rate that the tag is set to in a step, if it is. -/
def setsRate (w : Worker) : Event → Option ℕ
  | .main => w.phases.head?.bind Phase.setsRate
  | _ => none

/-- Whether a period of the tag begins with a step: the tag is set, or a phase
begins with a tag of its own. -/
def setsTag (w : Worker) : Event → Bool
  | .begin => true
  | e => (w.setsRate e).isSome

/-- The rate of the tag. -/
def rate (w : Worker) : ℕ := (w.phases.head?.map (fun ph => ph.tag.rate)).getD 0

/-- Whether the reporter looks at the counters in a step. -/
def looks (w : Worker) : Event → Bool
  | .report => (w.phases.head?.map Phase.looks).getD false
  | _ => false

/-- **A settled step**: where the tag is set to a rate, no order and no
acknowledgement was counted since the reporter last looked. The reporter ticks
five times a second and the settle window lasts one, so this asks that nothing
happens in the last fifth of it, or that the reporter is in time. -/
def Settled (w : Worker) (e : Event) : Prop :=
  ∀ rate ∈ w.setsRate e, 0 < rate →
    ∀ last ∈ w.last, w.stats.sent = last.sent ∧ w.stats.acked = last.acked

instance (w : Worker) (e : Event) : Decidable (w.Settled e) :=
  inferInstanceAs (Decidable (∀ rate ∈ w.setsRate e, 0 < rate →
    ∀ last ∈ w.last, w.stats.sent = last.sent ∧ w.stats.acked = last.acked))

end Worker

/-- **A record that a reporter transmits**, with what it holds: the counts are
those of the steps since the reporter last looked. -/
structure Flushed where
  record : Record
  /-- The period of the tag in which it was transmitted. -/
  period : ℕ
  /-- What was counted, each with the period in which it was. -/
  counts : List (ℕ × Tally)

/-- **A clean record**: if it is tagged with a rate, the orders and the
acknowledgements in it were counted in the period of its tag. -/
def Flushed.Clean (f : Flushed) : Prop :=
  0 < f.record.tag.rate → ∀ p ∈ f.counts, p.2.measures = true → p.1 = f.period

instance (f : Flushed) : Decidable f.Clean :=
  inferInstanceAs (Decidable (_ → ∀ p ∈ f.counts, _ = true → _))

/-- The records that are tagged with a rate. -/
def tagged (rs : List Record) : List Record := rs.filter (fun r => decide (0 < r.tag.rate))

/-- They are selected record by record. -/
theorem tagged_append (rs rs' : List Record) : tagged (rs ++ rs') = tagged rs ++ tagged rs' :=
  List.filter_append rs rs'

/-- **A worker with what was counted when.** The worker takes its steps as
before; the periods and the counts are kept beside it. -/
structure TaggedWorker where
  worker : Worker
  /-- How often a tag was set. -/
  period : ℕ
  /-- What each step counted since the reporter last looked. -/
  pending : List (ℕ × Tally)
  /-- The records of the reporters. -/
  flushed : List Flushed

namespace TaggedWorker

/-- A worker whose run starts. -/
def new : TaggedWorker := ⟨.new, 0, [], []⟩

/-- **A step of a run.** -/
def step (c : Config) (s : TaggedWorker) (e : Event) : Option TaggedWorker :=
  (s.worker.step c e).map (fun w =>
    { worker := w
      period := if s.worker.setsTag e then s.period + 1 else s.period
      pending := if s.worker.looks e then [] else s.pending ++ [(s.period, s.worker.tally c e)]
      flushed :=
        if e = .report then
          s.flushed ++ (w.records.drop s.worker.records.length).map
            (fun r => ⟨r, s.period, s.pending⟩)
        else s.flushed })

/-- What the pending counts add to a column. -/
def sum (counts : List (ℕ × Tally)) (col : Column) : ℕ := (counts.map (fun p => p.2.get col)).sum

/-- A count is added to its column. -/
theorem sum_append (counts : List (ℕ × Tally)) (k : ℕ) (t : Tally) (col : Column) :
    sum (counts ++ [(k, t)]) col = sum counts col + t.get col := by
  unfold sum
  rw [List.map_append, List.sum_append, List.map_singleton, List.sum_singleton]

/-- What counts nothing adds nothing. -/
theorem sum_append_nothing (counts : List (ℕ × Tally)) (k : ℕ) (col : Column) :
    sum (counts ++ [(k, .nothing)]) col = sum counts col := by
  rw [sum_append, Tally.nothing.eq_nothing_iff.mp rfl, Nat.add_zero]

variable {c : Config} {s s' : TaggedWorker} {e : Event}

/-! ## What a step can be

A step counts something, or sets a tag, or begins a phase, or is one of the
reporter's; and of each it is said what becomes of baseline, tag and records. -/

/-- A record has the tag it is transmitted under. -/
theorem tag_of_flush {tag : Tag} {last stats : Stats} {r : Record}
    (h : (flush tag last stats).2 = some r) : r.tag = tag := by
  unfold flush at h
  dsimp only at h
  split_ifs at h
  cases h
  rfl

/-- **What a step does to what is pending.** -/
inductive Effect (s : TaggedWorker) (e : Event) : TaggedWorker → Prop where
  /-- Something is counted, or nothing. -/
  | counts (w : Worker) (t : Tally) : s.worker.setsTag e = false → w.last = s.worker.last →
    w.rate = s.worker.rate →
    (∀ last ∈ w.last, ∀ col, w.stats.get col = s.worker.stats.get col + t.get col) →
    tagged w.records = tagged s.worker.records →
    Effect s e ⟨w, s.period, s.pending ++ [(s.period, t)], s.flushed⟩
  /-- The tag is set. -/
  | tags (w : Worker) : s.worker.setsRate e = some w.rate → w.last = s.worker.last →
    w.stats = s.worker.stats → w.records = s.worker.records →
    Effect s e ⟨w, s.period + 1, s.pending ++ [(s.period, .nothing)], s.flushed⟩
  /-- A phase begins. -/
  | begins (w : Worker) : e = .begin → w.last = none → w.records = s.worker.records →
    Effect s e ⟨w, s.period + 1, s.pending ++ [(s.period, .nothing)], s.flushed⟩
  /-- The reporter reads its baselines. -/
  | looks (w : Worker) : e = .report → s.worker.last = none →
    w.last = some s.worker.stats → w.stats = s.worker.stats → w.records = s.worker.records →
    Effect s e ⟨w, s.period, [], s.flushed⟩
  /-- The reporter flushes. -/
  | flushes (w : Worker) (last : Stats) (tag : Tag) : e = .report → s.worker.last = some last →
    tag.rate = s.worker.rate → w.stats = s.worker.stats →
    (∀ last' ∈ w.last, last' = (flush tag last s.worker.stats).1) →
    w.records = s.worker.records ++ (flush tag last s.worker.stats).2.toList →
    Effect s e ⟨w, s.period, [], s.flushed
      ++ (flush tag last s.worker.stats).2.toList.map (fun r => ⟨r, s.period, s.pending⟩)⟩

/-- **Every step does one of these.** -/
theorem effect_of_step (hkept : Worker.Kept c s.worker) (hnext : s.step c e = some s') :
    Effect s e s' := by
  obtain ⟨w, hw, rfl⟩ := Option.map_eq_some_iff.mp hnext
  have hnothing : ∀ {w : Worker}, w.stats = s.worker.stats → ∀ last ∈ w.last, ∀ col,
      w.stats.get col = s.worker.stats.get col + Tally.nothing.get col := by
    intro w hstats last _ col
    rw [hstats, Tally.nothing.eq_nothing_iff.mp rfl, Nat.add_zero]
  cases Worker.steps_of_step hw with
  | tick secs => exact .counts _ .nothing rfl rfl rfl (hnothing rfl) rfl
  | probed passed hstage =>
    have hlast : s.worker.last = none := by
      unfold Worker.last
      rw [(hkept.warmup hstage).1]
      rfl
    exact .counts _ .nothing rfl rfl rfl (fun last hl => by cases hlast.symm.trans hl)
      rfl
  | warm =>
    refine .counts _ .nothing rfl rfl rfl (hnothing rfl) ?_
    -- the warmup record has no rate
    show tagged (if c.isLeader then _ else _) = _
    split_ifs
    · rw [tagged_append]
      exact List.append_nil _
    · rfl
  | begins spec todo hstage hidle => exact .begins _ rfl rfl rfl
  | main todo ph ph' phs hstage hphs hmain =>
    have hlast : Worker.last { s.worker with phases := ph' :: phs } = s.worker.last := by
      unfold Worker.last
      rw [hphs]
      exact congrArg Reporter.last (Worker.reporter_mainStep hmain).1
    have hsets : s.worker.setsRate .main = ph.setsRate := by
      rw [Worker.setsRate, hphs]
      rfl
    have hrate : s.worker.rate = ph.tag.rate := by
      rw [Worker.rate, hphs]
      rfl
    have htag : s.worker.setsTag .main = ph.setsRate.isSome := congrArg Option.isSome hsets
    rw [htag]
    cases Phase.steps_of_mainStep hmain with
    | tags rate script hrun =>
      have hset : ph.setsRate = some rate := by rw [Phase.setsRate, hrun]
      rw [hset]
      exact .tags _ (hsets.trans hset) hlast rfl rfl
    | paces interval script hrun | sleeps secs script hrun | wakes t script hrun | stops hrun
    | gathers hrun | ends hrun =>
      have hset : ph.setsRate = none := by rw [Phase.setsRate, hrun]
      rw [hset]
      exact .counts _ .nothing (htag.trans (congrArg Option.isSome hset)) hlast hrate.symm
        (hnothing rfl) rfl
  | report todo ph ph' phs rec hstage hphs hrep =>
    have hlast : s.worker.last = ph.reporter.last := Worker.last_cons hphs
    have hrate : s.worker.rate = ph.tag.rate := by
      rw [Worker.rate, hphs]
      rfl
    have hlooks : s.worker.looks .report = ph.looks := by
      rw [Worker.looks, hphs]
      rfl
    rw [hlooks, if_pos rfl, List.drop_left]
    cases Phase.steps_of_reporterStep hrep with
    | looks hcreated =>
      rw [Phase.looks, hcreated]
      simp only [Option.toList_none, List.map_nil, List.append_nil]
      show Effect s .report ⟨_, s.period, [], s.flushed⟩
      exact .looks _ rfl (by rw [hlast, hcreated]; rfl) rfl rfl rfl
    | ends last htesting hstop =>
      rw [Phase.looks, htesting, hstop]
      exact .flushes _ last ph.tag rfl (by rw [hlast, htesting]; rfl) hrate.symm rfl nofun rfl
    | sleeps last htesting hstop =>
      rw [Phase.looks, htesting, hstop, if_neg Bool.false_ne_true]
      simp only [Option.toList_none, List.map_nil, List.append_nil]
      show Effect s .report ⟨_, s.period, s.pending ++ [(s.period, .nothing)], s.flushed⟩
      refine .counts _ .nothing rfl ?_ hrate.symm (hnothing rfl) rfl
      rw [hlast, htesting]
      rfl
    | flushes last t hsleeping =>
      rw [Phase.looks, hsleeping]
      exact .flushes _ last ph.tag rfl (by rw [hlast, hsleeping]; rfl) hrate.symm rfl
        (fun last' hlast' => (Option.some_inj.mp hlast').symm) rfl
  | bot todo p i e ph b b' t hstage hph hb hbot =>
    have hrate : Worker.rate { s.worker with
        phases := s.worker.phases.set p { ph with bots := ph.bots.set i b' }
        stats := s.worker.stats.add t } = s.worker.rate :=
      congrArg (Option.getD · 0) (map_head?_set hph rfl)
    refine .counts _ _ rfl (Worker.last_of_set hph rfl) hrate (fun last _ col => ?_) rfl
    rw [Worker.tally_bot hph hb hbot]
    exact Stats.get_add _ _ _
  | finish => exact .counts _ .nothing rfl rfl rfl (hnothing rfl) rfl

/-! ## What a record holds

What was counted since the last flush is what the next one transmits, and all
of it goes under one tag. -/

/-- **What is pending is what the counters have grown by** since the reporter
looked, and a record with a rate holds what it says. -/
structure Kept (c : Config) (s : TaggedWorker) : Prop where
  worker : Worker.Kept c s.worker
  pending : ∀ last ∈ s.worker.last, ∀ col,
    s.worker.stats.get col = last.get col + sum s.pending col
  past : ∀ p ∈ s.pending, p.1 ≤ s.period
  records : tagged s.worker.records = tagged (s.flushed.map Flushed.record)
  flushed : ∀ f ∈ s.flushed, ∀ col, f.record.get col = sum f.counts col

/-- A worker whose run starts has nothing pending. -/
theorem kept_new (c : Config) : Kept c new where
  worker := Worker.kept_new c
  pending := nofun
  past := List.forall_mem_nil _
  records := rfl
  flushed := List.forall_mem_nil _

/-- What a record of a flush holds is what was pending. -/
theorem Kept.flush {last : Stats} (h : Kept c s) (hlast : s.worker.last = some last) (tag : Tag) :
    (flush tag last s.worker.stats).1 = s.worker.stats
      ∧ ∀ col, ((Fleet.flush tag last s.worker.stats).2.toList.map (·.get col)).sum
        = sum s.pending col := by
  obtain ⟨hstats, hsum⟩ := flush_spec tag (h.worker.grown last hlast)
  refine ⟨hstats, fun col => ?_⟩
  rw [hsum col, h.pending last hlast col, Nat.cast_add]
  omega

/-- What is counted now is not of a period to come. -/
theorem past_append {k : ℕ} {t : Tally} (h : ∀ p ∈ s.pending, p.1 ≤ s.period)
    (hk : s.period ≤ k) : ∀ p ∈ s.pending ++ [(s.period, t)], p.1 ≤ k := by
  refine List.forall_mem_append.mpr ⟨fun p hp => (h p hp).trans hk, fun p hp => ?_⟩
  rw [List.mem_singleton.mp hp]
  exact hk

/-- **Every step keeps it.** -/
theorem Kept.step (h : Kept c s) (hnext : s.step c e = some s') : Kept c s' := by
  have hworker : Worker.Kept c s'.worker := by
    obtain ⟨w, hw, rfl⟩ := Option.map_eq_some_iff.mp hnext
    exact (h.worker.step hw).1
  cases effect_of_step h.worker hnext with
  | counts w t htag hlast hrate hstats hrecords =>
    refine ⟨hworker, fun last hl col => ?_, past_append h.past le_rfl, hrecords.trans h.records,
      h.flushed⟩
    show w.stats.get col = last.get col + sum (s.pending ++ [(s.period, t)]) col
    rw [hstats last hl col, h.pending last (hlast ▸ hl) col, sum_append, add_assoc]
  | tags w hsets hlast hstats hrecords =>
    refine ⟨hworker, fun last hl col => ?_, past_append h.past (Nat.le_succ _), ?_, h.flushed⟩
    · show w.stats.get col = last.get col + sum (s.pending ++ [(s.period, .nothing)]) col
      rw [hstats, h.pending last (hlast ▸ hl) col, sum_append_nothing]
    · show tagged w.records = tagged (s.flushed.map Flushed.record)
      rw [hrecords]
      exact h.records
  | begins w he hlast hrecords =>
    refine ⟨hworker, fun last hl => ?_, past_append h.past (Nat.le_succ _), ?_, h.flushed⟩
    · cases hlast.symm.trans hl
    · show tagged w.records = tagged (s.flushed.map Flushed.record)
      rw [hrecords]
      exact h.records
  | looks w he hnone hlast hstats hrecords =>
    refine ⟨hworker, fun last hl col => ?_, List.forall_mem_nil _, ?_, h.flushed⟩
    · cases hlast.symm.trans hl
      show w.stats.get col = s.worker.stats.get col + 0
      rw [hstats]
      rfl
    · show tagged w.records = tagged (s.flushed.map Flushed.record)
      rw [hrecords]
      exact h.records
  | flushes w last tag he hlast hrate hstats hlast' hrecords =>
    obtain ⟨hbase, hsum⟩ := h.flush hlast tag
    refine ⟨hworker, fun last' hl col => ?_, List.forall_mem_nil _, ?_,
      List.forall_mem_append.mpr ⟨h.flushed, fun f hf col => ?_⟩⟩
    · show w.stats.get col = last'.get col + 0
      rw [hlast' last' hl, hbase, hstats]
      rfl
    · show tagged w.records = tagged ((s.flushed ++ _).map Flushed.record)
      rw [hrecords, List.map_append, List.map_map, tagged_append, tagged_append, h.records]
      exact congrArg (fun rs => tagged (s.flushed.map Flushed.record) ++ tagged rs)
        (List.map_id _).symm
    · obtain ⟨r, hr, rfl⟩ := List.mem_map.mp hf
      have hcol := hsum col
      rw [Option.mem_toList.mp hr, Option.toList_some, List.map_singleton,
        List.sum_singleton] at hcol
      exact hcol

/-! ## Clean records

What is counted under a tag is flushed under it, if nothing is left over when
the tag changes. -/

/-- What was measured is in one of two columns. -/
theorem countP_measures (counts : List (ℕ × Tally)) :
    counts.countP (fun p => p.2.measures) = sum counts .sent + sum counts .acked := by
  induction counts using List.reverseRecOn with
  | nil => rfl
  | append_singleton counts p ih =>
    rw [List.countP_append, ih, sum_append, sum_append, List.countP_singleton]
    have hone : (if p.2.measures = true then 1 else 0) = p.2.get .sent + p.2.get .acked := by
      cases p.2 <;> rfl
    rw [hone]
    omega

/-- Something was measured exactly if one of the columns has grown. -/
theorem exists_measured_iff {counts : List (ℕ × Tally)} :
    (∃ p ∈ counts, p.2.measures = true) ↔ sum counts .sent ≠ 0 ∨ sum counts .acked ≠ 0 := by
  rw [← List.countP_pos_iff, countP_measures]
  omega

/-- **The invariant of the tag**: what is measured and pending under a rate was
counted in the period of the tag, and the records are clean. -/
structure Current (s : TaggedWorker) : Prop where
  pending : ∀ last ∈ s.worker.last, 0 < s.worker.rate →
    ∀ p ∈ s.pending, p.2.measures = true → p.1 = s.period
  flushed : ∀ f ∈ s.flushed, f.Clean

/-- A worker whose run starts has transmitted nothing. -/
theorem current_new : Current new := ⟨nofun, nofun⟩

/-- **Every settled step keeps it**: only where the tag is set does something
pending change its period, and there nothing is. -/
theorem Current.step (h : Current s) (hkept : Kept c s) (hsettled : s.worker.Settled e)
    (hnext : s.step c e = some s') : Current s' := by
  cases effect_of_step hkept.worker hnext with
  | counts w t htag hlast hrate =>
    refine ⟨fun last hl hpos => List.forall_mem_append.mpr ⟨?_, fun p hp _ => ?_⟩, h.flushed⟩
    · exact h.pending last (hlast ▸ hl) (hrate ▸ hpos)
    · rw [List.mem_singleton.mp hp]
  | tags w hsets hlast hstats =>
    refine ⟨fun last hl hpos p hp hmeasures => ?_, h.flushed⟩
    -- Where all is settled when the tag is set, nothing that counts is
    -- pending: what is pending would show in the counters.
    exfalso
    have hl' : last ∈ s.worker.last := hlast ▸ hl
    obtain ⟨hsent, hacked⟩ := hsettled w.rate hsets hpos last hl'
    have hcounted : ∃ p ∈ s.pending, p.2.measures = true := by
      rcases List.mem_append.mp hp with hp | hp
      · exact ⟨p, hp, hmeasures⟩
      · rw [List.mem_singleton.mp hp] at hmeasures
        cases hmeasures
    have hsum : ∀ col, s.worker.stats.get col = last.get col → sum s.pending col = 0 := by
      intro col heq
      have hcol := hkept.pending last hl' col
      omega
    exact (exists_measured_iff.mp hcounted).elim (fun hne => hne (hsum .sent hsent))
      (fun hne => hne (hsum .acked hacked))
  | begins w he hlast =>
    refine ⟨fun last hl => ?_, h.flushed⟩
    cases hlast.symm.trans hl
  | looks w => exact ⟨fun _ _ _ => List.forall_mem_nil _, h.flushed⟩
  | flushes w last tag he hlast hrate =>
    refine ⟨fun _ _ _ => List.forall_mem_nil _,
      List.forall_mem_append.mpr ⟨h.flushed, fun f hf => ?_⟩⟩
    obtain ⟨r, hr, rfl⟩ := List.mem_map.mp hf
    have htag : r.tag = tag := tag_of_flush (Option.mem_toList.mp hr)
    intro hpos
    exact h.pending last hlast (by rw [← hrate, ← htag]; exact hpos)

/-- **Rate tags are clean where they are set with nothing pending.** In every
run of a worker in which no order and no acknowledgement is pending – counted
since the reporter last looked – when a tag is set to a rate, the records that
are tagged with a rate are those that the reporters flushed, one for one, and
each of them holds orders and acknowledgements that were counted in the period
of the tag in which it was transmitted, and nothing else. -/
theorem clean_of_settled (c : Config) (es : List Event) {s : TaggedWorker}
    (h : exec (TaggedWorker.step c) new es = some s)
    (hsettled : Along (TaggedWorker.step c) (fun s e => s.worker.Settled e) new es) :
    tagged s.worker.records = tagged (s.flushed.map Flushed.record)
      ∧ ∀ f ∈ s.flushed, 0 < f.record.tag.rate → (∀ col, f.record.get col = sum f.counts col)
        ∧ ∀ p ∈ f.counts, p.2.measures = true → p.1 = f.period := by
  obtain ⟨hkept, hcurrent⟩ := (Reaches.of_exec h hsettled).inv (fun s => Kept c s ∧ Current s)
    (fun s e s' hs hsettled hnext => ⟨hs.1.step hnext, hs.2.step hs.1 hsettled hnext⟩)
    ⟨kept_new c, current_new⟩
  exact ⟨hkept.records, fun f hf hpos => ⟨hkept.flushed f hf, hcurrent.flushed f hf hpos⟩⟩

/-- A worker with one bot in its sweep, which has one rate. -/
def oneRate : Config where
  wire := .binary
  scaled := fun _ => 0
  botsPerWorker := 1
  window := 32
  sweepRates := [5000]
  stepSecs := 4
  sweepBots := 1
  burstRates := []
  burstStepSecs := 3
  burstSize := 20
  bots := 1
  duration := 15
  isLeader := true
  fleetN := 1

/-- Its run: the settle window has begun, the reporter ticks five times a
second, and after four of these the bot sends an order. -/
def settling : List Event :=
  [.warm, .begin, .main, .main, .main, .report, .report]
    ++ (List.replicate 4 [.tick (1 / 5), .report, .report]).flatten
    ++ [.bot 0 0 (.connect true 1000), .bot 0 0 .test, .tick (1 / 10), .bot 0 0 .wake,
      .bot 0 0 (.fire 0), .bot 0 0 .sent, .tick (1 / 10)]

/-- The reporter ticks once more before the tag is set to the rate: the order
is in a record that is tagged with zero. -/
theorem clean_of_settled_tick :
    ∃ s, exec (TaggedWorker.step oneRate) new (settling
        ++ [.report, .main, .main, .bot 0 0 .test, .bot 0 0 (.fire 0), .report, .tick (1 / 5),
          .report]) = some s
      ∧ s.worker.records.map (fun r => (r.tag.rate, r.sent)) = [(0, 0), (0, 1), (5000, 1)]
      ∧ tagged s.worker.records = tagged (s.flushed.map Flushed.record)
      ∧ ∀ f ∈ s.flushed, 0 < f.record.tag.rate → (∀ col, f.record.get col = sum f.counts col)
        ∧ ∀ p ∈ f.counts, p.2.measures = true → p.1 = f.period := by
  have hrun : ∃ s ∈ exec (TaggedWorker.step oneRate) new (settling
        ++ [.report, .main, .main, .bot 0 0 .test, .bot 0 0 (.fire 0), .report, .tick (1 / 5),
          .report]),
      s.worker.records.map (fun r => (r.tag.rate, r.sent)) = [(0, 0), (0, 1), (5000, 1)] := by
    decide +kernel
  obtain ⟨s, hs, hrecords⟩ := hrun
  exact ⟨s, hs, hrecords, clean_of_settled oneRate _ hs (by decide +kernel)⟩

/-- The tag is set to the rate before the reporter ticks: the order of the
settle window is in a record that is tagged with the rate. -/
theorem smeared_before_tick :
    ¬ ∀ es s, exec (TaggedWorker.step oneRate) new es = some s →
      ∀ r ∈ s.worker.records, 0 < r.tag.rate →
        ∃ f ∈ s.flushed, f.record = r ∧ (∀ col, r.get col = sum f.counts col)
          ∧ ∀ p ∈ f.counts, p.2.measures = true → p.1 = f.period := by
  intro h
  have hrun : ∃ s ∈ exec (TaggedWorker.step oneRate) new (settling ++ [.main, .main, .report]),
      (∃ r ∈ s.worker.records, 0 < r.tag.rate)
        ∧ ∀ f ∈ s.flushed, 0 < f.record.tag.rate →
          ¬ ∀ p ∈ f.counts, p.2.measures = true → p.1 = f.period := by
    decide +kernel
  obtain ⟨s, hs, ⟨r, hr, hpos⟩, hdirty⟩ := hrun
  obtain ⟨f, hf, rfl, -, hclean⟩ := h _ s hs r hr hpos
  exact hdirty f hf hpos hclean

/-! ## What is pending when a tag is set

And if something is left over, it is flushed under the new tag at the latest
when the phase ends, or it is pending until then. -/

/-- An order or an acknowledgement of an earlier period waits for the
reporter. -/
structure Smeared (s : TaggedWorker) : Prop where
  rate : 0 < s.worker.rate
  last : s.worker.last ≠ none
  pending : ∃ p ∈ s.pending, p.2.measures = true ∧ p.1 < s.period

/-- To set a rate is to set the tag. -/
theorem setsTag_of_setsRate {w : Worker} {rate : ℕ} (h : w.setsRate e = some rate) :
    w.setsTag e = true := by
  cases e with
  | main => exact congrArg Option.isSome h
  | _ => cases h

/-- A step that is not settled leaves something waiting. -/
theorem Kept.smeared (h : Kept c s) (hnot : ¬ s.worker.Settled e) (hnext : s.step c e = some s') :
    Smeared s' := by
  simp only [Worker.Settled, not_forall] at hnot
  obtain ⟨rate, hset, hpos, last, hlast, hsame⟩ := hnot
  have hset : s.worker.setsRate e = some rate := hset
  have htag := setsTag_of_setsRate hset
  cases effect_of_step h.worker hnext with
  | counts w t hnotag => cases htag.symm.trans hnotag
  | tags w hsets hlast' =>
    cases hset.symm.trans hsets
    refine ⟨hpos, ?_, ?_⟩
    · show w.last ≠ none
      rw [hlast', hlast]
      exact Option.some_ne_none _
    · -- The counters have moved since the last flush, so something that counts
      -- is pending.
      have hcounted : ∃ p ∈ s.pending, p.2.measures = true := by
        have hsent := h.pending last hlast .sent
        have hacked := h.pending last hlast .acked
        simp only [Stats.get] at hsent hacked
        rw [exists_measured_iff]
        omega
      obtain ⟨p, hp, hmeasures⟩ := hcounted
      exact ⟨p, List.mem_append_left _ hp, hmeasures, Nat.lt_succ_of_le (h.past p hp)⟩
  | begins w he =>
    subst he
    cases hset
  | looks w he =>
    subst he
    cases hset
  | flushes w last tag he =>
    subst he
    cases hset

/-- **What waits is transmitted under the tag**, unless the tag is set again
before. -/
theorem Smeared.step (h : Smeared s) (hkept : Kept c s) (htag : s.worker.setsTag e = false)
    (hnext : s.step c e = some s') : Smeared s' ∨ ∃ f ∈ s'.flushed, ¬ f.Clean := by
  obtain ⟨p, hp, hmeasures, hlt⟩ := h.pending
  cases effect_of_step hkept.worker hnext with
  | counts w t hnotag hlast hrate =>
    refine Or.inl ⟨?_, ?_, p, List.mem_append_left _ hp, hmeasures, hlt⟩
    · show 0 < w.rate
      rw [hrate]
      exact h.rate
    · show w.last ≠ none
      rw [hlast]
      exact h.last
  | tags w hsets => cases htag.symm.trans (setsTag_of_setsRate hsets)
  | begins w he =>
    subst he
    cases htag
  | looks w he hnone => exact absurd hnone h.last
  | flushes w last tag he hlast hrate =>
    obtain ⟨-, hsum⟩ := hkept.flush hlast tag
    cases hrec : (Fleet.flush tag last s.worker.stats).2 with
    | none =>
      -- a flush with nothing to transmit has nothing pending
      have hzero : ∀ col, sum s.pending col = 0 := by
        intro col
        have hcol := hsum col
        rw [hrec, Option.toList_none, List.map_nil, List.sum_nil] at hcol
        exact (Int.natCast_eq_zero.mp hcol.symm)
      exact absurd (exists_measured_iff.mp ⟨p, hp, hmeasures⟩)
        (fun hne => hne.elim (fun h => h (hzero _)) (fun h => h (hzero _)))
    | some r =>
      refine Or.inr ⟨⟨r, s.period, s.pending⟩, ?_, fun hclean => ?_⟩
      · exact List.mem_append_right _ List.mem_cons_self
      · have hpos : 0 < r.tag.rate := by
          rw [tag_of_flush hrec, hrate]
          exact h.rate
        exact hlt.ne (hclean hpos p hp hmeasures)

/-- What was transmitted stays so. -/
theorem flushed_mono (hkept : Kept c s) (hnext : s.step c e = some s') :
    ∀ f ∈ s.flushed, f ∈ s'.flushed := by
  cases effect_of_step hkept.worker hnext with
  | counts | tags | begins | looks => exact fun f hf => hf
  | flushes => exact fun f hf => List.mem_append_left _ hf

/-- **Where a tag is set to a rate with something pending the next record
smears**: it stays pending until the reporter looks, and is transmitted then
under the rate, unless the tag is set again before. -/
theorem smeared_of_not_settled {es : List Event} {s₁ s₂ : TaggedWorker}
    (h : exec (TaggedWorker.step c) new es = some s) (hnot : ¬ s.worker.Settled e)
    (hnext : s.step c e = some s₁)
    (hrest : Reaches (TaggedWorker.step c) (fun s e => s.worker.setsTag e = false) s₁ s₂) :
    Smeared s₂ ∨ ∃ f ∈ s₂.flushed, ¬ f.Clean := by
  have hkept := inv_of_exec (Kept c) h (fun _ _ _ hs hstep => hs.step hstep) (kept_new c)
  refine (hrest.inv (fun s => Kept c s ∧ (Smeared s ∨ ∃ f ∈ s.flushed, ¬ f.Clean))
    (fun s e s' hs htag hstep => ⟨hs.1.step hstep, ?_⟩)
    ⟨hkept.step hnext, Or.inl (hkept.smeared hnot hnext)⟩).2
  rcases hs.2 with hsmeared | ⟨f, hf, hdirty⟩
  · exact hsmeared.step hs.1 htag hstep
  · exact Or.inr ⟨f, flushed_mono hs.1 hstep f hf, hdirty⟩

end TaggedWorker

end Fleet
