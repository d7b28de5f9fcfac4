import HftArena.Fleet.Window
import Mathlib.Algebra.BigOperators.Group.Finset.Piecewise
import Mathlib.Algebra.BigOperators.Fin

/-!
# What is counted and what is transmitted

A reporter transmits what was added to the counters since it last looked. It
first looks when its task runs, and last when it finds the stop event set; what
is counted while no reporter looks is in no record. A phase's bots are created
before its reporter and go on for a while after the stop event, so that there
are such counts.

What a run transmits and what it counts unwatched add up to its counters,
whichever turns the tasks take (`transmitted_add_missed`): nothing is lost if
and only if no step that counts is taken unwatched (`transmitted_iff`).

This is an account with a balance (`short`): what the records fall short of the
baselines. A flush moves the baselines and the records by the same amount, and
a step that counts moves the balance only if there are no baselines to stay
behind.
-/

open Wire

namespace Fleet

/-! ## Columns

The numbers of a record one by one, so that each account is an account of
integers. -/

/-- **A column of the records**: a counter, or a bucket of the histogram. -/
inductive Column where
  | sent
  | acked
  | errors
  | corrPass
  | corrTotal
  | bucket (b : Bucket)
deriving DecidableEq

/-- The counter of a column. -/
def Stats.get (s : Stats) : Column → ℕ
  | .sent => s.sent
  | .acked => s.acked
  | .errors => s.errors
  | .corrPass => s.corrPass
  | .corrTotal => s.corrTotal
  | .bucket b => s.hist b

/-- What a record adds to a column. A bucket may stand in its list more than
once, or not at all. -/
def Record.get (r : Record) : Column → ℤ
  | .sent => r.sent
  | .acked => r.acked
  | .errors => r.errors
  | .corrPass => r.corrPass
  | .corrTotal => r.corrTotal
  | .bucket b => (r.hist.map (fun p => if p.1 = b then p.2 else 0)).sum

/-- What a step of a bot adds to a column. -/
def Tally.get : Tally → Column → ℕ
  | .sent, .sent => 1
  | .acked _, .acked => 1
  | .acked b, .bucket b' => if b = b' then 1 else 0
  | .error, .errors => 1
  | _, _ => 0

theorem Stats.get_add (s : Stats) (t : Tally) (col : Column) :
    (s.add t).get col = s.get col + t.get col := by
  cases t with
  | nothing => rfl
  | sent => cases col <;> rfl
  | error => cases col <;> rfl
  | acked b =>
    cases col with
    | bucket b' =>
      show Function.update s.hist b (s.hist b + 1) b' = s.hist b' + if b = b' then 1 else 0
      by_cases hb : b = b'
      · subst hb
        rw [Function.update_self, if_pos rfl]
      · rw [Function.update_of_ne (Ne.symm hb), if_neg hb, add_zero]
    | _ => rfl

/-- A tally that is something adds to a column. -/
theorem Tally.eq_nothing_iff (t : Tally) : t = .nothing ↔ ∀ col, t.get col = 0 := by
  refine ⟨fun h col => by rw [h]; cases col <;> rfl, fun h => ?_⟩
  cases t with
  | nothing => rfl
  | sent => cases h .sent
  | acked b => cases h .acked
  | error => cases h .errors

/-! ## A flush

What it transmits and what the baseline becomes are the counters, column by
column. -/

/-- **What the bots of a phase can have added** since the baselines were read:
a bucket has changed only if the acknowledgements have. -/
structure Grown (last stats : Stats) : Prop where
  acked : last.acked ≤ stats.acked
  hist : stats.acked = last.acked → stats.hist = last.hist
  corrPass : stats.corrPass = last.corrPass
  corrTotal : stats.corrTotal = last.corrTotal

theorem Grown.refl (stats : Stats) : Grown stats stats := ⟨le_rfl, fun _ => rfl, rfl, rfl⟩

theorem Grown.add {last stats : Stats} (h : Grown last stats) (t : Tally) :
    Grown last (stats.add t) := by
  cases t with
  | nothing | sent | error => exact ⟨h.acked, h.hist, h.corrPass, h.corrTotal⟩
  | acked b =>
    refine ⟨Nat.le_succ_of_le h.acked, fun heq => ?_, h.corrPass, h.corrTotal⟩
    exact absurd heq (Nat.lt_succ_of_le h.acked).ne'

/-- The difference of two histograms, bucket by bucket. -/
theorem sum_histDelta (last hist : Bucket → ℕ) (b : Bucket) :
    ((((List.finRange 256).filterMap (fun i =>
        if (hist i - last i : ℤ) ≠ 0 then some (i, (hist i - last i : ℤ)) else none))).map
      (fun p => if p.1 = b then p.2 else 0)).sum = (hist b : ℤ) - last b := by
  have hsum : ∀ bs : List Bucket, ((bs.filterMap (fun i =>
      if (hist i - last i : ℤ) ≠ 0 then some (i, (hist i - last i : ℤ)) else none)).map
        (fun p => if p.1 = b then p.2 else 0)).sum
      = (bs.map (fun i => if i = b then (hist i : ℤ) - last i else 0)).sum := by
    intro bs
    induction bs with
    | nil => rfl
    | cons i bs ih =>
      rw [List.map_cons, List.sum_cons, ← ih]
      by_cases hi : (hist i - last i : ℤ) = 0
      · rw [List.filterMap_cons_none (by rw [if_neg (not_not.mpr hi)]), hi, ite_self, zero_add]
      · rw [List.filterMap_cons_some (by rw [if_pos hi]), List.map_cons, List.sum_cons]
  rw [hsum, ← List.ofFn_eq_map, List.sum_ofFn, Finset.sum_ite_eq' Finset.univ b,
    if_pos (Finset.mem_univ b)]

/-- **A flush transmits what was added**, and the new baselines are the
counters. -/
theorem flush_spec {last stats : Stats} (tag : Tag) (h : Grown last stats) :
    (flush tag last stats).1 = stats ∧ ∀ col,
      ((flush tag last stats).2.toList.map (·.get col)).sum
        = (stats.get col : ℤ) - last.get col := by
  unfold flush
  dsimp only
  split_ifs with hnone
  · -- nothing was added, in the histogram neither
    obtain ⟨hsent, hacked, herrors, -⟩ := hnone
    have heq : last = stats := Stats.ext (by omega) (by omega) (by omega) h.corrPass.symm
      h.corrTotal.symm (h.hist (by omega)).symm
    subst heq
    exact ⟨rfl, fun col => (sub_self _).symm⟩
  · refine ⟨rfl, fun col => ?_⟩
    rw [Option.toList_some, List.map_singleton, List.sum_singleton]
    cases col with
    | bucket b => exact sum_histDelta last.hist stats.hist b
    | _ => rfl

/-- After a flush the baselines are what was counted, whether or not it
transmitted. -/
theorem flush_counters (tag : Tag) (last stats : Stats) :
    (flush tag last stats).1.sent = stats.sent ∧ (flush tag last stats).1.acked = stats.acked := by
  unfold flush
  dsimp only
  split_ifs with hnone
  · exact ⟨show last.sent = _ by omega, show last.acked = _ by omega⟩
  · exact ⟨rfl, rfl⟩

/-! ## The steps that count

They are watched if a reporter has a baseline when they happen. -/

/-- **Whether a bot counts something in a step**: the connection is not made,
an order is fired, `ws.send` raises, or the frame is the acknowledgement of an
order that it waits for. It can be told from the bot before the step. -/
def Bot.counts (wire : Wire.Mode) (b : Bot) : BotEvent → Bool
  | .connect ok _ => !ok
  | .fire _ => b.mode = .closed ∨ b.outstanding < maxOutstanding
  | .sendFails => true
  | .recv _ =>
    match b.inbox.head?.map (b.reading wire) with
    | some (.acked id) => (b.awaited id).isSome
    | _ => false
  | _ => false

/-- A step adds to the counters if and only if the bot counts something. -/
theorem Bot.counts_iff {wire : Wire.Mode} {scaled : ℚ → ℤ} {env : Env} {b b' : Bot} {e : BotEvent}
    {t : Tally} (h : b.step wire scaled env e = some (b', t)) :
    b.counts wire e = true ↔ t ≠ .nothing := by
  cases steps_of_step h with
  | connected | refused | leaves | takes | waits | early | behind | late | acquires | paced
  | drained | sent | fails | hangsUp | arrives | drops => simp [counts]
  | saturated n ns hs hmode hsat => simp [counts, hmode, hsat]
  | fires n ns hs hroom =>
    cases hmode : b.mode with
    | closed => simp [counts, hmode]
    | «open» => simp [counts, hmode, hroom hmode]
  | ignores ns frame inbox hwaiting hinbox hread => simp [counts, hinbox, hread]
  | acked ns frame inbox id i t0 hwaiting hinbox hread hid => simp [counts, hinbox, hread, hid]
  | unknown ns frame inbox id hwaiting hinbox hread hid => simp [counts, hinbox, hread, hid]
  | raises ns frame inbox hwaiting hinbox hread => simp [counts, hinbox, hread]

/-- The baselines of a reporter that looks. -/
def Reporter.last : Reporter → Option Stats
  | .testing last => some last
  | .sleeping last _ => some last
  | .created => none
  | .done => none

namespace Worker

/-- The baselines of the reporter of the latest phase, if it looks. -/
def last (w : Worker) : Option Stats := (w.phases.head?.map Phase.reporter).bind Reporter.last

/-- **A reporter looks**: that of the latest phase has read its baselines, and
has not found the stop event set. -/
def Watched (w : Worker) : Prop := w.last.isSome = true

instance (w : Worker) : Decidable w.Watched := inferInstanceAs (Decidable (_ = true))

/-- **Every bot counts watched**: it counts nothing in a step, or a reporter
looks. The condition is on the event and on the worker before it. -/
def Reported (c : Config) (w : Worker) (e : Event) : Prop :=
  EachBot (fun _ b e => b.counts c.wire e = true → w.Watched) w e

instance (c : Config) (w : Worker) (e : Event) : Decidable (Reported c w e) :=
  inferInstanceAs (Decidable (EachBot _ w e))

/-- **Nothing is lost**: the records of the run add up to its counters. -/
def Transmitted (w : Worker) : Prop :=
  ∀ col, (w.records.map (·.get col)).sum = w.stats.get col

/-- What a step of the run adds to the counters. -/
def tally (c : Config) (w : Worker) : Event → Tally
  | .bot p i e =>
    (w.phases[p]?.bind
      (fun ph => stepAt (Bot.step c.wire c.scaled (ph.env w.now)) ph.bots i e)).elim
        .nothing Prod.snd
  | _ => .nothing

/-- What a step counts in a column with no reporter looking. -/
def missed (c : Config) (col : Column) (w : Worker) (e : Event) : ℕ :=
  if w.Watched then 0 else (w.tally c e).get col

/-- The tally of a bot's step. -/
theorem tally_bot {c : Config} {w : Worker} {p i : ℕ} {e : BotEvent} {ph : Phase} {b b' : Bot}
    {t : Tally} (hph : w.phases[p]? = some ph) (hb : ph.bots[i]? = some b)
    (hstep : b.step c.wire c.scaled (ph.env w.now) e = some (b', t)) :
    w.tally c (.bot p i e) = t := by
  rw [tally, hph, Option.bind_some, stepAt_eq_some.mpr ⟨b, b', hb, hstep, rfl⟩, Option.elim_some]

/-- A step is reported if and only if it misses nothing. -/
theorem reported_iff {c : Config} {w w' : Worker} {e : Event} (h : w.step c e = some w') :
    Reported c w e ↔ ∀ col, missed c col w e = 0 := by
  cases steps_of_step h with
  | tick | probed | warm | begins | main | report | finish =>
    exact ⟨fun _ col => by unfold missed; split_ifs <;> rfl, fun _ => trivial⟩
  | bot todo p i e ph b b' t hstage hph hb hbot =>
    unfold missed
    rw [tally_bot hph hb hbot]
    constructor
    · intro hrep col
      by_cases hw : w.Watched
      · exact if_pos hw
      · rw [if_neg hw]
        have hcounts : b.counts c.wire e ≠ true := fun hc => hw (hrep ph hph b hb hc)
        have ht : t = .nothing := not_not.mp (fun ht => hcounts ((Bot.counts_iff hbot).mpr ht))
        exact t.eq_nothing_iff.mp ht col
    · intro hmissed ph₁ hph₁ b₁ hb₁ hcounts
      cases hph.symm.trans hph₁
      cases hb.symm.trans hb₁
      by_contra hw
      refine (Bot.counts_iff hbot).mp hcounts (t.eq_nothing_iff.mpr (fun col => ?_))
      exact (if_neg hw).symm.trans (hmissed col)

/-! ## The account of a run

What was transmitted and what was missed are what was counted, up to what the
reporter has still to flush. When a run is finished nothing is. -/

/-- What holds of a run at any time: in the warmup the counters are what the
warmup record will say, the counters have grown since the reporter looked, and
a phase is over only after its reporter is. -/
structure Kept (c : Config) (w : Worker) : Prop where
  warmup : w.stage = .warmup → w.phases = [] ∧ w.records = []
    ∧ (∀ col, (warmupRecord w.stats).get col = w.stats.get col)
    ∧ (c.isLeader = false → w.stats = .zero)
  grown : ∀ last ∈ w.last, Grown last w.stats
  reported : ∀ ph ∈ w.phases.head?, ph.main = .done → ph.reporter = .done
  finished : w.stage = .finished → w.last = none

/-- The counters that the records have to add up to, but for what was missed:
the baselines of a reporter that looks, or else the counters themselves. -/
def baseline (w : Worker) : Stats :=
  match w.stage with
  | .warmup => .zero
  | _ => w.last.getD w.stats

/-- What the records fall short of the baseline: the balance of the account. -/
def short (col : Column) (w : Worker) : ℤ :=
  w.baseline.get col - (w.records.map (·.get col)).sum

/-- In the phases the baseline is the reporter's, or what is counted. -/
theorem short_of_phases {w : Worker} {todo : List Spec} (hstage : w.stage = .phases todo)
    (col : Column) :
    short col w = ((w.last.getD w.stats).get col : ℤ) - (w.records.map (·.get col)).sum := by
  unfold short baseline
  rw [hstage]

/-- A worker whose run starts has counted nothing. -/
theorem kept_new (c : Config) : Kept c .new where
  warmup _ := ⟨rfl, rfl, fun col => by cases col <;> rfl, fun _ => rfl⟩
  grown _ h := by cases h
  reported := nofun
  finished := nofun

/-- What there is to show while phases go on. -/
theorem kept_of_phases {c : Config} {w : Worker} {todo : List Spec} (hstage : w.stage = .phases todo)
    (hgrown : ∀ last ∈ w.last, Grown last w.stats)
    (hover : ∀ ph ∈ w.phases.head?, ph.main = .done → ph.reporter = .done) : Kept c w where
  warmup hs := by rw [hstage] at hs; cases hs
  grown := hgrown
  reported := hover
  finished hs := by rw [hstage] at hs; cases hs

/-- Between the phases nobody looks. -/
theorem Kept.last_of_idle {c : Config} {w : Worker} (h : Kept c w) (hidle : w.idle) :
    w.last = none := by
  unfold last
  cases hph : w.phases.head? with
  | none => rfl
  | some ph =>
    rw [Option.map_some, Option.bind_some, h.reported ph hph (hidle ph hph)]
    rfl

/-- The phase itself leaves its reporter alone, and ends after it. -/
theorem reporter_mainStep {ph ph' : Phase} {now : ℚ} (h : ph.mainStep now = some ph') :
    ph'.reporter = ph.reporter ∧ (ph'.main = .done → ph.reporter = .done) := by
  cases Phase.steps_of_mainStep h with
  | paces | tags | sleeps | wakes | stops | gathers => exact ⟨rfl, nofun⟩
  | ends hmain hrep => exact ⟨rfl, fun _ => hrep⟩

/-- **A step of the reporter** transmits what its baselines fall short of the
counters, and looks again at the counters as they are. -/
theorem reporterStep_spec {ph ph' : Phase} {stats : Stats} {now : ℚ} {rec : Option Record}
    (hgrown : ∀ last ∈ ph.reporter.last, Grown last stats)
    (h : ph.reporterStep stats now = some (ph', rec)) :
    (∀ last ∈ ph'.reporter.last, Grown last stats) ∧ ph'.main = ph.main ∧ ph.reporter ≠ .done
      ∧ ∀ col, (rec.toList.map (·.get col)).sum
        = ((ph'.reporter.last.getD stats).get col : ℤ) - (ph.reporter.last.getD stats).get col := by
  cases Phase.steps_of_reporterStep h with
  | looks hrep =>
    rw [hrep]
    exact ⟨fun last hlast => by cases hlast; exact .refl _, rfl, nofun, fun col => (sub_self _).symm⟩
  | ends last hrep =>
    rw [hrep] at hgrown ⊢
    exact ⟨nofun, rfl, nofun, (flush_spec ph.tag (hgrown last rfl)).2⟩
  | sleeps last hrep =>
    rw [hrep] at hgrown ⊢
    exact ⟨hgrown, rfl, nofun, fun col => (sub_self _).symm⟩
  | flushes last t hrep =>
    rw [hrep] at hgrown ⊢
    obtain ⟨hstats, hsum⟩ := flush_spec ph.tag (hgrown last rfl)
    refine ⟨fun last' hlast' => ?_, rfl, nofun, fun col => ?_⟩
    · cases hlast'
      rw [hstats]
      exact .refl _
    · show _ = (((flush ph.tag last stats).1.get col : ℤ)) - _
      rw [hstats]
      exact hsum col

/-- **The step of an account**: what the records fall short of the baseline
grows by what was missed, and by nothing else. -/
theorem Kept.step {c : Config} {w w' : Worker} {e : Event} (h : Kept c w)
    (hnext : w.step c e = some w') :
    Kept c w' ∧ ∀ col, short col w' = short col w + missed c col w e := by
  have hzero : ∀ col e, w.tally c e = .nothing → missed c col w e = 0 := fun col e ht => by
    unfold missed
    rw [ht]
    split_ifs <;> cases col <;> rfl
  cases steps_of_step hnext with
  | tick secs hsecs =>
    refine ⟨⟨h.warmup, h.grown, h.reported, h.finished⟩, fun col => ?_⟩
    rw [hzero col _ rfl]
    exact (add_zero _).symm
  | probed passed hstage hleader =>
    obtain ⟨hphases, hrecords, hrec, -⟩ := h.warmup hstage
    refine ⟨⟨fun _ => ⟨hphases, hrecords, fun col => ?_, fun hl => by rw [hleader] at hl; cases hl⟩,
      ?_, h.reported, h.finished⟩, fun col => ?_⟩
    · cases col with
      | corrPass | corrTotal => rfl
      | sent => exact hrec .sent
      | acked => exact hrec .acked
      | errors => exact hrec .errors
      | bucket b => exact hrec (.bucket b)
    · unfold last
      rw [hphases]
      nofun
    · rw [hzero col _ rfl]
      unfold short baseline
      rw [hstage]
      exact (add_zero _).symm
  | warm hstage =>
    obtain ⟨hphases, hrecords, hrec, hzero'⟩ := h.warmup hstage
    have hlast : w.last = none := by
      unfold last
      rw [hphases]
      rfl
    refine ⟨kept_of_phases rfl h.grown h.reported, fun col => ?_⟩
    rw [hzero col _ rfl]
    unfold short baseline
    rw [hstage, hrecords]
    show (((w.last.getD w.stats).get col : ℕ) : ℤ) - _ = _
    rw [hlast, Option.getD_none]
    cases hl : c.isLeader with
    | true =>
      show _ - ([warmupRecord w.stats].map (·.get col)).sum = _
      rw [List.map_singleton, List.sum_singleton, hrec col, sub_self]
      cases col <;> rfl
    | false =>
      rw [hzero' hl]
      rfl
  -- A phase begins with a reporter that has no baseline yet.
  | begins spec todo hstage hidle =>
    have hlast := h.last_of_idle hidle
    refine ⟨kept_of_phases rfl nofun (fun ph hph hdone => ?_), fun col => ?_⟩
    · cases hph
      cases hdone
    · rw [hzero col _ rfl, short_of_phases rfl, short_of_phases hstage, hlast]
      exact (add_zero _).symm
  | main todo ph ph' phs hstage hphs hmain =>
    obtain ⟨hrep, hdone⟩ := reporter_mainStep hmain
    have hlast : last { w with phases := ph' :: phs } = w.last := by
      unfold last
      rw [hphs]
      exact congrArg Reporter.last hrep
    refine ⟨kept_of_phases hstage ?_ ?_, fun col => ?_⟩
    · rw [hlast]
      exact h.grown
    · intro ph₁ hph₁ hd
      cases hph₁
      exact hrep.trans (hdone hd)
    · rw [hzero col _ rfl, short_of_phases hstage]
      refine Eq.trans (short_of_phases (w := { w with phases := ph' :: phs }) hstage col) ?_
      rw [hlast]
      exact (add_zero _).symm
  | report todo ph ph' phs rec hstage hphs hrep =>
    have hlast : w.last = ph.reporter.last := by
      unfold last
      rw [hphs]
      rfl
    obtain ⟨hgrown, hmain, hnot, hsum⟩ := reporterStep_spec (hlast ▸ h.grown) hrep
    refine ⟨kept_of_phases hstage hgrown ?_, fun col => ?_⟩
    · intro ph₁ hph₁ hd
      cases hph₁
      refine absurd (h.reported ph ?_ (hmain ▸ hd)) hnot
      rw [hphs]
      rfl
    · rw [hzero col _ rfl, short_of_phases hstage, hlast]
      refine Eq.trans (short_of_phases
        (w := { w with phases := ph' :: phs, records := w.records ++ rec.toList }) hstage col) ?_
      rw [List.map_append, List.sum_append, hsum col]
      show ((ph'.reporter.last.getD w.stats).get col : ℤ) - _ = _
      omega
  | bot todo p i e ph b b' t hstage hph hb hbot =>
    have hlast : last { w with phases := w.phases.set p { ph with bots := ph.bots.set i b' },
                               stats := w.stats.add t } = w.last := by
      exact congrArg (Option.bind · Reporter.last) (map_head?_set hph rfl)
    refine ⟨kept_of_phases hstage ?_ ?_, fun col => ?_⟩
    · rw [hlast]
      exact fun last hl => (h.grown last hl).add t
    · have hmap : (w.phases.set p { ph with bots := ph.bots.set i b' }).head?.map
          (fun ph => (ph.main, ph.reporter)) = w.phases.head?.map
            (fun ph => (ph.main, ph.reporter)) :=
        map_head?_set hph rfl
      intro ph₁ hph₁ hd
      obtain ⟨ph₀, hph₀, heq⟩ := Option.map_eq_some_iff.mp
        (hmap.symm.trans (Option.map_eq_some_iff.mpr ⟨ph₁, hph₁, rfl⟩))
      rw [Prod.mk.injEq] at heq
      exact heq.2 ▸ h.reported ph₀ hph₀ (heq.1.trans hd)
    · rw [short_of_phases hstage]
      refine Eq.trans (short_of_phases
        (w := { w with phases := w.phases.set p { ph with bots := ph.bots.set i b' },
                       stats := w.stats.add t }) hstage col) ?_
      rw [hlast, missed, tally_bot hph hb hbot]
      -- What is tallied while no reporter looks is missed.
      rcases Option.eq_none_or_eq_some w.last with hl | ⟨last, hl⟩
      · rw [if_neg (by rw [Watched, hl]; nofun), hl]
        show (((w.stats.add t).get col : ℕ) : ℤ) - (w.records.map (·.get col)).sum
          = (w.stats.get col : ℤ) - _ + (t.get col : ℕ)
        rw [Stats.get_add, Nat.cast_add]
        omega
      · rw [if_pos (by rw [Watched, hl]; rfl), hl]
        exact (add_zero _).symm
  | finish hstage hidle =>
    have hlast := h.last_of_idle hidle
    refine ⟨⟨nofun, h.grown, h.reported, fun _ => hlast⟩, fun col => ?_⟩
    rw [hzero col _ rfl]
    unfold short baseline
    rw [hstage]
    exact (add_zero _).symm

/-- **What a run transmits and what it counts unwatched add up to its
counters**, column by column, at the end of every run. -/
theorem transmitted_add_missed {c : Config} {w : Worker} {es : List Event}
    (hexec : exec (step c) .new es = some w) (hfin : w.stage = .finished) (col : Column) :
    (w.records.map (·.get col)).sum + total (step c) (missed c col) .new es = w.stats.get col := by
  obtain ⟨hkept, hshort⟩ := total_of_exec (Kept c) (short col) (missed c col) hexec
    (fun w e w' h hnext => ⟨(h.step hnext).1, (h.step hnext).2 col⟩) (kept_new c)
  have hnew : short col .new = 0 := by cases col <;> rfl
  rw [hnew, zero_add] at hshort
  unfold short baseline at hshort
  rw [hfin, hkept.finished hfin] at hshort
  dsimp only [Option.getD_none] at hshort
  omega

/-- **Nothing is lost if and only if everything is counted watched**: for every
run that ends, whatever the engine and however the tasks took turns.

It is an equivalence because what is missed cannot be made up for: counts are
never negative, so the sum of what was missed is zero only if each part is. -/
theorem transmitted_iff (c : Config) {w : Worker} {es : List Event}
    (hexec : exec (step c) .new es = some w) (hfin : w.stage = .finished) :
    w.Transmitted ↔ Along (step c) (Reported c) .new es := by
  have hmissed : w.Transmitted ↔ ∀ col, total (step c) (missed c col) .new es = 0 := by
    refine forall_congr' (fun col => ?_)
    have hsum := transmitted_add_missed hexec hfin col
    constructor <;> intro h <;> omega
  rw [hmissed, along_congr hexec (fun w e w' hnext => reported_iff hnext), along_forall]
  exact forall_congr' (fun col => total_eq_zero_iff hexec)

/-- The closed phase of `oneBot` after its bot has sent one order, up to the
stop event. -/
def sendOne : List Event :=
  [.bot 0 0 .test, .bot 0 0 (.fire 0), .bot 0 0 .sent, .tick 15, .main, .main]

/-- The reporter finds the stop event set. -/
def lastLook : List Event := [.report, .report]

/-- The acknowledgement of that order is read. -/
def readOne : List Event := [.bot 0 0 (.arrive firstAck), .bot 0 0 (.recv 0)]

/-- The bot drains, and the run ends. -/
def drain : List Event := [.tick (1 / 2), .bot 0 0 .wake, .main, .main, .finish]

/-- The acknowledgement is read before the reporter's last look. -/
theorem transmitted_when_read_before :
    ∃ w, exec (step (oneBot 32)) .new
        (toClosed ++ sendOne ++ readOne ++ lastLook ++ [.bot 0 0 .test] ++ drain) = some w
      ∧ w.stage = .finished ∧ w.Transmitted := by
  have hrun : ∃ w ∈ exec (step (oneBot 32)) .new
      (toClosed ++ sendOne ++ readOne ++ lastLook ++ [.bot 0 0 .test] ++ drain),
      w.stage = .finished := by decide +kernel
  obtain ⟨w, hw, hfin⟩ := hrun
  exact ⟨w, hw, hfin, (transmitted_iff (oneBot 32) hw hfin).mpr (by decide +kernel)⟩

/-- **The acknowledgement is read after the reporter's last look**, while the
bot drains: the worker counts it and no record has it. -/
theorem acked_lost_when_read_after :
    ∃ w, exec (step (oneBot 32)) .new
        (toClosed ++ sendOne ++ lastLook ++ [.bot 0 0 .test] ++ readOne ++ drain) = some w
      ∧ w.stage = .finished ∧ w.stats.acked = 1 ∧ (w.records.map (·.acked)).sum = 0
      ∧ ¬ w.Transmitted := by
  have hrun : ∃ w ∈ exec (step (oneBot 32)) .new
      (toClosed ++ sendOne ++ lastLook ++ [.bot 0 0 .test] ++ readOne ++ drain),
      w.stage = .finished ∧ w.stats.acked = 1 ∧ (w.records.map (·.acked)).sum = 0 := by
    decide +kernel
  obtain ⟨w, hw, hfin, hacked, hsum⟩ := hrun
  refine ⟨w, hw, hfin, hacked, hsum, fun h => ?_⟩
  have heq : (w.records.map (·.acked)).sum = (w.stats.acked : ℤ) := h .acked
  rw [hsum, hacked] at heq
  cases heq

end Worker

end Fleet
