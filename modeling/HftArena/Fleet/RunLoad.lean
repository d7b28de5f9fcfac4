import HftArena.Fleet.Bot

/-!
# One worker's run: `run_load`

`run_load` of `bot_fleet/fleet.py` from the probe on, with its three phases and
their reporters. A phase creates its bots and its reporter, changes the pace
and the tag at its own times, sets the stop event, and ends when all bots and
the reporter have. The bots share the worker's `Stats`, from which the reporter
transmits what was added since it last looked.

A receiver that nobody cancelled can outlive its bot, so the bots of phases
that are over stay in the state and may still take steps. Times are rational
numbers: a sleep is over when its time has come, or at any time later.

The three phases differ in their bots and in their scripts, and in nothing
else: a `Spec` says what a phase is made from, and `Phase` is how any of them
runs. As for a bot, the steps are given twice, as the code has them and as a
list of what they can be; the second is what the proofs go by.
-/

open Wire

namespace Fleet

/-! ## Reporting

`_flush`, and the reporter that calls it. -/

/-- `tag`, which the phase changes and the reporter reads. -/
structure Tag where
  phase : String
  rate : ℕ
deriving DecidableEq

/-- The record of a sample, as it is transmitted, without the ids of the run
and of the worker and without its time. The counts are differences, so
integers. -/
structure Record where
  tag : Tag
  sent : ℤ
  acked : ℤ
  errors : ℤ
  corrPass : ℤ
  corrTotal : ℤ
  hist : List (Bucket × ℤ)
deriving DecidableEq

/-- `_flush`: the baselines after it, and the record if there is one. The
baselines of the histogram move in any case, the others only with a record. -/
def flush (tag : Tag) (last stats : Stats) : Stats × Option Record :=
  let dSent : ℤ := stats.sent - last.sent
  let dAcked : ℤ := stats.acked - last.acked
  let dErr : ℤ := stats.errors - last.errors
  let dCp : ℤ := stats.corrPass - last.corrPass
  let dCt : ℤ := stats.corrTotal - last.corrTotal
  let histDelta := (List.finRange 256).filterMap (fun i =>
    let dv : ℤ := stats.hist i - last.hist i
    if dv ≠ 0 then some (i, dv) else none)
  -- passes alone are not looked at: there is none without a count
  if dSent = 0 ∧ dAcked = 0 ∧ dErr = 0 ∧ dCt = 0 then ({ last with hist := stats.hist }, none)
  else (stats, some ⟨tag, dSent, dAcked, dErr, dCp, dCt, histDelta⟩)

/-- Where a reporter is, with its baselines. It reads these when its task runs
for the first time, not when it is created. -/
inductive Reporter where
  /-- Its task has not run yet. -/
  | created
  /-- At the test of its loop. -/
  | testing (last : Stats)
  | sleeping (last : Stats) (until_ : ℚ)
  /-- After the final flush. -/
  | done

/-! ## Phases

A phase has bots, a main task with a script, and a reporter, all on one event
loop. -/

/-- What a phase does between its start and its end: it sets the pace and the
tag, and it sleeps. -/
inductive Action where
  /-- `state.interval = ...` -/
  | pace (interval : ℚ)
  /-- `tag["rate"] = ...` -/
  | tagRate (rate : ℕ)
  | sleep (secs : ℚ)
deriving DecidableEq

/-- Where a phase is: in its script, or waiting for its bots or its reporter to
end. -/
inductive Main where
  | running (script : List Action)
  | asleep (until_ : ℚ) (script : List Action)
  /-- In `gather` over the bots. -/
  | gathering
  /-- In `await rep`. -/
  | reporting
  | done
deriving DecidableEq

/-- **A phase**: its tasks and what they share. The bots read the pace and the
stop event, and the reporter the tag. -/
structure Phase where
  bots : List Bot
  stop : Bool
  deadline : ℚ
  interval : ℚ
  burst : ℕ
  tag : Tag
  reporter : Reporter
  main : Main

namespace Phase

/-- What the bots of a phase read. -/
def env (ph : Phase) (now : ℚ) : Env := ⟨ph.stop, now, ph.deadline, ph.interval, ph.burst⟩

/-- A step of the phase itself: the next line of its script, or one of the two
waits at its end. -/
def mainStep (ph : Phase) (now : ℚ) : Option Phase :=
  match ph.main with
  | .running (.pace i :: script) => some { ph with interval := i, main := .running script }
  | .running (.tagRate r :: script) =>
    some { ph with tag := { ph.tag with rate := r }, main := .running script }
  | .running (.sleep d :: script) => some { ph with main := .asleep (now + d) script }
  | .running [] => some { ph with stop := true, main := .gathering }
  | .asleep t script => if t ≤ now then some { ph with main := .running script } else none
  | .gathering =>
    if ∀ b ∈ ph.bots, b.sender = .done then some { ph with main := .reporting } else none
  | .reporting =>
    match ph.reporter with
    | .done => some { ph with main := .done }
    | _ => none
  | .done => none

/-- A step of the reporter, with the record it transmits. The stop event is
looked at only between two sleeps, and there is one flush after it was seen. -/
def reporterStep (ph : Phase) (stats : Stats) (now : ℚ) : Option (Phase × Option Record) :=
  match ph.reporter with
  | .created => some ({ ph with reporter := .testing stats }, none)
  | .testing last =>
    if ph.stop then some ({ ph with reporter := .done }, (flush ph.tag last stats).2)
    else some ({ ph with reporter := .sleeping last (now + 1 / 5) }, none)
  | .sleeping last t =>
    if t ≤ now then
      some ({ ph with reporter := .testing (flush ph.tag last stats).1 },
        (flush ph.tag last stats).2)
    else none
  | .done => none

/-- **The steps of a phase, one by one**, each with what it asks for. -/
inductive MainSteps (ph : Phase) (now : ℚ) : Phase → Prop where
  | paces (interval : ℚ) (script : List Action) : ph.main = .running (.pace interval :: script) →
    MainSteps ph now { ph with interval := interval, main := .running script }
  | tags (rate : ℕ) (script : List Action) : ph.main = .running (.tagRate rate :: script) →
    MainSteps ph now { ph with tag := { ph.tag with rate := rate }, main := .running script }
  | sleeps (secs : ℚ) (script : List Action) : ph.main = .running (.sleep secs :: script) →
    MainSteps ph now { ph with main := .asleep (now + secs) script }
  | wakes (t : ℚ) (script : List Action) : ph.main = .asleep t script → t ≤ now →
    MainSteps ph now { ph with main := .running script }
  | stops : ph.main = .running [] → MainSteps ph now { ph with stop := true, main := .gathering }
  | gathers : ph.main = .gathering → (∀ b ∈ ph.bots, b.sender = .done) →
    MainSteps ph now { ph with main := .reporting }
  | ends : ph.main = .reporting → ph.reporter = .done → MainSteps ph now { ph with main := .done }

/-- **A step is one of these.** -/
theorem steps_of_mainStep {ph ph' : Phase} {now : ℚ} (h : ph.mainStep now = some ph') :
    MainSteps ph now ph' := by
  unfold mainStep at h
  split at h
  · cases h
    exact .paces _ _ ‹_›
  · cases h
    exact .tags _ _ ‹_›
  · cases h
    exact .sleeps _ _ ‹_›
  · cases h
    exact .stops ‹_›
  · split_ifs at h with ht
    cases h
    exact .wakes _ _ ‹_› ht
  · split_ifs at h with hdone
    cases h
    exact .gathers ‹_› hdone
  · split at h
    · cases h
      exact .ends ‹_› ‹_›
    · cases h
  · cases h

/-- **The steps of the reporter, one by one**, each with what it asks for. -/
inductive ReporterSteps (ph : Phase) (stats : Stats) (now : ℚ) : Phase → Option Record → Prop where
  | looks : ph.reporter = .created →
    ReporterSteps ph stats now { ph with reporter := .testing stats } none
  | ends (last : Stats) : ph.reporter = .testing last → ph.stop = true →
    ReporterSteps ph stats now { ph with reporter := .done } (flush ph.tag last stats).2
  | sleeps (last : Stats) : ph.reporter = .testing last → ph.stop = false →
    ReporterSteps ph stats now { ph with reporter := .sleeping last (now + 1 / 5) } none
  | flushes (last : Stats) (t : ℚ) : ph.reporter = .sleeping last t → t ≤ now →
    ReporterSteps ph stats now { ph with reporter := .testing (flush ph.tag last stats).1 }
      (flush ph.tag last stats).2

/-- **A step of the reporter is one of these.** -/
theorem steps_of_reporterStep {ph ph' : Phase} {stats : Stats} {now : ℚ} {rec : Option Record}
    (h : ph.reporterStep stats now = some (ph', rec)) : ReporterSteps ph stats now ph' rec := by
  unfold reporterStep at h
  split at h
  · cases h
    exact .looks ‹_›
  · split_ifs at h with hstop
    · cases h
      exact .ends _ ‹_› hstop
    · cases h
      exact .sleeps _ ‹_› (Bool.eq_false_of_not_eq_true hstop)
  · split_ifs at h with ht
    cases h
    exact .flushes _ _ ‹_› ht
  · cases h

end Phase

/-! ## The run

The warmup, and then the phases of the plan. -/

/-- The constants of the module, and what the run was started with. -/
structure Config where
  wire : Wire.Mode
  /-- The logarithm of `bucket_of`. -/
  scaled : ℚ → ℤ
  botsPerWorker : ℕ
  window : ℕ
  sweepRates : List ℕ
  stepSecs : ℚ
  sweepBots : ℕ
  burstRates : List ℕ
  burstStepSecs : ℚ
  burstSize : ℕ
  /-- `cfg["bots"]` -/
  bots : ℕ
  /-- `cfg["duration"]` -/
  duration : ℕ
  /-- Whether it got the lock of the probe. -/
  isLeader : Bool
  /-- The workers it counted, at least one. -/
  fleetN : ℕ

/-- What a phase is created from. -/
structure Spec where
  mode : BotMode
  tag : Tag
  bots : ℕ
  burst : ℕ
  /-- The deadline of its bots, from its start. -/
  lifetime : ℚ
  script : List Action
deriving DecidableEq

namespace Config

variable (c : Config)

/-- `n_closed`: what was asked for, up to what a worker can have. -/
def nClosed : ℕ := min c.bots c.botsPerWorker

/-- `n_sweep`. -/
def nSweep : ℕ := min c.sweepBots c.botsPerWorker

/-- This worker's share of a rate: the workers of the fleet that it counted
offer the same each. -/
def share (rate : ℕ) : ℚ := rate / c.fleetN

/-- `run_closed`: as many orders as the engine takes, for the duration of the
run. -/
def runClosed : Spec :=
  ⟨.closed, ⟨"closed", 0⟩, c.nClosed, 1, c.duration + 1, [.sleep c.duration]⟩

/-- `run_sweep`: one rate after the other, each with a second to settle under
the tag 0 before it is measured. -/
def runSweep : Spec :=
  ⟨.open, ⟨"open", c.sweepRates.headD 0⟩, c.nSweep, 1,
    c.sweepRates.length * (c.stepSecs + 1) + 5,
    c.sweepRates.flatMap (fun rate =>
      [.pace (max c.nSweep 1 / max (c.share rate) 1), .tagRate 0, .sleep 1, .tagRate rate,
        .sleep c.stepSecs])⟩

/-- `run_burst`: the same with bursts, unless there are no rates for it. A bot
that fires a burst waits as much longer for the next. -/
def runBurst : Option Spec :=
  if c.burstRates.isEmpty then none
  else some ⟨.open, ⟨"burst", c.burstRates.headD 0⟩, c.nSweep, c.burstSize,
    c.burstRates.length * (c.burstStepSecs + 1) + 5,
    c.burstRates.flatMap (fun rate =>
      [.pace (max c.nSweep 1 * c.burstSize / max (c.share rate) 1), .tagRate 0, .sleep 1,
        .tagRate rate, .sleep c.burstStepSecs])⟩

/-- The phases of a run, in order: the sweep, the bursts if there are any, and
the closed phase at the end. -/
def plan : List Spec := c.runSweep :: c.runBurst.toList ++ [c.runClosed]

end Config

/-- A phase that starts: its bots are created, and its reporter's task has not
run yet. -/
def Spec.begin (spec : Spec) (window : ℕ) (now : ℚ) : Phase :=
  ⟨List.replicate spec.bots (.new spec.mode window), false, now + spec.lifetime, 1, spec.burst,
    spec.tag, .created, .running spec.script⟩

/-- Where a run is. -/
inductive Stage where
  /-- The leader probes the engine, the others wait. -/
  | warmup
  /-- The phases to come. -/
  | phases (todo : List Spec)
  | finished
deriving DecidableEq

/-- **A worker in a run.** The phases that are over stay, since their receivers
may go on. -/
structure Worker where
  now : ℚ
  stats : Stats
  /-- The records it has transmitted. -/
  records : List Record
  stage : Stage
  /-- The phases that have begun, the latest first. -/
  phases : List Phase

/-- A worker whose run starts. -/
def Worker.new : Worker := ⟨0, .zero, [], .warmup, []⟩

/-- **What can happen in a run.** -/
inductive Event where
  /-- Time passes. -/
  | tick (secs : ℚ)
  /-- An iteration of the probe is over. -/
  | probed (passed : Bool)
  /-- The warmup is over. -/
  | warm
  /-- The next phase starts. -/
  | begin
  /-- The latest phase takes a step. -/
  | main
  /-- The reporter of the latest phase takes a step. -/
  | report
  /-- A bot of a phase does. -/
  | bot (phase bot : ℕ) (event : BotEvent)
  /-- The last phase is over, and so is the run. -/
  | finish
deriving DecidableEq

namespace Worker

/-- The warmup record. -/
def warmupRecord (stats : Stats) : Record :=
  ⟨⟨"warmup", 0⟩, 0, 0, 0, stats.corrPass, stats.corrTotal, []⟩

/-- Whether no phase is going on: the latest has come to its end. -/
def idle (w : Worker) : Prop := ∀ ph ∈ w.phases.head?, ph.main = .done

instance (w : Worker) : Decidable w.idle :=
  inferInstanceAs (Decidable (∀ ph ∈ w.phases.head?, ph.main = .done))

/-- **A step of a run.** -/
def step (c : Config) (w : Worker) : Event → Option Worker
  | .tick secs => if 0 ≤ secs then some { w with now := w.now + secs } else none
  | .probed passed =>
    match w.stage with
    | .warmup =>
      if c.isLeader then some { w with stats := w.stats.verdict passed } else none
    | _ => none
  | .warm =>
    match w.stage with
    | .warmup =>
      some { w with
        records := if c.isLeader then w.records ++ [warmupRecord w.stats] else w.records
        stage := .phases c.plan }
    | _ => none
  | .begin =>
    match w.stage with
    | .phases (spec :: todo) =>
      if w.idle then
        some { w with stage := .phases todo, phases := spec.begin c.window w.now :: w.phases }
      else none
    | _ => none
  | .main =>
    match w.stage, w.phases with
    | .phases _, ph :: phs => (ph.mainStep w.now).map (fun ph' => { w with phases := ph' :: phs })
    | _, _ => none
  | .report =>
    match w.stage, w.phases with
    | .phases _, ph :: phs =>
      (ph.reporterStep w.stats w.now).map (fun r =>
        { w with phases := r.1 :: phs, records := w.records ++ r.2.toList })
    | _, _ => none
  | .bot p i e =>
    match w.stage, w.phases[p]? with
    | .phases _, some ph =>
      (stepAt (Bot.step c.wire c.scaled (ph.env w.now)) ph.bots i e).map (fun r =>
        { w with phases := w.phases.set p { ph with bots := r.1 }, stats := w.stats.add r.2 })
    | _, _ => none
  | .finish =>
    match w.stage with
    | .phases [] => if w.idle then some { w with stage := .finished } else none
    | _ => none

/-- **The steps of a run, one by one**, each with what it asks for. -/
inductive Steps (c : Config) (w : Worker) : Event → Worker → Prop where
  | tick (secs : ℚ) : 0 ≤ secs → Steps c w (.tick secs) { w with now := w.now + secs }
  | probed (passed : Bool) : w.stage = .warmup → c.isLeader = true →
    Steps c w (.probed passed) { w with stats := w.stats.verdict passed }
  | warm : w.stage = .warmup →
    Steps c w .warm
      { w with
        records := if c.isLeader then w.records ++ [warmupRecord w.stats] else w.records
        stage := .phases c.plan }
  | begins (spec : Spec) (todo : List Spec) : w.stage = .phases (spec :: todo) → w.idle →
    Steps c w .begin
      { w with stage := .phases todo, phases := spec.begin c.window w.now :: w.phases }
  | main (todo : List Spec) (ph ph' : Phase) (phs : List Phase) : w.stage = .phases todo →
    w.phases = ph :: phs → ph.mainStep w.now = some ph' →
    Steps c w .main { w with phases := ph' :: phs }
  | report (todo : List Spec) (ph ph' : Phase) (phs : List Phase) (rec : Option Record) :
    w.stage = .phases todo → w.phases = ph :: phs →
    ph.reporterStep w.stats w.now = some (ph', rec) →
    Steps c w .report { w with phases := ph' :: phs, records := w.records ++ rec.toList }
  | bot (todo : List Spec) (p i : ℕ) (e : BotEvent) (ph : Phase) (b b' : Bot) (t : Tally) :
    w.stage = .phases todo → w.phases[p]? = some ph → ph.bots[i]? = some b →
    b.step c.wire c.scaled (ph.env w.now) e = some (b', t) →
    Steps c w (.bot p i e)
      { w with phases := w.phases.set p { ph with bots := ph.bots.set i b' },
               stats := w.stats.add t }
  | finish : w.stage = .phases [] → w.idle → Steps c w .finish { w with stage := .finished }

/-- **A step is one of these.** -/
theorem steps_of_step {c : Config} {w w' : Worker} {e : Event} (h : w.step c e = some w') :
    Steps c w e w' := by
  cases e with
  | tick secs =>
    rw [step] at h
    split_ifs at h with hs
    cases h
    exact .tick secs hs
  | probed passed =>
    rw [step] at h
    split at h
    · split_ifs at h with hl
      cases h
      exact .probed passed ‹_› hl
    · cases h
  | warm =>
    rw [step] at h
    split at h
    · cases h
      exact .warm ‹_›
    · cases h
  | begin =>
    rw [step] at h
    split at h
    · split_ifs at h with hidle
      cases h
      exact .begins _ _ ‹_› hidle
    · cases h
  | main =>
    rw [step] at h
    split at h
    · obtain ⟨ph', hmain, h⟩ := Option.map_eq_some_iff.mp h
      cases h
      exact .main _ _ _ _ ‹_› ‹_› hmain
    · cases h
  | report =>
    rw [step] at h
    split at h
    · obtain ⟨⟨ph', rec⟩, hrep, h⟩ := Option.map_eq_some_iff.mp h
      cases h
      exact .report _ _ _ _ _ ‹_› ‹_› hrep
    · cases h
  | bot p i e =>
    rw [step] at h
    split at h
    · obtain ⟨⟨bots, t⟩, hbot, h⟩ := Option.map_eq_some_iff.mp h
      cases h
      obtain ⟨b, b', hb, hstep, rfl⟩ := stepAt_eq_some.mp hbot
      exact .bot _ p i e _ b b' t ‹_› ‹_› hb hstep
    · cases h
  | finish =>
    rw [step] at h
    split at h
    · split_ifs at h with hidle
      cases h
      exact .finish ‹_› hidle
    · cases h

end Worker

end Fleet
