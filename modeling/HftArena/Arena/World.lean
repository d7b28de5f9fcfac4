import HftArena.Fleet.Crew
import HftArena.Orchestrator.Announced

/-!
# The arena

The orchestrator, and the processes of the workers with the keys they share.
What the orchestrator sends to the workers waits for each that is connected, in
order, and is handled by `_dispatch` of `bot_fleet/fleet.py`: a start command
creates a task of `run_load`, unless there is one that has not ended, and a
stop command cancels it. A task takes the steps of a `Member` of its run. It
may raise wherever it is, and one that is cancelled raises and does nothing
else. When the leader of a run gets to the end, it sends the done report.

The stream of commands of a worker can break over gRPC; then it connects anew,
and what was to be sent in between is lost to it.

The orchestrator is the one of `Orchestrator.Reports`, and takes its own steps;
only the reports come from the workers now. So everything that is proved of the
orchestrator alone holds of it here (`World.exists_exec_app`).
-/

open Orchestrator Fleet

namespace Arena

/-- A command to the workers: `cfg` with `cmd` set to `start`, or to `stop`. -/
inductive Command where
  | start (job : Job)
  | stop
deriving DecidableEq

/-- **A task of `run_load`** that has not ended: the run it was started for,
and how far it is. -/
structure Task where
  job : Job
  member : Member
  /-- The done report was sent. -/
  sent : Bool
  /-- `cancel` was called. -/
  cancelled : Bool

/-- The task that a start command creates. -/
def Task.new (job : Job) : Task := ⟨job, .new, false, false⟩

/-- **The process of a worker**: what it hears of the orchestrator, and the
task that it runs. -/
structure Station where
  /-- Whether it is connected to the orchestrator. -/
  subscribed : Bool
  /-- The commands that wait to be handled. -/
  commands : List Command
  /-- `current`, unless it is done. -/
  current : Option Task
  /-- The runs whose start command it has handled. -/
  handled : List Job

namespace Station

/-- A process that starts. -/
def new : Station := ⟨false, [], none, []⟩

/-- `_dispatch`: a start command is ignored while there is a task, and a stop
command only asks the task to end. -/
def dispatch (s : Station) : Command → Station
  | .start job =>
    { s with current := some (s.current.getD (.new job)), handled := s.handled ++ [job] }
  | .stop => { s with current := s.current.map (fun t => { t with cancelled := true }) }

/-- Nothing is to be done: no task has not ended, and no start command
waits. -/
def Rested (s : Station) : Prop := s.current = none ∧ ∀ cmd ∈ s.commands, cmd = .stop

instance (s : Station) : Decidable s.Rested := inferInstanceAs (Decidable (_ ∧ _))

/-- Commands are sent. -/
def send (cmds : List Command) (s : Station) : Station :=
  if s.subscribed then { s with commands := s.commands ++ cmds } else s

/-- Time passes. -/
def tick (secs : ℚ) (s : Station) : Station :=
  { s with current := s.current.map (fun t => { t with member := t.member.tick secs }) }

/-- The task goes on, or has ended. -/
def goOn (s : Station) (t : Task) (m : Member) : Station :=
  { s with current := if m.pos = .ended then none else some { t with member := m } }

end Station

/-- **The arena**: the orchestrator, the clock, the keys of each run, and the
workers. -/
structure World where
  app : App
  now : ℚ
  /-- The keys of every run. -/
  keys : ℕ → Keys
  stations : List Station

/-- **What can happen in the arena.** -/
inductive WorldEvent where
  /-- The orchestrator takes a step by itself. -/
  | app (e : AppEvent)
  /-- `/stop` -/
  | stopAll
  | tick (secs : ℚ)
  | subscribe (i : ℕ)
  /-- The stream of commands breaks. -/
  | drop (i : ℕ)
  /-- A worker handles the next command. -/
  | deliver (i : ℕ)
  /-- The task of a worker takes a step. -/
  | task (i : ℕ) (e : MemberEvent)
  /-- The done report of a leader comes in. -/
  | publish (i : ℕ)
  /-- The task of a worker raises. -/
  | raises (i : ℕ)
deriving DecidableEq

namespace World

/-- The arena when the orchestrator and so many workers start. -/
def new (n : ℕ) : World := ⟨.new, 0, fun _ => .new, List.replicate n .new⟩

/-- The start commands that the orchestrator sends with a step. -/
def starts (control : Control) (w : World) : AppEvent → List Job
  | .lane e => w.app.starts control e
  | .report _ | .stops _ | .signals _ | .fails _ => []

/-- **A step of the arena.** Each run has a configuration of its own. A report
comes from a worker, so the orchestrator cannot make one up. -/
def step (control : Control) (c : Job → Config) (w : World) : WorldEvent → Option World
  | .app (.report _) => none
  | .app e =>
    (w.app.step control e).map (fun a =>
      { w with app := a, stations := w.stations.map (.send ((w.starts control e).map .start)) })
  | .stopAll => some { w with stations := w.stations.map (.send [.stop]) }
  | .tick secs =>
    if 0 ≤ secs then some { w with now := w.now + secs, stations := w.stations.map (.tick secs) }
    else none
  | .subscribe i =>
    w.stations[i]?.map (fun s =>
      { w with stations := w.stations.set i { s with subscribed := true } })
  | .drop i =>
    if control = .grpc then
      w.stations[i]?.map (fun s =>
        { w with stations := w.stations.set i { s with subscribed := false, commands := [] } })
    else none
  | .deliver i =>
    w.stations[i]?.bind (fun s =>
      match s.commands with
      | cmd :: cmds =>
        some { w with
          stations := w.stations.set i (Station.dispatch { s with commands := cmds } cmd) }
      | [] => none)
  | .task i e =>
    w.stations[i]?.bind (fun s => s.current.bind (fun t =>
      if t.cancelled = false ∧ (e = .report ↔ t.sent = true)
          -- over gRPC the report is answered when it has been handled
          ∧ (e = .report → control = .grpc → ∀ r ∈ w.app.reports, r.job ≠ t.job) then
        (t.member.step (c t.job) w.now (w.keys t.job.run) i e).map (fun r =>
          { w with keys := Function.update w.keys t.job.run r.2,
                   stations := w.stations.set i (s.goOn t r.1) })
      else none))
  | .publish i =>
    w.stations[i]?.bind (fun s => s.current.bind (fun t =>
      if t.member.pos = .reporting ∧ t.sent = false ∧ t.cancelled = false then
        (w.app.step control (.report t.job)).map (fun a =>
          { w with app := a,
                   stations := w.stations.set i { s with current := some { t with sent := true } } })
      else none))
  | .raises i =>
    w.stations[i]?.bind (fun s => s.current.map (fun _ =>
      { w with stations := w.stations.set i { s with current := none } }))

/-- **The steps of the arena, one by one**, each with what it asks for. -/
inductive Steps (control : Control) (c : Job → Config) (w : World) : WorldEvent → World → Prop where
  | app (e : AppEvent) (a : App) : (∀ job, e ≠ .report job) → w.app.step control e = some a →
    Steps control c w (.app e)
      { w with app := a, stations := w.stations.map (.send ((w.starts control e).map .start)) }
  | stopAll : Steps control c w .stopAll { w with stations := w.stations.map (.send [.stop]) }
  | tick (secs : ℚ) : 0 ≤ secs →
    Steps control c w (.tick secs)
      { w with now := w.now + secs, stations := w.stations.map (.tick secs) }
  | subscribe (i : ℕ) (s : Station) : w.stations[i]? = some s →
    Steps control c w (.subscribe i)
      { w with stations := w.stations.set i { s with subscribed := true } }
  | drop (i : ℕ) (s : Station) : w.stations[i]? = some s → control = .grpc →
    Steps control c w (.drop i)
      { w with stations := w.stations.set i { s with subscribed := false, commands := [] } }
  | deliver (i : ℕ) (s : Station) (cmd : Command) (cmds : List Command) : w.stations[i]? = some s →
    s.commands = cmd :: cmds →
    Steps control c w (.deliver i)
      { w with stations := w.stations.set i (Station.dispatch { s with commands := cmds } cmd) }
  | task (i : ℕ) (e : MemberEvent) (s : Station) (t : Task) (m : Member) (k : Keys) :
    w.stations[i]? = some s → s.current = some t → t.cancelled = false →
    (e = .report ↔ t.sent = true) →
    Member.Steps (c t.job) w.now (w.keys t.job.run) i t.member e m k →
    Steps control c w (.task i e)
      { w with keys := Function.update w.keys t.job.run k,
               stations := w.stations.set i (s.goOn t m) }
  | publish (i : ℕ) (s : Station) (t : Task) (a : App) : w.stations[i]? = some s →
    s.current = some t → t.member.pos = .reporting → t.sent = false →
    w.app.step control (.report t.job) = some a →
    Steps control c w (.publish i)
      { w with app := a,
               stations := w.stations.set i { s with current := some { t with sent := true } } }
  | raises (i : ℕ) (s : Station) (t : Task) : w.stations[i]? = some s → s.current = some t →
    Steps control c w (.raises i) { w with stations := w.stations.set i { s with current := none } }

variable {control : Control} {c : Job → Config} {w w' : World} {e : WorldEvent}

/-- **A step is one of these.** -/
theorem steps_of_step (h : w.step control c e = some w') : Steps control c w e w' := by
  cases e with
  | app e =>
    unfold step at h
    split at h
    case h_1 => cases h
    case h_2 ev hne heq =>
      cases heq
      obtain ⟨a, ha, rfl⟩ := Option.map_eq_some_iff.mp h
      exact .app e a (fun job heq => hne job (by rw [heq])) ha
    all_goals rename_i heq; cases heq
  | stopAll =>
    cases h
    exact .stopAll
  | tick secs =>
    rw [step] at h
    split_ifs at h with hs
    cases h
    exact .tick secs hs
  | subscribe i =>
    obtain ⟨s, hs, rfl⟩ := Option.map_eq_some_iff.mp h
    exact .subscribe i s hs
  | drop i =>
    rw [step] at h
    split_ifs at h with hgrpc
    obtain ⟨s, hs, rfl⟩ := Option.map_eq_some_iff.mp h
    exact .drop i s hs hgrpc
  | deliver i =>
    obtain ⟨s, hs, h⟩ := Option.bind_eq_some_iff.mp h
    split at h
    case h_1 cmd cmds hcmds =>
      cases h
      exact .deliver i s cmd cmds hs hcmds
    case h_2 => cases h
  | task i e =>
    obtain ⟨s, hs, h⟩ := Option.bind_eq_some_iff.mp h
    obtain ⟨t, ht, h⟩ := Option.bind_eq_some_iff.mp h
    split_ifs at h with hon
    obtain ⟨⟨m, k⟩, hm, rfl⟩ := Option.map_eq_some_iff.mp h
    exact .task i e s t m k hs ht hon.1 hon.2.1 (Member.steps_of_step hm)
  | publish i =>
    obtain ⟨s, hs, h⟩ := Option.bind_eq_some_iff.mp h
    obtain ⟨t, ht, h⟩ := Option.bind_eq_some_iff.mp h
    split_ifs at h with hon
    obtain ⟨a, ha, rfl⟩ := Option.map_eq_some_iff.mp h
    exact .publish i s t a hs ht hon.1 hon.2.1 ha
  | raises i =>
    obtain ⟨s, hs, h⟩ := Option.bind_eq_some_iff.mp h
    obtain ⟨t, ht, rfl⟩ := Option.map_eq_some_iff.mp h
    exact .raises i s t hs ht

/-- **To the orchestrator, a step of the arena is one of its own**, or
nothing. -/
theorem app_step (h : w.step control c e = some w') :
    w'.app = w.app ∨ ∃ ae, w.app.step control ae = some w'.app := by
  cases steps_of_step h with
  | app ae a hne ha => exact Or.inr ⟨ae, ha⟩
  | publish i s t a hs ht hpos hsent ha => exact Or.inr ⟨.report t.job, ha⟩
  | _ => exact Or.inl rfl

/-- **The arena runs the orchestrator**: what holds of the orchestrator in all
of its runs holds of it in the arena. -/
theorem exists_exec_app {n : ℕ} {es : List WorldEvent}
    (h : exec (step control c) (new n) es = some w) :
    ∃ as, exec (App.step control) App.new as = some w.app := by
  refine inv_of_exec (fun w => ∃ as, exec (App.step control) App.new as = some w.app) h ?_ ⟨[], rfl⟩
  rintro w e w' ⟨as, has⟩ hstep
  rcases app_step hstep with heq | ⟨ae, hae⟩
  · exact ⟨as, heq ▸ has⟩
  · exact ⟨as ++ [ae], exec_concat has hae⟩

end World

end Arena
