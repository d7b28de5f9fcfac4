import HftArena.Lib.System
import Mathlib.Logic.Function.Basic

/-!
# The run lane

`_run_dispatcher` and `_execute_run` of `orchestrator/app.py`, with the queue
of runs, the globals `_active` and `_done_ev`, and the sandboxes that are
running. The dispatcher is where it awaits; a call that does something
outside – in a thread, or on the other side of a connection – does it at some
time before it returns, and may raise before or after.

Requests, calls of `_signal_done` and stops of a sandbox come from other tasks,
at any time.

The dispatcher is a table (`Pc`): for each place where it can be there is where
it goes when the call returns, when it raises, and what the call does outside.
The events of the lane pick one of the three, or come from elsewhere.
-/

namespace Orchestrator

/-- `CONTROL`: how commands get to the workers. -/
inductive Control where
  | redis
  | grpc
deriving DecidableEq

/-- **A queued run**, with what is used of its request. -/
structure Job where
  /-- `run_id` -/
  run : ℕ
  /-- `submission_id` -/
  submission : ℕ
  /-- `duration` -/
  duration : ℤ
deriving DecidableEq

/-- How far `sandbox.launch` is: it removes a container of the same name before
it runs the new one. -/
inductive Launch where
  | pending
  /-- The container of the submission was removed, if there was one. -/
  | removed
  /-- The new one runs. -/
  | started
deriving DecidableEq

/-- **Where the dispatcher is**: the call it awaits, and whether that has done
what it does outside. -/
inductive Pc where
  /-- In `RUN_QUEUE.get()`. -/
  | idle
  /-- `Deploying sandbox` -/
  | deploying (job : Job)
  | launching (job : Job) (launch : Launch)
  /-- In `sandbox.wait_healthy`. -/
  | checking (job : Job)
  /-- In `sandbox.logs`. -/
  | tailing (job : Job)
  /-- In `sandbox.stop` after a failed health check. -/
  | discarding (job : Job) (stopped : Bool)
  /-- `Sandbox failed health check` -/
  | rejecting (job : Job)
  /-- `Attacking` -/
  | attacking (job : Job)
  /-- `CH_CONTROL` gets the start command. -/
  | announcing (job : Job) (sent : Bool)
  /-- The workers get it over gRPC. -/
  | broadcasting (job : Job) (sent : Bool)
  /-- In `wait_for(_done_ev.wait())`. -/
  | waiting (job : Job)
  /-- In `sandbox.stop` after a timeout. -/
  | expiring (job : Job) (stopped : Bool)
  /-- `Run timed out` -/
  | expired (job : Job)
  /-- `Run failed` -/
  | failing (job : Job)
  /-- The task has ended with an exception. -/
  | dead
deriving DecidableEq

/-- What a call of the dispatcher does outside. -/
inductive Effect where
  /-- The container of a submission is removed, if there is one. -/
  | removes (submission : ℕ)
  /-- A container runs for a run. -/
  | starts (job : Job)
  /-- `CH_CONTROL` has the start command. -/
  | announces (job : Job)
  /-- The workers that are connected over gRPC have it. -/
  | broadcasts (job : Job)
deriving DecidableEq

namespace Pc

/-- The run that the dispatcher executes. -/
def job : Pc → Option Job
  | .idle | .dead => none
  | .deploying job | .launching job _ | .checking job | .tailing job | .discarding job _
  | .rejecting job | .attacking job | .announcing job _ | .broadcasting job _ | .waiting job
  | .expiring job _ | .expired job | .failing job => some job

/-- Where the dispatcher goes when it has sent the start command: a timeout
that is not positive is over at once, and an event that is set is not waited
for. -/
def wait (doneEv : Bool) (job : Job) : Pc :=
  if job.duration + 180 ≤ 0 then .expiring job false
  else if doneEv then .idle
  else .waiting job

/-- A call returns that has nothing to tell. -/
def returns (control : Control) (doneEv : Bool) : Pc → Option Pc
  | .deploying job => some (.launching job .pending)
  | .launching job .started => some (.checking job)
  | .tailing job => some (.discarding job false)
  | .discarding job true => some (.rejecting job)
  | .attacking job => some (.announcing job false)
  | .announcing job true =>
    if control = .grpc then some (.broadcasting job false) else some (wait doneEv job)
  | .broadcasting job true => some (wait doneEv job)
  | .expiring job true => some (.expired job)
  | .rejecting _ | .expired _ | .failing _ => some .idle
  | _ => none

/-- A call raises: the handler reports the failure, and what it raises itself
ends the task. `wait_for` raises a timeout only, which is an event of its
own. -/
def raises : Pc → Option Pc
  | .deploying job | .launching job _ | .checking job | .tailing job | .discarding job _
  | .rejecting job | .attacking job | .announcing job _ | .broadcasting job _ | .expiring job _
  | .expired job => some (.failing job)
  | .failing _ => some .dead
  | .idle | .waiting _ | .dead => none

/-- A call does what it does outside. A call that only tells the dashboard, or
looks at the sandbox, does nothing that matters here. -/
def effect : Pc → Option (Pc × Effect)
  | .launching job .pending => some (.launching job .removed, .removes job.submission)
  | .launching job .removed => some (.launching job .started, .starts job)
  | .discarding job false => some (.discarding job true, .removes job.submission)
  | .announcing job false => some (.announcing job true, .announces job)
  | .broadcasting job false => some (.broadcasting job true, .broadcasts job)
  | .expiring job false => some (.expiring job true, .removes job.submission)
  | _ => none

end Pc

/-- **The lane**: what the dispatcher works on, and where it is. -/
structure Lane where
  /-- `RUN_QUEUE` -/
  queue : List Job
  pc : Pc
  /-- `_active` -/
  active : Option Job
  /-- `_done_ev`, whether it is set. -/
  doneEv : Bool
  /-- The sandbox that runs for a submission, by the run it was launched
  for. -/
  sandboxes : ℕ → Option Job
  /-- The runs that have taken the lane. -/
  taken : List Job

/-- **What can happen to the lane**: steps of the dispatcher, the ends of its
wait, and what other tasks do. -/
inductive LaneEvent where
  /-- A request is queued. -/
  | enqueue (job : Job)
  | take
  | effect
  | returns
  /-- `sandbox.wait_healthy` returns. -/
  | healthy (ok : Bool)
  | raises
  /-- The wait ends with the event set. -/
  | wake
  /-- It ends without. -/
  | timeout
  /-- `_signal_done` is called. -/
  | signal (run : ℕ)
  /-- `sandbox.stop` is called by another task, and takes effect. -/
  | stop (submission : ℕ)
deriving DecidableEq

namespace Lane

/-- The lane when the orchestrator starts. -/
def new : Lane := ⟨[], .idle, none, false, fun _ => none, []⟩

/-- The dispatcher goes on; `finally`, when it is done with a run. -/
def goto (l : Lane) (pc : Pc) : Lane :=
  { l with pc := pc, active := if pc = .idle ∨ pc = .dead then none else l.active }

/-- What a call does to the sandboxes: there is one at most for a
submission. -/
def affect (l : Lane) : Effect → Lane
  | .removes submission => { l with sandboxes := Function.update l.sandboxes submission none }
  | .starts job => { l with sandboxes := Function.update l.sandboxes job.submission (some job) }
  | .announces _ | .broadcasts _ => l

/-- `_signal_done`: it sets the event if its run is the active one. -/
def signalDone (l : Lane) (run : ℕ) : Lane :=
  if ∃ job ∈ l.active, job.run = run then { l with doneEv := true } else l

/-- **A step of the lane.** -/
def step (control : Control) (l : Lane) : LaneEvent → Option Lane
  | .enqueue job => some { l with queue := l.queue ++ [job] }
  | .take =>
    match l.pc, l.queue with
    | .idle, job :: queue =>
      some { l with queue := queue, pc := .deploying job, active := some job, doneEv := false,
                    taken := l.taken ++ [job] }
    | _, _ => none
  | .effect => l.pc.effect.map (fun e => (l.goto e.1).affect e.2)
  | .returns => (l.pc.returns control l.doneEv).map l.goto
  | .healthy ok =>
    match l.pc with
    | .checking job => some (l.goto (if ok then .attacking job else .tailing job))
    | _ => none
  | .raises => l.pc.raises.map l.goto
  | .wake =>
    match l.pc with
    | .waiting _ => if l.doneEv then some (l.goto .idle) else none
    | _ => none
  | .timeout =>
    match l.pc with
    | .waiting job => some (l.goto (.expiring job false))
    | _ => none
  | .signal run => some (l.signalDone run)
  | .stop submission => some (l.affect (.removes submission))

/-- **The steps of the lane, one by one**, each with what it asks for. -/
inductive Steps (control : Control) (l : Lane) : LaneEvent → Lane → Prop where
  | enqueue (job : Job) : Steps control l (.enqueue job) { l with queue := l.queue ++ [job] }
  | take (job : Job) (queue : List Job) : l.pc = .idle → l.queue = job :: queue →
    Steps control l .take
      { l with queue := queue, pc := .deploying job, active := some job, doneEv := false,
               taken := l.taken ++ [job] }
  | effect (pc : Pc) (e : Effect) : l.pc.effect = some (pc, e) →
    Steps control l .effect ((l.goto pc).affect e)
  | returns (pc : Pc) : l.pc.returns control l.doneEv = some pc →
    Steps control l .returns (l.goto pc)
  | healthy (job : Job) : l.pc = .checking job →
    Steps control l (.healthy true) (l.goto (.attacking job))
  | unhealthy (job : Job) : l.pc = .checking job →
    Steps control l (.healthy false) (l.goto (.tailing job))
  | raises (pc : Pc) : l.pc.raises = some pc → Steps control l .raises (l.goto pc)
  | wake (job : Job) : l.pc = .waiting job → l.doneEv = true →
    Steps control l .wake (l.goto .idle)
  | timeout (job : Job) : l.pc = .waiting job →
    Steps control l .timeout (l.goto (.expiring job false))
  | signal (run : ℕ) : Steps control l (.signal run) (l.signalDone run)
  | stop (submission : ℕ) : Steps control l (.stop submission) (l.affect (.removes submission))

/-- **A step is one of these.** -/
theorem steps_of_step {control : Control} {l l' : Lane} {e : LaneEvent}
    (h : l.step control e = some l') : Steps control l e l' := by
  cases e with
  | enqueue job =>
    cases h
    exact .enqueue job
  | take =>
    rw [step] at h
    split at h
    · cases h
      exact .take _ _ ‹_› ‹_›
    · cases h
  | effect =>
    obtain ⟨⟨pc, e⟩, he, rfl⟩ := Option.map_eq_some_iff.mp h
    exact .effect pc e he
  | returns =>
    obtain ⟨pc, hpc, rfl⟩ := Option.map_eq_some_iff.mp h
    exact .returns pc hpc
  | healthy ok =>
    rw [step] at h
    split at h
    · cases h
      cases ok with
      | true => exact .healthy _ ‹_›
      | false => exact .unhealthy _ ‹_›
    · cases h
  | raises =>
    obtain ⟨pc, hpc, rfl⟩ := Option.map_eq_some_iff.mp h
    exact .raises pc hpc
  | wake =>
    rw [step] at h
    split at h
    · split_ifs at h with hdone
      cases h
      exact .wake _ ‹_› hdone
    · cases h
  | timeout =>
    rw [step] at h
    split at h
    · cases h
      exact .timeout _ ‹_›
    · cases h
  | signal run =>
    cases h
    exact .signal run
  | stop submission =>
    cases h
    exact .stop submission

end Lane

end Orchestrator
