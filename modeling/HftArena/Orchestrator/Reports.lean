import HftArena.Orchestrator.Serial

/-!
# Done reports

`_runevents_listener` and `_on_run_done` of `orchestrator/app.py` beside the
lane. A done report comes in when the leader of a run has sent it, at any time
after the start command was; handling it stops the sandbox of the submission,
in a thread, and then signals the run. The listener handles one report after
the other and ends with the first exception; over gRPC each report has a
handler of its own.

A sandbox has the name of its submission and a report the id of its run. So a
report stops the sandbox of another run if it comes, or is handled, when its
submission has been launched again (`spares_of_timely`).

Here reports come from anywhere; the arena, where they come from workers, is in
`Arena.World`.
-/

namespace Orchestrator

/-- A done report that has come in. -/
structure Report where
  job : Job
  /-- Whether `sandbox.stop` has taken effect. -/
  stopped : Bool
deriving DecidableEq

/-- **The orchestrator**: the lane, and the reports on their way to it. -/
structure App where
  lane : Lane
  /-- The runs whose start command the workers were sent. -/
  announced : List Job
  /-- The reports that are handled, or wait for it. -/
  reports : List Report
  /-- Whether the task of `_runevents_listener` is alive. -/
  listening : Bool

/-- **What can happen to the orchestrator.** -/
inductive AppEvent where
  /-- The dispatcher takes a step, or a request is queued. -/
  | lane (e : LaneEvent)
  /-- A done report comes in. -/
  | report (job : Job)
  /-- A handler's `sandbox.stop` takes effect. -/
  | stops (i : ℕ)
  /-- A handler has told the dashboard, and calls `_signal_done`. -/
  | signals (i : ℕ)
  /-- A call of a handler raises. -/
  | fails (i : ℕ)
deriving DecidableEq

/-- The run whose start command the workers get with an effect. -/
def Effect.start (control : Control) : Effect → Option Job
  | .announces job => if control = .redis then some job else none
  | .broadcasts job => if control = .grpc then some job else none
  | .removes _ | .starts _ => none

namespace App

/-- The orchestrator when it starts. -/
def new : App := ⟨.new, [], [], true⟩

/-- What the lane does by itself. A request gets an id that no run has. -/
def Accepts (a : App) : LaneEvent → Prop
  | .enqueue job => job.run ∉ (a.lane.taken ++ a.lane.queue).map Job.run
  | .signal _ | .stop _ => False
  | _ => True

instance (a : App) : ∀ e, Decidable (a.Accepts e)
  | .enqueue job => inferInstanceAs (Decidable (job.run ∉ _))
  | .signal _ | .stop _ => isFalse id
  | .take | .effect | .returns | .healthy _ | .raises | .wake | .timeout => isTrue trivial

/-- The runs that a step of the lane starts. -/
def starts (control : Control) (a : App) : LaneEvent → List Job
  | .effect => (a.lane.pc.effect.bind (·.2.start control)).toList
  | _ => []

/-- Only what the dispatcher does outside starts a run. -/
theorem starts_of_ne {control : Control} {a : App} {e : LaneEvent} (h : e ≠ .effect) :
    a.starts control e = [] := by
  cases e with
  | effect => exact absurd rfl h
  | _ => rfl

/-- Whether a report is being handled: over Redis the listener handles the
first, over gRPC all are handled at once. -/
def Handles (control : Control) (a : App) (i : ℕ) : Prop :=
  control = .grpc ∨ a.listening = true ∧ i = 0

instance (control : Control) (a : App) (i : ℕ) : Decidable (a.Handles control i) :=
  inferInstanceAs (Decidable (_ ∨ _))

/-- **A step of the orchestrator.** -/
def step (control : Control) (a : App) : AppEvent → Option App
  | .lane e =>
    if a.Accepts e then
      (a.lane.step control e).map
        (fun l => { a with lane := l, announced := a.announced ++ a.starts control e })
    else none
  | .report job =>
    if job ∈ a.announced then some { a with reports := a.reports ++ [⟨job, false⟩] } else none
  | .stops i =>
    a.reports[i]?.bind (fun r =>
      if a.Handles control i ∧ r.stopped = false then
        some { a with lane := a.lane.affect (.removes r.job.submission),
                      reports := a.reports.set i { r with stopped := true } }
      else none)
  | .signals i =>
    a.reports[i]?.bind (fun r =>
      if a.Handles control i ∧ r.stopped = true then
        some { a with lane := a.lane.signalDone r.job.run, reports := a.reports.eraseIdx i }
      else none)
  | .fails i =>
    a.reports[i]?.bind (fun _ =>
      if a.Handles control i then
        match control with
        | .redis => some { a with listening := false }
        | .grpc => some { a with reports := a.reports.eraseIdx i }
      else none)

/-- **The steps of the orchestrator, one by one**, each with what it asks
for. -/
inductive Steps (control : Control) (a : App) : AppEvent → App → Prop where
  | lane (e : LaneEvent) (l : Lane) : a.Accepts e → a.lane.step control e = some l →
    Steps control a (.lane e) { a with lane := l, announced := a.announced ++ a.starts control e }
  | report (job : Job) : job ∈ a.announced →
    Steps control a (.report job) { a with reports := a.reports ++ [⟨job, false⟩] }
  | stops (i : ℕ) (r : Report) : a.reports[i]? = some r → a.Handles control i → r.stopped = false →
    Steps control a (.stops i)
      { a with lane := a.lane.affect (.removes r.job.submission),
               reports := a.reports.set i { r with stopped := true } }
  | signals (i : ℕ) (r : Report) : a.reports[i]? = some r → a.Handles control i →
    r.stopped = true →
    Steps control a (.signals i)
      { a with lane := a.lane.signalDone r.job.run, reports := a.reports.eraseIdx i }
  | dies (i : ℕ) (r : Report) : a.reports[i]? = some r → a.Handles control i → control = .redis →
    Steps control a (.fails i) { a with listening := false }
  | aborts (i : ℕ) (r : Report) : a.reports[i]? = some r → a.Handles control i → control = .grpc →
    Steps control a (.fails i) { a with reports := a.reports.eraseIdx i }

/-- **A step is one of these.** -/
theorem steps_of_step {control : Control} {a a' : App} {e : AppEvent}
    (h : a.step control e = some a') : Steps control a e a' := by
  cases e with
  | lane e =>
    rw [step] at h
    split_ifs at h with hacc
    obtain ⟨l, hl, rfl⟩ := Option.map_eq_some_iff.mp h
    exact .lane e l hacc hl
  | report job =>
    rw [step] at h
    split_ifs at h with hjob
    cases h
    exact .report job hjob
  | stops i =>
    obtain ⟨r, hr, h⟩ := Option.bind_eq_some_iff.mp h
    split_ifs at h with hon
    cases h
    exact .stops i r hr hon.1 hon.2
  | signals i =>
    obtain ⟨r, hr, h⟩ := Option.bind_eq_some_iff.mp h
    split_ifs at h with hon
    cases h
    exact .signals i r hr hon.1 hon.2
  | fails i =>
    obtain ⟨r, hr, h⟩ := Option.bind_eq_some_iff.mp h
    split_ifs at h with hon
    cases control with
    | redis =>
      cases h
      exact .dies i r hr hon rfl
    | grpc =>
      cases h
      exact .aborts i r hr hon rfl

variable {control : Control} {a a' : App} {e : AppEvent}

/-- **To the lane, a step of the orchestrator is one of its own**, or
nothing. -/
theorem lane_step (h : a.step control e = some a') :
    a'.lane = a.lane ∨ ∃ le, a.lane.step control le = some a'.lane := by
  cases steps_of_step h with
  | lane e l hacc hl => exact Or.inr ⟨e, hl⟩
  | report | dies | aborts => exact Or.inl rfl
  | stops i r => exact Or.inr ⟨.stop r.job.submission, rfl⟩
  | signals i r => exact Or.inr ⟨.signal r.job.run, rfl⟩

/-- What every step of the lane keeps. -/
theorem lane_inv {P : Lane → Prop} (hP : ∀ l le l', P l → l.step control le = some l' → P l')
    (h : P a.lane) (hstep : a.step control e = some a') : P a'.lane := by
  rcases lane_step hstep with heq | ⟨le, hle⟩
  · rw [heq]
    exact h
  · exact hP _ le _ h hle

/-! ## Reports that come too late

A report is handled in two steps, and stops a sandbox by the name of the
submission. If a later run of the submission holds the lane by then, it is its
sandbox that is stopped. -/

end App

namespace Lane

/-- The run of a submission that took the lane last. -/
def latest (l : Lane) (submission : ℕ) : Option Job :=
  (l.taken.filter (·.submission = submission)).getLast?

/-- The sandboxes that run are those of the runs they were launched for. -/
def Labelled (l : Lane) : Prop := ∀ s job, l.sandboxes s = some job → job.submission = s

end Lane

namespace App

/-- No report stops the sandbox of another run that has the lane. -/
def Spares (a : App) : AppEvent → Prop
  | .stops i => ∀ r ∈ a.reports[i]?, ∀ job ∈ a.lane.active,
      a.lane.sandboxes r.job.submission = some job → job.run = r.job.run
  | _ => True

/-- A report comes in before its submission takes the lane again, and no run
takes it while a report for its submission is to stop the sandbox. The
condition is on the event and on the lane before it. -/
def Timely (a : App) : AppEvent → Prop
  | .report job => a.lane.latest job.submission = some job
  | .lane .take => ∀ job ∈ a.lane.queue.head?, ∀ r ∈ a.reports,
      r.job.submission = job.submission → r.stopped = true
  | _ => True

instance (a : App) : ∀ e, Decidable (a.Spares e)
  | .stops i => inferInstanceAs (Decidable (∀ r ∈ a.reports[i]?, ∀ job ∈ a.lane.active, _ → _))
  | .lane _ | .report _ | .signals _ | .fails _ => isTrue trivial

instance (a : App) (e : AppEvent) : Decidable (a.Timely e) := by
  unfold Timely
  split
  · infer_instance
  · exact inferInstanceAs (Decidable (∀ job ∈ a.lane.queue.head?, ∀ r ∈ a.reports, _ → _))
  · infer_instance

end App

namespace Lane

variable {control : Control} {l l' : Lane} {e : LaneEvent}

/-- A sandbox gets the name of the submission that it is for. -/
theorem Labelled.affect (h : l.Labelled) (e : Effect) : (l.affect e).Labelled := by
  intro s job hjob
  rcases sandboxes_affect hjob with ⟨-, hs⟩ | hjob
  · exact hs.symm
  · exact h s job hjob

/-- **Every step of the lane keeps it.** -/
theorem Labelled.step (h : l.Labelled) (hstep : l.step control e = some l') : l'.Labelled := by
  cases steps_of_step hstep with
  | effect pc e he => exact Labelled.affect (l := l.goto pc) h e
  | stop submission => exact h.affect _
  | signal run =>
    unfold signalDone
    split_ifs
    · exact h
    · exact h
  | _ => exact h

/-- Only a turn changes which run is the latest, -/
theorem latest_step (control : Control) {submission : ℕ} (htake : e ≠ .take)
    (hstep : l.step control e = some l') :
    l'.latest submission = l.latest submission := by
  unfold latest
  rw [taken_step htake hstep]

/-- The run that has the lane is the latest of its submission. -/
theorem Tidy.latest (h : l.Tidy) {job : Job} (hjob : l.active = some job) :
    l.latest job.submission = some job := by
  obtain ⟨before, htaken⟩ := List.getLast?_eq_some_iff.mp (h.last job (h.active ▸ hjob))
  unfold Lane.latest
  rw [htaken, List.filter_append, List.filter_cons_of_pos (by simp)]
  exact List.getLast?_concat

/-- and only for its own submission. -/
theorem latest_take {job : Job} {queue : List Job} {submission : ℕ}
    (hne : job.submission ≠ submission)
    (hstep : l.step control .take = some l') (hqueue : l.queue = job :: queue) :
    l'.latest submission = l.latest submission := by
  cases steps_of_step hstep with
  | take j q hpc hq =>
    cases hqueue.symm.trans hq
    unfold latest
    dsimp only
    rw [List.filter_append, List.filter_cons_of_neg (by simpa using hne), List.filter_nil,
      List.append_nil]

end Lane

namespace App

variable {control : Control} {a a' : App} {e : AppEvent}

/-- What keeps reports from the sandboxes of other runs: a report that is to
stop a sandbox is for the latest run of its submission. -/
structure Due (a : App) : Prop where
  tidy : a.lane.Tidy
  labelled : a.lane.Labelled
  due : ∀ r ∈ a.reports, r.stopped = false → a.lane.latest r.job.submission = some r.job

/-- At the start there are no reports. -/
theorem due_new : new.Due := ⟨Lane.tidy_new, nofun, nofun⟩

/-- **Every timely step keeps it.** -/
theorem Due.step (h : a.Due) (hgood : a.Timely e) (hstep : a.step control e = some a') : a'.Due := by
  refine ⟨lane_inv (fun _ _ _ ht hs => ht.step hs) h.tidy hstep,
    lane_inv (fun _ _ _ hl hs => hl.step hs) h.labelled hstep, ?_⟩
  cases steps_of_step hstep with
  | lane e l hacc hl =>
    intro r hr hstopped
    by_cases htake : e = .take
    · subst htake
      cases Lane.steps_of_step hl with
      | take job queue hpc hqueue =>
        refine (Lane.latest_take (fun heq => ?_) hl hqueue).trans (h.due r hr hstopped)
        have hdone := hgood job (by rw [hqueue]; rfl) r hr heq.symm
        rw [hstopped] at hdone
        cases hdone
    · exact (Lane.latest_step control htake hl).trans (h.due r hr hstopped)
  | report job hjob =>
    exact List.forall_mem_append.mpr ⟨h.due, fun r hr _ =>
      by rw [List.mem_singleton.mp hr]; exact hgood⟩
  | stops i r hr hon hstopped =>
    intro r' hr' hstopped'
    rcases List.mem_or_eq_of_mem_set hr' with hr' | rfl
    · exact (Lane.latest_step control (e := .stop r.job.submission) nofun rfl).trans
        (h.due r' hr' hstopped')
    · cases hstopped'
  | signals i r hr hon hstopped =>
    exact fun r' hr' hstopped' =>
      (Lane.latest_step control (e := .signal r.job.run) nofun rfl).trans
        (h.due r' (List.mem_of_mem_eraseIdx hr') hstopped')
  | dies => exact h.due
  | aborts i r => exact fun r' hr' => h.due r' (List.mem_of_mem_eraseIdx hr')

/-- A report that is due stops the sandbox of no other run. -/
theorem Due.spares (h : a.Due) (hstep : a.step control e = some a') : a.Spares e := by
  cases steps_of_step hstep with
  | stops i r hr hon hstopped =>
    intro r' hr' job hactive hrun
    cases hr.symm.trans hr'
    have hlatest := h.tidy.latest hactive
    rw [h.labelled _ _ hrun, h.due r (List.mem_of_getElem? hr) hstopped] at hlatest
    exact congrArg Job.run (Option.some_inj.mp hlatest).symm
  | _ => trivial

/-- **A done report stops no other run as long as reports are timely.** For
both transports, and every order of requests, timeouts and reports.

A report says which run is done and stops the sandbox of its submission, which
may be that of another run by then. Reports are timely if each is handled
before a later run of its submission is taken. -/
theorem spares_of_timely (control : Control) {a : App} {es : List AppEvent}
    (hexec : exec (step control) new es = some a) (h : Along (step control) Timely new es) :
    Along (step control) Spares new es :=
  along_of_inv Due hexec (fun _ _ _ hs hgood hstep =>
    ⟨hs.step hgood hstep, hs.spares hstep⟩) due_new h

/-- A run from its turn to where the dispatcher waits for it. -/
def launches (control : Control) : List AppEvent :=
  [.lane .take, .lane .returns, .lane .effect, .lane .effect, .lane .returns, .lane (.healthy true),
    .lane .returns, .lane .effect, .lane .returns]
    ++ if control = .grpc then [.lane .effect, .lane .returns] else []

/-- A run that times out. -/
def timesOut : List AppEvent :=
  [.lane .timeout, .lane .effect, .lane .returns, .lane .returns]

/-- Two runs of one submission, of which the first reports in time. -/
def inTime (control : Control) : List AppEvent :=
  [.lane (.enqueue ⟨1, 7, 30⟩), .lane (.enqueue ⟨2, 7, 30⟩)] ++ launches control
    ++ [.report ⟨1, 7, 30⟩, .stops 0, .signals 0, .lane .wake] ++ launches control
    ++ [.report ⟨2, 7, 30⟩, .stops 0, .signals 0, .lane .wake]

theorem spares_inTime :
    ∃ a, exec (step .grpc) new (inTime .grpc) = some a
      ∧ Along (step .grpc) Spares new (inTime .grpc) := by
  obtain ⟨a, ha⟩ := Option.isSome_iff_exists.mp
    (by decide +kernel : (exec (step .grpc) new (inTime .grpc)).isSome)
  exact ⟨a, ha, spares_of_timely .grpc ha (by decide +kernel)⟩

/-- Two runs of one submission, of which the first reports when it has timed
out and the second has been launched. -/
def tooLate (control : Control) : List AppEvent :=
  [.lane (.enqueue ⟨1, 7, 30⟩), .lane (.enqueue ⟨2, 7, 30⟩)] ++ launches control ++ timesOut
    ++ launches control ++ [.report ⟨1, 7, 30⟩, .stops 0]

/-- **The late report stops the sandbox of the second run**, over either
transport. -/
theorem not_spares_tooLate :
    (∃ a, exec (step .redis) new (tooLate .redis) = some a
        ∧ a.lane.active = some ⟨2, 7, 30⟩ ∧ a.lane.sandboxes 7 = none)
      ∧ ¬ Along (step .redis) Spares new (tooLate .redis)
      ∧ ¬ Along (step .grpc) Spares new (tooLate .grpc) := by
  refine ⟨?_, by decide +kernel, by decide +kernel⟩
  show ∃ a ∈ exec _ _ _, _
  decide +kernel

end App

end Orchestrator
