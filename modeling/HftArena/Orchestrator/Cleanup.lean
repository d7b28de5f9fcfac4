import HftArena.Orchestrator.Announced

/-!
# What a failed run leaves

When a call raises, the dispatcher reports the failure and takes the next run.
It stops no sandbox there, and what it reports with may raise as well. So a
failed run leaves no sandbox, and the dispatcher goes on, as long as calls
raise only while the sandbox of the run is not running, and not twice
(`cleaned_of_contained`).

On the other ways out of a run the sandbox is stopped: by the report, after a
failed health check, and after a timeout. The invariant (`Boxed`) is that the
only sandbox that runs is that of the run in the lane, where it may.
-/

namespace Orchestrator

namespace Pc

/-- The sandbox of the run may be running. -/
def Runs : Pc → Prop
  | .launching _ launch => launch = .started
  | .checking _ | .tailing _ | .attacking _ | .announcing _ _ | .broadcasting _ _ |
    .waiting _ => True
  | .discarding _ stopped | .expiring _ stopped => stopped = false
  | .idle | .deploying _ | .rejecting _ | .expired _ | .failing _ | .dead => False

variable {control : Control} {doneEv : Bool} {pc pc' : Pc}

/-- A sandbox that runs is one of a run. -/
theorem job_of_runs (h : pc.Runs) : ∃ job, pc.job = some job := by
  cases pc with
  | idle | dead => exact h.elim
  | _ => exact ⟨_, rfl⟩

/-- When a call returns the sandbox runs on, or the run is done. -/
theorem runs_returns (h : pc.returns control doneEv = some pc') (hruns : pc.Runs) :
    pc'.Runs ∨ pc' = .idle ∧ doneEv = true := by
  have hwait : ∀ job, (wait doneEv job).Runs ∨ wait doneEv job = .idle
    ∧ doneEv = true := fun job => by
    unfold wait
    split_ifs with ht hd
    · exact Or.inl rfl
    · exact Or.inr ⟨rfl, hd⟩
    · exact Or.inl trivial
  unfold returns at h
  split at h
  case h_6 job =>
    split_ifs at h <;> cases h
    · exact Or.inl trivial
    · exact hwait job
  case h_7 job => cases h; exact hwait job
  case h_1 | h_9 | h_10 | h_11 => exact hruns.elim
  case h_4 | h_8 => cases hruns
  case h_12 => cases h
  case h_3 => cases h; exact Or.inl rfl
  all_goals cases h; exact Or.inl trivial

end Pc

namespace Lane

/-- The dispatcher can take a step by itself. -/
def GoesOn (control : Control) (l : Lane) : Prop :=
  ∃ e ∈ [.take, .effect, .returns, .healthy true, .timeout], l.step control e ≠ none

/-- **The dispatcher is not stuck**, unless its task has ended. -/
theorem goesOn_of_ne_dead {control : Control} {l : Lane} (halive : l.pc ≠ .dead)
    (hqueue : l.queue ≠ []) :
    l.GoesOn control := by
  obtain ⟨job, queue, hjob⟩ := List.exists_cons_of_ne_nil hqueue
  unfold GoesOn
  simp only [List.mem_cons, List.not_mem_nil, or_false, exists_eq_or_imp, exists_eq_left, step]
  cases hpc : l.pc with
  | idle => simp [hjob]
  | dead => exact absurd hpc halive
  | launching job launch => cases launch <;> simp [Pc.effect, Pc.returns]
  | discarding job stopped => cases stopped <;> simp [Pc.effect, Pc.returns]
  | announcing job sent => cases sent <;> simp [Pc.effect, Pc.returns]; split <;> simp
  | broadcasting job sent => cases sent <;> simp [Pc.effect, Pc.returns]
  | expiring job stopped => cases stopped <;> simp [Pc.effect, Pc.returns]
  | _ => simp [Pc.effect, Pc.returns]

end Lane

namespace App

/-- Calls raise only while the sandbox of the run is not running, and none
while the dispatcher reports a failure. The condition is on the lane before the
step. -/
def Contained (a : App) : AppEvent → Prop
  | .lane .raises => (∀ job, a.lane.pc ≠ .failing job)
      ∧ ∀ job ∈ a.lane.pc.job, a.lane.sandboxes job.submission = none
  | _ => True

instance (a : App) : ∀ e, Decidable (a.Contained e)
  | .lane .raises => by
    have : Decidable (∀ job, a.lane.pc ≠ .failing job) :=
      match h : a.lane.pc with
      | .failing job => isFalse (fun hne => hne job rfl)
      | .idle | .deploying _ | .launching _ _ | .checking _ | .tailing _ | .discarding _ _
      | .rejecting _ | .attacking _ | .announcing _ _ | .broadcasting _ _ | .waiting _
      | .expiring _ _ | .expired _ | .dead => isTrue nofun
    exact inferInstanceAs (Decidable (_ ∧ ∀ job ∈ a.lane.pc.job, _))
  | .lane .take | .lane .effect | .lane .returns | .lane (.healthy _) | .lane .wake | .lane .timeout
  | .lane (.enqueue _) | .lane (.signal _) | .lane (.stop _) | .report _ | .stops _ | .signals _
  | .fails _ => isTrue trivial

/-- **No failed run leaves a sandbox, nor ends the queue**: the lane is free
only when no sandbox runs, never do two, and while runs are queued the
dispatcher goes on. -/
structure Cleaned (control : Control) (a : App) : Prop where
  free : a.lane.pc = .idle → ∀ s, a.lane.sandboxes s = none
  goesOn : a.lane.queue ≠ [] → a.lane.GoesOn control
  single : ∀ s s', a.lane.sandboxes s ≠ none → a.lane.sandboxes s' ≠ none → s = s'

/-- What keeps the sandboxes in order: the only one that runs is that of the
run in the lane, and it does not run when that has been signalled, or a report
has stopped it. -/
structure Boxed (control : Control) (l : Lane) (reports : List Report) : Prop where
  alive : l.pc ≠ .dead
  boxes : ∀ s job, l.sandboxes s = some job → job.submission = s ∧ l.pc.job = some job ∧ l.pc.Runs
  done : l.doneEv = true → ∀ job, l.pc.job = some job →
    l.pc.Sent control ∧ ∀ s, l.sandboxes s = none
  stopped : ∀ r ∈ reports, r.stopped = true → l.pc.job = some r.job →
    l.sandboxes r.job.submission = none

/-- At the start no sandbox runs. -/
theorem boxed_new (control : Control) : Boxed control .new [] := ⟨nofun, nofun, nofun, nofun⟩

namespace Boxed

variable {control : Control} {l : Lane} {reports : List Report}

/-- No sandbox runs where none may. -/
theorem none_of_not_runs (h : Boxed control l reports) (hruns : ¬ l.pc.Runs) (s : ℕ) :
    l.sandboxes s = none :=
  Option.eq_none_iff_forall_ne_some.mpr (fun job hjob => hruns (h.boxes s job hjob).2.2)

/-- None runs when that of the run in the lane does not. -/
theorem none_of_none (h : Boxed control l reports)
    (hnone : ∀ job ∈ l.pc.job, l.sandboxes job.submission = none)
      (s : ℕ) : l.sandboxes s = none := by
  refine Option.eq_none_iff_forall_ne_some.mpr (fun job hjob => ?_)
  obtain ⟨rfl, hpc, -⟩ := h.boxes s job hjob
  rw [hnone job hpc] at hjob
  cases hjob

/-- What is boxed is cleaned up. -/
theorem cleaned {a : App} (h : Boxed control a.lane a.reports) : a.Cleaned control := by
  refine ⟨fun hidle s => h.none_of_not_runs (by rw [hidle]; exact id) s,
    Lane.goesOn_of_ne_dead h.alive, fun s s' hs hs' => ?_⟩
  obtain ⟨job, hjob⟩ := Option.ne_none_iff_exists'.mp hs
  obtain ⟨job', hjob'⟩ := Option.ne_none_iff_exists'.mp hs'
  obtain ⟨rfl, hpc, -⟩ := h.boxes s job hjob
  obtain ⟨rfl, hpc', -⟩ := h.boxes s' job' hjob'
  rw [Option.some_inj.mp (hpc.symm.trans hpc')]

/-- The dispatcher goes on with the run, or is done with it. -/
theorem goto (h : Boxed control l reports) {pc : Pc} (hjob : pc.job = l.pc.job ∨ pc = .idle)
    (halive : pc ≠ .dead) (hruns : pc.Runs ∨ ∀ s, l.sandboxes s = none)
    (hsent : pc.job ≠ none → l.pc.Sent control → pc.Sent control) :
    Boxed control (l.goto pc) reports := by
  have hsame : ∀ job, pc.job = some job → l.pc.job = some job := fun job hj =>
    hjob.elim (fun heq => heq ▸ hj) (fun heq => by rw [heq] at hj; cases hj)
  refine ⟨halive, ?_, ?_, fun r hr hstop hpc => h.stopped r hr hstop (hsame _ hpc)⟩
  · intro s job hs
    rcases hruns with hruns | hnone
    · obtain ⟨hsub, hpc, -⟩ := h.boxes s job hs
      refine ⟨hsub, hjob.elim (fun heq => heq.trans hpc) (fun heq => ?_), hruns⟩
      rw [heq] at hruns
      exact hruns.elim
    · exact absurd hs (by rw [show (l.goto pc).sandboxes = l.sandboxes from rfl, hnone]; nofun)
  · intro hd job hpc
    obtain ⟨hs, hnone⟩ := h.done hd job (hsame job hpc)
    exact ⟨hsent (fun hn => by cases hn.symm.trans hpc) hs, hnone⟩

/-- A sandbox is removed. -/
theorem remove (h : Boxed control l reports) (submission : ℕ) :
    Boxed control (l.affect (.removes submission)) reports := by
  have hkept : ∀ {s}, l.sandboxes s = none → (l.affect (.removes submission)).sandboxes s = none :=
    fun hs => by
      rw [Lane.sandboxes_removes]
      split_ifs
      · rfl
      · exact hs
  refine ⟨h.alive, fun s job hs => ?_, fun hd job hpc => ?_,
    fun r hr hstop hpc => hkept (h.stopped r hr hstop hpc)⟩
  · exact h.boxes s job ((Lane.sandboxes_affect hs).resolve_left (fun heq => nomatch heq.1))
  · obtain ⟨hsent, hnone⟩ := h.done hd job hpc
    exact ⟨hsent, fun s => hkept (hnone s)⟩

/-- A sandbox is started for a run whose start command was not sent. -/
theorem start (h : Boxed control l reports) {job : Job} (hpc : l.pc = .launching job .removed)
    (hnot : ∀ r ∈ reports, l.pc.job ≠ some r.job) :
    Boxed control ((l.goto (.launching job .started)).affect (.starts job)) reports := by
  have hjob : l.pc.job = some job := by rw [hpc]; rfl
  refine ⟨nofun, fun s j hs => ?_, fun hd j hpc' => ?_, fun r hr _ hpc' => ?_⟩
  · rcases Lane.sandboxes_affect hs with ⟨heq, rfl⟩ | hs
    · cases heq
      exact ⟨rfl, rfl, rfl⟩
    · exact absurd (h.boxes s j hs).2.2 (by rw [hpc]; nofun)
  · have hsent := (h.done hd job hjob).1
    rw [hpc] at hsent
    exact hsent.elim
  · exact absurd (hjob.trans hpc') (hnot r hr)

/-- A call of the dispatcher does what it does outside. -/
theorem effect (h : Boxed control l reports) (hnot : ¬ l.pc.Sent control
    → ∀ r ∈ reports, l.pc.job ≠ some r.job)
    {pc : Pc} {e : Effect} (he : l.pc.effect = some (pc, e)) :
    Boxed control ((l.goto pc).affect e) reports := by
  have hjob := Pc.job_effect he
  have hsent : l.pc.Sent control → pc.Sent control := fun hs =>
    (Pc.sent_effect control he).elim (fun hstart => hstart.2.2)
      (fun hgo => hgo.2.sent (by
        rw [hjob]
        intro hnone
        rcases Pc.job_eq_none_iff.mp hnone with heq | heq <;> rw [heq] at he <;> cases he) hs)
  -- the sandbox of the run is removed
  have hremove : ∀ {job}, l.pc.job = some job → Boxed control
    ((l.goto pc).affect (.removes job.submission)) reports := by
    intro job hrun
    have h' := h.remove job.submission
    refine h'.goto (Or.inl hjob) (Pc.not_dead_effect he) (Or.inr (h'.none_of_none (fun j hj => ?_)))
      (fun _ => hsent)
    cases hrun.symm.trans hj
    rw [Lane.sandboxes_removes, if_pos rfl]
  have hgo : pc.Runs → Boxed control (l.goto pc) reports := fun hruns =>
    h.goto (Or.inl hjob) (Pc.not_dead_effect he) (Or.inl hruns) (fun _ => hsent)
  cases hpc : l.pc with
  | launching job launch =>
    rw [hpc] at he
    cases launch with
    | pending => cases he; exact hremove (by rw [hpc]; rfl)
    | removed => cases he; exact h.start hpc (hnot (by rw [hpc]; exact id))
    | started => cases he
  | discarding job stopped =>
    rw [hpc] at he
    cases stopped with
    | false => cases he; exact hremove (by rw [hpc]; rfl)
    | true => cases he
  | expiring job stopped =>
    rw [hpc] at he
    cases stopped with
    | false => cases he; exact hremove (by rw [hpc]; rfl)
    | true => cases he
  | announcing job sent =>
    rw [hpc] at he
    cases sent with
    | true => cases he
    | false => cases he; exact hgo trivial
  | broadcasting job sent =>
    rw [hpc] at he
    cases sent with
    | true => cases he
    | false => cases he; exact hgo trivial
  | _ => rw [hpc] at he; cases he

/-- A run takes a lane that is free. -/
theorem take (h : Boxed control l reports) {job : Job} {queue : List Job} (hpc : l.pc = .idle) :
    Boxed control { l with queue := queue, pc := .deploying job, active := some job, doneEv := false,
                           taken := l.taken ++ [job] } reports := by
  have hnone := h.none_of_not_runs (by rw [hpc]; exact id)
  exact ⟨nofun, fun s j hs => absurd ((hnone s).symm.trans hs) nofun, nofun, fun r _ _ _ => hnone _⟩

/-- A run that is signalled is the one whose sandbox was stopped. -/
theorem signal {a : App} (h : Boxed control a.lane a.reports) (hsound : a.Sound control) {r : Report}
    (hr : r ∈ a.reports) (hstopped : r.stopped = true) :
    Boxed control (a.lane.signalDone r.job.run) a.reports := by
  unfold Lane.signalDone
  split_ifs with hrun
  · obtain ⟨job, hactive, heq⟩ := hrun
    have hpc : a.lane.pc.job = some job := hsound.tidy.active ▸ hactive
    have hjob : job = r.job :=
      hsound.eq_of_run (hsound.taken hpc) (hsound.announced _ (hsound.reported r hr)) heq
    subst hjob
    refine ⟨h.alive, h.boxes, fun _ j hj => ?_, h.stopped⟩
    cases hpc.symm.trans hj
    refine ⟨hsound.sent _ (hsound.reported r hr) hpc, h.none_of_none (fun j' hj' => ?_)⟩
    cases hpc.symm.trans hj'
    exact h.stopped r hr hstopped hpc
  · exact h

/-- **Every contained step keeps it.** -/
theorem step {a a' : App} {e : AppEvent} (h : Boxed control a.lane a.reports)
    (hsound : a.Sound control)
    (hgood : a.Contained e) (hstep : a.step control e = some a') :
    Boxed control a'.lane a'.reports := by
  cases steps_of_step hstep with
  | lane e l hacc hl =>
    cases Lane.steps_of_step hl with
    | effect pc e he =>
      exact h.effect (fun hnot r hr hpc => hnot (hsound.sent _ (hsound.reported r hr) hpc)) he
    | signal | stop => exact hacc.elim
    | enqueue job => exact ⟨h.alive, h.boxes, h.done, h.stopped⟩
    | take job queue hpc hqueue => exact h.take hpc
    | returns pc hpc =>
      refine h.goto (Pc.job_returns hpc) (Pc.not_dead_returns hpc) ?_ (Pc.follows_returns hpc).sent
      by_cases hruns : a.lane.pc.Runs
      · obtain ⟨job, hjob⟩ := Pc.job_of_runs hruns
        exact (Pc.runs_returns hpc hruns).imp_right (fun hidle => (h.done hidle.2 job hjob).2)
      · exact Or.inr (h.none_of_not_runs hruns)
    | healthy job hpc =>
      exact h.goto (Or.inl (by rw [hpc]; rfl)) nofun (Or.inl trivial)
        (by rw [hpc]; exact fun _ => False.elim)
    | unhealthy job hpc =>
      exact h.goto (Or.inl (by rw [hpc]; rfl)) nofun (Or.inl trivial)
        (by rw [hpc]; exact fun _ => False.elim)
    | raises pc hpc =>
      rcases Pc.raises_eq_some hpc with ⟨j, rfl, hj⟩ | ⟨j, hfail, rfl⟩
      · exact h.goto (Or.inl hj.symm) nofun (Or.inr (h.none_of_none hgood.2)) (fun _ _ => trivial)
      · -- A second error, in the handler of the first, is not contained.
        exact absurd hfail (hgood.1 j)
    | wake job hpc hd =>
      exact h.goto (Or.inr rfl) nofun (Or.inr (h.done hd job (by rw [hpc]; rfl)).2)
        (fun hnone => absurd rfl hnone)
    | timeout job hpc =>
      exact h.goto (Or.inl (by rw [hpc]; rfl)) nofun (Or.inl rfl) (fun _ _ => trivial)
  | report job hjob =>
    refine ⟨h.alive, h.boxes, h.done, List.forall_mem_append.mpr ⟨h.stopped, fun r hr hs => ?_⟩⟩
    rw [List.mem_singleton.mp hr] at hs
    cases hs
  | stops i r hr hon hstopped =>
    have h' := h.remove r.job.submission
    refine ⟨h'.alive, h'.boxes, h'.done, forall_mem_set h'.stopped (fun _ _ => ?_)⟩
    exact (Lane.sandboxes_removes _ _).trans (if_pos rfl)
  | signals i r hr hon hstopped =>
    have h' := h.signal hsound (List.mem_of_getElem? hr) hstopped
    exact ⟨h'.alive, h'.boxes, h'.done, fun r' hr' => h'.stopped r' (List.mem_of_mem_eraseIdx hr')⟩
  | dies => exact ⟨h.alive, h.boxes, h.done, h.stopped⟩
  | aborts i r =>
    exact ⟨h.alive, h.boxes, h.done, fun r' hr' => h.stopped r' (List.mem_of_mem_eraseIdx hr')⟩

end Boxed

variable {control : Control}

/-- **A failed run leaves no sandbox behind and does not end the queue**, as
long as the failures are contained: for every order of requests, reports and
timeouts, over both transports.

What is contained is a failure that happens before there is a sandbox, and one
that is not followed by another in the handler. After any other the code frees
the lane and leaves the sandbox running, or the dispatcher's task is over. -/
theorem cleaned_of_contained (control : Control) {a : App} {es : List AppEvent}
    (hexec : exec (step control) new es = some a) (h : Along (step control) Contained new es) :
    a.Cleaned control :=
  (Reaches.inv (fun a => a.Sound control ∧ Boxed control a.lane a.reports)
    (fun _ _ _ hs hgood hstep => ⟨hs.1.step hstep, hs.2.step hs.1 hgood hstep⟩)
    ⟨sound_new control, boxed_new control⟩ (Reaches.of_exec hexec h)).2.cleaned

/-- Two runs, of which the first fails while it is deployed. -/
def failsEarly : List AppEvent :=
  [.lane (.enqueue ⟨1, 7, 30⟩), .lane (.enqueue ⟨2, 8, 30⟩), .lane .take, .lane .raises,
    .lane .returns]
    ++ launches .redis

theorem cleaned_failsEarly :
    ∃ a, exec (step .redis) new failsEarly = some a ∧ a.Cleaned .redis := by
  obtain ⟨a, ha⟩ := Option.isSome_iff_exists.mp
    (by decide +kernel : (exec (step .redis) new failsEarly).isSome)
  exact ⟨a, ha, cleaned_of_contained .redis ha (by decide +kernel)⟩

/-- A run that fails when its sandbox is healthy. -/
def failsLate : List AppEvent :=
  [.lane (.enqueue ⟨1, 7, 30⟩), .lane (.enqueue ⟨2, 8, 30⟩), .lane .take, .lane .returns,
    .lane .effect,
    .lane .effect, .lane .returns, .lane (.healthy true), .lane .raises]

/-- **The sandbox of the run that failed runs beside that of the next**; and
when the dashboard cannot be told of the failure, there is no next. -/
theorem not_cleaned_failsLate :
    (∃ a, exec (step .redis) new (failsLate ++ [.lane .returns]) = some a
        ∧ a.lane.pc = .idle ∧ a.lane.sandboxes 7 ≠ none)
      ∧ (∃ a, exec (step .redis) new (failsLate ++ [.lane .returns] ++ launches .redis) = some a
        ∧ a.lane.sandboxes 7 ≠ none ∧ a.lane.sandboxes 8 ≠ none)
      ∧ ∃ a, exec (step .redis) new (failsLate ++ [.lane .raises]) = some a
        ∧ a.lane.pc = .dead ∧ a.lane.queue ≠ [] := by
  refine ⟨?_, ?_, ?_⟩
  · show ∃ a ∈ exec _ _ _, _
    decide +kernel
  · show ∃ a ∈ exec _ _ _, _
    decide +kernel
  · show ∃ a ∈ exec _ _ _, _
    decide +kernel

end App

end Orchestrator
