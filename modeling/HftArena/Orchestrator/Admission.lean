import HftArena.Orchestrator.Reports
import Mathlib.Data.List.Nodup

/-!
# What is let in

`POST /submissions` builds an image and then stores the name and the language
of the submission, and `POST /runs` looks the submission up and then queues a
run of it, telling how many runs are ahead. Both ask for the key, if one is
set. Their handlers are tasks among the dispatcher and the handlers of the
reports: whatever may happen can happen while an image is built or a key is
read, and a call that raises ends the handler where it is.

Between the look-up and `RUN_QUEUE.put` nothing else runs, since the queue has
no bound. So the number that is told is exact, in every run
(`Gate.queues_exactly`): when the run takes the lane, just so many have left it
since. A run in the queue was asked for with the key, and of a submission that
was built, and asked for, with the key.
-/

namespace Orchestrator

/-- What is stored of a submission. -/
structure Meta where
  name : String
  language : String
deriving DecidableEq

/-- `require_key`: an empty key is no key. -/
def authorized (apiKey key : Option String) : Bool :=
  match apiKey with
  | none => true
  | some k => k == "" || key == some k

/-- **A handler of a request**, by what it does next. -/
inductive Handler where
  /-- `Building`, and in `sandbox.build_image`. -/
  | building (submission : ℕ) (info : Meta)
  /-- The image is built. -/
  | storing (submission : ℕ) (info : Meta)
  /-- `Built` -/
  | stored (submission : ℕ)
  /-- In `hgetall`. -/
  | reading (submission : ℕ) (duration : ℤ)
  /-- The submission is known. -/
  | queueing (submission : ℕ) (duration : ℤ) (info : Meta)
  /-- `Queued`, with how many are ahead. -/
  | queued (job : Job) (ahead : ℕ)
deriving DecidableEq

/-- What a request is answered with. -/
inductive Response where
  /-- 401 -/
  | unauthorized
  /-- 400 -/
  | buildFailed
  /-- 404 -/
  | unknown
  | submitted (submission : ℕ)
  | accepted (run ahead : ℕ)
deriving DecidableEq

/-- **The orchestrator with its two requests**, what is stored of the
submissions, and the answers that were given. -/
structure Gate where
  app : App
  /-- `arena:submission:…` -/
  submissions : ℕ → Option Meta
  handlers : List Handler
  responses : List Response

/-- **What can happen**: a request comes in, its handler goes on to the next
call, or something else happens in the orchestrator. -/
inductive GateEvent where
  /-- Anything but a request. -/
  | app (e : AppEvent)
  /-- `POST /submissions`, with the id that is drawn. -/
  | submit (key : Option String) (submission : ℕ) (info : Meta)
  /-- `POST /runs` -/
  | start (key : Option String) (submission : ℕ) (duration : ℤ)
  /-- `build_image` returns, or raises. -/
  | builds (i : ℕ) (ok : Bool)
  | stores (i : ℕ)
  /-- `hgetall` returns. -/
  | reads (i : ℕ)
  /-- The run is queued, with the id that is drawn. -/
  | queues (i : ℕ) (run : ℕ)
  | answers (i : ℕ)
  /-- A call of a handler raises. -/
  | raises (i : ℕ)

/-- A run is queued. -/
def AppEvent.Enqueues : AppEvent → Prop
  | .lane (.enqueue _) => True
  | _ => False

instance : ∀ e : AppEvent, Decidable e.Enqueues
  | .lane (.enqueue _) => isTrue trivial
  | .lane .take | .lane .effect | .lane .returns | .lane (.healthy _) | .lane .raises
  | .lane .wake | .lane .timeout | .lane (.signal _) | .lane (.stop _) | .report _ | .stops _
  | .signals _ | .fails _ => isFalse id

/-- `RUN_QUEUE.qsize() + (1 if _active else 0)` -/
def Lane.ahead (l : Lane) : ℕ := l.queue.length + if l.active.isSome then 1 else 0

/-- How many runs have left the lane. -/
def Lane.left (l : Lane) : ℕ := l.taken.length - if l.active.isSome then 1 else 0

namespace Gate

def new : Gate := ⟨.new, fun _ => none, [], []⟩

/-- **A step.** -/
def step (control : Control) (apiKey : Option String) (g : Gate) : GateEvent → Option Gate
  | .app e =>
    if e.Enqueues then none else (g.app.step control e).map (fun a => { g with app := a })
  | .submit key submission info =>
    if authorized apiKey key then
      some { g with handlers := g.handlers ++ [.building submission info] }
    else some { g with responses := g.responses ++ [.unauthorized] }
  | .start key submission duration =>
    if authorized apiKey key then
      some { g with handlers := g.handlers ++ [.reading submission duration] }
    else some { g with responses := g.responses ++ [.unauthorized] }
  | .builds i ok =>
    match g.handlers[i]? with
    | some (.building submission info) =>
      if ok then some { g with handlers := g.handlers.set i (.storing submission info) }
      else some { g with handlers := g.handlers.eraseIdx i,
                         responses := g.responses ++ [.buildFailed] }
    | _ => none
  | .stores i =>
    match g.handlers[i]? with
    | some (.storing submission info) =>
      some { g with submissions := Function.update g.submissions submission (some info),
                    handlers := g.handlers.set i (.stored submission) }
    | _ => none
  | .reads i =>
    match g.handlers[i]? with
    | some (.reading submission duration) =>
      match g.submissions submission with
      | none => some { g with handlers := g.handlers.eraseIdx i,
                              responses := g.responses ++ [.unknown] }
      | some info =>
        some { g with handlers := g.handlers.set i (.queueing submission duration info) }
    | _ => none
  | .queues i run =>
    match g.handlers[i]? with
    | some (.queueing submission duration _) =>
      let job : Job := ⟨run, submission, duration⟩
      (g.app.step control (.lane (.enqueue job))).map (fun a =>
        { g with app := a, handlers := g.handlers.set i (.queued job g.app.lane.ahead) })
    | _ => none
  | .answers i =>
    match g.handlers[i]? with
    | some (.stored submission) =>
      some { g with handlers := g.handlers.eraseIdx i,
                    responses := g.responses ++ [.submitted submission] }
    | some (.queued job ahead) =>
      some { g with handlers := g.handlers.eraseIdx i,
                    responses := g.responses ++ [.accepted job.run ahead] }
    | _ => none
  | .raises i =>
    g.handlers[i]?.map (fun _ => { g with handlers := g.handlers.eraseIdx i })

/-- **What a step can do.** -/
inductive Steps (control : Control) (apiKey : Option String) (g : Gate) :
    GateEvent → Gate → Prop where
  | app (e : AppEvent) (a : App) : ¬ e.Enqueues → g.app.step control e = some a →
    Steps control apiKey g (.app e) { g with app := a }
  /-- A request comes in. -/
  | enters (e : GateEvent) (h : Handler) :
    ((∃ key submission info, e = .submit key submission info ∧ authorized apiKey key = true
        ∧ h = .building submission info)
      ∨ ∃ key submission duration, e = .start key submission duration
        ∧ authorized apiKey key = true ∧ h = .reading submission duration) →
    Steps control apiKey g e { g with handlers := g.handlers ++ [h] }
  /-- A handler is over, or there is none. -/
  | answers (e : GateEvent) (handlers : List Handler) (responses : List Response) :
    handlers.Sublist g.handlers →
    Steps control apiKey g e { g with handlers := handlers, responses := responses }
  | builds (i : ℕ) (submission : ℕ) (info : Meta) :
    g.handlers[i]? = some (.building submission info) →
    Steps control apiKey g (.builds i true)
      { g with handlers := g.handlers.set i (.storing submission info) }
  | stores (i : ℕ) (submission : ℕ) (info : Meta) :
    g.handlers[i]? = some (.storing submission info) →
    Steps control apiKey g (.stores i)
      { g with submissions := Function.update g.submissions submission (some info),
               handlers := g.handlers.set i (.stored submission) }
  | reads (i : ℕ) (submission : ℕ) (duration : ℤ) (info : Meta) :
    g.handlers[i]? = some (.reading submission duration) → g.submissions submission = some info →
    Steps control apiKey g (.reads i)
      { g with handlers := g.handlers.set i (.queueing submission duration info) }
  | queues (i run : ℕ) (submission : ℕ) (duration : ℤ) (info : Meta) :
    g.handlers[i]? = some (.queueing submission duration info) →
    g.app.Accepts (.enqueue ⟨run, submission, duration⟩) →
    Steps control apiKey g (.queues i run)
      { g with
        app := { g.app with lane := { g.app.lane with
          queue := g.app.lane.queue ++ [⟨run, submission, duration⟩] } }
        handlers := g.handlers.set i (.queued ⟨run, submission, duration⟩ g.app.lane.ahead) }

variable {control : Control} {apiKey : Option String} {g g' : Gate} {e : GateEvent}

/-- A run is queued as it was asked for. -/
theorem step_queues {i run : ℕ} (h : g.step control apiKey (.queues i run) = some g') :
    ∃ submission duration info, g.handlers[i]? = some (.queueing submission duration info)
      ∧ g.app.Accepts (.enqueue ⟨run, submission, duration⟩)
      ∧ g' = { g with
          app := { g.app with lane := { g.app.lane with
            queue := g.app.lane.queue ++ [⟨run, submission, duration⟩] } }
          handlers := g.handlers.set i
            (.queued ⟨run, submission, duration⟩ g.app.lane.ahead) } := by
  unfold step at h
  dsimp only at h
  split at h
  · rename_i submission duration info hi
    obtain ⟨a, ha, rfl⟩ := Option.map_eq_some_iff.mp h
    cases App.steps_of_step ha with
    | lane _ l haccepts hl =>
      cases hl
      rw [App.starts_of_ne (by simp), List.append_nil]
      exact ⟨submission, duration, info, hi, haccepts, rfl⟩
  · cases h

/-- **A step does one of these.** -/
theorem step_cases (h : g.step control apiKey e = some g') : Steps control apiKey g e g' := by
  cases e with
  | app e =>
    unfold step at h
    dsimp only at h
    split_ifs at h with henqueues
    obtain ⟨a, ha, rfl⟩ := Option.map_eq_some_iff.mp h
    exact .app e a henqueues ha
  | submit key submission info =>
    unfold step at h
    dsimp only at h
    split_ifs at h with hkey
    · cases h
      exact .enters _ _ (Or.inl ⟨key, submission, info, rfl, hkey, rfl⟩)
    · cases h
      exact .answers _ _ _ (List.Sublist.refl _)
  | start key submission duration =>
    unfold step at h
    dsimp only at h
    split_ifs at h with hkey
    · cases h
      exact .enters _ _ (Or.inr ⟨key, submission, duration, rfl, hkey, rfl⟩)
    · cases h
      exact .answers _ _ _ (List.Sublist.refl _)
  | builds i ok =>
    unfold step at h
    dsimp only at h
    split at h
    · rename_i submission info hi
      cases ok with
      | true =>
        cases h
        exact .builds i submission info hi
      | false =>
        cases h
        exact .answers _ _ _ (List.eraseIdx_sublist _ i)
    · cases h
  | stores i =>
    unfold step at h
    dsimp only at h
    split at h
    · rename_i submission info hi
      cases h
      exact .stores i submission info hi
    · cases h
  | reads i =>
    unfold step at h
    dsimp only at h
    split at h
    · rename_i submission duration hi
      cases hinfo : g.submissions submission with
      | none =>
        rw [hinfo] at h
        cases h
        exact .answers _ _ _ (List.eraseIdx_sublist _ i)
      | some info =>
        rw [hinfo] at h
        cases h
        exact .reads i submission duration info hi hinfo
    · cases h
  | queues i run =>
    obtain ⟨submission, duration, info, hi, haccepts, rfl⟩ := step_queues h
    exact .queues i run submission duration info hi haccepts
  | answers i =>
    unfold step at h
    dsimp only at h
    split at h
    · cases h
      exact .answers _ _ _ (List.eraseIdx_sublist _ i)
    · cases h
      exact .answers _ _ _ (List.eraseIdx_sublist _ i)
    · cases h
  | raises i =>
    unfold step at h
    obtain ⟨-, -, rfl⟩ := Option.map_eq_some_iff.mp h
    exact .answers _ _ _ (List.eraseIdx_sublist _ i)

end Gate

/-! ## The order of the runs

Runs that were taken, and then the queue: what is in this list keeps its place,
and is added at the end. -/

namespace Lane

variable {control : Control} {l l' : Lane} {e : LaneEvent}

/-- The runs that have taken the lane, and those that wait for it. -/
def order (l : Lane) : List Job := l.taken ++ l.queue

theorem order_step (hstep : l.step control e = some l') :
    l'.order = l.order ++ e.queued.toList := by
  have hqueued : ∀ jobs : List Job,
      (jobs.map LaneEvent.enqueue).filterMap LaneEvent.queued = jobs := by
    intro jobs
    rw [List.filterMap_map]
    exact List.filterMap_some
  have hfifo := fifo_step hstep (hqueued l.order).symm
  rw [List.filterMap_append, hqueued] at hfifo
  rw [order, hfifo]
  cases e <;> rfl

/-- The run that holds the lane has taken it. -/
theorem Tidy.taken_ne_nil (h : l.Tidy) (hactive : l.active.isSome) : l.taken ≠ [] := by
  obtain ⟨job, hjob⟩ := Option.isSome_iff_exists.mp hactive
  have hlast := h.last job (h.active.symm.trans hjob)
  intro hnil
  rw [hnil] at hlast
  cases hlast

/-- What waits is ahead, and the run that holds the lane. -/
theorem Tidy.left_add_ahead (h : l.Tidy) : l.left + l.ahead = l.order.length := by
  unfold left ahead order
  rw [List.length_append]
  split_ifs with hactive
  · have hpos := List.length_pos_iff.mpr (h.taken_ne_nil hactive)
    omega
  · omega

/-- **The run that holds the lane has its place** right behind those that have
left it. -/
theorem Tidy.left_of_active (h : l.Tidy) (honce : (l.order.map Job.run).Nodup) {job : Job}
    (hactive : l.active = some job) {k : ℕ} (hk : l.order[k]? = some job) : l.left = k := by
  have hsome : l.active.isSome := by rw [hactive]; rfl
  have hpos := List.length_pos_iff.mpr (h.taken_ne_nil hsome)
  have hlast := h.last job (h.active.symm.trans hactive)
  rw [List.getLast?_eq_getElem?] at hlast
  have hplace : l.order[l.taken.length - 1]? = some job := by
    rw [order, List.getElem?_append_left (by omega), hlast]
  obtain ⟨hlt, -⟩ := List.getElem?_eq_some_iff.mp hplace
  have hnodup : l.order.Nodup := List.Nodup.of_map Job.run honce
  rw [left, if_pos hsome]
  exact (List.getElem?_inj hlt hnodup).mp (hplace.trans hk.symm)

end Lane

namespace App

variable {control : Control} {a a' : App} {e : AppEvent}

theorem order_step (hne : ¬ e.Enqueues) (hstep : a.step control e = some a') :
    a'.lane.order = a.lane.order := by
  cases steps_of_step hstep with
  | lane le l _ hl =>
    have horder := Lane.order_step hl
    have hnone : le.queued = none := by
      cases le with
      | enqueue job => exact absurd trivial hne
      | _ => rfl
    rwa [hnone, Option.toList_none, List.append_nil] at horder
  | report job _ => rfl
  | stops i r _ _ _ => rfl
  | signals i r _ _ _ =>
    unfold Lane.order
    dsimp only
    rw [Lane.signalDone_taken, Lane.signalDone_queue]
  | dies i r _ _ _ => rfl
  | aborts i r _ _ _ => rfl

end App

/-! ## Runs

What every handler and every run can be traced back to: a request with the key. -/

/-- A handler's request had the key, and what it found is there: what a handler
goes by stays true while others run. -/
def Handler.Asked (apiKey : Option String) (past : List GateEvent)
    (submissions : ℕ → Option Meta) : Handler → Prop
  | .building s info | .storing s info =>
    ∃ key, GateEvent.submit key s info ∈ past ∧ authorized apiKey key = true
  | .reading s duration =>
    ∃ key, GateEvent.start key s duration ∈ past ∧ authorized apiKey key = true
  | .queueing s duration _ => (submissions s).isSome
    ∧ ∃ key, GateEvent.start key s duration ∈ past ∧ authorized apiKey key = true
  | .stored _ | .queued _ _ => True

/-- More is asked for, and more is stored. -/
theorem Handler.Asked.mono {apiKey : Option String} {past : List GateEvent}
    {submissions submissions' : ℕ → Option Meta} {h : Handler}
    (hasked : h.Asked apiKey past submissions) (e : GateEvent)
    (hsub : ∀ s, (submissions s).isSome → (submissions' s).isSome) :
    h.Asked apiKey (past ++ [e]) submissions' := by
  cases h with
  | building s info => exact hasked.imp (fun key h => ⟨List.mem_append_left _ h.1, h.2⟩)
  | storing s info => exact hasked.imp (fun key h => ⟨List.mem_append_left _ h.1, h.2⟩)
  | stored s => trivial
  | reading s duration => exact hasked.imp (fun key h => ⟨List.mem_append_left _ h.1, h.2⟩)
  | queueing s duration info =>
    exact ⟨hsub s hasked.1, hasked.2.imp (fun key h => ⟨List.mem_append_left _ h.1, h.2⟩)⟩
  | queued job ahead => trivial

namespace Gate

variable {control : Control} {apiKey : Option String} {g g' : Gate} {e : GateEvent}
  {past : List GateEvent}

/-- **What holds after a run.** -/
structure Kept (apiKey : Option String) (past : List GateEvent) (g : Gate) : Prop where
  tidy : g.app.lane.Tidy
  once : (g.app.lane.order.map Job.run).Nodup
  stored : ∀ s info, g.submissions s = some info →
    ∃ key, .submit key s info ∈ past ∧ authorized apiKey key = true
  handlers : ∀ h ∈ g.handlers, h.Asked apiKey past g.submissions
  jobs : ∀ job ∈ g.app.lane.order, (g.submissions job.submission).isSome
    ∧ ∃ key, .start key job.submission job.duration ∈ past ∧ authorized apiKey key = true

/-- At the start nothing was asked for. -/
theorem kept_new : Kept apiKey [] new where
  tidy := Lane.tidy_new
  once := List.nodup_nil
  stored _ _ h := by cases h
  handlers _ h := absurd h List.not_mem_nil
  jobs _ h := absurd h List.not_mem_nil

/-- **A step keeps it.** -/
theorem Kept.step (h : Kept apiKey past g) (hstep : g.step control apiKey e = some g') :
    Kept apiKey (past ++ [e]) g' := by
  have hstored : ∀ s info, g.submissions s = some info →
      ∃ key, .submit key s info ∈ past ++ [e] ∧ authorized apiKey key = true := fun s info hs =>
    (h.stored s info hs).imp (fun key hkey => ⟨List.mem_append_left _ hkey.1, hkey.2⟩)
  have hhandlers : ∀ h ∈ g.handlers, h.Asked apiKey (past ++ [e]) g.submissions :=
    fun handler hmem => (h.handlers handler hmem).mono e (fun _ => id)
  have hjobs : ∀ job ∈ g.app.lane.order, (g.submissions job.submission).isSome
      ∧ ∃ key, .start key job.submission job.duration ∈ past ++ [e]
        ∧ authorized apiKey key = true := fun job hjob =>
    (h.jobs job hjob).imp_right
      (fun hkey => hkey.imp (fun key hkey => ⟨List.mem_append_left _ hkey.1, hkey.2⟩))
  cases step_cases hstep with
  | app e a hne ha =>
    have horder := App.order_step hne ha
    refine ⟨App.lane_inv (fun _ _ _ hl hstep => Lane.Tidy.step hl hstep) h.tidy ha, ?_, hstored,
      hhandlers, ?_⟩
    · rw [horder]
      exact h.once
    · rw [horder]
      exact hjobs
  | enters _ handler hasked =>
    refine ⟨h.tidy, h.once, hstored, fun handler' hmem => ?_, hjobs⟩
    rcases List.mem_append.mp hmem with hmem | hmem
    · exact hhandlers handler' hmem
    · obtain rfl := List.mem_singleton.mp hmem
      rcases hasked with ⟨key, s, info, rfl, hkey, rfl⟩ | ⟨key, s, duration, rfl, hkey, rfl⟩
      · exact ⟨key, List.mem_append_right _ (List.mem_singleton_self _), hkey⟩
      · exact ⟨key, List.mem_append_right _ (List.mem_singleton_self _), hkey⟩
  | answers _ handlers responses hsub =>
    exact ⟨h.tidy, h.once, hstored, fun handler hmem => hhandlers handler (hsub.subset hmem), hjobs⟩
  | builds i s info hi =>
    have hasked := hhandlers _ (List.mem_of_getElem? hi)
    exact ⟨h.tidy, h.once, hstored, forall_mem_set hhandlers hasked, hjobs⟩
  | stores i s info hi =>
    -- A submission may be stored again, but none is forgotten.
    have hgrows : ∀ s', (g.submissions s').isSome →
        (Function.update g.submissions s (some info) s').isSome := by
      intro s' hs'
      by_cases hs : s' = s
      · rw [hs, Function.update_self]
        rfl
      · rwa [Function.update_of_ne hs]
    refine ⟨h.tidy, h.once, fun s' info' hs' => ?_, forall_mem_set (fun handler hmem => ?_) trivial,
      fun job hjob => (hjobs job hjob).imp_left (hgrows _)⟩
    · dsimp only at hs'
      by_cases hs : s' = s
      · rw [hs, Function.update_self] at hs'
        obtain rfl := Option.some.inj hs'
        rw [hs]
        exact hhandlers _ (List.mem_of_getElem? hi)
      · rw [Function.update_of_ne hs] at hs'
        exact hstored s' info' hs'
    · exact (h.handlers handler hmem).mono _ hgrows
  | reads i s duration info hi hinfo =>
    refine ⟨h.tidy, h.once, hstored, forall_mem_set hhandlers ⟨?_, hhandlers _
      (List.mem_of_getElem? hi)⟩, hjobs⟩
    rw [hinfo]
    rfl
  | queues i run s duration info hi haccepts =>
    have hasked := hhandlers _ (List.mem_of_getElem? hi)
    have horder : ({ g.app.lane with
        queue := g.app.lane.queue ++ [⟨run, s, duration⟩] } : Lane).order
        = g.app.lane.order ++ [⟨run, s, duration⟩] := (List.append_assoc _ _ _).symm
    refine ⟨⟨h.tidy.active, h.tidy.last⟩, ?_, hstored, forall_mem_set hhandlers trivial, ?_⟩
    · rw [horder, List.map_append, List.map_singleton,
        (List.perm_append_singleton _ _).nodup_iff]
      exact List.nodup_cons.mpr ⟨haccepts, h.once⟩
    · rw [horder]
      intro job hjob
      rcases List.mem_append.mp hjob with hjob | hjob
      · exact hjobs job hjob
      · obtain rfl := List.mem_singleton.mp hjob
        exact hasked

/-- The order of the runs only grows at its end. -/
theorem order_grows (hstep : g.step control apiKey e = some g') :
    g.app.lane.order <+: g'.app.lane.order := by
  cases step_cases hstep with
  | app e a hne ha =>
    exact ⟨[], (List.append_nil _).trans (App.order_step hne ha).symm⟩
  | queues i run s duration info _ _ =>
    exact ⟨[⟨run, s, duration⟩], List.append_assoc _ _ _⟩
  | enters _ _ _ => exact List.prefix_rfl
  | answers _ _ _ _ => exact List.prefix_rfl
  | builds _ _ _ _ => exact List.prefix_rfl
  | stores _ _ _ _ => exact List.prefix_rfl
  | reads _ _ _ _ _ _ => exact List.prefix_rfl

/-- **What is queued was asked for with the key, and so was its submission; and
the number that is told is exact**: the run has its place in the order behind
those that have left the lane and so many more, and when it holds the lane just
these have left it.

The handlers may interleave as they like, with the dispatcher and with each
other. That a run keeps its place is what the order is for: it grows at its end
only, whoever is queued, taken, or gone. -/
theorem queues_exactly {es : List GateEvent} (hexec : exec (step control apiKey) new es = some g) :
    (∀ job ∈ g.app.lane.order,
      (∃ key, .start key job.submission job.duration ∈ es ∧ authorized apiKey key = true)
      ∧ ∃ info key, .submit key job.submission info ∈ es ∧ authorized apiKey key = true)
    ∧ ∀ i run g', g.step control apiKey (.queues i run) = some g' →
      ∃ job ahead, job.run = run ∧ g'.handlers[i]? = some (.queued job ahead)
        ∧ ∀ bs u, exec (step control apiKey) g' bs = some u →
          u.app.lane.order[g.app.lane.left + ahead]? = some job
          ∧ (u.app.lane.active = some job → u.app.lane.left = g.app.lane.left + ahead) := by
  have hkept : Kept apiKey es g := inv_of_exec_past (Kept apiKey) [] hexec
    (fun _ _ _ _ _ h hstep => h.step hstep) kept_new
  refine ⟨fun job hjob => ?_, fun i run g' hstep => ?_⟩
  · obtain ⟨hsome, hasked⟩ := hkept.jobs job hjob
    obtain ⟨info, hinfo⟩ := Option.isSome_iff_exists.mp hsome
    exact ⟨hasked, info, hkept.stored _ info hinfo⟩
  · have hkept' := hkept.step hstep
    obtain ⟨s, duration, info, hi, haccepts, rfl⟩ := step_queues hstep
    obtain ⟨hlt, -⟩ := List.getElem?_eq_some_iff.mp hi
    refine ⟨⟨run, s, duration⟩, g.app.lane.ahead, rfl, List.getElem?_set_self hlt,
      fun bs u hrun => ?_⟩
    have hlater : Kept apiKey (es ++ [.queues i run] ++ bs) u ∧ (g.app.lane.order
        ++ [⟨run, s, duration⟩]) <+: u.app.lane.order :=
      inv_of_exec_past (fun as u => Kept apiKey as u ∧ (g.app.lane.order
        ++ [⟨run, s, duration⟩]) <+: u.app.lane.order) _ hrun
        (fun _ _ _ _ _ hinv hnext => ⟨hinv.1.step hnext, hinv.2.trans (order_grows hnext)⟩)
        ⟨hkept', [], (List.append_nil _).trans (List.append_assoc _ _ _)⟩
    -- The order of jobs only grows at its end, so the place stays.
    have hplace : u.app.lane.order[g.app.lane.left + g.app.lane.ahead]?
        = some ⟨run, s, duration⟩ := by
      obtain ⟨more, hmore⟩ := hlater.2
      rw [← hmore, hkept.tidy.left_add_ahead, List.append_assoc, List.getElem?_append_right
        (le_refl _), Nat.sub_self]
      rfl
    exact ⟨hplace, fun hactive => hlater.1.tidy.left_of_active hlater.1.once hactive hplace⟩

/-- A submission, and two runs of it. -/
def twoRuns : List GateEvent :=
  [.submit (some "k") 7 ⟨"fast", "cpp"⟩, .builds 0 true, .stores 0, .answers 0,
    .start (some "k") 7 30, .reads 0, .queues 0 1, .answers 0, .app (.lane .take),
    .start none 7 30, .start (some "k") 7 60, .reads 0]

theorem queues_exactly_twoRuns :
    ∃ g g', exec (step .redis (some "k")) new twoRuns = some g
      ∧ g.step .redis (some "k") (.queues 0 2) = some g'
      ∧ g'.handlers[0]? = some (.queued ⟨2, 7, 60⟩ 1)
      ∧ ∀ bs u, exec (step .redis (some "k")) g' bs = some u →
        u.app.lane.active = some ⟨2, 7, 60⟩ → u.app.lane.left = 1 := by
  obtain ⟨g, g', hg, hstep, hleft, hhandler⟩ : ∃ g g',
      exec (step .redis (some "k")) new twoRuns = some g
        ∧ g.step .redis (some "k") (.queues 0 2) = some g' ∧ g.app.lane.left = 0
        ∧ g'.handlers[0]? = some (.queued ⟨2, 7, 60⟩ 1) := ⟨_, _, rfl, rfl, rfl, rfl⟩
  obtain ⟨job, ahead, -, hqueued, hlater⟩ := (queues_exactly hg).2 0 2 g' hstep
  cases hqueued.symm.trans hhandler
  refine ⟨g, g', hg, hstep, hhandler, fun bs u hrun hactive => ?_⟩
  have hexact := (hlater bs u hrun).2 hactive
  rwa [hleft] at hexact

end Gate

end Orchestrator
