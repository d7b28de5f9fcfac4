import HftArena.Orchestrator.Reports
import Mathlib.Data.List.Nodup

/-!
# What the workers were told

The workers have the start command of a run from the time that the dispatcher
has sent it, and of no run before: that depends on where the dispatcher is, and
on the transport. Reports are for runs whose start command was sent, and no two
runs have one id. None of this asks that no call raises (`App.Sound.step`).
-/

namespace Orchestrator

namespace Pc

/-- The workers may have the start command of the run. -/
def Sent (control : Control) : Pc → Prop
  | .announcing _ sent => control = .redis ∧ sent = true
  | .broadcasting _ sent => control = .grpc → sent = true
  | .waiting _ | .expiring _ _ | .expired _ | .failing _ => True
  | _ => False

/-- The dispatcher is done with its run, or goes on with it and does not send
the start command on the way. -/
def Follows (control : Control) (pc pc' : Pc) : Prop :=
  pc'.job = none ∨ pc'.job = pc.job ∧ (∀ job, pc ≠ .failing job)
    ∧ ((pc'.Sent control ↔ pc.Sent control) ∨ ∃ job, pc' = .failing job)

variable {control : Control} {doneEv : Bool} {pc pc' : Pc} {e : Effect}

/-- The dispatcher executes a run, is idle, or has ended. -/
theorem job_eq_none_iff : pc.job = none ↔ pc = .idle ∨ pc = .dead := by
  constructor
  · intro h
    cases pc with
    | idle => exact Or.inl rfl
    | dead => exact Or.inr rfl
    | _ => cases h
  · rintro (rfl | rfl) <;> rfl

/-- It goes on with its run, or is done with it. -/
theorem Follows.job (h : pc.Follows control pc') : pc'.job = pc.job ∨ pc' = .idle ∨ pc' = .dead :=
  h.elim (fun hnone => Or.inr (job_eq_none_iff.mp hnone)) (fun hgo => Or.inl hgo.1)

/-- The workers that have the start command of a run keep it. -/
theorem Follows.sent (h : pc.Follows control pc') (hjob : pc'.job ≠ none) (hsent : pc.Sent control) :
    pc'.Sent control := by
  rcases h.resolve_left hjob with ⟨-, -, hiff | ⟨j, rfl⟩⟩
  · exact hiff.mpr hsent
  · trivial

/-- It does so when a call returns, -/
theorem follows_returns (h : pc.returns control doneEv = some pc') : pc.Follows control pc' := by
  have hwait : ∀ job, (wait doneEv job).job = none
      ∨ (wait doneEv job).job = some job ∧ (wait doneEv job).Sent control := fun job => by
    unfold wait
    split_ifs
    · exact Or.inr ⟨rfl, trivial⟩
    · exact Or.inl rfl
    · exact Or.inr ⟨rfl, trivial⟩
  unfold returns at h
  split at h
  case h_6 job =>
    split_ifs at h with hgrpc <;> cases h
    · exact Or.inr ⟨rfl, nofun, Or.inl ⟨fun hs => absurd (hs hgrpc) nofun, fun hs =>
        absurd (hs.1.symm.trans hgrpc) nofun⟩⟩
    · refine (hwait job).imp_right (fun hs => ⟨hs.1, nofun,
        Or.inl ⟨fun _ => ⟨?_, rfl⟩, fun _ => hs.2⟩⟩)
      cases control with
      | redis => rfl
      | grpc => exact absurd rfl hgrpc
  case h_7 job =>
    cases h
    exact (hwait job).imp_right (fun hs => ⟨hs.1, nofun, Or.inl ⟨fun _ _ => rfl, fun _ => hs.2⟩⟩)
  case h_5 => cases h; exact Or.inr ⟨rfl, nofun, Or.inl ⟨fun hs => absurd hs.2 nofun, False.elim⟩⟩
  case h_9 | h_10 | h_11 => cases h; exact Or.inl rfl
  case h_12 => cases h
  all_goals cases h; exact Or.inr ⟨rfl, nofun, Or.inl Iff.rfl⟩

/-- and when one raises. -/
theorem follows_raises (h : pc.raises = some pc') : pc.Follows control pc' := by
  rcases raises_eq_some h with ⟨j, rfl, hj⟩ | ⟨j, rfl, rfl⟩
  · refine Or.inr ⟨hj.symm, ?_, Or.inr ⟨j, rfl⟩⟩
    rintro j' rfl
    cases h
  · exact Or.inl rfl

/-- A call of the dispatcher sends the start command of its run, and had not,
or sends none. -/
theorem sent_effect (control : Control) (he : pc.effect = some (pc', e)) :
    (e.start control = pc.job ∧ ¬ pc.Sent control ∧ pc'.Sent control)
      ∨ e.start control = none ∧ pc.Follows control pc' := by
  unfold effect at he
  split at he <;> cases he
  case h_4 job =>
    cases control with
    | redis => exact Or.inl ⟨rfl, fun hs => absurd hs.2 nofun, rfl, rfl⟩
    | grpc => exact Or.inr ⟨rfl, Or.inr ⟨rfl, nofun,
      Or.inl ⟨fun hs => absurd hs.1 nofun, fun hs => absurd hs.1 nofun⟩⟩⟩
  case h_5 job =>
    cases control with
    | redis => exact Or.inr ⟨rfl, Or.inr ⟨rfl, nofun, Or.inl ⟨fun _ => nofun, fun _ => nofun⟩⟩⟩
    | grpc => exact Or.inl ⟨rfl, fun hs => absurd (hs rfl) nofun, fun _ => rfl⟩
  all_goals exact Or.inr ⟨rfl, Or.inr ⟨rfl, nofun, Or.inl Iff.rfl⟩⟩

end Pc

namespace App

/-- **What the workers were told**, in any run: the start commands of runs that
took the lane, and that of the run which has it from the time it was sent. -/
structure Sound (control : Control) (a : App) : Prop where
  tidy : a.lane.Tidy
  fresh : ((a.lane.taken ++ a.lane.queue).map Job.run).Nodup
  announced : ∀ job ∈ a.announced, job ∈ a.lane.taken
  reported : ∀ r ∈ a.reports, r.job ∈ a.announced
  sent : ∀ job ∈ a.announced, a.lane.pc.job = some job → a.lane.pc.Sent control
  known : ∀ job, a.lane.pc.job = some job → a.lane.pc.Sent control →
    job ∈ a.announced ∨ a.lane.pc = .failing job

/-- At the start nobody was told anything. -/
theorem sound_new (control : Control) : new.Sound control :=
  ⟨Lane.tidy_new, List.nodup_nil, nofun, nofun, nofun, nofun⟩

variable {control : Control} {a a' : App} {e : AppEvent}

namespace Sound

/-- No two runs have one id. -/
theorem eq_of_run (h : a.Sound control) {job job' : Job} (hjob : job ∈ a.lane.taken)
    (hjob' : job' ∈ a.lane.taken) (heq : job.run = job'.run) : job = job' :=
  List.inj_on_of_nodup_map (List.map_append ▸ h.fresh).of_append_left hjob hjob' heq

/-- The run that has the lane is `_active`, and one of those that took it. -/
theorem taken (h : a.Sound control) {job : Job} (hjob : a.lane.pc.job = some job) :
    job ∈ a.lane.taken :=
  List.mem_of_getLast? (h.tidy.last job hjob)

/-- A run that is queued was not announced. -/
theorem not_announced (h : a.Sound control) {job : Job} {queue : List Job}
    (hqueue : a.lane.queue = job :: queue) : ∀ j ∈ a.announced, j.run ≠ job.run := by
  intro j hj heq
  have hfresh := h.fresh
  rw [hqueue, List.map_append, List.nodup_append] at hfresh
  exact hfresh.2.2 _ (List.mem_map_of_mem (h.announced j hj)) _
    (List.mem_map_of_mem List.mem_cons_self) heq

/-- The dispatcher goes on with its run, or is done with it. -/
theorem goto (h : a.Sound control) {pc : Pc} (hf : a.lane.pc.Follows control pc) :
    Sound control { a with lane := a.lane.goto pc } := by
  have hsame : ∀ {job}, pc.job = some job → a.lane.pc.job = some job := fun {job} hj => by
    rcases hf.job with heq | heq
    · exact heq ▸ hj
    · rw [Pc.job_eq_none_iff.mpr heq] at hj
      cases hj
  refine ⟨h.tidy.goto hf.job, h.fresh, h.announced, h.reported, ?_, ?_⟩
  · exact fun job hj hpc => hf.sent (fun hnone =>
      by cases hnone.symm.trans hpc) (h.sent job hj (hsame hpc))
  · intro job hpc hsent
    replace hpc : pc.job = some job := hpc
    rcases hf with hnone | ⟨heq, hfail, hiff | ⟨j, rfl⟩⟩
    · rw [hnone] at hpc
      cases hpc
    · exact Or.inl ((h.known job (hsame hpc) (hiff.mp hsent)).resolve_right (hfail job))
    · cases hpc
      exact Or.inr rfl

/-- What a call does to the sandboxes is no matter. -/
theorem affect (h : a.Sound control) (e : Effect) :
    Sound control { a with lane := a.lane.affect e } := by
  refine ⟨h.tidy.affect e, ?_, ?_, h.reported, ?_, ?_⟩
  · dsimp only
    rw [Lane.affect_taken, Lane.affect_queue]
    exact h.fresh
  · dsimp only
    rw [Lane.affect_taken]
    exact h.announced
  · dsimp only
    rw [Lane.affect_pc]
    exact h.sent
  · dsimp only
    rw [Lane.affect_pc]
    exact h.known

/-- A call of the dispatcher does what it does outside. -/
theorem effect (h : a.Sound control) {pc : Pc} {e : Effect} (he : a.lane.pc.effect = some (pc, e)) :
    Sound control { a with lane := (a.lane.goto pc).affect e,
                           announced := a.announced ++ (e.start control).toList } := by
  rcases Pc.sent_effect control he with ⟨hstart, -, hsent⟩ | ⟨hstart, hf⟩
  · -- the start command is sent
    rw [hstart]
    have hjob : pc.job = a.lane.pc.job := Pc.job_effect he
    have h' : Sound control { a with lane := a.lane.goto pc,
                                     announced := a.announced ++ a.lane.pc.job.toList } := by
      refine ⟨h.tidy.goto (Or.inl hjob), h.fresh, ?_, ?_, fun _ _ _ => hsent, ?_⟩
      · refine List.forall_mem_append.mpr ⟨h.announced, fun j hj => ?_⟩
        exact h.taken (Option.mem_toList.mp hj)
      · exact fun r hr => List.mem_append_left _ (h.reported r hr)
      · intro job hpc _
        refine Or.inl (List.mem_append_right _ (Option.mem_toList.mpr ?_))
        exact hjob ▸ hpc
    exact h'.affect e
  · rw [hstart, Option.toList_none, List.append_nil]
    exact (h.goto hf).affect e

/-- A run is queued under an id that no other has. -/
theorem enqueue (h : a.Sound control) {job : Job}
    (hnew : job.run ∉ (a.lane.taken ++ a.lane.queue).map Job.run) :
    Sound control { a with lane := { a.lane with queue := a.lane.queue ++ [job] } } := by
  refine ⟨⟨h.tidy.active, h.tidy.last⟩, ?_, h.announced, h.reported, h.sent, h.known⟩
  show ((a.lane.taken ++ (a.lane.queue ++ [job])).map Job.run).Nodup
  rw [← List.append_assoc, List.map_append, List.nodup_append]
  refine ⟨h.fresh, List.nodup_singleton _, ?_⟩
  rintro run hrun _ hjob rfl
  rw [List.map_singleton, List.mem_singleton] at hjob
  exact hnew (hjob ▸ hrun)

/-- A run takes the lane that was not announced before. -/
theorem take (h : a.Sound control) {job : Job} {queue : List Job}
    (hqueue : a.lane.queue = job :: queue) :
    Sound control { a with lane := { a.lane with
      queue := queue, pc := .deploying job, active := some job, doneEv := false,
      taken := a.lane.taken ++ [job] } } := by
  have hfresh := h.fresh
  rw [hqueue, List.append_cons] at hfresh
  refine ⟨⟨rfl, fun j hj => ?_⟩, hfresh, fun j hj => List.mem_append_left _ (h.announced j hj),
    h.reported, ?_, fun _ _ => False.elim⟩
  · cases hj
    exact List.getLast?_concat
  · intro j hj hpc
    cases hpc
    exact absurd rfl (h.not_announced hqueue _ hj)

/-- A signal tells the workers nothing. -/
theorem signal (h : a.Sound control) (run : ℕ) :
    Sound control { a with lane := a.lane.signalDone run } := by
  unfold Lane.signalDone
  split_ifs
  · exact ⟨⟨h.tidy.active, h.tidy.last⟩, h.fresh, h.announced, h.reported, h.sent, h.known⟩
  · exact h

/-- **Every step keeps it.** -/
theorem step (h : a.Sound control) (hstep : a.step control e = some a') : a'.Sound control := by
  cases steps_of_step hstep with
  | lane e l hacc hl =>
    cases Lane.steps_of_step hl with
    | effect pc e he =>
      rw [starts, he]
      exact h.effect he
    | signal | stop => exact hacc.elim
    | enqueue job =>
      rw [starts_of_ne (e := .enqueue job) nofun, List.append_nil]
      exact h.enqueue hacc
    | take job queue hpc hqueue =>
      rw [starts_of_ne (e := .take) nofun, List.append_nil]
      exact h.take hqueue
    | returns pc hpc =>
      rw [starts_of_ne (e := .returns) nofun, List.append_nil]
      exact h.goto (Pc.follows_returns hpc)
    | healthy job hpc =>
      rw [starts_of_ne (e := .healthy true) nofun, List.append_nil]
      exact h.goto (Or.inr (by rw [hpc]; exact ⟨rfl, nofun, Or.inl Iff.rfl⟩))
    | unhealthy job hpc =>
      rw [starts_of_ne (e := .healthy false) nofun, List.append_nil]
      exact h.goto (Or.inr (by rw [hpc]; exact ⟨rfl, nofun, Or.inl Iff.rfl⟩))
    | raises pc hpc =>
      rw [starts_of_ne (e := .raises) nofun, List.append_nil]
      exact h.goto (Pc.follows_raises hpc)
    | wake job hpc hd =>
      rw [starts_of_ne (e := .wake) nofun, List.append_nil]
      exact h.goto (Or.inl rfl)
    | timeout job hpc =>
      rw [starts_of_ne (e := .timeout) nofun, List.append_nil]
      exact h.goto (Or.inr (by rw [hpc]; exact ⟨rfl, nofun, Or.inl Iff.rfl⟩))
  | report job hjob =>
    exact ⟨h.tidy, h.fresh, h.announced, List.forall_mem_append.mpr
      ⟨h.reported, fun r hr => by rw [List.mem_singleton.mp hr]; exact hjob⟩, h.sent, h.known⟩
  | stops i r hr hon hstopped =>
    have h' := h.affect (.removes r.job.submission)
    exact ⟨h'.tidy, h'.fresh, h'.announced,
      forall_mem_set h.reported (h.reported r (List.mem_of_getElem? hr)), h'.sent, h'.known⟩
  | signals i r hr hon hstopped =>
    have h' := h.signal r.job.run
    exact ⟨h'.tidy, h'.fresh, h'.announced, fun r' hr' =>
      h.reported r' (List.mem_of_mem_eraseIdx hr'),
      h'.sent, h'.known⟩
  | dies => exact ⟨h.tidy, h.fresh, h.announced, h.reported, h.sent, h.known⟩
  | aborts i r =>
    exact ⟨h.tidy, h.fresh, h.announced, fun r' hr' => h.reported r' (List.mem_of_mem_eraseIdx hr'),
      h.sent, h.known⟩

end Sound

end App

end Orchestrator
