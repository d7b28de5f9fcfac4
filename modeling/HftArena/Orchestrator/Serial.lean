import HftArena.Orchestrator.Lane

/-!
# One run at a time

Whatever requests, signals and timeouts come in which order, the lane is serial
and first in, first out: a run takes it when it is free, in its turn and once,
and leaves it when it has been signalled since, has timed out or could not be
launched. A signal for another run changes nothing, and one for the run itself
is not lost when it comes before the dispatcher waits for it (`serial`).

Each part of this has its own invariant, of the events since the run took the
lane: why it may leave (`Held`), and that an early signal will be found
(`Signalled`).
-/

namespace Orchestrator

namespace Pc

variable {control : Control} {doneEv : Bool} {pc pc' : Pc} {e : Effect}

/-- A call is about the run that the dispatcher executes. -/
theorem job_effect (h : pc.effect = some (pc', e)) : pc'.job = pc.job := by
  unfold effect at h
  split at h <;> cases h <;> rfl

/-- After the start command the dispatcher is done, or goes on with its run. -/
theorem job_wait (doneEv : Bool) (job : Job) :
    (wait doneEv job).job = some job ∨ wait doneEv job = .idle := by
  unfold wait
  split_ifs
  · exact Or.inl rfl
  · exact Or.inr rfl
  · exact Or.inl rfl

/-- When a call returns, too. -/
theorem job_returns (h : pc.returns control doneEv = some pc') : pc'.job = pc.job ∨ pc' = .idle := by
  unfold returns at h
  split at h
  case h_6 job =>
    split_ifs at h
    · cases h
      exact Or.inl rfl
    · cases h
      exact job_wait doneEv job
  case h_7 job =>
    cases h
    exact job_wait doneEv job
  all_goals first | cases h; exact Or.inl rfl | cases h; exact Or.inr rfl | cases h

/-- A call that goes on is about a run. -/
theorem not_dead_effect (h : pc.effect = some (pc', e)) : pc' ≠ .dead := by
  unfold effect at h
  split at h <;> cases h <;> nofun

/-- Nor does the task end when a call returns. -/
theorem not_dead_returns (h : pc.returns control doneEv = some pc') : pc' ≠ .dead := by
  rcases job_returns h with hjob | rfl
  · rintro rfl
    cases pc <;> cases hjob <;> cases h
  · nofun

/-- A wait does nothing outside. -/
theorem not_waiting_effect (h : pc.effect = some (pc', e)) (job : Job) : pc' ≠ .waiting job := by
  unfold effect at h
  split at h <;> cases h <;> nofun

/-- An event that is set is not waited for. -/
theorem not_waiting_returns (h : pc.returns control true = some pc') (job : Job) :
    pc' ≠ .waiting job := by
  have hwait : ∀ j, wait true j ≠ .waiting job := fun j => by
    unfold wait
    rw [if_pos rfl]
    split_ifs <;> nofun
  unfold returns at h
  split at h
  case h_6 j =>
    split_ifs at h <;> cases h
    · nofun
    · exact hwait j
  case h_7 j =>
    cases h
    exact hwait j
  all_goals cases h <;> nofun

/-- The dispatcher reports a failure, or dies of it. -/
theorem raises_eq_some (h : pc.raises = some pc') :
    (∃ job, pc' = .failing job ∧ pc.job = some job) ∨ ∃ job, pc = .failing job ∧ pc' = .dead := by
  unfold raises at h
  split at h
  case h_12 => cases h; exact Or.inr ⟨_, rfl, rfl⟩
  all_goals first | cases h; exact Or.inl ⟨_, rfl, rfl⟩ | cases h

end Pc

namespace Lane

variable {control : Control} {l l' : Lane} {e : LaneEvent}

/-! ### What a step leaves as it is

Effects and signals change parts of the lane that do not depend on each other. -/

@[simp] theorem affect_pc (e : Effect) : (l.affect e).pc = l.pc := by cases e <;> rfl
@[simp] theorem affect_active (e : Effect) : (l.affect e).active = l.active := by cases e <;> rfl
@[simp] theorem affect_doneEv (e : Effect) : (l.affect e).doneEv = l.doneEv := by cases e <;> rfl
@[simp] theorem affect_queue (e : Effect) : (l.affect e).queue = l.queue := by cases e <;> rfl
@[simp] theorem affect_taken (e : Effect) : (l.affect e).taken = l.taken := by cases e <;> rfl

@[simp] theorem signalDone_pc (run : ℕ) : (l.signalDone run).pc = l.pc := by
  unfold signalDone; split_ifs <;> rfl
@[simp] theorem signalDone_active (run : ℕ) : (l.signalDone run).active = l.active := by
  unfold signalDone; split_ifs <;> rfl
@[simp] theorem signalDone_queue (run : ℕ) : (l.signalDone run).queue = l.queue := by
  unfold signalDone; split_ifs <;> rfl
@[simp] theorem signalDone_taken (run : ℕ) : (l.signalDone run).taken = l.taken := by
  unfold signalDone; split_ifs <;> rfl

/-- A sandbox is removed, and no other. -/
theorem sandboxes_removes (submission s : ℕ) : (l.affect (.removes submission)).sandboxes s
    = if s = submission then none else l.sandboxes s :=
  Function.update_apply _ _ _ _

/-- A sandbox is started, and no other. -/
theorem sandboxes_starts (job : Job) (s : ℕ) : (l.affect (.starts job)).sandboxes s
    = if s = job.submission then some job else l.sandboxes s :=
  Function.update_apply _ _ _ _

/-- A sandbox that runs after a call was started by it, or ran before. -/
theorem sandboxes_affect {e : Effect} {s : ℕ} {job : Job}
    (h : (l.affect e).sandboxes s = some job) :
    e = .starts job ∧ s = job.submission ∨ l.sandboxes s = some job := by
  cases e with
  | removes submission =>
    rw [sandboxes_removes] at h
    split_ifs at h
    exact Or.inr h
  | starts j =>
    rw [sandboxes_starts] at h
    split_ifs at h with hs
    · cases h
      exact Or.inl ⟨rfl, hs⟩
    · exact Or.inr h
  | announces | broadcasts => exact Or.inr h

/-- What holds of the lane at any time: `_active` is the run that the
dispatcher executes, and that is the last that took the lane. -/
structure Tidy (l : Lane) : Prop where
  active : l.active = l.pc.job
  last : ∀ job, l.pc.job = some job → l.taken.getLast? = some job

/-- Nobody has the lane when it is new. -/
theorem tidy_new : new.Tidy := ⟨rfl, nofun⟩

/-- The dispatcher goes on with its run, or is done with it. -/
theorem Tidy.goto {pc : Pc} (h : l.Tidy) (hpc : pc.job = l.pc.job ∨ pc = .idle ∨ pc = .dead) :
    (l.goto pc).Tidy := by
  unfold Lane.goto
  by_cases hout : pc = .idle ∨ pc = .dead
  · have hnone : pc.job = none := by rcases hout with rfl | rfl <;> rfl
    refine ⟨by rw [if_pos hout, hnone], fun job hjob => ?_⟩
    rw [hnone] at hjob
    cases hjob
  · have hjob := hpc.resolve_right hout
    refine ⟨by rw [if_neg hout, hjob, h.active], fun job hj => h.last job ?_⟩
    rw [← hjob]
    exact hj

/-- The sandboxes are no matter. -/
theorem Tidy.affect (h : l.Tidy) (e : Effect) : (l.affect e).Tidy := by
  constructor
  · rw [affect_active, affect_pc, h.active]
  · rw [affect_pc, affect_taken]
    exact h.last

/-- **Every step keeps it.** -/
theorem Tidy.step (h : l.Tidy) (hstep : l.step control e = some l') : l'.Tidy := by
  cases steps_of_step hstep with
  | enqueue job => exact ⟨h.active, h.last⟩
  | take job queue hpc hqueue =>
    refine ⟨rfl, fun j hj => ?_⟩
    cases hj
    exact List.getLast?_concat
  | effect pc e he => exact (h.goto (Or.inl (Pc.job_effect he))).affect e
  | returns pc hpc => exact h.goto ((Pc.job_returns hpc).imp_right Or.inl)
  | healthy job hpc | unhealthy job hpc => exact h.goto (Or.inl (by rw [hpc]; rfl))
  | raises pc hpc =>
    rcases Pc.raises_eq_some hpc with ⟨job, rfl, hjob⟩ | ⟨job, hfail, rfl⟩
    · exact h.goto (Or.inl hjob.symm)
    · exact h.goto (Or.inr (Or.inr rfl))
  | wake job hpc => exact h.goto (Or.inr (Or.inl rfl))
  | timeout job hpc => exact h.goto (Or.inl (by rw [hpc]; rfl))
  | signal run =>
    constructor
    · rw [signalDone_active, signalDone_pc, h.active]
    · rw [signalDone_pc, signalDone_taken]
      exact h.last
  | stop submission => exact h.affect _

end Lane

/-! ## What ends a run

From the place of the dispatcher it can be told what has happened to the run
since it was taken. -/

/-- The run that an event queues. -/
def LaneEvent.queued : LaneEvent → Option Job
  | .enqueue job => some job
  | _ => none

/-- **What ends a run in the lane**: a signal for it, its timeout, or a launch
that fails. -/
def Ends (job : Job) (es : List LaneEvent) : Prop :=
  .signal job.run ∈ es ∨ (.timeout ∈ es ∨ job.duration + 180 ≤ 0) ∨ .healthy false ∈ es
    ∨ .raises ∈ es

/-- What has ended a run has ended it for good. -/
theorem Ends.append {job : Job} {es : List LaneEvent} (h : Ends job es) (e : LaneEvent) :
    Ends job (es ++ [e]) := by
  have hmem : ∀ {a}, a ∈ es → a ∈ es ++ [e] := fun ha => List.mem_append_left _ ha
  exact h.imp hmem (Or.imp (Or.imp_left hmem) (Or.imp hmem hmem))

namespace Pc

/-- What must have happened for the dispatcher to be there. -/
def Explained (job : Job) (es : List LaneEvent) : Pc → Prop
  | .tailing _ | .discarding _ _ | .rejecting _ => .healthy false ∈ es
  | .expiring _ _ | .expired _ => .timeout ∈ es ∨ job.duration + 180 ≤ 0
  | .failing _ => .raises ∈ es
  | _ => True

variable {control : Control} {doneEv : Bool} {pc pc' : Pc} {e : Effect} {job : Job}
  {es : List LaneEvent}

/-- What has happened has happened. -/
theorem Explained.append (h : pc.Explained job es) (a : LaneEvent) : pc.Explained job
    (es ++ [a]) := by
  have hmem : ∀ {b}, b ∈ es → b ∈ es ++ [a] := fun hb => List.mem_append_left _ hb
  cases pc with
  | tailing | discarding | rejecting | failing => exact hmem h
  | expiring | expired => exact Or.imp_left hmem h
  | _ => trivial

/-- A call that does something outside needs no other explanation. -/
theorem Explained.effect (h : pc.Explained job es) (he : pc.effect = some (pc', e)) :
    pc'.Explained job es := by
  unfold Pc.effect at he
  split at he <;> cases he <;> exact h

/-- The wait is over at once only for a reason. -/
theorem explained_wait (hdone : doneEv = true → .signal job.run ∈ es) :
    wait doneEv job = .idle ∧ Ends job es
      ∨ (wait doneEv job).job = some job ∧ (wait doneEv job).Explained job es := by
  unfold wait
  split_ifs with ht hd
  · exact Or.inr ⟨rfl, Or.inr ht⟩
  · exact Or.inl ⟨rfl, Or.inl (hdone hd)⟩
  · exact Or.inr ⟨rfl, trivial⟩

/-- When a call returns, the run goes on or has ended. -/
theorem Explained.returns (h : pc.Explained job es) (hjob : pc.job = some job)
    (hdone : doneEv = true → .signal job.run ∈ es) (hpc : pc.returns control doneEv = some pc') :
    pc' = .idle ∧ Ends job es ∨ pc'.job = some job ∧ pc'.Explained job es := by
  unfold Pc.returns at hpc
  split at hpc
  case h_1 | h_2 | h_5 => cases hpc; exact Or.inr ⟨hjob, trivial⟩
  case h_3 | h_4 | h_8 => cases hpc; exact Or.inr ⟨hjob, h⟩
  case h_6 =>
    cases hjob
    split_ifs at hpc
    · cases hpc
      exact Or.inr ⟨rfl, trivial⟩
    · cases hpc
      exact explained_wait hdone
  case h_7 =>
    cases hjob
    cases hpc
    exact explained_wait hdone
  case h_9 => cases hpc; exact Or.inl ⟨rfl, Or.inr (Or.inr (Or.inl h))⟩
  case h_10 => cases hpc; exact Or.inl ⟨rfl, Or.inr (Or.inl h)⟩
  case h_11 => cases hpc; exact Or.inl ⟨rfl, Or.inr (Or.inr (Or.inr h))⟩
  case h_12 => cases hpc

end Pc

namespace Lane

variable {control : Control} {l l' : Lane} {e : LaneEvent}

/-- A run that took the lane has it with these events since, or has left. -/
def Held (job : Job) (es : List LaneEvent) (l : Lane) : Prop :=
  l.active = none ∧ Ends job es
    ∨ l.active = some job ∧ (l.doneEv = true → .signal job.run ∈ es) ∧ l.pc.Explained job es

/-- Nobody holds the lane before the next run takes it. -/
theorem active_none_step (h : l.active = none) (htake : e ≠ .take)
    (hstep : l.step control e = some l') : l'.active = none := by
  have hgoto : ∀ pc, (l.goto pc).active = none := fun pc => by
    unfold goto
    split_ifs
    · rfl
    · exact h
  cases steps_of_step hstep with
  | enqueue | stop => exact h
  | take => exact absurd rfl htake
  | effect pc e he => rw [affect_active, hgoto]
  | signal run => rw [signalDone_active, h]
  | returns | healthy | unhealthy | raises | wake | timeout => exact hgoto _

/-- A run that goes on keeps the lane. -/
theorem goto_active {pc : Pc} {job : Job} (h : l.active = some job) (hpc : pc.job = some job) :
    (l.goto pc).active = some job := by
  unfold goto
  rw [if_neg, h]
  rintro (rfl | rfl) <;> cases hpc

variable {job : Job} {es : List LaneEvent}

/-- **Every step but the next turn keeps it.** -/
theorem Held.step (h : l.Held job es) (htidy : l.Tidy) (htake : e ≠ .take)
    (hstep : l.step control e = some l') : l'.Held job (es ++ [e]) := by
  rcases h with ⟨hnone, hends⟩ | ⟨hactive, hdone, hexpl⟩
  · exact Or.inl ⟨active_none_step hnone htake hstep, hends.append e⟩
  have hjob : l.pc.job = some job := by rw [← htidy.active, hactive]
  have hmem : ∀ {b}, b ∈ es → b ∈ es ++ [e] := fun hb => List.mem_append_left _ hb
  have hdone' : l.doneEv = true → .signal job.run ∈ es ++ [e] := fun hd => hmem (hdone hd)
  -- the dispatcher is done with the run, or goes on with it
  have hleave : Ends job (es ++ [e]) → ∀ pc, pc = .idle ∨ pc = .dead
    → Held job (es ++ [e]) (l.goto pc) :=
    fun hends pc hpc => Or.inl ⟨if_pos hpc, hends⟩
  have hgo : ∀ pc, pc.job = some job → pc.Explained job (es ++ [e])
    → Held job (es ++ [e]) (l.goto pc) :=
    fun pc hpc hexpl => Or.inr ⟨goto_active hactive hpc, hdone', hexpl⟩
  cases steps_of_step hstep with
  | enqueue j => exact Or.inr ⟨hactive, hdone', hexpl.append _⟩
  | take => exact absurd rfl htake
  | effect pc e he =>
    refine Or.inr ⟨?_, ?_, ?_⟩
    · rw [affect_active, goto_active hactive ((Pc.job_effect he).trans hjob)]
    · rw [affect_doneEv]
      exact hdone'
    · rw [affect_pc]
      exact (hexpl.effect he).append _
  | returns pc hpc =>
    rcases hexpl.returns hjob hdone hpc with ⟨rfl, hends⟩ | ⟨hjob', hexpl'⟩
    · exact hleave (hends.append _) _ (Or.inl rfl)
    · exact hgo pc hjob' (hexpl'.append _)
  | healthy j hpc =>
    rw [hpc] at hjob
    cases hjob
    exact hgo _ rfl trivial
  | unhealthy j hpc =>
    rw [hpc] at hjob
    cases hjob
    exact hgo _ rfl (List.mem_append_right _ List.mem_cons_self)
  | raises pc hpc =>
    have hr : LaneEvent.raises ∈ es ++ [.raises] := List.mem_append_right _ List.mem_cons_self
    rcases Pc.raises_eq_some hpc with ⟨j, rfl, hj⟩ | ⟨j, hfail, rfl⟩
    · exact hgo _ (hj.symm.trans hjob) hr
    · exact hleave (Or.inr (Or.inr (Or.inr hr))) _ (Or.inr rfl)
  | wake j hpc hd => exact hleave (Or.inl (hdone' hd)) _ (Or.inl rfl)
  | timeout j hpc =>
    rw [hpc] at hjob
    cases hjob
    exact hgo _ rfl (Or.inl (List.mem_append_right _ List.mem_cons_self))
  | signal run =>
    unfold signalDone
    split_ifs with hrun
    · obtain ⟨j, hj, rfl⟩ := hrun
      cases hactive.symm.trans hj
      exact Or.inr ⟨hactive, fun _ => List.mem_append_right _ List.mem_cons_self, hexpl.append _⟩
    · exact Or.inr ⟨hactive, hdone', hexpl.append _⟩
  | stop submission => exact Or.inr ⟨hactive, hdone', hexpl.append _⟩

/-! ### A signal that comes early

A run may be reported before the dispatcher waits for it. The event stays set,
so the wait is over at once. -/

/-- A run was signalled before the dispatcher waits for it, or has left the
lane. It will then find the event set, and not wait. -/
def Signalled (job : Job) (l : Lane) : Prop :=
  l.active = none ∨ l.active = some job ∧ l.doneEv = true ∧ l.pc ≠ .waiting job

/-- **Every step but the next turn keeps it.** -/
theorem Signalled.step (h : l.Signalled job) (htidy : l.Tidy) (htake : e ≠ .take)
    (hstep : l.step control e = some l') : l'.Signalled job := by
  rcases h with hnone | ⟨hactive, hdone, hwait⟩
  · exact Or.inl (active_none_step hnone htake hstep)
  have hjob : l.pc.job = some job := by rw [← htidy.active, hactive]
  have hleave : ∀ pc, pc = .idle ∨ pc = .dead → (l.goto pc).Signalled job :=
    fun pc hpc => Or.inl (if_pos hpc)
  have hgo : ∀ pc, pc.job = some job → pc ≠ .waiting job → (l.goto pc).Signalled job :=
    fun pc hpc hne => Or.inr ⟨goto_active hactive hpc, hdone, hne⟩
  cases steps_of_step hstep with
  | enqueue | stop => exact Or.inr ⟨hactive, hdone, hwait⟩
  | take => exact absurd rfl htake
  | effect pc e he =>
    refine Or.inr ⟨?_, ?_, ?_⟩
    · rw [affect_active, goto_active hactive ((Pc.job_effect he).trans hjob)]
    · rw [affect_doneEv]
      exact hdone
    · rw [affect_pc]
      exact Pc.not_waiting_effect he job
  | returns pc hpc =>
    rcases Pc.job_returns hpc with hjob' | rfl
    · rw [hdone] at hpc
      exact hgo pc (hjob'.trans hjob) (Pc.not_waiting_returns hpc job)
    · exact hleave _ (Or.inl rfl)
  | healthy j hpc | unhealthy j hpc =>
    rw [hpc] at hjob
    cases hjob
    exact hgo _ rfl nofun
  | raises pc hpc =>
    rcases Pc.raises_eq_some hpc with ⟨j, rfl, hj⟩ | ⟨j, hfail, rfl⟩
    · exact hgo _ (hj.symm.trans hjob) nofun
    · exact hleave _ (Or.inr rfl)
  | wake j hpc hd => exact hleave _ (Or.inl rfl)
  | timeout j hpc =>
    rw [hpc] at hjob
    cases hjob
    exact hgo _ rfl nofun
  | signal run =>
    refine Or.inr ⟨by rw [signalDone_active, hactive], ?_, by rw [signalDone_pc]; exact hwait⟩
    unfold signalDone
    split_ifs
    · rfl
    · exact hdone

/-! ### The lane

The parts of the result are about different things and share the invariant
only. -/

/-- Of what the dispatcher calls only `sandbox.launch` raises. -/
def OnlyLaunchRaises (l : Lane) : LaneEvent → Prop
  | .raises => match l.pc with | .launching _ _ => True | _ => False
  | _ => True

instance (pc : Pc) : Decidable (match pc with | .launching _ _ => True | _ => False) := by
  split <;> infer_instance

instance (l : Lane) : ∀ e, Decidable (l.OnlyLaunchRaises e)
  | .raises => inferInstanceAs (Decidable (match l.pc with | .launching _ _ => True | _ => False))
  | .enqueue _ | .take | .effect | .returns | .healthy _ | .wake | .timeout | .signal _ | .stop _ =>
    isTrue trivial

/-- **What it means for the lane to be serial**, after some events. -/
structure Serial (control : Control) (es : List LaneEvent) (l : Lane) : Prop where
  /-- First in, first out, and each run once. -/
  fifo : l.taken ++ l.queue = es.filterMap LaneEvent.queued
  /-- The run in the lane is the last that took it. -/
  holder : ∀ job, l.active = some job → l.taken.getLast? = some job
  /-- The next run can take the lane if and only if nobody has it. -/
  turn : (l.step control .take).isSome ↔ l.active = none ∧ l.queue ≠ []
  /-- A run leaves the lane for a reason that is its own and came up since it
  took it. -/
  leaves : ∀ es₁ es₂ job, es = es₁ ++ .take :: es₂ → .take ∉ es₂ → l.taken.getLast? = some job →
    l.active = some job ∨ Ends job es₂
  /-- A signal for another run changes nothing. -/
  stale : ∀ run, (∀ job, l.active = some job → job.run ≠ run) → l.step control (.signal run) = some l
  /-- A signal for the run that comes before the dispatcher waits is not
  lost. -/
  early : ∀ es₁ es₂ l₁ job, es = es₁ ++ .signal job.run :: es₂ →
    exec (step control) new es₁ = some l₁ → l₁.active = some job → l₁.pc ≠ .waiting job →
    .take ∉ es₂ → l.pc ≠ .waiting job
  /-- One that comes while it waits wakes it. -/
  wakes : ∀ job l₁, l.pc = .waiting job → l.step control (.signal job.run) = some l₁ →
    (l₁.step control .wake).isSome

/-- A request goes to the end of the queue, and a turn takes from its front. -/
theorem fifo_step (hstep : l.step control e = some l') {past : List LaneEvent}
    (h : l.taken ++ l.queue = past.filterMap LaneEvent.queued) :
    l'.taken ++ l'.queue = (past ++ [e]).filterMap LaneEvent.queued := by
  rw [List.filterMap_append, ← h]
  cases steps_of_step hstep with
  | enqueue job => exact (List.append_assoc _ _ _).symm
  | take job queue hpc hqueue =>
    rw [hqueue]
    exact (List.append_assoc _ _ _).trans (List.append_nil _).symm
  | effect pc e he => rw [affect_taken, affect_queue]; exact (List.append_nil _).symm
  | signal run => rw [signalDone_taken, signalDone_queue]; exact (List.append_nil _).symm
  | _ => exact (List.append_nil _).symm

/-- Only a turn takes a run. -/
theorem taken_step (htake : e ≠ .take) (hstep : l.step control e = some l') : l'.taken
    = l.taken := by
  cases steps_of_step hstep with
  | take => exact absurd rfl htake
  | effect pc e he => exact affect_taken e
  | signal run => exact signalDone_taken run
  | stop submission => exact affect_taken _
  | _ => rfl

/-- The dispatcher lives as long as no call raises while it reports a
failure. -/
theorem alive_step (h : l.pc ≠ .dead) (hgood : l.OnlyLaunchRaises e)
    (hstep : l.step control e = some l') : l'.pc ≠ .dead := by
  cases steps_of_step hstep with
  | enqueue job => exact h
  | take => exact nofun
  | effect pc e he =>
    rw [affect_pc]
    exact Pc.not_dead_effect he
  | returns pc hpc => exact Pc.not_dead_returns hpc
  | healthy | unhealthy | wake | timeout => exact nofun
  | raises pc hpc =>
    rcases Pc.raises_eq_some hpc with ⟨j, rfl, hj⟩ | ⟨j, hfail, rfl⟩
    · exact nofun
    · unfold OnlyLaunchRaises at hgood
      rw [hfail] at hgood
      exact hgood.elim
  | signal run => rw [signalDone_pc]; exact h
  | stop submission => exact h

/-- A run can take the lane when the dispatcher is idle and one is queued. -/
theorem isSome_take_iff : (l.step control .take).isSome ↔ l.pc = .idle ∧ l.queue ≠ [] := by
  constructor
  · intro h
    obtain ⟨l', hl'⟩ := Option.isSome_iff_exists.mp h
    cases steps_of_step hl' with
    | take job queue hpc hqueue => exact ⟨hpc, by rw [hqueue]; nofun⟩
  · rintro ⟨hpc, hqueue⟩
    obtain ⟨job, queue, hqueue⟩ := List.exists_cons_of_ne_nil hqueue
    rw [step, hpc, hqueue]
    rfl

/-- **The lane is serial**, first in first out, and no wake-up is lost or
spurious: in every run, as long as only `sandbox.launch` raises.

By induction on the run, part by part: what was taken and what is queued is
what was enqueued, the lane is free exactly at the head of the loop, and what
the dispatcher does next says what has happened to the run that holds it. -/
theorem serial (control : Control) {es : List LaneEvent} {l : Lane}
    (hexec : exec (step control) new es = some l)
      (h : Along (step control) OnlyLaunchRaises new es) :
    l.Serial control es := by
  have htidy : ∀ {l es}, exec (step control) new es = some l → l.Tidy := fun hexec =>
    inv_of_exec Tidy hexec (fun _ _ _ hl hstep => hl.step hstep) tidy_new
  have halive : l.pc ≠ .dead := Reaches.inv (fun l => l.pc ≠ .dead)
    (fun _ _ _ hl hgood hstep => alive_step hl hgood hstep) (by decide) (Reaches.of_exec hexec h)
  refine ⟨?_, fun job hjob => (htidy hexec).last job ((htidy hexec).active ▸ hjob), ?_,
    ?_, ?_, ?_, ?_⟩
  · exact inv_of_exec_past (fun past l => l.taken ++ l.queue = past.filterMap LaneEvent.queued) []
      hexec (fun _ _ _ _ _ hl hstep => fifo_step hstep hl) rfl
  · rw [isSome_take_iff]
    refine and_congr_left (fun _ => ?_)
    rw [(htidy hexec).active]
    cases hpc : l.pc with
    | idle => exact ⟨fun _ => rfl, fun _ => rfl⟩
    | dead => exact absurd hpc halive
    | _ => exact ⟨nofun, nofun⟩
  · rintro es₁ es₂ job rfl htake hlast
    obtain ⟨u, v, hu, hv, hexec₂⟩ := exec_append_cons_eq_some.mp hexec
    cases steps_of_step hv with
    -- From the moment it is taken, the last job holds the lane until it ends.
    | take job' queue hpc hqueue =>
      obtain ⟨-, hlast', hheld⟩ := inv_of_exec_past
        (fun past l => l.Tidy ∧ l.taken.getLast? = some job' ∧ l.Held job' past) [] hexec₂
        (fun past l e l' he hl hstep =>
          have htake' : e ≠ .take := fun heq => htake (heq ▸ he)
          ⟨hl.1.step hstep, (congrArg _ (taken_step htake' hstep)).trans hl.2.1,
            hl.2.2.step hl.1 htake' hstep⟩)
        ⟨(htidy hu).step hv, List.getLast?_concat, Or.inr ⟨rfl, nofun, trivial⟩⟩
      cases hlast.symm.trans hlast'
      exact hheld.elim (fun hends => Or.inr hends.2) (fun hheld => Or.inl hheld.1)
  · intro run hrun
    refine congrArg some (if_neg ?_)
    rintro ⟨job, hjob, heq⟩
    exact hrun job hjob heq
  · rintro es₁ es₂ l₁ job rfl hl₁ hactive hwait htake
    obtain ⟨u, v, hu, hv, hexec₂⟩ := exec_append_cons_eq_some.mp hexec
    cases hl₁.symm.trans hu
    have htidy₂ := (htidy hu).step hv
    cases hv
    have hsignalled : (l₁.signalDone job.run).Signalled job := by
      refine Or.inr ⟨by rw [signalDone_active, hactive], ?_, by rw [signalDone_pc]; exact hwait⟩
      unfold signalDone
      rw [if_pos ⟨job, hactive, rfl⟩]
    obtain ⟨htidy', hkept⟩ := inv_of_exec_past
      (fun _ l => l.Tidy ∧ l.Signalled job) [] hexec₂
      (fun past l e l' he hl hstep =>
        ⟨hl.1.step hstep, hl.2.step hl.1 (fun heq => htake (heq ▸ he)) hstep⟩)
      ⟨htidy₂, hsignalled⟩
    intro hpc
    rcases hkept with hnone | ⟨-, -, hne⟩
    · rw [htidy'.active, hpc] at hnone
      cases hnone
    · exact hne hpc
  · intro job l₁ hpc hl₁
    cases hl₁
    have hactive : l.active = some job := (htidy hexec).active.trans (by rw [hpc]; rfl)
    have hsignal : l.signalDone job.run = { l with doneEv := true } := if_pos ⟨job, hactive, rfl⟩
    rw [hsignal, step]
    dsimp only
    rw [hpc]
    rfl

/-- Two runs of one submission: the first is signalled while its sandbox is
being launched, the second fails its health check. -/
def twoRuns : List LaneEvent :=
  [.enqueue ⟨1, 7, 30⟩, .take, .enqueue ⟨2, 7, 30⟩, .signal 2, .returns, .effect, .effect,
    .signal 1, .returns, .healthy true, .returns, .effect, .returns, .signal 1, .take, .returns,
    .effect, .effect, .returns, .healthy false, .returns, .effect, .returns, .returns]

theorem serial_twoRuns :
    ∃ l, exec (step .redis) new twoRuns = some l ∧ l.Serial .redis twoRuns := by
  obtain ⟨l, hl⟩ := Option.isSome_iff_exists.mp
    (by decide +kernel : (exec (step .redis) new twoRuns).isSome)
  exact ⟨l, hl, serial .redis hl (by decide +kernel)⟩

end Lane

end Orchestrator
