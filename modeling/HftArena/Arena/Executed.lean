import HftArena.Arena.Heeds

/-!
# A run that nobody executes

The dispatcher waits for a done report that one worker sends, at the end of one
task. So it waits for somebody as long as the start command of the run finds a
worker at rest, and the task that leads the run, or may still come to lead it,
does not raise before the report is out: of a stop command, or by itself
(`executed_of_attended`).

What carries a run is first a worker at rest that has its start command before
it, then a task that has yet to try the lock, while nobody holds it, then the
task that took it, and at last the report. `World.Carried` says that one of
these is there, and each step of the arena hands the run on from one to the
next, or leaves it where it is.
-/

open Orchestrator Fleet

namespace Orchestrator

namespace Lane

variable {control : Control} {l l' : Lane} {e : LaneEvent}

/-- A run gets into the lane in its turn only. -/
theorem job_step (htake : e ≠ .take) (hstep : l.step control e = some l') {job : Job}
    (hjob : l'.pc.job = some job) : l.pc.job = some job := by
  have hgoto : ∀ {pc : Pc}, pc.job = l.pc.job ∨ pc.job = none → (l.goto pc).pc.job = some job →
      l.pc.job = some job := fun hpc hj =>
    hpc.elim (fun heq => heq ▸ hj) (fun hnone => by cases hnone.symm.trans hj)
  cases steps_of_step hstep with
  | enqueue => exact hjob
  | take => exact absurd rfl htake
  | effect pc e he =>
    rw [affect_pc] at hjob
    exact hgoto (Or.inl (Pc.job_effect he)) hjob
  | returns pc hpc =>
    exact hgoto ((Pc.job_returns hpc).imp_right (fun heq => by rw [heq]; rfl)) hjob
  | healthy j hpc => exact hgoto (Or.inl (by rw [hpc]; rfl)) hjob
  | unhealthy j hpc => exact hgoto (Or.inl (by rw [hpc]; rfl)) hjob
  | raises pc hpc =>
    refine hgoto ((Pc.raises_eq_some hpc).imp ?_ ?_) hjob
    · rintro ⟨j, rfl, hj⟩
      exact hj.symm
    · rintro ⟨j, -, rfl⟩
      rfl
  | wake j hpc hd => exact hgoto (Or.inr rfl) hjob
  | timeout j hpc => exact hgoto (Or.inl (by rw [hpc]; rfl)) hjob
  | signal run =>
    rw [signalDone_pc] at hjob
    exact hjob
  | stop submission =>
    rw [affect_pc] at hjob
    exact hjob

/-- A signal does not clear the event. -/
theorem doneEv_signalDone (hd : l.doneEv = true) (run : ℕ) : (l.signalDone run).doneEv = true := by
  unfold signalDone
  split_ifs
  · rfl
  · exact hd

/-- An event that is set stays so until the next turn. -/
theorem doneEv_step (htake : e ≠ .take) (hstep : l.step control e = some l') (hd : l.doneEv = true) :
    l'.doneEv = true := by
  cases steps_of_step hstep with
  | take => exact absurd rfl htake
  | effect pc e he =>
    rw [affect_doneEv]
    exact hd
  | signal run => exact doneEv_signalDone hd run
  | stop submission =>
    rw [affect_doneEv]
    exact hd
  | _ => exact hd

end Lane

namespace App

/-- A done report for a run has been signalled, or is in flight: it is handled
over gRPC, or as long as the listener is there. -/
def Reported (control : Control) (a : App) (job : Job) : Prop :=
  a.lane.doneEv = true ∨ (∃ r ∈ a.reports, r.job = job) ∧ (control = .grpc ∨ a.listening = true)

instance (control : Control) (a : App) (job : Job) : Decidable (a.Reported control job) :=
  inferInstanceAs (Decidable (_ ∨ _))

variable {control : Control} {a a' : App} {e : AppEvent} {job : Job}

/-- The runs whose start command is sent are known from then on. -/
theorem announced_step (hstep : a.step control e = some a') :
    a'.announced = a.announced ++ match e with | .lane e => a.starts control e | _ => [] := by
  cases steps_of_step hstep with
  | lane => rfl
  | _ => exact (List.append_nil _).symm

/-- The listener is there as long as no handler fails. -/
theorem listening_step (hfails : ∀ i, e ≠ .fails i) (hstep : a.step control e = some a') :
    a'.listening = a.listening := by
  cases steps_of_step hstep with
  | dies i => exact absurd rfl (hfails i)
  | _ => rfl

theorem job_step (htake : e ≠ .lane .take) (hstep : a.step control e = some a')
    (hjob : a'.lane.pc.job = some job) : a.lane.pc.job = some job := by
  cases steps_of_step hstep with
  | lane e l hacc hl => exact Lane.job_step (fun heq => htake (congrArg _ heq)) hl hjob
  | report | dies | aborts => exact hjob
  | stops i r => exact (Lane.affect_pc (l := a.lane) (.removes r.job.submission)) ▸ hjob
  | signals i r => exact (Lane.signalDone_pc (l := a.lane) r.job.run) ▸ hjob

/-- A run whose start command was sent has not just taken the lane. -/
theorem ne_take_of_announced (hsound : a'.Sound control) (hstep : a.step control e = some a')
    (hann : job ∈ a'.announced) (hjob : a'.lane.pc.job = some job) : e ≠ .lane .take := by
  rintro rfl
  have hsent := hsound.sent job hann hjob
  cases steps_of_step hstep with
  | lane _ l hacc hl =>
    cases Lane.steps_of_step hl with
    | take => exact hsent

/-- **A report is not lost** while its run has the lane and no handler fails:
it is in flight, or being handled, or has been signalled. -/
theorem Reported.step (h : a.Reported control job) (hsound : a.Sound control)
    (hjob : a.lane.pc.job = some job) (htake : e ≠ .lane .take) (hfails : ∀ i, e ≠ .fails i)
    (hstep : a.step control e = some a') : a'.Reported control job := by
  rcases h with hd | ⟨⟨r₀, hr₀, rfl⟩, hon⟩
  · refine Or.inl ?_
    cases steps_of_step hstep with
    | lane e l hacc hl => exact Lane.doneEv_step (fun heq => htake (congrArg _ heq)) hl hd
    | report | dies | aborts => exact hd
    | stops i r => exact (Lane.affect_doneEv _).trans hd
    | signals i r => exact Lane.doneEv_signalDone hd r.job.run
  · rw [← listening_step hfails hstep] at hon
    cases steps_of_step hstep with
    | lane e l hacc hl => exact Or.inr ⟨⟨r₀, hr₀, rfl⟩, hon⟩
    | report job hjob => exact Or.inr ⟨⟨r₀, List.mem_append_left _ hr₀, rfl⟩, hon⟩
    | stops i r hr =>
      have hset : ∃ r' ∈ a.reports.set i { r with stopped := true }, r'.job = r₀.job :=
        exists_mem_set hr ⟨r₀, hr₀, rfl⟩ id
      exact Or.inr ⟨hset, hon⟩
    | signals i r hr =>
      by_cases hrun : r = r₀
      · -- this is the report that is signalled
        subst hrun
        refine Or.inl ?_
        have hactive : ∃ j ∈ a.lane.active, j.run = r.job.run :=
          ⟨r.job, hsound.tidy.active ▸ hjob, rfl⟩
        show (a.lane.signalDone r.job.run).doneEv = true
        rw [Lane.signalDone, if_pos hactive]
      · obtain ⟨j, hj⟩ := List.mem_iff_getElem?.mp hr₀
        have hne : j ≠ i := by
          rintro rfl
          exact hrun (Option.some_inj.mp (hr.symm.trans hj))
        exact Or.inr ⟨⟨r₀, List.mem_eraseIdx_iff_getElem?.mpr ⟨j, hne, hj⟩, rfl⟩, hon⟩
    | dies i => exact absurd rfl (hfails i)
    | aborts i => exact absurd rfl (hfails i)

end App

end Orchestrator

namespace Fleet

/-- A worker there has yet to try the lock. -/
def Pos.Early : Pos → Prop
  | .waiting | .registering | .refreshing | .electing => True
  | _ => False

namespace Member

variable {c : Config} {now : ℚ} {k k' : Keys} {i : ℕ} {m m' : Member} {e : MemberEvent}

/-- The lock changes when a worker takes it. -/
theorem lock_step (h : Steps c now k i m e m' k') :
    k'.lock = k.lock ∨ e = .elect ∧ m'.isLeader = some true ∧ m'.pos = .settling (now + 3 / 2) := by
  cases h with
  | leads => exact Or.inr ⟨rfl, rfl, rfl⟩
  | _ => exact Or.inl rfl

/-- A worker that leads goes on to lead until it has reported. -/
theorem leads_step (h : Steps c now k i m e m' k') (hlead : m.isLeader = some true)
    (hpos : ¬ m.pos.Early) (he : e ≠ .report) :
    m'.isLeader = some true ∧ ¬ m'.pos.Early ∧ m'.pos ≠ .ended := by
  cases h with
  | starts h | registers h | refreshes h | leads h | follows _ h =>
    exact absurd (by rw [h]; trivial) hpos
  | reports => exact absurd rfl he
  | probed passed w h => exact ⟨hlead, hpos, by rw [show _ = Pos.probing from h]; nofun⟩
  | finishes ev w h =>
    rw [if_pos hlead]
    exact ⟨hlead, id, nofun⟩
  | loads ev w h => exact ⟨hlead, hpos, by rw [show _ = Pos.loading from h]; nofun⟩
  | _ => exact ⟨hlead, id, nofun⟩

/-- A worker that has yet to try the lock goes on to, or finds it free and
leads. -/
theorem early_step (h : Steps c now k i m e m' k') (hlead : m.isLeader = none) (hpos : m.pos.Early)
    (hfree : k.lock.get? now = none) :
    (m'.isLeader = some true ∧ ¬ m'.pos.Early ∨ m'.isLeader = none ∧ m'.pos.Early)
      ∧ m'.pos ≠ .ended := by
  cases h with
  | starts | registers | refreshes => exact ⟨Or.inr ⟨hlead, trivial⟩, nofun⟩
  | leads => exact ⟨Or.inl ⟨rfl, id⟩, nofun⟩
  | follows j h hlock => cases hfree.symm.trans hlock
  | settles _ h | givesUp _ h | wakes _ _ h | probed _ _ h | probeOver h | flags h | records h
  | sees _ h | naps _ h | counts _ h | loads _ _ h | finishes _ _ h | reports h =>
    rw [h] at hpos
    exact hpos.elim

end Member

end Fleet

namespace Arena

variable {control : Control} {c : Job → Config} {job : Job}

/-- A task that leads its run, and has not reported: it will, unless it
raises. -/
def Task.Leads (t : Task) (job : Job) : Prop :=
  t.job = job ∧ t.member.isLeader = some true ∧ ¬ t.member.pos.Early ∧ t.sent = false

/-- A task that has yet to try the lock. If that is free then, it will lead. -/
def Task.Tries (t : Task) (job : Job) : Prop :=
  t.job = job ∧ t.member.isLeader = none ∧ t.member.pos.Early ∧ t.sent = false

/-- Nothing is lost with a task of a worker that follows another, or has
reported. -/
def Task.Expendable (t : Task) : Prop := t.member.isLeader = some false ∨ t.sent = true

instance (t : Task) : Decidable t.Expendable := inferInstanceAs (Decidable (_ ∨ _))

/-- A task that leads is not expendable, -/
theorem Task.Leads.not_expendable {t : Task} (h : t.Leads job) : ¬ t.Expendable := by
  rintro (hlead | hsent)
  · cases h.2.1.symm.trans hlead
  · cases h.2.2.2.symm.trans hsent

/-- nor is one that may come to lead. -/
theorem Task.Tries.not_expendable {t : Task} (h : t.Tries job) : ¬ t.Expendable := by
  rintro (hlead | hsent)
  · cases h.2.1.symm.trans hlead
  · cases h.2.2.2.symm.trans hsent

namespace Station

/-- **A worker carries a run**: its task leads it, or while the lock is free
has yet to try it, or will be created by a start command that is to come. -/
inductive Carries (free : Prop) (job : Job) (s : Station) : Prop where
  | leads (t : Task) : s.current = some t → t.Leads job → Carries free job s
  | tries (t : Task) : free → s.current = some t → t.Tries job → Carries free job s
  | rests : free → s.current = none → job ∉ s.handled →
    (∀ j, .start j ∈ s.commands → j = job) → Carries free job s

variable {free free' : Prop} {s : Station}

/-- Less has to be free. -/
theorem Carries.imp (h : s.Carries free job) (hfree : free → free') : s.Carries free' job := by
  cases h with
  | leads t ht hlead => exact .leads t ht hlead
  | tries t hf ht htry => exact .tries t (hfree hf) ht htry
  | rests hf hnone hhand hcmds => exact .rests (hfree hf) hnone hhand hcmds

/-- What it carries a run with is its task, what it has handled and what is to
come. -/
theorem Carries.of_eq {s' : Station} (h : s.Carries free job) (hcurrent : s'.current = s.current)
    (hhandled : s'.handled = s.handled)
    (hcommands : ∀ j, .start j ∈ s'.commands → .start j ∈ s.commands) : s'.Carries free job := by
  cases h with
  | leads t ht hlead => exact .leads t (hcurrent.trans ht) hlead
  | tries t hf ht htry => exact .tries t hf (hcurrent.trans ht) htry
  | rests hf hnone hhand hcmds =>
    exact .rests hf (hcurrent.trans hnone) (hhandled ▸ hhand) (fun j hj => hcmds j (hcommands j hj))

/-- Other commands do not keep it from that. -/
theorem Carries.send (h : s.Carries free job) {cmds : List Command}
    (hcmds : ∀ j, .start j ∈ cmds → j = job) : (s.send cmds).Carries free job := by
  unfold Station.send
  split_ifs
  · cases h with
    | leads t ht hlead => exact .leads t ht hlead
    | tries t hf ht htry => exact .tries t hf ht htry
    | rests hf hnone hhand hold =>
      exact .rests hf hnone hhand (fun j hj => (List.mem_append.mp hj).elim (hold j) (hcmds j))
  · exact h

/-- Time does not keep it from that. -/
theorem Carries.tick (h : s.Carries free job) (secs : ℚ) : (s.tick secs).Carries free job := by
  cases h with
  | leads t ht hlead =>
    exact .leads { t with member := t.member.tick secs } (by rw [Station.tick, ht]; rfl) hlead
  | tries t hf ht htry =>
    exact .tries { t with member := t.member.tick secs } hf (by rw [Station.tick, ht]; rfl) htry
  | rests hf hnone hhand hcmds => exact .rests hf (by rw [Station.tick, hnone]; rfl) hhand hcmds

/-- To handle a command creates the task, if it is the start command of the
run. -/
theorem Carries.dispatch (h : s.Carries free job) {cmd : Command} {cmds : List Command}
    (hcmds : s.commands = cmd :: cmds) :
    (Station.dispatch { s with commands := cmds } cmd).Carries free job := by
  cases cmd with
  | start j =>
    cases h with
    | leads t ht hlead => exact .leads t (by rw [Station.dispatch, ht]; rfl) hlead
    | tries t hf ht htry => exact .tries t hf (by rw [Station.dispatch, ht]; rfl) htry
    | rests hf hnone hhand hall =>
      cases hall j (by rw [hcmds]; exact List.mem_cons_self)
      exact .tries (.new job) hf (by rw [Station.dispatch, hnone]; rfl) ⟨rfl, rfl, trivial, rfl⟩
  | stop =>
    cases h with
    | leads t ht hlead =>
      exact .leads { t with cancelled := true } (by rw [Station.dispatch, ht]; rfl) hlead
    | tries t hf ht htry =>
      exact .tries { t with cancelled := true } hf (by rw [Station.dispatch, ht]; rfl) htry
    | rests hf hnone hhand hall =>
      exact .rests hf (by rw [Station.dispatch, hnone]; rfl) hhand
        (fun j hj => hall j (by rw [hcmds]; exact List.mem_cons_of_mem _ hj))

/-- A task that carries its run takes a step. -/
theorem Carries.goOn {t : Task} {m : Member} {now : ℚ} {k k' : Keys} {i : ℕ} {e : MemberEvent}
    (h : s.Carries free job) (ht : s.current = some t) (he : e = .report ↔ t.sent = true)
    (hstep : Member.Steps (c t.job) now k i t.member e m k')
    (hfree : t.job = job → free → k.lock.get? now = none) : (s.goOn t m).Carries free job := by
  have hcurrent : m.pos ≠ .ended → (s.goOn t m).current = some { t with member := m } :=
    fun hpos => if_neg hpos
  cases h with
  | leads t' ht' hlead =>
    cases ht.symm.trans ht'
    obtain ⟨hjob, hleader, hpos, hsent⟩ := hlead
    have hnot : e ≠ .report := fun heq => by cases hsent.symm.trans (he.mp heq)
    obtain ⟨hleader', hpos', hend⟩ := Member.leads_step hstep hleader hpos hnot
    exact .leads _ (hcurrent hend) ⟨hjob, hleader', hpos', hsent⟩
  | tries t' hf ht' htry =>
    cases ht.symm.trans ht'
    obtain ⟨hjob, hleader, hpos, hsent⟩ := htry
    obtain ⟨hgo, hend⟩ := Member.early_step hstep hleader hpos (hfree hjob hf)
    rcases hgo with ⟨hleader', hpos'⟩ | ⟨hleader', hpos'⟩
    · exact .leads _ (hcurrent hend) ⟨hjob, hleader', hpos', hsent⟩
    · exact .tries _ hf (hcurrent hend) ⟨hjob, hleader', hpos', hsent⟩
  | rests hf hnone => cases hnone.symm.trans ht

/-- What a worker knows of are runs whose start command was sent. -/
structure Knows (jobs : List Job) (s : Station) : Prop where
  commands : ∀ j, .start j ∈ s.commands → j ∈ jobs
  current : ∀ t ∈ s.current, t.job ∈ jobs
  handled : ∀ j ∈ s.handled, j ∈ jobs

variable {jobs jobs' : List Job}

/-- More runs may be known. -/
theorem Knows.imp (h : s.Knows jobs) (hsub : jobs ⊆ jobs') : s.Knows jobs' :=
  ⟨fun j hj => hsub (h.commands j hj), fun t ht => hsub (h.current t ht),
    fun j hj => hsub (h.handled j hj)⟩

/-- A worker knows what it is sent. -/
theorem Knows.send (h : s.Knows jobs) {cmds : List Command}
    (hcmds : ∀ j, .start j ∈ cmds → j ∈ jobs) :
    (s.send cmds).Knows jobs := by
  unfold Station.send
  split_ifs
  · exact ⟨fun j hj => (List.mem_append.mp hj).elim (h.commands j) (hcmds j), h.current, h.handled⟩
  · exact h

/-- Time changes nothing it knows. -/
theorem Knows.tick (h : s.Knows jobs) (secs : ℚ) : (s.tick secs).Knows jobs := by
  refine ⟨h.commands, fun t ht => ?_, h.handled⟩
  obtain ⟨t', ht', rfl⟩ := Option.map_eq_some_iff.mp ht
  exact h.current t' ht'

/-- A task goes on for its own run. -/
theorem Knows.goOn (h : s.Knows jobs) {t : Task} (ht : s.current = some t) (m : Member) :
    (s.goOn t m).Knows jobs := by
  refine ⟨h.commands, fun t' ht' => ?_, h.handled⟩
  unfold Station.goOn at ht'
  split_ifs at ht'
  · cases ht'
  · cases ht'
    exact h.current t ht

/-- To handle a command is to know of its run as before. -/
theorem Knows.dispatch (h : s.Knows jobs) {cmd : Command} {cmds : List Command}
    (hcmds : s.commands = cmd :: cmds) :
    (Station.dispatch { s with commands := cmds } cmd).Knows jobs := by
  have hrest : ∀ j, .start j ∈ cmds → j ∈ jobs := fun j hj =>
    h.commands j (by rw [hcmds]; exact List.mem_cons_of_mem _ hj)
  cases cmd with
  | start j =>
    have hj : j ∈ jobs := h.commands j (by rw [hcmds]; exact List.mem_cons_self)
    refine ⟨hrest, fun t ht => ?_, List.forall_mem_append.mpr
      ⟨h.handled, fun j' hj' => by rw [List.mem_singleton.mp hj']; exact hj⟩⟩
    have hold := h.current
    cases hc : s.current with
    | none =>
      rw [Station.dispatch, hc] at ht
      cases ht
      exact hj
    | some t' =>
      rw [Station.dispatch, hc] at ht
      cases ht
      exact hold t' hc
  | stop =>
    refine ⟨hrest, fun t ht => ?_, h.handled⟩
    obtain ⟨t', ht', rfl⟩ := Option.map_eq_some_iff.mp ht
    exact h.current t' ht'

end Station

namespace World

variable {w w' : World} {e : WorldEvent}

/-- The runs whose start command is sent are known from then on. -/
theorem announced_app {ae : AppEvent} {a : App} (h : w.app.step control ae = some a) :
    a.announced = w.app.announced ++ w.starts control ae := by
  rw [App.announced_step h]
  cases ae <;> rfl

/-- The start command that is sent is that of the run in the lane, and the
first. -/
theorem starts_ne_nil {ae : AppEvent} (h : w.starts control ae ≠ []) :
    ae ≠ .lane .take ∧ (∀ i, ae ≠ .fails i) ∧ ¬ w.app.lane.pc.Sent control
      ∧ ∀ job, w.app.lane.pc.job = some job → w.starts control ae = [job] := by
  cases ae with
  | lane le =>
    by_cases heff : le = .effect
    · subst heff
      refine ⟨nofun, nofun, ?_⟩
      unfold starts App.starts at h ⊢
      cases he : w.app.lane.pc.effect with
      | none =>
        rw [he] at h
        exact absurd rfl h
      | some r =>
        obtain ⟨pc, eff⟩ := r
        rw [he, Option.bind_some] at h
        rcases Pc.sent_effect control he with ⟨hstart, hnot, -⟩ | ⟨hstart, -⟩
        · refine ⟨hnot, fun job hjob => ?_⟩
          rw [Option.bind_some, hstart, hjob]
          rfl
        · rw [hstart] at h
          exact absurd rfl h
    · exact absurd (App.starts_of_ne heff) h
  | _ => exact absurd rfl h

/-- Nobody holds the lock of a run. -/
def Free (w : World) (job : Job) : Prop := (w.keys job.run).lock.get? w.now = none

instance (w : World) (job : Job) : Decidable (w.Free job) := inferInstanceAs (Decidable (_ = _))

/-- **A run is carried** by some worker, or has been reported: there is
somebody or something from whom the dispatcher will hear of it. -/
def Carried (control : Control) (w : World) (job : Job) : Prop :=
  w.app.Reported control job ∨ ∃ s ∈ w.stations, s.Carries (w.Free job) job

/-- **A step that attends to the runs.** A start command must find at least one
worker at rest, or nobody would heed it. A task must not raise – by a stop
command or by itself – if it leads its run or may come to lead it, and has not
yet sent its report; a task that follows another may, and so may one whose
report is out. And no handler of a report may fail, for then the report is
lost, and over Redis the listener with it.

The condition is on the event and on the arena before it. -/
def Attended (control : Control) (w : World) : WorldEvent → Prop
  | .app e => (w.starts control e ≠ [] → ∃ s ∈ w.stations, s.Rested) ∧ ∀ i, e ≠ .fails i
  | .raises i => ∀ s ∈ w.stations[i]?, ∀ t ∈ s.current, t.Expendable
  | _ => True

/-- The handler of a report fails. -/
def isFails : AppEvent → Bool
  | .fails _ => true
  | _ => false

/-- A step is no failure of a handler. -/
theorem isFails_eq_false_iff {e : AppEvent} : isFails e = false ↔ ∀ i, e ≠ .fails i := by
  cases e with
  | fails i => exact ⟨nofun, fun h => absurd rfl (h i)⟩
  | _ => exact ⟨fun _ _ => nofun, fun _ => rfl⟩

instance (control : Control) (w : World) : ∀ e, Decidable (w.Attended control e)
  | .app e =>
    have : Decidable (∀ i, e ≠ .fails i) := decidable_of_iff _ isFails_eq_false_iff
    inferInstanceAs (Decidable ((_ → ∃ s ∈ w.stations, s.Rested) ∧ _))
  | .raises i => inferInstanceAs (Decidable (∀ s ∈ w.stations[i]?, ∀ t ∈ s.current, t.Expendable))
  | .stopAll | .tick _ | .subscribe _ | .drop _ | .deliver _ | .task _ _ | .publish _ =>
    isTrue trivial

/-- **The run that the dispatcher waits for is executed**: when every worker
has handled its start command, the task of the worker that leads it has not
ended, or one that will, or its done report has been signalled or is in
flight. -/
def Executed (control : Control) (w : World) : Prop :=
  match w.app.lane.pc with
  | .waiting job => (∀ s ∈ w.stations, job ∈ s.handled) →
      w.app.Reported control job
        ∨ (∃ s ∈ w.stations, ∃ t ∈ s.current, t.job = job ∧ t.member.isLeader = some true)
        ∨ w.Free job ∧ ∃ s ∈ w.stations, ∃ t ∈ s.current, t.job = job ∧ t.member.isLeader = none
  | _ => True

instance (control : Control) (w : World) : Decidable (w.Executed control) := by
  unfold Executed
  split <;> infer_instance

/-- What holds of the arena as long as its runs are attended to. -/
structure Runs (control : Control) (w : World) : Prop where
  sound : w.app.Sound control
  listens : control = .grpc ∨ w.app.listening = true
  knows : ∀ s ∈ w.stations, s.Knows w.app.announced
  locks : ∀ run, (∀ job ∈ w.app.announced, job.run ≠ run) → (w.keys run).lock = .empty
  carried : ∀ job ∈ w.app.announced, w.app.lane.pc.job = some job → w.Carried control job

/-- Before anything is announced there is nothing to carry. -/
theorem runs_new (control : Control) (n : ℕ) : (new n).Runs control := by
  refine ⟨App.sound_new control, Or.inr rfl, fun s hs => ?_, fun _ _ => rfl, nofun⟩
  rw [List.eq_of_mem_replicate hs]
  exact ⟨nofun, fun t ht => absurd ht (Option.not_mem_none t), nofun⟩

namespace Runs

/-- The workers take a step. -/
theorem worker (h : w.Runs control) {now : ℚ} {keys : ℕ → Keys} {stations : List Station}
    (hknows : ∀ s ∈ stations, s.Knows w.app.announced)
    (hlocks : ∀ run, (∀ job ∈ w.app.announced, job.run ≠ run) → (keys run).lock = .empty)
    (hcarries : ∀ job ∈ w.app.announced, (∃ s ∈ w.stations, s.Carries (w.Free job) job) →
      ∃ s ∈ stations, s.Carries ((keys job.run).lock.get? now = none) job) :
    Runs control ⟨w.app, now, keys, stations⟩ :=
  ⟨h.sound, h.listens, hknows, hlocks, fun job hj hpc =>
    (h.carried job hj hpc).imp_right (hcarries job hj)⟩

/-- Every worker does the same. -/
theorem all (h : w.Runs control) {f : Station → Station}
    (hknows : ∀ s, s.Knows w.app.announced → (f s).Knows w.app.announced)
    (hcarries : ∀ s free job, s.Carries free job → (f s).Carries free job) :
    Runs control { w with stations := w.stations.map f } := by
  refine h.worker (List.forall_mem_map.mpr (fun s hs => hknows s (h.knows s hs))) h.locks ?_
  rintro job - ⟨s, hs, hc⟩
  exact ⟨f s, List.mem_map_of_mem hs, hcarries s _ job hc⟩

/-- One worker does something that leaves the keys as they are. -/
theorem one (h : w.Runs control) {i : ℕ} {s s' : Station} (hs : w.stations[i]? = some s)
    (hknows : s.Knows w.app.announced → s'.Knows w.app.announced)
    (hcarries : ∀ free job, s.Carries free job → s'.Carries free job) :
    Runs control { w with stations := w.stations.set i s' } := by
  refine h.worker (forall_mem_set h.knows (hknows (h.knows s (List.mem_of_getElem? hs)))) h.locks ?_
  exact fun job _ hex => exists_mem_set hs hex (hcarries _ job)

/-- The orchestrator takes a step by itself. -/
theorem app (h : w.Runs control) {ae : AppEvent} {a : App} (hgood : w.Attended control (.app ae))
    (ha : w.app.step control ae = some a) :
    Runs control { w with
      app := a
      stations := w.stations.map (.send ((w.starts control ae).map .start)) } := by
  have hann := announced_app ha
  have hsound := h.sound.step ha
  have hsends : ∀ j, .start j ∈ (w.starts control ae).map Command.start
    → j ∈ w.starts control ae := by
    intro j hj
    obtain ⟨j', hj', heq⟩ := List.mem_map.mp hj
    cases heq
    exact hj'
  refine ⟨hsound, (App.listening_step hgood.2 ha) ▸ h.listens, ?_, ?_, ?_⟩
  · refine List.forall_mem_map.mpr (fun s hs => Station.Knows.send ?_ (fun j hj => ?_))
    · exact (h.knows s hs).imp (by rw [hann]; exact List.subset_append_left _ _)
    · exact hann ▸ List.mem_append_right _ (hsends j hj)
  · exact fun run hrun => h.locks run (fun job hj => hrun job (hann ▸ List.mem_append_left _ hj))
  · intro job hj hpc
    by_cases hnil : w.starts control ae = []
    · -- no start command is sent, and the run was carried before
      have htake := App.ne_take_of_announced hsound ha hj hpc
      have hpc₀ := App.job_step htake ha hpc
      rw [hann, hnil, List.append_nil] at hj
      rw [hnil]
      rcases h.carried job hj hpc₀ with hrep | ⟨s, hs, hc⟩
      · exact Or.inl (hrep.step h.sound hpc₀ htake hgood.2 ha)
      · exact Or.inr ⟨s.send [], List.mem_map_of_mem hs, hc.send nofun⟩
    · -- the start command is that of the run, and finds a worker at rest
      obtain ⟨htake, -, hnot, hstarts⟩ := starts_ne_nil hnil
      have hpc₀ := App.job_step htake ha hpc
      have hnew : job ∉ w.app.announced := fun hold => hnot (h.sound.sent job hold hpc₀)
      obtain ⟨s, hs, hnone, hrest⟩ := hgood.1 hnil
      have hfree : w.Free job := by
        unfold Free
        rw [h.locks job.run (fun j hj' heq => hnew ?_)]
        · rfl
        · rwa [← h.sound.eq_of_run (h.sound.announced j hj') (h.sound.taken hpc₀) heq]
      refine Or.inr ⟨_, List.mem_map_of_mem hs, ?_⟩
      rw [hstarts job hpc₀]
      refine Station.Carries.send (.rests hfree hnone
        (fun hhand => hnew ((h.knows s hs).handled job hhand))
        (fun j hj' => nomatch hrest _ hj')) (fun j hj' => ?_)
      cases List.mem_singleton.mp hj'
      rfl

/-- The task of a worker takes a step. -/
theorem task (h : w.Runs control) {i : ℕ} {e : MemberEvent} {s : Station} {t : Task} {m : Member}
    {k : Keys} (hs : w.stations[i]? = some s) (ht : s.current = some t)
    (he : e = .report ↔ t.sent = true)
    (hm : Member.Steps (c t.job) w.now (w.keys t.job.run) i t.member e m k) :
    Runs control { w with keys := Function.update w.keys t.job.run k,
                          stations := w.stations.set i (s.goOn t m) } := by
  have hmem := List.mem_of_getElem? hs
  have hann := (h.knows s hmem).current t ht
  have hkeep : ∀ {run}, run ≠ t.job.run → Function.update w.keys t.job.run k run = w.keys run :=
    fun hne => Function.update_of_ne hne _ _
  refine h.worker (forall_mem_set h.knows ((h.knows s hmem).goOn ht m)) (fun run hrun => ?_) ?_
  · rw [hkeep (fun heq => hrun t.job hann heq.symm)]
    exact h.locks run hrun
  · intro job hj hex
    by_cases hjob : t.job = job
    · subst hjob
      rw [Function.update_self]
      rcases Member.lock_step hm with hlock | ⟨rfl, hlead, hpos⟩
      · rw [hlock]
        exact exists_mem_set hs hex (fun hc => hc.goOn ht he hm (fun _ hf => hf))
      · -- the worker has taken the lock
        have hsent : t.sent = false := by
          cases hts : t.sent with
          | false => rfl
          | true => exact absurd (he.mpr hts) nofun
        refine ⟨s.goOn t m, List.mem_set (List.getElem?_eq_some_iff.mp hs).1 _, ?_⟩
        refine .leads { t with member := m } (if_neg (by rw [hpos]; nofun)) ⟨rfl, hlead, ?_, hsent⟩
        show ¬ m.pos.Early
        rw [hpos]
        exact id
    · have hne : job.run ≠ t.job.run := fun heq =>
        hjob (h.sound.eq_of_run (h.sound.announced _ hann) (h.sound.announced job hj) heq.symm)
      rw [hkeep hne]
      exact exists_mem_set hs hex (fun hc => hc.goOn ht he hm (fun heq => absurd heq hjob))

/-- The done report of a leader comes in. -/
theorem publish (h : w.Runs control) {i : ℕ} {s : Station} {t : Task} {a : App}
    (hs : w.stations[i]? = some s) (ht : s.current = some t)
    (ha : w.app.step control (.report t.job) = some a) :
    Runs control { w with app := a,
                          stations := w.stations.set i
                            { s with current := some { t with sent := true } } } := by
  have hann : a.announced = w.app.announced :=
    (App.announced_step ha).trans (List.append_nil _)
  have hmem := List.mem_of_getElem? hs
  have htake : AppEvent.report t.job ≠ .lane .take := nofun
  have hfails : ∀ j, AppEvent.report t.job ≠ .fails j := fun _ => nofun
  refine ⟨h.sound.step ha, (App.listening_step hfails ha) ▸ h.listens, ?_, ?_, ?_⟩
  · rw [hann]
    refine forall_mem_set h.knows
      ⟨(h.knows s hmem).commands, fun t' ht' => ?_, (h.knows s hmem).handled⟩
    cases ht'
    exact (h.knows s hmem).current t ht
  · rw [hann]
    exact h.locks
  · intro job hj hpc
    rw [hann] at hj
    have hpc₀ := App.job_step htake ha hpc
    -- The report of this job is on its way now; those of others are where they
    -- were.
    by_cases hjob : t.job = job
    · subst hjob
      refine Or.inl (Or.inr ⟨?_, (App.listening_step hfails ha) ▸ h.listens⟩)
      cases App.steps_of_step ha with
      | report => exact ⟨⟨t.job, false⟩, List.mem_append_right _ List.mem_cons_self, rfl⟩
    · refine (h.carried job hj hpc₀).imp
        (fun hrep => hrep.step h.sound hpc₀ htake hfails ha) (fun hex => ?_)
      refine exists_mem_set hs hex (fun hc => ?_)
      cases hc with
      | leads t' ht' hlead =>
        cases ht.symm.trans ht'
        exact absurd hlead.1 hjob
      | tries t' hf ht' htry =>
        cases ht.symm.trans ht'
        exact absurd htry.1 hjob
      | rests hf hnone => cases hnone.symm.trans ht

/-- **What every step keeps.** -/
theorem step (h : w.Runs control) (hgood : w.Attended control e)
    (hstep : w.step control c e = some w') :
    w'.Runs control := by
  cases steps_of_step hstep with
  | app ae a hne ha => exact h.app hgood ha
  | stopAll =>
    have hnot : ∀ j, Command.start j ∉ [Command.stop] := fun j hj => nomatch List.mem_singleton.mp hj
    exact h.all (fun s hk => hk.send (fun j hj => absurd hj (hnot j)))
      (fun s free job hc => hc.send (fun j hj => absurd hj (hnot j)))
  | tick secs hsecs =>
    refine h.worker (List.forall_mem_map.mpr (fun s hs => (h.knows s hs).tick secs)) h.locks ?_
    rintro job - ⟨s, hs, hc⟩
    refine ⟨s.tick secs, List.mem_map_of_mem hs, (hc.tick secs).imp (fun hf => ?_)⟩
    -- a lock that is free stays so
    refine Option.eq_none_iff_forall_ne_some.mpr (fun j hj => ?_)
    cases hf.symm.trans (Expiring.get?_of_le (le_add_of_nonneg_right hsecs) hj)
  | subscribe i s hs =>
    exact h.one hs (fun hk => ⟨hk.commands, hk.current, hk.handled⟩)
      (fun free job hc => hc.of_eq rfl rfl (fun _ hj => hj))
  | drop i s hs hgrpc =>
    exact h.one hs (fun hk => ⟨nofun, hk.current, hk.handled⟩)
      (fun free job hc => hc.of_eq rfl rfl nofun)
  | deliver i s cmd cmds hs hcmds =>
    exact h.one hs (fun hk => hk.dispatch hcmds) (fun free job hc => hc.dispatch hcmds)
  | task i e s t m k hs ht hon he hm => exact h.task hs ht he hm
  | publish i s t a hs ht hpos hsent ha => exact h.publish hs ht ha
  | raises i s t hs ht =>
    refine h.one hs
      (fun hk => ⟨hk.commands, fun t ht => absurd ht (Option.not_mem_none t), hk.handled⟩)
      (fun free job hc => ?_)
    have hlost := hgood s hs t ht
    cases hc with
    | leads t' ht' hlead =>
      cases ht.symm.trans ht'
      exact absurd hlost hlead.not_expendable
    | tries t' hf ht' htry =>
      cases ht.symm.trans ht'
      exact absurd hlost htry.not_expendable
    | rests hf hnone => cases hnone.symm.trans ht

/-- A run that is carried is executed, if every worker has handled its start
command. -/
theorem executed (h : w.Runs control) : w.Executed control := by
  unfold Executed
  split
  case h_2 => trivial
  case h_1 job hpc =>
    intro hall
    have hjob : w.app.lane.pc.job = some job := by rw [hpc]; rfl
    have hann := (h.sound.known job hjob (by rw [hpc]; trivial)).resolve_right (by rw [hpc]; nofun)
    rcases h.carried job hann hjob with hrep | ⟨s, hs, hc⟩
    · exact Or.inl hrep
    · cases hc with
      | leads t ht hlead => exact Or.inr (Or.inl ⟨s, hs, t, ht, hlead.1, hlead.2.1⟩)
      | tries t hf ht htry => exact Or.inr (Or.inr ⟨hf, s, hs, t, ht, htry.1, htry.2.1⟩)
      | rests hf hnone hhand => exact absurd (hall s hs) hhand

end Runs

/-- **The dispatcher waits for no run that nobody executes**, as long as runs
are attended to: for any number of workers, and every order of start and stop
commands, of elections, failures and reports, over both transports.

While the dispatcher waits there is always somebody who has the run in hand: a
command on its way, a worker that is still to be elected, or the leader with
its report. The condition keeps each of these from being dropped. -/
theorem executed_of_attended (control : Control) (c : Job → Config) (n : ℕ) {w : World}
    {es : List WorldEvent} (hexec : exec (step control c) (new n) es = some w)
    (h : Along (step control c) (Attended control) (new n) es) : w.Executed control :=
  (Reaches.inv (Runs control) (fun _ _ _ hs hgood hstep => hs.step hgood hstep) (runs_new control n)
    (Reaches.of_exec hexec h)).executed

/-- The task of a worker up to the election. -/
def elects (i : ℕ) : List WorldEvent :=
  [.deliver i, .task i .start, .task i .sadd, .task i .expire, .task i .elect]

/-- The first of two workers leads, and the task of the second raises. -/
def losesFollower : List WorldEvent :=
  .subscribe 1 :: launchesOne ++ elects 0 ++ elects 1 ++ [.raises 1]

theorem executed_losesFollower :
    ∃ w, exec (step .redis oneBot) (new 2) losesFollower = some w ∧ w.Executed .redis := by
  have hexec : (exec (step .redis oneBot) (new 2) losesFollower).isSome := by decide +kernel
  have hgood : Along (step .redis oneBot) (Attended .redis) (new 2) losesFollower := by
    decide +kernel
  obtain ⟨w, hw⟩ := Option.isSome_iff_exists.mp hexec
  exact ⟨w, hw, executed_of_attended .redis oneBot 2 hw hgood⟩

/-- The only worker leads, and handles a stop command. -/
def losesLeader : List WorldEvent :=
  launchesOne ++ elects 0 ++ [.stopAll, .deliver 0, .raises 0]

/-- **The dispatcher waits for a run whose leader was stopped**, and for one
whose start command was ignored. -/
theorem not_executed_losesLeader :
    (∃ w, exec (step .redis oneBot) (new 1) losesLeader = some w ∧ ¬ w.Executed .redis)
      ∧ ∃ w, exec (step .redis oneBot) (new 1) overruns = some w ∧ ¬ w.Executed .redis := by
  constructor
  · show ∃ w ∈ exec _ _ _, _
    decide +kernel
  · show ∃ w ∈ exec _ _ _, _
    decide +kernel

end World

end Arena
