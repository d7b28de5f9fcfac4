import HftArena.Arena.World
import HftArena.Fleet.Window

/-!
# Start commands that are ignored

A worker ignores a start command while its task of an earlier run has not
ended. The orchestrator goes by the leader: when that has reported, or a run
has timed out or failed, the next run takes the lane, however far the other
workers are, or the tasks that were cancelled. So every start command is heeded
as long as none is sent before every worker has come to rest
(`heeds_of_settled`).

The invariant is a count: a worker owes what it has not ended and what it has
yet to start, and as long as that is one run at most, the start command that
comes next finds no task.
-/

open Orchestrator Fleet

namespace Arena

namespace Command

/-- A start command. -/
def isStart : Command → Bool
  | .start _ => true
  | .stop => false

/-- Stop commands are no start commands. -/
theorem countP_isStart_eq_zero {cmds : List Command} (h : ∀ cmd ∈ cmds, cmd = .stop) :
    cmds.countP isStart = 0 :=
  List.countP_eq_zero.mpr (fun cmd hcmd => by rw [h cmd hcmd]; nofun)

end Command

namespace Station

/-- The start commands that wait, and the task that has not ended: what a
worker has still to do. -/
def owed (s : Station) : ℕ := s.commands.countP Command.isStart + s.current.toList.length

variable {s : Station}

/-- A worker that rests owes nothing. -/
theorem Rested.owed (h : s.Rested) : s.owed = 0 := by
  rw [Station.owed, h.1, Command.countP_isStart_eq_zero h.2]
  rfl

/-- With no more commands, and no task where there was none, it owes no
more. -/
theorem owed_le {s' : Station}
    (hcmds : s'.commands.countP Command.isStart ≤ s.commands.countP Command.isStart)
    (hcurrent : s'.current ≠ none → s.current ≠ none) : s'.owed ≤ s.owed := by
  refine Nat.add_le_add hcmds ?_
  cases hnew : s'.current with
  | none => exact Nat.zero_le _
  | some t' =>
    obtain ⟨t, ht⟩ := Option.ne_none_iff_exists'.mp (hcurrent (by rw [hnew]; nofun))
    rw [ht]
    exact le_rfl

/-- What is sent to it, it owes. -/
theorem owed_send (cmds : List Command) :
    (s.send cmds).owed ≤ s.owed + cmds.countP Command.isStart := by
  unfold send
  split_ifs
  · refine le_of_eq ?_
    show (s.commands ++ cmds).countP Command.isStart + s.current.toList.length = _
    rw [List.countP_append, Nat.add_right_comm]
    rfl
  · exact Nat.le_add_right _ _

/-- To handle a command is to owe no more. -/
theorem owed_dispatch {cmd : Command} {cmds : List Command} (h : s.commands = cmd :: cmds) :
    (dispatch { s with commands := cmds } cmd).owed ≤ s.owed := by
  cases cmd with
  | start job =>
    show cmds.countP Command.isStart + 1 ≤ _
    rw [owed, h, List.countP_cons_of_pos rfl]
    exact Nat.le_add_right _ _
  | stop =>
    refine owed_le ?_ (fun hcurrent hnone => hcurrent ?_)
    · rw [h, List.countP_cons_of_neg Bool.false_ne_true]
      exact le_rfl
    · show s.current.map _ = none
      rw [hnone]
      rfl

/-- A task that goes on is the same debt, and one that ends is none. -/
theorem owed_goOn (t : Task) (m : Member) (h : s.current = some t) : (s.goOn t m).owed ≤ s.owed :=
  owed_le le_rfl (fun _ hnone => by cases h.symm.trans hnone)

/-- A start command that is next finds no task that has not ended, and a task
is created for its run. -/
def Heeds (s : Station) : Prop :=
  match s.commands.head? with
  | some (.start job) =>
    s.current = none ∧ (s.dispatch (.start job)).current.map Task.job = some job
  | _ => True

instance (s : Station) : Decidable s.Heeds := by
  unfold Heeds
  split <;> infer_instance

/-- A worker that owes one run at most, and has its start command, has no
task. -/
theorem heeds_of_owed (h : s.owed ≤ 1) : s.Heeds := by
  unfold Heeds
  split
  case h_1 job hcmd =>
    obtain ⟨cmds, hcmds⟩ := List.head?_eq_some_iff.mp hcmd
    rw [owed, hcmds, List.countP_cons_of_pos rfl] at h
    have hnone : s.current = none :=
      Option.toList_eq_nil_iff.mp (List.eq_nil_of_length_eq_zero (by omega))
    exact ⟨hnone, by rw [dispatch, hnone]; rfl⟩
  case h_2 => trivial

end Station

namespace World

/-- No start command is sent but to workers that rest: no task of theirs goes
on, and no other start command waits. -/
def Settled (control : Control) (w : World) : WorldEvent → Prop
  | .app e => w.starts control e ≠ [] → ∀ s ∈ w.stations, s.Rested
  | _ => True

/-- A command that is handled is heeded if it is a start command. -/
def Heeds (w : World) : WorldEvent → Prop
  | .deliver i => ∀ s ∈ w.stations[i]?, s.Heeds
  | _ => True

instance (control : Control) (w : World) : ∀ e, Decidable (w.Settled control e)
  | .app e => inferInstanceAs (Decidable (w.starts control e ≠ [] → _))
  | .stopAll | .tick _ | .subscribe _ | .drop _ | .deliver _ | .task _ _ | .publish _
  | .raises _ => isTrue trivial

instance (w : World) : ∀ e, Decidable (w.Heeds e)
  | .deliver i => inferInstanceAs (Decidable (∀ s ∈ w.stations[i]?, _))
  | .app _ | .stopAll | .tick _ | .subscribe _ | .drop _ | .task _ _ | .publish _
  | .raises _ => isTrue trivial

variable {control : Control} {c : Job → Config} {w w' : World} {e : WorldEvent}

/-- The orchestrator sends one start command at a time. -/
theorem length_starts_le (e : AppEvent) : (w.starts control e).length ≤ 1 := by
  cases e with
  | lane e =>
    cases e with
    | effect => exact Option.length_toList_le
    | _ => exact Nat.zero_le _
  | _ => exact Nat.zero_le _

/-- **A worker owes one run at most**: a start command is sent where nobody
owes anything, and nothing else adds to a debt. -/
theorem owed_step (h : ∀ s ∈ w.stations, s.owed ≤ 1) (hgood : w.Settled control e)
    (hstep : w.step control c e = some w') : ∀ s ∈ w'.stations, s.owed ≤ 1 := by
  have hat : ∀ {i : ℕ} {s : Station}, w.stations[i]? = some s → s.owed ≤ 1 := fun hs =>
    h _ (List.mem_of_getElem? hs)
  cases steps_of_step hstep with
  | app e a hne ha =>
    refine List.forall_mem_map.mpr (fun s hs => (Station.owed_send _).trans ?_)
    by_cases hnil : w.starts control e = []
    · rw [hnil]
      exact h s hs
    · rw [(hgood hnil s hs).owed, Nat.zero_add]
      exact (List.countP_le_length).trans (by rw [List.length_map]; exact length_starts_le e)
  | stopAll => exact List.forall_mem_map.mpr (fun s hs => (Station.owed_send [.stop]).trans (h s hs))
  | tick secs hsecs =>
    refine List.forall_mem_map.mpr (fun s hs =>
      le_trans (Station.owed_le (s := s) le_rfl ?_) (h s hs))
    intro hcurrent hnone
    exact hcurrent (by rw [Station.tick, hnone]; rfl)
  | subscribe i s hs => exact forall_mem_set h ((Station.owed_le (s := s) le_rfl id).trans (hat hs))
  | drop i s hs hgrpc =>
    exact forall_mem_set h (le_trans (Station.owed_le (s := s) (Nat.zero_le _) id) (hat hs))
  | deliver i s cmd cmds hs hcmds =>
    exact forall_mem_set h ((Station.owed_dispatch hcmds).trans (hat hs))
  | task i e s t m k hs ht => exact forall_mem_set h ((Station.owed_goOn t m ht).trans (hat hs))
  | publish i s t a hs ht =>
    refine forall_mem_set h (le_trans (Station.owed_le (s := s) le_rfl ?_) (hat hs))
    exact fun _ hnone => by cases ht.symm.trans hnone
  | raises i s t hs ht =>
    refine forall_mem_set h (le_trans (Station.owed_le (s := s) le_rfl ?_) (hat hs))
    exact fun hcurrent => absurd rfl hcurrent

/-- Where no worker owes more than one run, every step heeds. -/
theorem heeds_of_owed_le (h : ∀ s ∈ w.stations, s.owed ≤ 1) : w.Heeds e := by
  cases e with
  | deliver i => exact fun s hs => Station.heeds_of_owed (h s (List.mem_of_getElem? hs))
  | _ => trivial

/-- **No start command is ignored** in a run that sends none before every
worker rests: for every order of steps of the orchestrator and of the workers,
over both transports.

A worker owes something as long as it has a task that is not done or a command
that it has not looked at. Where it never owes two things at a time, each start
finds it at rest. -/
theorem heeds_of_settled (control : Control) (c : Job → Config) (n : ℕ) {w : World}
    {es : List WorldEvent} (hexec : exec (step control c) (new n) es = some w)
    (h : Along (step control c) (Settled control) (new n) es) :
    Along (step control c) Heeds (new n) es := by
  refine along_of_inv (fun w => ∀ s ∈ w.stations, s.owed ≤ 1) hexec ?_ ?_ h
  · exact fun w e w' hw hgood hstep => ⟨owed_step hw hgood hstep, heeds_of_owed_le hw⟩
  · intro s hs
    rw [List.eq_of_mem_replicate hs]
    exact Nat.zero_le _

/-- A worker connects, and a run is launched. -/
def launchesOne : List WorldEvent :=
  [.subscribe 0, .app (.lane (.enqueue ⟨1, 7, 30⟩)), .app (.lane (.enqueue ⟨2, 7, 30⟩))]
    ++ (App.launches .redis).map .app

/-- It is stopped and times out, and the next run is launched when its task has
ended. -/
def stopsOne : List WorldEvent :=
  launchesOne ++ [.deliver 0, .task 0 .start, .stopAll, .deliver 0, .raises 0]
    ++ (App.timesOut ++ App.launches .redis).map .app ++ [.deliver 0]

/-- What the workers run. -/
def oneBot (_ : Job) : Config := Worker.oneBot 32

theorem heeds_stopsOne :
    ∃ w, exec (step .redis oneBot) (new 1) stopsOne = some w
      ∧ Along (step .redis oneBot) Heeds (new 1) stopsOne := by
  obtain ⟨w, hw⟩ := Option.isSome_iff_exists.mp
    (by decide +kernel : (exec (step .redis oneBot) (new 1) stopsOne).isSome)
  exact ⟨w, hw, heeds_of_settled .redis oneBot 1 hw (by decide +kernel)⟩

/-- The run times out, and its task has not ended when the next is launched. -/
def overruns : List WorldEvent :=
  launchesOne ++ [.deliver 0, .task 0 .start]
    ++ (App.timesOut ++ App.launches .redis).map .app ++ [.deliver 0]

/-- **The worker ignores the start command of the second run.** -/
theorem not_heeds_overruns :
    (∃ w, exec (step .redis oneBot) (new 1) overruns = some w
        ∧ w.app.lane.pc = .waiting ⟨2, 7, 30⟩
        ∧ w.stations.map (fun s => s.current.map Task.job) = [some ⟨1, 7, 30⟩])
      ∧ ¬ Along (step .redis oneBot) Heeds (new 1) overruns := by
  refine ⟨?_, by decide +kernel⟩
  show ∃ w ∈ exec _ _ _, _
  decide +kernel

end World

end Arena
