import HftArena.Lib.Expiring
import HftArena.Fleet.RunLoad

/-!
# The workers of a run

`run_load` of `bot_fleet/fleet.py` on every worker that gets the start command,
with the keys of Redis they meet at. A worker registers in the set of the run,
and takes the lock if nobody has; who has it settles, probes the engine and
sets the done flag, and the others look for the flag a number of times. Then
each counts the registered, and from there on it is a `Worker` whose share of a
rate depends on that count. At the end the leader reports.

Every command of Redis is a step, and so is every sleep that is over. How long
the probe takes is anybody's choice: it depends on the engine.

The keys expire on their own, at times that a command sets. Nothing that the
workers know of each other comes from elsewhere than from these keys.
-/

namespace Fleet

/-- `int` of a `float`: towards zero. -/
def truncate (q : ℚ) : ℤ := q.num.tdiv q.den

/-- `budget`: the seconds after which the keys of a run expire. -/
def Config.budget (c : Config) : ℚ :=
  ((c.duration + c.sweepRates.length * truncate c.stepSecs
    + c.burstRates.length * truncate c.burstStepSecs + 60 : ℤ) : ℚ)

/-- The keys of a run: the set of the registered, the lock of the leader, and
the flag that the probe is over. -/
structure Keys where
  /-- `arena:fleet:{run_id}` -/
  fleet : Expiring (List ℕ)
  /-- `arena:scenario:{run_id}` -/
  lock : Expiring ℕ
  /-- `arena:scenario_done:{run_id}` -/
  done : Expiring Unit

namespace Keys

/-- No key of a run is set before it starts. -/
def new : Keys := ⟨.empty, .empty, .empty⟩

/-- `SADD`. -/
def sadd (k : Keys) (now : ℚ) (i : ℕ) : Keys :=
  { k with fleet := k.fleet.update now [] (List.insert i) }

/-- `SCARD`: a key that has expired is an empty set. -/
def scard (k : Keys) (now : ℚ) : ℕ := ((k.fleet.get? now).getD []).length

end Keys

/-- Where `run_load` is: the command it awaits, or the sleep. What lies between
two of them runs without being interrupted. -/
inductive Pos where
  /-- The start command has not been handled. -/
  | waiting
  | registering
  | refreshing
  | electing
  | settling (until_ : ℚ)
  | probing
  | flagging
  | recording
  /-- With so many turns of the loop to come, this one included. -/
  | polling (left : ℕ)
  /-- With so many turns to come after the sleep. -/
  | napping (left : ℕ) (until_ : ℚ)
  | counting
  | loading
  | reporting
  | ended
deriving DecidableEq

/-- A worker there has counted the registered. -/
def Pos.Counted : Pos → Prop
  | .loading | .reporting | .ended => True
  | _ => False

/-- **A worker that takes part in a run**: where it is before the load, and the
worker that it is in the load. -/
structure Member where
  pos : Pos
  /-- `is_leader`, when it is known. -/
  isLeader : Option Bool
  /-- `fleet_n`, when it is known. -/
  fleetN : Option ℕ
  worker : Worker

/-- **What a worker can do**: its next command of Redis is carried out, a sleep
or the probe is over, or its load takes a step. -/
inductive MemberEvent where
  | start
  | sadd
  | expire
  | elect
  /-- A sleep is over. -/
  | wake
  /-- An iteration of the probe is over. -/
  | probed (passed : Bool)
  /-- `scenarios.run` returns. -/
  | probeOver
  | flag
  | record
  | poll
  | count
  /-- A step of the load. -/
  | own (e : Event)
  | report
deriving DecidableEq

/-- A step of the load, from the first phase to the end of the last. The probe
and the warmup belong to the steps before. -/
def Event.OfLoad : Event → Prop
  | .begin | .main | .report | .bot _ _ _ | .finish => True
  | .tick _ | .probed _ | .warm => False

instance : ∀ e : Event, Decidable e.OfLoad
  | .begin | .main | .report | .bot _ _ _ | .finish => isTrue trivial
  | .tick _ | .probed _ | .warm => isFalse id

namespace Member

/-- A worker that has yet to handle the start command. -/
def new : Member := ⟨.waiting, none, none, .new⟩

/-- What the load of a worker is run with. -/
def config (m : Member) (c : Config) : Config :=
  { c with isLeader := m.isLeader.getD false, fleetN := m.fleetN.getD 1 }

/-- `fleet_n` and the load that is split by it: at least one worker is
counted. -/
def share (m : Member) (n : ℕ) : Member := { m with fleetN := some (max 1 n) }

/-- **A step of a worker**, with what becomes of the keys. -/
def step (c : Config) (now : ℚ) (k : Keys) (i : ℕ) (m : Member) :
    MemberEvent → Option (Member × Keys)
  | .start => if m.pos = .waiting then some ({ m with pos := .registering }, k) else none
  | .sadd =>
    if m.pos = .registering then some ({ m with pos := .refreshing }, k.sadd now i) else none
  | .expire =>
    if m.pos = .refreshing then
      some ({ m with pos := .electing }, { k with fleet := k.fleet.expire now (now + c.budget) })
    else none
  | .elect =>
    if m.pos = .electing then
      match k.lock.get? now with
      | none => some ({ m with pos := .settling (now + 3 / 2), isLeader := some true },
          { k with lock := .set i (now + c.budget) })
      | some _ => some ({ m with pos := .polling 120, isLeader := some false }, k)
    else none
  | .wake =>
    match m.pos with
    | .settling t => if t ≤ now then some ({ m with pos := .probing }, k) else none
    | .napping 0 t => if t ≤ now then some ({ m with pos := .counting }, k) else none
    | .napping (n + 1) t => if t ≤ now then some ({ m with pos := .polling (n + 1) }, k) else none
    | _ => none
  | .probed passed =>
    if m.pos = .probing then
      (m.worker.step (m.config c) (.probed passed)).map (fun w => ({ m with worker := w }, k))
    else none
  | .probeOver => if m.pos = .probing then some ({ m with pos := .flagging }, k) else none
  | .flag =>
    if m.pos = .flagging then
      some ({ m with pos := .recording }, { k with done := .set () (now + c.budget) })
    else none
  | .record => if m.pos = .recording then some ({ m with pos := .counting }, k) else none
  | .poll =>
    match m.pos with
    | .polling (n + 1) =>
      match k.done.get? now with
      | some _ => some ({ m with pos := .counting }, k)
      | none => some ({ m with pos := .napping n (now + 1 / 10) }, k)
    | _ => none
  | .count =>
    if m.pos = .counting then
      let m' := m.share (k.scard now)
      (m.worker.step (m'.config c) .warm).map
        (fun w => ({ m' with pos := .loading, worker := w }, k))
    else none
  | .own e =>
    if m.pos = .loading ∧ e.OfLoad then
      (m.worker.step (m.config c) e).map (fun w =>
        ({ m with
            worker := w
            pos := if w.stage = .finished then
                if m.isLeader = some true then .reporting else .ended
              else .loading }, k))
    else none
  | .report => if m.pos = .reporting then some ({ m with pos := .ended }, k) else none

/-- **The steps of a worker, one by one**, each with what it asks for. -/
inductive Steps (c : Config) (now : ℚ) (k : Keys) (i : ℕ) (m : Member) :
    MemberEvent → Member → Keys → Prop where
  | starts : m.pos = .waiting → Steps c now k i m .start { m with pos := .registering } k
  | registers : m.pos = .registering →
    Steps c now k i m .sadd { m with pos := .refreshing } (k.sadd now i)
  | refreshes : m.pos = .refreshing →
    Steps c now k i m .expire { m with pos := .electing }
      { k with fleet := k.fleet.expire now (now + c.budget) }
  | leads : m.pos = .electing → k.lock.get? now = none →
    Steps c now k i m .elect { m with pos := .settling (now + 3 / 2), isLeader := some true }
      { k with lock := .set i (now + c.budget) }
  | follows (j : ℕ) : m.pos = .electing → k.lock.get? now = some j →
    Steps c now k i m .elect { m with pos := .polling 120, isLeader := some false } k
  | settles (t : ℚ) : m.pos = .settling t → t ≤ now →
    Steps c now k i m .wake { m with pos := .probing } k
  | givesUp (t : ℚ) : m.pos = .napping 0 t → t ≤ now →
    Steps c now k i m .wake { m with pos := .counting } k
  | wakes (n : ℕ) (t : ℚ) : m.pos = .napping (n + 1) t → t ≤ now →
    Steps c now k i m .wake { m with pos := .polling (n + 1) } k
  | probed (passed : Bool) (w : Worker) : m.pos = .probing →
    m.worker.step (m.config c) (.probed passed) = some w →
    Steps c now k i m (.probed passed) { m with worker := w } k
  | probeOver : m.pos = .probing → Steps c now k i m .probeOver { m with pos := .flagging } k
  | flags : m.pos = .flagging →
    Steps c now k i m .flag { m with pos := .recording }
      { k with done := .set () (now + c.budget) }
  | records : m.pos = .recording → Steps c now k i m .record { m with pos := .counting } k
  | sees (n : ℕ) : m.pos = .polling (n + 1) → k.done.get? now = some () →
    Steps c now k i m .poll { m with pos := .counting } k
  | naps (n : ℕ) : m.pos = .polling (n + 1) → k.done.get? now = none →
    Steps c now k i m .poll { m with pos := .napping n (now + 1 / 10) } k
  | counts (w : Worker) : m.pos = .counting →
    m.worker.step ((m.share (k.scard now)).config c) .warm = some w →
    Steps c now k i m .count { m.share (k.scard now) with pos := .loading, worker := w } k
  | loads (e : Event) (w : Worker) : m.pos = .loading → e.OfLoad →
    m.worker.step (m.config c) e = some w → w.stage ≠ .finished →
    Steps c now k i m (.own e) { m with worker := w } k
  | finishes (e : Event) (w : Worker) : m.pos = .loading → e.OfLoad →
    m.worker.step (m.config c) e = some w → w.stage = .finished →
    Steps c now k i m (.own e)
      { m with worker := w, pos := if m.isLeader = some true then .reporting else .ended } k
  | reports : m.pos = .reporting → Steps c now k i m .report { m with pos := .ended } k

/-- **A step is one of these.** -/
theorem steps_of_step {c : Config} {now : ℚ} {k k' : Keys} {i : ℕ} {m m' : Member}
    {e : MemberEvent} (h : m.step c now k i e = some (m', k')) : Steps c now k i m e m' k' := by
  cases e with
  | start =>
    rw [step] at h
    split_ifs at h with hpos
    cases h
    exact .starts hpos
  | sadd =>
    rw [step] at h
    split_ifs at h with hpos
    cases h
    exact .registers hpos
  | expire =>
    rw [step] at h
    split_ifs at h with hpos
    cases h
    exact .refreshes hpos
  | elect =>
    rw [step] at h
    split_ifs at h with hpos
    split at h
    · cases h
      exact .leads hpos ‹_›
    · cases h
      exact .follows _ hpos ‹_›
  | wake =>
    rw [step] at h
    split at h
    · split_ifs at h with ht
      cases h
      exact .settles _ ‹_› ht
    · split_ifs at h with ht
      cases h
      exact .givesUp _ ‹_› ht
    · split_ifs at h with ht
      cases h
      exact .wakes _ _ ‹_› ht
    · cases h
  | probed passed =>
    rw [step] at h
    split_ifs at h with hpos
    obtain ⟨w, hw, h⟩ := Option.map_eq_some_iff.mp h
    cases h
    exact .probed passed w hpos hw
  | probeOver =>
    rw [step] at h
    split_ifs at h with hpos
    cases h
    exact .probeOver hpos
  | flag =>
    rw [step] at h
    split_ifs at h with hpos
    cases h
    exact .flags hpos
  | record =>
    rw [step] at h
    split_ifs at h with hpos
    cases h
    exact .records hpos
  | poll =>
    rw [step] at h
    split at h
    · split at h
      · cases h
        exact .sees _ ‹_› ‹_›
      · cases h
        exact .naps _ ‹_› ‹_›
    · cases h
  | count =>
    rw [step] at h
    split_ifs at h with hpos
    obtain ⟨w, hw, h⟩ := Option.map_eq_some_iff.mp h
    cases h
    exact .counts w hpos hw
  | own e =>
    rw [step] at h
    by_cases hpos : m.pos = .loading ∧ e.OfLoad
    case neg => rw [if_neg hpos] at h; cases h
    rw [if_pos hpos] at h
    obtain ⟨w, hw, h⟩ := Option.map_eq_some_iff.mp h
    by_cases hfin : w.stage = .finished
    · rw [if_pos hfin] at h
      cases h
      exact .finishes e w hpos.1 hpos.2 hw hfin
    · rw [if_neg hfin, ← hpos.1] at h
      cases h
      exact .loads e w hpos.1 hpos.2 hw hfin
  | report =>
    rw [step] at h
    split_ifs at h with hpos
    cases h
    exact .reports hpos

/-- What holds of a worker at any time: it has counted when it loads the
engine, and its load is over when it reports or ends. -/
structure Tidy (m : Member) : Prop where
  counted_iff : m.fleetN ≠ none ↔ m.pos.Counted
  finished : m.pos = .reporting ∨ m.pos = .ended → m.worker.stage = .finished

theorem tidy_new : new.Tidy :=
  ⟨⟨fun h => absurd rfl h, False.elim⟩, fun h => h.elim nofun nofun⟩

/-- Every step of the worker keeps it. -/
theorem Tidy.step {c : Config} {now : ℚ} {k k' : Keys} {i : ℕ} {m m' : Member} {e : MemberEvent}
    (h : m.Tidy) (hstep : Steps c now k i m e m' k') : m'.Tidy := by
  -- a worker that has not counted before the step, nor after
  have hearly : ∀ {pos : Pos}, m.pos = pos → ¬ pos.Counted → ∀ pos' lead, ¬ pos'.Counted →
      Tidy ⟨pos', lead, m.fleetN, m.worker⟩ := by
    intro pos hpos hnot pos' lead hnot'
    refine ⟨⟨fun hn => absurd (hpos ▸ h.counted_iff.mp hn) hnot, fun hc => absurd hc hnot'⟩, ?_⟩
    rintro (hp | hp) <;> cases hp <;> exact absurd trivial hnot'
  have hload : ∀ w, m.pos = .loading ∨ m.pos = .probing → Tidy { m with worker := w } := by
    refine fun w hpos => ⟨h.counted_iff, fun hover => ?_⟩
    rcases hpos with hpos | hpos <;> rcases hover with hp | hp <;> cases hpos.symm.trans hp
  cases hstep with
  | starts hpos | registers hpos | refreshes hpos | leads hpos | follows _ hpos | settles _ hpos
  | givesUp _ hpos | wakes _ _ hpos | probeOver hpos | flags hpos | records hpos | sees _ hpos
  | naps _ hpos => exact hearly hpos id _ _ id
  | probed passed w hpos hw => exact hload w (Or.inr hpos)
  | counts w hpos hw => exact ⟨⟨fun _ => trivial, fun _ => nofun⟩, fun h => h.elim nofun nofun⟩
  | loads e w hpos hof hw hfin => exact hload w (Or.inl hpos)
  | finishes e w hpos hof hw hfin =>
    refine ⟨⟨fun _ => ?_, fun _ => h.counted_iff.mpr (by rw [hpos]; trivial)⟩, fun _ => hfin⟩
    dsimp only
    split_ifs <;> trivial
  | reports hpos =>
    exact ⟨⟨fun _ => trivial, fun _ => h.counted_iff.mpr (by rw [hpos]; trivial)⟩,
      fun _ => h.finished (Or.inl hpos)⟩

/-- What a step does to the count. -/
theorem fleetN_step {c : Config} {now : ℚ} {k k' : Keys} {i : ℕ} {m m' : Member} {e : MemberEvent}
    (hstep : Steps c now k i m e m' k') :
    m'.fleetN = if e = .count then some (max 1 (k.scard now)) else m.fleetN := by
  cases hstep <;> rfl

/-- Time passes for a worker. -/
def tick (m : Member) (secs : ℚ) : Member :=
  { m with worker := { m.worker with now := m.worker.now + secs } }

end Member

/-- **The workers of a run**, on one clock, and the keys that they share. -/
structure Crew where
  now : ℚ
  keys : Keys
  members : List Member

/-- **What can happen to them.** -/
inductive CrewEvent where
  | tick (secs : ℚ)
  | member (i : ℕ) (e : MemberEvent)
deriving DecidableEq

namespace Crew

/-- A run that starts on so many workers. -/
def new (n : ℕ) : Crew := ⟨0, .new, List.replicate n .new⟩

/-- **A step of the workers.** -/
def step (c : Config) (s : Crew) : CrewEvent → Option Crew
  | .tick secs =>
    if 0 ≤ secs then
      some { s with now := s.now + secs, members := s.members.map (Member.tick · secs) }
    else none
  | .member i e =>
    (stepAt (fun m => m.step c s.now s.keys i) s.members i e).map
      (fun r => { s with members := r.1, keys := r.2 })

/-- **The steps, one by one.** -/
inductive Steps (c : Config) (s : Crew) : CrewEvent → Crew → Prop where
  | tick (secs : ℚ) : 0 ≤ secs →
    Steps c s (.tick secs)
      { s with now := s.now + secs, members := s.members.map (Member.tick · secs) }
  | member (i : ℕ) (e : MemberEvent) (m m' : Member) (k : Keys) : s.members[i]? = some m →
    Member.Steps c s.now s.keys i m e m' k →
    Steps c s (.member i e) { s with members := s.members.set i m', keys := k }

/-- **A step is one of these.** -/
theorem steps_of_step {c : Config} {s s' : Crew} {e : CrewEvent} (h : s.step c e = some s') :
    Steps c s e s' := by
  cases e with
  | tick secs =>
    rw [step] at h
    split_ifs at h with hs
    cases h
    exact .tick secs hs
  | member i e =>
    rw [step] at h
    obtain ⟨⟨members, k⟩, hstep, h⟩ := Option.map_eq_some_iff.mp h
    cases h
    obtain ⟨m, m', hm, hmember, rfl⟩ := stepAt_eq_some.mp hstep
    exact .member i e m m' k hm (Member.steps_of_step hmember)

/-- A worker's step is one of the crew's. -/
theorem step_member {c : Config} {s : Crew} {i : ℕ} {m m' : Member} {k : Keys} {e : MemberEvent}
    (hm : s.members[i]? = some m) (hstep : m.step c s.now s.keys i e = some (m', k)) :
    s.step c (.member i e) = some { s with members := s.members.set i m', keys := k } := by
  rw [step, stepAt_eq_some.mpr ⟨m, m', hm, hstep, rfl⟩]
  rfl

/-- The workers stay the same. -/
theorem length_step {c : Config} {s s' : Crew} {e : CrewEvent} (h : s.step c e = some s') :
    s'.members.length = s.members.length := by
  cases steps_of_step h with
  | tick => exact List.length_map _
  | member => exact List.length_set

/-- There are always as many as there were. -/
theorem length_exec {c : Config} {n : ℕ} {s : Crew} {es : List CrewEvent}
    (h : exec (step c) (new n) es = some s) : s.members.length = n :=
  inv_of_exec (fun s => s.members.length = n) h (fun _ _ _ hs hstep => (length_step hstep).trans hs)
    List.length_replicate

/-- **What every worker keeps**: what each step of a worker keeps, and time. -/
theorem forall_step {c : Config} {P : Member → Prop} {s s' : Crew} {e : CrewEvent}
    (hs : ∀ m ∈ s.members, P m) (htick : ∀ m secs, P m → P (m.tick secs))
    (hstep : ∀ i e m m' k, P m → Member.Steps c s.now s.keys i m e m' k → P m')
    (h : s.step c e = some s') : ∀ m ∈ s'.members, P m := by
  cases steps_of_step h with
  | tick secs => exact List.forall_mem_map.mpr (fun m hm => htick m secs (hs m hm))
  | member i e m m' k hm hsteps =>
    exact forall_mem_set hs (hstep i e m m' k (hs m (List.mem_of_getElem? hm)) hsteps)

/-- **What some worker keeps.** -/
theorem exists_step {c : Config} {P : Member → Prop} {s s' : Crew} {e : CrewEvent}
    (hs : ∃ m ∈ s.members, P m) (htick : ∀ m secs, P m → P (m.tick secs))
    (hstep : ∀ i e m m' k, m ∈ s.members → P m → Member.Steps c s.now s.keys i m e m' k → P m')
    (h : s.step c e = some s') : ∃ m ∈ s'.members, P m := by
  cases steps_of_step h with
  | tick secs =>
    obtain ⟨m, hm, hP⟩ := hs
    exact ⟨m.tick secs, List.mem_map_of_mem hm, htick m secs hP⟩
  | member i e m m' k hm hsteps =>
    exact exists_mem_set hm hs (fun hP => hstep i e m m' k (List.mem_of_getElem? hm) hP hsteps)

/-- All workers stay as they should be. -/
theorem tidy_step {c : Config} {s s' : Crew} {e : CrewEvent} (hs : ∀ m ∈ s.members, m.Tidy)
    (h : s.step c e = some s') : ∀ m ∈ s'.members, m.Tidy :=
  forall_step hs (fun _ _ hm => ⟨hm.counted_iff, hm.finished⟩)
    (fun _ _ _ _ _ hm hsteps => hm.step hsteps) h

theorem tidy_new (n : ℕ) : ∀ m ∈ (new n).members, m.Tidy := fun m hm => by
  rw [List.eq_of_mem_replicate hm]
  exact Member.tidy_new

end Crew

end Fleet
