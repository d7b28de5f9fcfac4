import HftArena.Fleet.Window

/-!
# A run that is cancelled

A stop command cancels the task of `run_load` and no other. The task raises at
the `await` where it is, and what becomes of the tasks it has created depends
on which that is: `gather` cancels the bots it waits for, and an `await` of the
reporter cancels the reporter, but a sleep leaves both as they are, with a stop
event that nobody will set any more.

So the load ends with the run if and only if the cancellation finds the run in
its warmup, or in a phase with its stop event set (`stops_iff`).

A cancellation is two events, since it is asked for at one time and delivered
when the task runs again; between the two the tasks that the run waits for get
it first.
-/

open Wire

namespace Fleet

/-- A step of a bot's sender. -/
def BotEvent.ofSender : BotEvent → Bool
  | .connect _ _ | .test | .acquire | .wake | .fire _ | .sent | .sendFails => true
  | .recv _ | .recvFails | .arrive _ | .drop => false

/-- A bot that is cancelled: `async with` closes its connection. -/
def Bot.kill (b : Bot) : Bot :=
  { b with sender := .done, connection := if b.connection = .open then .closed else b.connection }

/-- Whether the bots and the reporter of a phase have been told to stop. -/
def Main.Over (main : Main) : Prop := main = .gathering ∨ main = .reporting ∨ main = .done

instance (main : Main) : Decidable main.Over := inferInstanceAs (Decidable (_ ∨ _ ∨ _))

/-- Where the cancellation of a run is: asked for, and then raised at the
`await`. -/
inductive Cancellation where
  | none
  /-- `current.cancel()` was called. -/
  | requested
  /-- `run_load` has raised. -/
  | delivered
deriving DecidableEq

/-- **A run of a worker that can be cancelled.** -/
structure Load where
  worker : Worker
  cancellation : Cancellation

/-- **What can happen to it.** -/
inductive LoadEvent where
  | own (e : Event)
  /-- A stop command is handled. -/
  | request
  /-- A bot of the latest phase gets the cancellation from `gather`. -/
  | killBot (i : ℕ)
  /-- The reporter gets it from `await rep`. -/
  | killReporter
  /-- `run_load` gets it, and raises. -/
  | deliver
deriving DecidableEq

namespace Load

/-- A run that starts. -/
def new : Load := ⟨.new, .none⟩

/-- Where the latest phase is, if a phase has begun. -/
def main (l : Load) : Option Main := l.worker.phases.head?.map Phase.main

/-- `run_load` is at an `await`: in the warmup, in a phase that waits, or where
the leader reports. -/
def Suspended (l : Load) : Prop :=
  match l.worker.stage, l.main with
  | .warmup, _ => True
  | .phases _, some (.asleep _ _) => True
  | .phases _, some .gathering => True
  | .phases _, some .reporting => True
  | .phases [], some .done => True
  | _, _ => False

instance (l : Load) : Decidable l.Suspended := by
  unfold Suspended
  split <;> infer_instance

/-- What can happen although `run_load` goes no further: time passes, and the
tasks that have not been cancelled take their steps. -/
def Background (l : Load) : Event → Prop
  | .tick _ => True
  | .report => l.cancellation = .requested → l.main ≠ some .reporting
  | .bot p _ e =>
    l.cancellation = .requested → l.main = some .gathering → p = 0 → e.ofSender = false
  | _ => False

instance (l : Load) : ∀ e, Decidable (l.Background e)
  | .tick _ => isTrue trivial
  | .report => inferInstanceAs (Decidable (_ → _))
  | .bot _ _ _ => inferInstanceAs (Decidable (_ → _ → _ → _))
  | .probed _ | .warm | .begin | .main | .finish => isFalse id

/-- The tasks that `run_load` waits for have ended, if they get its
cancellation: the bots in `gather`, and the reporter in `await rep`. -/
def Deliverable (l : Load) : Prop :=
  ∀ ph ∈ l.worker.phases.head?, (ph.main = .gathering → ∀ b ∈ ph.bots, b.sender = .done)
    ∧ (ph.main = .reporting → match ph.reporter with | .done => True | _ => False)

instance (r : Reporter) : Decidable (match r with | .done => True | _ => False) := by
  cases r <;> infer_instance

instance (l : Load) : Decidable l.Deliverable :=
  inferInstanceAs (Decidable (∀ ph ∈ l.worker.phases.head?, (_ → _) ∧ (_ → _)))

/-- **A step of a run that can be cancelled.** -/
def step (c : Config) (l : Load) : LoadEvent → Option Load
  | .own e =>
    if l.cancellation = .none ∨ l.Background e then
      (l.worker.step c e).map (fun w => { l with worker := w })
    else none
  | .request =>
    if l.cancellation = .none ∧ l.Suspended then some { l with cancellation := .requested } else none
  | .killBot i =>
    match l.worker.phases with
    | ph :: phs =>
      if l.cancellation = .requested ∧ ph.main = .gathering then
        ph.bots[i]?.map (fun b =>
          { l with worker := { l.worker with
              phases := { ph with bots := ph.bots.set i b.kill } :: phs } })
      else none
    | [] => none
  | .killReporter =>
    match l.worker.phases with
    | ph :: phs =>
      if l.cancellation = .requested ∧ ph.main = .reporting then
        some { l with worker := { l.worker with phases := { ph with reporter := .done } :: phs } }
      else none
    | [] => none
  | .deliver =>
    if l.cancellation = .requested ∧ l.Deliverable then some { l with cancellation := .delivered }
    else none

/-- **The steps, one by one**, each with what it asks for. -/
inductive Steps (c : Config) (l : Load) : LoadEvent → Load → Prop where
  | own (e : Event) (w : Worker) : l.cancellation = .none ∨ l.Background e →
    l.worker.step c e = some w → Steps c l (.own e) { l with worker := w }
  | request : l.cancellation = .none → l.Suspended →
    Steps c l .request { l with cancellation := .requested }
  | killBot (i : ℕ) (ph : Phase) (phs : List Phase) (b : Bot) : l.worker.phases = ph :: phs →
    l.cancellation = .requested → ph.main = .gathering → ph.bots[i]? = some b →
    Steps c l (.killBot i)
      { l with worker := { l.worker with
          phases := { ph with bots := ph.bots.set i b.kill } :: phs } }
  | killReporter (ph : Phase) (phs : List Phase) : l.worker.phases = ph :: phs →
    l.cancellation = .requested → ph.main = .reporting →
    Steps c l .killReporter
      { l with worker := { l.worker with phases := { ph with reporter := .done } :: phs } }
  | deliver : l.cancellation = .requested → l.Deliverable →
    Steps c l .deliver { l with cancellation := .delivered }

/-- **A step is one of these.** -/
theorem steps_of_step {c : Config} {l l' : Load} {e : LoadEvent} (h : l.step c e = some l') :
    Steps c l e l' := by
  cases e with
  | own e =>
    rw [step] at h
    split_ifs at h with hon
    obtain ⟨w, hw, rfl⟩ := Option.map_eq_some_iff.mp h
    exact .own e w hon hw
  | request =>
    rw [step] at h
    split_ifs at h with hon
    cases h
    exact .request hon.1 hon.2
  | killBot i =>
    rw [step] at h
    split at h
    · split_ifs at h with hon
      obtain ⟨b, hb, rfl⟩ := Option.map_eq_some_iff.mp h
      exact .killBot i _ _ b ‹_› hon.1 hon.2 hb
    · cases h
  | killReporter =>
    rw [step] at h
    split at h
    · split_ifs at h with hon
      cases h
      exact .killReporter _ _ ‹_› hon.1 hon.2
    · cases h
  | deliver =>
    rw [step] at h
    split_ifs at h with hon
    cases h
    exact .deliver hon.1 hon.2

end Load

/-! ## What a phase keeps

A phase is over when its tasks are done. Until then its tasks are in an order
that `gather` and the stop event impose. -/

/-- A sender that has ended takes no more steps. -/
theorem Bot.done_step {wire : Wire.Mode} {scaled : ℚ → ℤ} {env : Env} {b b' : Bot} {e : BotEvent}
    {t : Tally} (h : b.sender = .done) (hstep : b.step wire scaled env e = some (b', t)) :
    b'.sender = .done := by
  cases steps_of_step hstep with
  | connected oid hs | refused oid hs | leaves hs | takes hs | waits hs | early hs | behind hs
  | late hs | acquires hs | paced u hs | drained u hs | saturated n ns hs | fires n ns hs
  | sent n hs | fails n hs => exact absurd (h.symm.trans hs) nofun
  | acked | unknown => exact sender_release.trans h
  | _ => exact h

/-- In particular it fires no order. -/
theorem Bot.not_fire_of_done {wire : Wire.Mode} {scaled : ℚ → ℤ} {env : Env} {b : Bot} {ns : ℕ}
    (h : b.sender = .done) : b.step wire scaled env (.fire ns) = none := by
  rw [step, h]

/-- There are three ways to be over. -/
theorem Main.not_over {main : Main} (h : main ≠ .gathering) (h' : main ≠ .reporting)
    (h'' : main ≠ .done) : ¬ main.Over := by
  rintro (hmain | hmain | hmain)
  · exact h hmain
  · exact h' hmain
  · exact h'' hmain

namespace Phase

/-- What holds of a phase at any time: the stop event is set when it is over
and not before, the bots have ended when it has gathered them, and the reporter
ends when the stop event is set and the phase with it. -/
structure Ordered (ph : Phase) : Prop where
  stop_iff : ph.stop = true ↔ ph.main.Over
  gathered : ph.main = .reporting ∨ ph.main = .done → ∀ b ∈ ph.bots, b.sender = .done
  stopped : ph.reporter = .done → ph.stop = true
  reported : ph.main = .done → ph.reporter = .done

/-- **The load of a phase has ended**: its bots have, and its reporter has or
will when it next looks at the stop event. -/
def Ended (ph : Phase) : Prop :=
  (∀ b ∈ ph.bots, b.sender = .done) ∧ ph.stop = true

/-- **The reporter of a phase stays**: nobody will set the stop event. -/
def Stays (ph : Phase) : Prop := ph.stop = false ∧ ph.reporter ≠ .done

variable {ph ph' : Phase} {now : ℚ} {stats : Stats} {rec : Option Record}

/-- A phase that begins is as it should be. -/
theorem ordered_begin (spec : Spec) (window : ℕ) (now : ℚ) : (spec.begin window now).Ordered where
  stop_iff := ⟨nofun, fun h => absurd h (Main.not_over nofun nofun nofun)⟩
  gathered h := h.elim nofun nofun
  stopped := nofun
  reported := nofun

/-- It stays so when the phase takes a step, -/
theorem Ordered.main (h : ph.Ordered) (hstep : ph.mainStep now = some ph') : ph'.Ordered := by
  -- the stop event is not set where the phase is not over
  have hgoes : ∀ {main : Main}, ¬ ph.main.Over → ¬ main.Over → (ph.stop = true ↔ main.Over) :=
    fun hnot hnot' => ⟨fun hs => absurd (h.stop_iff.mp hs) hnot, fun ho => absurd ho hnot'⟩
  have hover : ∀ {main : Main}, ph.main.Over → main.Over → (ph.stop = true ↔ main.Over) :=
    fun ho ho' => ⟨fun _ => ho', fun _ => h.stop_iff.mpr ho⟩
  cases steps_of_mainStep hstep with
  | paces interval script hmain | tags rate script hmain | sleeps secs script hmain
  | wakes t script hmain =>
    refine ⟨hgoes ?_ (Main.not_over nofun nofun nofun), fun h => h.elim nofun nofun,
      h.stopped, nofun⟩
    rw [hmain]
    exact Main.not_over nofun nofun nofun
  | stops hmain =>
    exact ⟨⟨fun _ => Or.inl rfl, fun _ => rfl⟩, fun h => h.elim nofun nofun, fun _ => rfl, nofun⟩
  | gathers hmain hall =>
    exact ⟨hover (Or.inl hmain) (Or.inr (Or.inl rfl)), fun _ => hall, h.stopped, nofun⟩
  | ends hmain hrep =>
    exact ⟨hover (Or.inr (Or.inl hmain)) (Or.inr (Or.inr rfl)),
      fun _ => h.gathered (Or.inl hmain), h.stopped, fun _ => hrep⟩

/-- when its reporter does, -/
theorem Ordered.report (h : ph.Ordered) (hstep : ph.reporterStep stats now = some (ph', rec)) :
    ph'.Ordered := by
  cases steps_of_reporterStep hstep with
  | looks hrep | sleeps last hrep | flushes last t hrep =>
    exact ⟨h.stop_iff, h.gathered, nofun, fun hmain => by rw [h.reported hmain] at hrep; cases hrep⟩
  | ends last hrep hstop => exact ⟨h.stop_iff, h.gathered, fun _ => hstop, fun _ => rfl⟩

/-- and when one of its bots does. -/
theorem Ordered.set (h : ph.Ordered) {i : ℕ} {b b' : Bot} (hb : ph.bots[i]? = some b)
    (hdone : b.sender = .done → b'.sender = .done) : Ordered { ph with bots := ph.bots.set i b' } :=
  ⟨h.stop_iff, fun hmain => forall_mem_set (h.gathered hmain)
    (hdone (h.gathered hmain b (List.mem_of_getElem? hb))), h.stopped, h.reported⟩

/-- The load of a phase has ended when the phase has gathered its bots. -/
theorem Ordered.ended (h : ph.Ordered) (hmain : ph.main = .reporting ∨ ph.main = .done) :
    ph.Ended :=
  ⟨h.gathered hmain, h.stop_iff.mpr (Or.inr hmain)⟩

/-- An ended load stays ended, whatever its receivers do. -/
theorem Ended.set (h : ph.Ended) {i : ℕ} {b b' : Bot} (hb : ph.bots[i]? = some b)
    (hdone : b.sender = .done → b'.sender = .done) : Ended { ph with bots := ph.bots.set i b' } :=
  ⟨forall_mem_set h.1 (hdone (h.1 b (List.mem_of_getElem? hb))), h.2⟩

/-- The reporter changes nothing about that. -/
theorem Ended.report (h : ph.Ended) (hstep : ph.reporterStep stats now = some (ph', rec)) :
    ph'.Ended := by
  refine ⟨by rw [bots_reporterStep hstep]; exact h.1, ?_⟩
  cases steps_of_reporterStep hstep <;> exact h.2

/-- A reporter that stays goes on to do so: it never finds the stop event
set. -/
theorem Stays.report (h : ph.Stays) (hstep : ph.reporterStep stats now = some (ph', rec)) :
    ph'.Stays := by
  cases steps_of_reporterStep hstep with
  | looks | sleeps | flushes => exact ⟨h.1, nofun⟩
  | ends last hrep hstop => rw [h.1] at hstop; cases hstop

end Phase

/-! ## What a run keeps

There is one phase at a time, and all before it are over. -/

namespace Worker

/-- What holds of the phases of a run at any time: each is as it should be, and
all are over but the latest. -/
structure Tidy (w : Worker) : Prop where
  ordered : ∀ ph ∈ w.phases, ph.Ordered
  older : ∀ ph ∈ w.phases.tail, ph.main = .done
  warmup : w.stage = .warmup → w.phases = []
  finished : w.stage = .finished → w.idle

variable {c : Config} {w w' : Worker} {e : Event}

/-- A run that starts has no phases. -/
theorem tidy_new : new.Tidy where
  ordered := List.forall_mem_nil _
  older := List.forall_mem_nil _
  warmup := fun _ => rfl
  finished := nofun

/-- A run with a phase that is not over goes on. -/
theorem Tidy.stage_phases {ph : Phase} {phs : List Phase} (h : w.Tidy)
    (hphases : w.phases = ph :: phs) (hmain : ph.main ≠ .done) : ∃ todo, w.stage = .phases todo := by
  cases hstage : w.stage with
  | warmup => exact absurd (h.warmup hstage) (by rw [hphases]; nofun)
  | phases todo => exact ⟨todo, rfl⟩
  | finished => exact absurd (h.finished hstage ph (by rw [hphases]; rfl)) hmain

/-- The latest phase may be put in place of another. -/
theorem Tidy.latest {ph ph' : Phase} {phs : List Phase} {todo : List Spec} (h : w.Tidy)
    (hphases : w.phases = ph :: phs) (hstage : w.stage = .phases todo) (hph : ph'.Ordered)
    (stats : Stats) (records : List Record) :
    Tidy { w with phases := ph' :: phs, stats := stats, records := records } := by
  have hord := h.ordered
  have hold := h.older
  rw [hphases] at hord hold
  refine ⟨List.forall_mem_cons.mpr ⟨hph, fun p hp => hord p (List.mem_cons_of_mem _ hp)⟩,
    hold, ?_, ?_⟩
  · exact fun hwarm => by rw [hstage] at hwarm; cases hwarm
  · exact fun hfin => by rw [hstage] at hfin; cases hfin

/-- **Every step of the worker keeps it.** -/
theorem Tidy.step (h : w.Tidy) (hstep : w.step c e = some w') : w'.Tidy := by
  cases steps_of_step hstep with
  | tick => exact ⟨h.ordered, h.older, h.warmup, h.finished⟩
  | probed => exact ⟨h.ordered, h.older, h.warmup, h.finished⟩
  | warm => exact ⟨h.ordered, h.older, nofun, nofun⟩
  | begins spec todo hstage hidle =>
    refine ⟨List.forall_mem_cons.mpr ⟨Phase.ordered_begin _ _ _, h.ordered⟩, ?_, nofun, nofun⟩
    intro ph hph
    -- the phase that was the latest is over
    match hphases : w.phases with
    | [] => rw [List.tail_cons, hphases] at hph; cases hph
    | ph₀ :: phs =>
      rw [List.tail_cons, hphases] at hph
      cases hph with
      | head => exact hidle ph (by rw [hphases]; rfl)
      | tail _ hph => exact h.older ph (by rw [hphases]; exact hph)
  | main todo ph ph' phs hstage hphases hmain =>
    exact h.latest hphases hstage ((h.ordered ph
      (by rw [hphases]; exact List.mem_cons_self)).main hmain)
      _ _
  | report todo ph ph' phs rec hstage hphases hrep =>
    exact h.latest hphases hstage ((h.ordered ph
      (by rw [hphases]; exact List.mem_cons_self)).report hrep)
      _ _
  | bot todo p i e ph b b' t hstage hph hb hbot =>
    refine ⟨?_, ?_, ?_, ?_⟩
    · exact forall_mem_set h.ordered
        ((h.ordered ph (List.mem_of_getElem? hph)).set hb (fun hd => Bot.done_step hd hbot))
    · -- a bot changes nothing of where its phase is
      match hphases : w.phases with
      | [] => rw [hphases] at hph; cases hph
      | ph₀ :: phs =>
        have hd := h.older
        rw [hphases] at hph hd
        cases p with
        | zero => exact hd
        | succ p => exact forall_mem_set hd (hd ph (List.mem_of_getElem? hph))
    · exact fun hwarm => by rw [hstage] at hwarm; cases hwarm
    · exact fun hfin => by rw [hstage] at hfin; cases hfin
  | finish hstage hidle => exact ⟨h.ordered, h.older, nofun, fun _ => hidle⟩

end Worker

/-! ## What stops

What is asked of a stop, and what makes a phase keep to it: its stop event was
set, so that senders leave at their next test and the reporter after its next
flush. -/

/-- A bot sends an order. -/
def LoadEvent.Fires : LoadEvent → Prop
  | .own (.bot _ _ (.fire _)) => True
  | _ => False

namespace Load

/-- All reporters of the run have ended. -/
def Reported (l : Load) : Prop := ∀ ph ∈ l.worker.phases, ph.reporter = .done

/-- The reporters end in some number of steps. -/
def CanReport (c : Config) (n : ℕ) (l : Load) : Prop :=
  ∃ es l', es.length ≤ n ∧ exec (step c) l es = some l' ∧ l'.Reported

/-- In fewer steps is in no more. -/
theorem CanReport.mono {c : Config} {l : Load} {m n : ℕ} (h : l.CanReport c m) (hmn : m ≤ n) :
    l.CanReport c n := by
  obtain ⟨es, l', hlen, h⟩ := h
  exact ⟨es, l', hlen.trans hmn, h⟩

/-- **The load has stopped**: whatever happens next no bot sends another order,
and no reporter stays, for those that go on end in three more steps at most.
These are the steps of a reporter that sleeps: it wakes up, flushes, and finds
the stop event set. -/
def Stopped (c : Config) (l : Load) : Prop :=
  ∀ es l', exec (step c) l es = some l' → (∀ e ∈ es, ¬ e.Fires) ∧ l'.CanReport c 3

/-- A cancellation is delivered in the warmup or in a phase that is over. The
condition is on where the run is when it gets it. -/
def Late (l : Load) : LoadEvent → Prop
  | .deliver => ∀ ph ∈ l.worker.phases.head?, ph.main.Over
  | _ => True

instance (l : Load) : ∀ e, Decidable (l.Late e)
  | .deliver => inferInstanceAs (Decidable (∀ ph ∈ l.worker.phases.head?, _))
  | .own _ | .request | .killBot _ | .killReporter => isTrue trivial

/-- A cancellation was delivered when the load had ended. -/
def Sealed (l : Load) : Prop :=
  l.cancellation = .delivered ∧ ∀ ph ∈ l.worker.phases, ph.Ended

/-- A cancellation was delivered before, and the reporter stays. -/
def Strays (l : Load) : Prop :=
  l.cancellation = .delivered ∧ ∃ ph ∈ l.worker.phases.head?, ph.Stays

variable {c : Config} {l l' : Load} {e : LoadEvent}

/-- A cancellation leaves the phases as they should be. -/
theorem tidy_step (h : l.worker.Tidy) (hstep : l.step c e = some l') : l'.worker.Tidy := by
  cases steps_of_step hstep with
  | own e w hon hw => exact h.step hw
  | request => exact h
  | deliver => exact h
  | killBot i ph phs b hphases hreq hmain hb =>
    have hph := h.ordered ph (by rw [hphases]; exact List.mem_cons_self)
    obtain ⟨todo, hstage⟩ := h.stage_phases hphases (by rw [hmain]; nofun)
    exact h.latest hphases hstage (hph.set hb (fun _ => rfl)) _ _
  | killReporter ph phs hphases hreq hmain =>
    have hph := h.ordered ph (by rw [hphases]; exact List.mem_cons_self)
    obtain ⟨todo, hstage⟩ := h.stage_phases hphases (by rw [hmain]; nofun)
    refine h.latest hphases hstage ?_ _ _
    exact ⟨hph.stop_iff, hph.gathered,
      fun _ => hph.stop_iff.mpr (Or.inr (Or.inl hmain)), fun _ => rfl⟩

/-- A late cancellation seals the run. -/
theorem sealed_deliver (h : l.worker.Tidy) (hlate : l.Late .deliver) (hall : l.Deliverable) :
    Sealed { l with cancellation := .delivered } := by
  refine ⟨rfl, fun ph hph => ?_⟩
  match hphases : l.worker.phases with
  | [] => exact absurd (hphases ▸ hph) List.not_mem_nil
  | ph₀ :: phs =>
    have hord := h.ordered ph hph
    rcases List.mem_cons.mp (hphases ▸ hph : ph ∈ ph₀ :: phs) with rfl | hph
    · have hhead : ph ∈ l.worker.phases.head? := by rw [hphases]; rfl
      rcases hlate ph hhead with hmain | hmain
      · exact ⟨(hall ph hhead).1 hmain, hord.stop_iff.mpr (Or.inl hmain)⟩
      · exact hord.ended hmain
    · exact hord.ended (Or.inr (h.older ph (by rw [hphases]; exact hph)))

/-- An early one leaves the reporter behind. -/
theorem strays_deliver (h : l.worker.Tidy) (hlate : ¬ l.Late .deliver) :
    Strays { l with cancellation := .delivered } := by
  unfold Late at hlate
  push Not at hlate
  obtain ⟨ph, hph, hover⟩ := hlate
  have hord := h.ordered ph (List.mem_of_mem_head? hph)
  have hstop : ¬ ph.stop = true := fun hs => hover (hord.stop_iff.mp hs)
  exact ⟨rfl, ph, hph, Bool.eq_false_of_not_eq_true hstop, fun hd => hstop (hord.stopped hd)⟩

/-- A sealed run stays sealed, and sends nothing. -/
theorem Sealed.step (h : l.Sealed) (hstep : l.step c e = some l') : l'.Sealed ∧ ¬ e.Fires := by
  have hreq : l.cancellation ≠ .requested := by rw [h.1]; nofun
  cases steps_of_step hstep with
  | own e w hon hw =>
    have hback : l.Background e := hon.resolve_left (by rw [h.1]; nofun)
    cases Worker.steps_of_step hw with
    | tick => exact ⟨h, nofun⟩
    | probed | warm | begins | main | finish => exact hback.elim
    | report todo ph ph' phs rec hstage hphases hrep =>
      have hall := h.2
      rw [hphases] at hall
      refine ⟨⟨h.1, List.forall_mem_cons.mpr ⟨?_, ?_⟩⟩, nofun⟩
      · exact (hall ph List.mem_cons_self).report hrep
      · exact fun p hp => hall p (List.mem_cons_of_mem _ hp)
    | bot todo p i e ph b b' t hstage hph hb hbot =>
      have hended := h.2 ph (List.mem_of_getElem? hph)
      refine ⟨⟨h.1, forall_mem_set h.2 (hended.set hb (fun hd => Bot.done_step hd hbot))⟩, ?_⟩
      have hdone := hended.1 b (List.mem_of_getElem? hb)
      cases e with
      | fire ns => rw [Bot.not_fire_of_done hdone] at hbot; cases hbot
      | _ => exact id
  | request hnone => rw [h.1] at hnone; cases hnone
  | killBot i ph phs b hphases hr | killReporter ph phs hphases hr | deliver hr =>
    exact absurd hr hreq

/-- Nor does it in any run. -/
theorem Sealed.run (h : l.Sealed) {es : List LoadEvent}
    (hexec : exec (Load.step c) l es = some l') :
    l'.Sealed ∧ ∀ e ∈ es, ¬ e.Fires := by
  induction es generalizing l with
  | nil =>
    cases hexec
    exact ⟨h, nofun⟩
  | cons e es ih =>
    obtain ⟨l₁, hl₁, hexec⟩ := Option.bind_eq_some_iff.mp hexec
    obtain ⟨h₁, hfires⟩ := h.step hl₁
    obtain ⟨h', hfires'⟩ := ih h₁ hexec
    exact ⟨h', List.forall_mem_cons.mpr ⟨hfires, hfires'⟩⟩

/-! ### The reporters end

The reporter of a sealed phase needs finitely many steps, and nothing keeps it
from taking them. -/

/-- One step more. -/
theorem CanReport.head {n : ℕ} (hstep : l.step c e = some l') (h : l'.CanReport c n) :
    l.CanReport c (n + 1) := by
  obtain ⟨es, l'', hlen, hexec, hall⟩ := h
  refine ⟨e :: es, l'', Nat.succ_le_succ hlen, ?_, hall⟩
  rw [exec, hstep, Option.bind_some, hexec]

/-- A cancelled run with the stop event of its latest phase set, and no other
reporter. -/
structure Closing (l : Load) (ph : Phase) (phs : List Phase) : Prop where
  delivered : l.cancellation = .delivered
  stage : ∃ todo, l.worker.stage = .phases todo
  phases : l.worker.phases = ph :: phs
  older : ∀ p ∈ phs, p.reporter = .done
  stop : ph.stop = true

namespace Closing

variable {ph ph' : Phase} {phs : List Phase} {rec : Option Record} {last : Stats}

/-- The reporter takes a step, and all else stays. -/
theorem step_report (h : l.Closing ph phs)
    (hrep : ph.reporterStep l.worker.stats l.worker.now = some (ph', rec)) :
    ∃ l', l.step c (.own .report) = some l' ∧ l'.Closing ph' phs := by
  obtain ⟨todo, hstage⟩ := h.stage
  have hback : l.Background .report := fun hreq => by rw [h.delivered] at hreq; cases hreq
  refine ⟨{ l with worker := { l.worker with
    phases := ph' :: phs, records := l.worker.records ++ rec.toList } }, ?_,
    h.delivered, h.stage, rfl, h.older, ?_⟩
  · rw [Load.step, if_pos (Or.inr hback), Worker.step]
    dsimp only
    rw [hstage, h.phases]
    dsimp only
    rw [hrep]
    rfl
  · cases Phase.steps_of_reporterStep hrep <;> exact h.stop

/-- The reporter ends when it looks at the stop event. -/
theorem testing (h : l.Closing ph phs) (hrep : ph.reporter = .testing last) : l.CanReport c 1 := by
  have hlook : ph.reporterStep l.worker.stats l.worker.now
      = some ({ ph with reporter := .done }, (flush ph.tag last l.worker.stats).2) := by
    rw [Phase.reporterStep, hrep]
    exact if_pos h.stop
  obtain ⟨l', hstep, h'⟩ := h.step_report (c := c) hlook
  refine CanReport.head hstep ⟨[], l', Nat.le_refl 0, rfl, ?_⟩
  rw [Reported, h'.phases]
  exact List.forall_mem_cons.mpr ⟨rfl, h'.older⟩

/-- Its task runs for the first time, and then looks. -/
theorem created (h : l.Closing ph phs) (hrep : ph.reporter = .created) : l.CanReport c 2 := by
  have hlook : ph.reporterStep l.worker.stats l.worker.now
      = some ({ ph with reporter := .testing l.worker.stats }, none) := by
    rw [Phase.reporterStep, hrep]
  obtain ⟨l', hstep, h'⟩ := h.step_report (c := c) hlook
  exact CanReport.head hstep (h'.testing rfl)

/-- It wakes up, flushes, and looks. -/
theorem woken {t : ℚ} (h : l.Closing ph phs) (hrep : ph.reporter = .sleeping last t)
    (ht : t ≤ l.worker.now) : l.CanReport c 2 := by
  have hlook : ph.reporterStep l.worker.stats l.worker.now
      = some ({ ph with reporter := .testing (flush ph.tag last l.worker.stats).1 },
          (flush ph.tag last l.worker.stats).2) := by
    rw [Phase.reporterStep, hrep]
    exact if_pos ht
  obtain ⟨l', hstep, h'⟩ := h.step_report (c := c) hlook
  exact CanReport.head hstep (h'.testing rfl)

/-- Time has to pass before. -/
theorem sleeping {t : ℚ} (h : l.Closing ph phs) (hrep : ph.reporter = .sleeping last t) :
    l.CanReport c 3 := by
  have htick : l.step c (.own (.tick (max 0 (t - l.worker.now))))
      = some { l with
          worker := { l.worker with now := l.worker.now + max 0 (t - l.worker.now) } } := by
    have hback : l.Background (.tick (max 0 (t - l.worker.now))) := trivial
    rw [Load.step, if_pos (Or.inr hback), Worker.step, if_pos (le_max_left _ _)]
    rfl
  refine CanReport.head htick (woken ⟨h.delivered, h.stage, h.phases, h.older, h.stop⟩ hrep ?_)
  exact sub_le_iff_le_add'.mp (le_max_right 0 (t - l.worker.now))

end Closing

/-- The reporters of a sealed run end. -/
theorem Sealed.reported (h : l.Sealed) (htidy : l.worker.Tidy) : l.CanReport c 3 := by
  match hphases : l.worker.phases with
  | [] => exact ⟨[], l, Nat.zero_le 3, rfl, fun ph hph => by rw [hphases] at hph; cases hph⟩
  | ph :: phs =>
    have hord := htidy.ordered
    have hold := htidy.older
    rw [hphases] at hord hold
    have hdone : ∀ p ∈ phs, p.reporter = .done := fun p hp =>
      (hord p (List.mem_cons_of_mem _ hp)).reported (hold p hp)
    have hnow : ph.reporter = .done → l.CanReport c 3 := fun hrep =>
      ⟨[], l, Nat.zero_le 3, rfl,
        by rw [Reported, hphases]; exact List.forall_mem_cons.mpr ⟨hrep, hdone⟩⟩
    by_cases hmain : ph.main = .done
    · exact hnow ((hord ph List.mem_cons_self).reported hmain)
    have hclosing : l.Closing ph phs := ⟨h.1, htidy.stage_phases hphases hmain, hphases, hdone,
      (h.2 ph (by rw [hphases]; exact List.mem_cons_self)).2⟩
    cases hrep : ph.reporter with
    | created => exact (hclosing.created hrep).mono (by decide)
    | testing last => exact (hclosing.testing hrep).mono (by decide)
    | sleeping last t => exact hclosing.sleeping hrep
    | done => exact hnow hrep

/-! ### The reporter that stays

If the phase is not told, its reporter goes on sleeping and flushing for ever. -/

/-- A reporter that stays is never told to stop. -/
theorem Strays.step (h : l.Strays) (hstep : l.step c e = some l') : l'.Strays := by
  have hreq : l.cancellation ≠ .requested := by rw [h.1]; nofun
  obtain ⟨ph₀, hhead, hstays⟩ := h.2
  cases steps_of_step hstep with
  | own e w hon hw =>
    have hback : l.Background e := hon.resolve_left (by rw [h.1]; nofun)
    cases Worker.steps_of_step hw with
    | tick => exact h
    | probed | warm | begins | main | finish => exact hback.elim
    | report todo ph ph' phs rec hstage hphases hrep =>
      rw [hphases] at hhead
      cases hhead
      exact ⟨h.1, ph', rfl, hstays.report hrep⟩
    | bot todo p i e ph b b' t hstage hph hb hbot =>
      refine ⟨h.1, ?_⟩
      match hphases : l.worker.phases with
      | [] => rw [hphases] at hph; cases hph
      | ph₁ :: phs =>
        rw [hphases] at hph hhead
        cases hhead
        cases p with
        | zero =>
          cases hph
          exact ⟨_, rfl, hstays⟩
        | succ p => exact ⟨ph₀, rfl, hstays⟩
  | request hnone => rw [h.1] at hnone; cases hnone
  | killBot i ph phs b hphases hr | killReporter ph phs hphases hr | deliver hr =>
    exact absurd hr hreq

/-- So not all reporters end. -/
theorem Strays.not_reported (h : l.Strays) {es : List LoadEvent}
    (hexec : exec (Load.step c) l es = some l') : ¬ l'.Reported := by
  intro hall
  obtain ⟨-, ph, hph, hstays⟩ := inv_of_exec Strays hexec (fun _ _ _ hl hstep => hl.step hstep) h
  exact hstays.2 (hall ph (List.mem_of_mem_head? hph))

/-- And the load has not stopped. -/
theorem Strays.not_stopped (h : l.Strays) : ¬ l.Stopped c := by
  intro hs
  obtain ⟨es, l', -, hexec, hall⟩ := (hs [] l rfl).2
  exact h.not_reported hexec hall

/-- **A stop stops the load if and only if it comes late.** For every run,
however the tasks took turns and whatever the engine did: once the cancellation
is delivered no bot sends another order and no reporter stays, if and only if
it was delivered in the warmup or in a phase with its stop event set. -/
theorem stops_iff (c : Config) {l : Load} {es : List LoadEvent}
    (hexec : exec (step c) .new es = some l) :
    (l.cancellation = .delivered → l.Stopped c) ↔ Along (step c) Late .new es := by
  constructor
  · intro h
    by_contra hnot
    have hstrays := of_not_along (fun l => l.worker.Tidy) Strays hexec
      (fun _ _ _ hl hstep => tidy_step hl hstep)
      (fun l e l' hl hstep hearly => by
        cases steps_of_step hstep with
        | own | request | killBot | killReporter => exact absurd trivial hearly
        | deliver hr hall => exact strays_deliver hl hearly)
      (fun _ _ _ _ hq hstep => hq.step hstep) Worker.tidy_new hnot
    exact hstrays.not_stopped (h hstrays.1)
  · intro h hdel es' l' hexec'
    obtain ⟨htidy, hsealed⟩ := Reaches.inv (fun l : Load => l.worker.Tidy ∧
        (l.cancellation = .delivered → l.Sealed))
      (fun l e l' hl hlate hstep => by
        refine ⟨tidy_step hl.1 hstep, fun hdel => ?_⟩
        by_cases hbefore : l.cancellation = .delivered
        · exact ((hl.2 hbefore).step hstep).1
        cases steps_of_step hstep with
        | own => exact absurd hdel hbefore
        | request => cases hdel
        | killBot | killReporter => exact absurd hdel hbefore
        | deliver hr hall => exact sealed_deliver hl.1 hlate hall)
      ⟨Worker.tidy_new, fun hdel => absurd hdel (by decide)⟩ (Reaches.of_exec hexec h)
    obtain ⟨hsealed', hfires⟩ := (hsealed hdel).run hexec'
    exact ⟨hfires, hsealed'.reported (inv_of_exec (fun l => l.worker.Tidy) hexec'
      (fun _ _ _ hl hstep => tidy_step hl hstep) htidy)⟩

/-- The run of `oneBot` up to where its closed phase gathers the bot. -/
def toGather : List Event := Worker.toClosed ++ [.tick 15, .main, .main]

/-- The stop comes while the closed phase gathers its bots. -/
theorem stops_while_gathering :
    ∃ l, exec (step (Worker.oneBot 32)) .new
        (toGather.map .own ++ [.request, .killBot 0, .deliver]) = some l
      ∧ l.cancellation = .delivered ∧ l.Stopped (Worker.oneBot 32) := by
  have hrun : ∃ l ∈ exec (step (Worker.oneBot 32)) .new
      (toGather.map .own ++ [.request, .killBot 0, .deliver]), l.cancellation = .delivered := by
    decide +kernel
  obtain ⟨l, hl, hdel⟩ := hrun
  exact ⟨l, hl, hdel, (stops_iff (Worker.oneBot 32) hl).mpr (by decide +kernel) hdel⟩

/-- **The stop comes while the closed phase sleeps**: its bot sends an order
afterwards, and its reporter never ends. -/
theorem goes_on_while_sleeping :
    ∃ l, exec (step (Worker.oneBot 32)) .new (Worker.toClosed.map .own
      ++ [.request, .deliver]) = some l
      ∧ l.cancellation = .delivered
      ∧ (exec (step (Worker.oneBot 32)) l
          [.own (.bot 0 0 .test), .own (.bot 0 0 (.fire 0)), .own (.bot 0 0 .sent)]).isSome
      ∧ (∀ es l', exec (step (Worker.oneBot 32)) l es = some l' → ¬ l'.Reported)
      ∧ ¬ l.Stopped (Worker.oneBot 32) := by
  have hrun : ∃ l ∈ exec (step (Worker.oneBot 32)) .new (Worker.toClosed.map .own ++ [.request]),
      ¬ l.Late .deliver ∧ ∃ l' ∈ l.step (Worker.oneBot 32) .deliver, l'.cancellation = .delivered
        ∧ (exec (step (Worker.oneBot 32)) l'
          [.own (.bot 0 0 .test), .own (.bot 0 0 (.fire 0)), .own (.bot 0 0 .sent)]).isSome := by
    decide +kernel
  obtain ⟨l, hl, hearly, l', hl', hdel, hfires⟩ := hrun
  have htidy : l.worker.Tidy := inv_of_exec (fun l : Load => l.worker.Tidy) hl
    (fun _ _ _ h hstep => tidy_step h hstep) Worker.tidy_new
  have hstrays : l'.Strays := by
    cases steps_of_step hl' with
    | deliver hr hall => exact strays_deliver htidy hearly
  refine ⟨l', ?_, hdel, hfires, fun es l'' hexec => hstrays.not_reported hexec, hstrays.not_stopped⟩
  rw [show Worker.toClosed.map LoadEvent.own ++ [.request, .deliver]
      = (Worker.toClosed.map .own ++ [.request]) ++ [.deliver] from rfl, exec_append, hl,
    Option.bind_some, exec, hl']
  rfl

end Load

end Fleet
