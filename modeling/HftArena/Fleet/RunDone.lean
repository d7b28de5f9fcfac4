import HftArena.Fleet.Shares

/-!
# The end of a run

The leader reports when its own phases are over. The others went through the
same phases at their own pace, and nobody has told it how far they are: with a
second worker there is always an order of steps in which the leader is done
before the other has even begun (`run_done_iff`).

The way to it is that a worker can always get to the end of its phases,
whatever they are: its bots are refused, time passes, and the reporter finds
the stop event set. This is a run that is put together from its parts, phase by
phase, for a configuration of which nothing is known.
-/

namespace Fleet

/-! ## A worker can finish

From any state of the load: time goes by, tests leave, receivers are hung up
on, and the reporter looks. -/

/-- A step of a load that goes on, or time. -/
def Event.Goes : Event → Prop
  | .tick _ | .begin | .main | .report | .bot _ _ _ => True
  | .probed _ | .warm | .finish => False

namespace Worker

/-- A worker gets from one state to another by such steps, in any number. -/
def Gets (c : Config) (w w' : Worker) : Prop := Reaches (step c) (fun _ e => e.Goes) w w'

/-- A worker in a phase, with the phases to come and those that are over. -/
structure At (w : Worker) (todo : List Spec) (ph : Phase) (phs : List Phase) : Prop where
  stage : w.stage = .phases todo
  phases : w.phases = ph :: phs

variable {c : Config} {w : Worker} {todo : List Spec} {ph : Phase} {phs : List Phase}

namespace At

/-- Time passes in a phase. -/
theorem tick (h : w.At todo ph phs) {secs : ℚ} (hs : 0 ≤ secs) :
    ∃ w', Gets c w w' ∧ w'.At todo ph phs ∧ w'.now = w.now + secs :=
  ⟨{ w with now := w.now + secs }, .step .start (a := .tick secs) trivial (if_pos hs),
    ⟨h.stage, h.phases⟩, rfl⟩

/-- The phase takes a step. -/
theorem main (h : w.At todo ph phs) (ph' : Phase) (hmain : ph.mainStep w.now = some ph') :
    ∃ w', Gets c w w' ∧ w'.At todo ph' phs := by
  refine ⟨{ w with phases := ph' :: phs }, .step .start (a := .main) trivial ?_, ⟨h.stage, rfl⟩⟩
  rw [step, h.stage, h.phases]
  dsimp only
  rw [hmain]
  rfl

/-- Its reporter does. -/
theorem report (h : w.At todo ph phs) (ph' : Phase) {rec : Option Record}
    (hrep : ph.reporterStep w.stats w.now = some (ph', rec)) :
    ∃ w', Gets c w w' ∧ w'.At todo ph' phs := by
  refine ⟨{ w with phases := ph' :: phs, records := w.records ++ rec.toList },
    .step .start (a := .report) trivial ?_, ⟨h.stage, rfl⟩⟩
  rw [step, h.stage, h.phases]
  dsimp only
  rw [hrep]
  rfl

/-- A bot is refused. -/
theorem refuse (h : w.At todo ph phs) {i : ℕ} {b : Bot} (hb : ph.bots[i]? = some b)
    (hconn : b.sender = .connecting) :
    ∃ w', Gets c w w'
      ∧ w'.At todo { ph with bots := ph.bots.set i { b with sender := .done } } phs := by
  have hbot : stepAt (Bot.step c.wire c.scaled (ph.env w.now)) ph.bots i (.connect false 0)
      = some (ph.bots.set i { b with sender := .done }, .error) :=
    stepAt_eq_some.mpr ⟨b, _, hb, if_pos hconn, rfl⟩
  refine ⟨{ w with
      phases := { ph with bots := ph.bots.set i { b with sender := .done } } :: phs,
      stats := w.stats.add .error },
    .step .start (a := .bot 0 i (.connect false 0)) trivial ?_, ⟨h.stage, rfl⟩⟩
  rw [step, h.stage, h.phases]
  dsimp only [List.getElem?_cons_zero]
  rw [hbot]
  rfl

/-- All bots are refused: by induction on those that still are to be. -/
theorem refuseAll (rest : List Bot) (hrest : ∀ b ∈ rest, b.sender = .connecting) :
    ∀ {w : Worker} {ph : Phase} (ended : List Bot), w.At todo ph phs → ph.bots = ended ++ rest →
      (∀ b ∈ ended, b.sender = .done) →
      ∃ w' bots, Gets c w w' ∧ w'.At todo { ph with bots := bots } phs
        ∧ ∀ b ∈ bots, b.sender = .done := by
  induction rest with
  | nil =>
    intro w ph ended h hbots hended
    rw [List.append_nil] at hbots
    exact ⟨w, ph.bots, .start, h, by rw [hbots]; exact hended⟩
  | cons b rest ih =>
    intro w ph ended h hbots hended
    obtain ⟨hb, hrest⟩ := List.forall_mem_cons.mp hrest
    have hget : ph.bots[ended.length]? = some b := by
      rw [hbots, List.getElem?_append_right le_rfl, Nat.sub_self]
      rfl
    obtain ⟨w₁, hget₁, h₁⟩ := h.refuse (c := c) hget hb
    have hset : ph.bots.set ended.length { b with sender := .done }
        = (ended ++ [{ b with sender := .done }]) ++ rest := by
      rw [hbots, List.set_append_right _ _ le_rfl, Nat.sub_self, List.set_cons_zero,
        ← List.append_cons]
    obtain ⟨w', bots, hget', h'⟩ := ih hrest _ h₁ hset (List.forall_mem_append.mpr
      ⟨hended, fun b' hb' => by rw [List.mem_singleton.mp hb']⟩)
    exact ⟨w', bots, hget₁.trans hget', h'⟩

/-- The script of a phase runs to its end. -/
theorem runs {script : List Action} : ∀ {w : Worker} {ph : Phase}, w.At todo ph phs →
    ph.main = .running script →
    ∃ w' ph', Gets c w w' ∧ w'.At todo ph' phs ∧ ph'.main = .gathering ∧ ph'.stop = true
      ∧ ph'.bots = ph.bots ∧ ph'.reporter = ph.reporter := by
  induction script with
  | nil =>
    intro w ph h hmain
    obtain ⟨w', hget, h'⟩ := h.main (c := c) { ph with stop := true, main := .gathering }
      (by rw [Phase.mainStep, hmain])
    exact ⟨w', _, hget, h', rfl, rfl, rfl, rfl⟩
  | cons action script ih =>
    intro w ph h hmain
    cases action with
    | pace interval =>
      obtain ⟨w₁, hget, h₁⟩ := h.main (c := c)
        { ph with interval := interval, main := .running script } (by rw [Phase.mainStep, hmain])
      obtain ⟨w', ph', hget', h'⟩ := ih h₁ rfl
      exact ⟨w', ph', hget.trans hget', h'⟩
    | tagRate rate =>
      obtain ⟨w₁, hget, h₁⟩ := h.main (c := c)
        { ph with tag := { ph.tag with rate := rate }, main := .running script }
        (by rw [Phase.mainStep, hmain])
      obtain ⟨w', ph', hget', h'⟩ := ih h₁ rfl
      exact ⟨w', ph', hget.trans hget', h'⟩
    | sleep secs =>
      obtain ⟨w₁, hget₁, h₁⟩ := h.main (c := c)
        { ph with main := .asleep (w.now + secs) script } (by rw [Phase.mainStep, hmain])
      -- time passes until the sleep is over
      obtain ⟨w₂, hget₂, h₂, hnow⟩ := h₁.tick (c := c) (le_max_left 0 (w.now + secs - w₁.now))
      obtain ⟨w₃, hget₃, h₃⟩ := h₂.main (c := c) { ph with main := .running script } (by
        rw [Phase.mainStep]
        exact if_pos (by rw [hnow]; exact sub_le_iff_le_add'.mp (le_max_right _ _)))
      obtain ⟨w', ph', hget', h'⟩ := ih h₃ rfl
      exact ⟨w', ph', ((hget₁.trans hget₂).trans hget₃).trans hget', h'⟩

/-- A phase that has gathered its bots ends. -/
theorem ends (h : w.At todo ph phs) (hmain : ph.main = .gathering) (hstop : ph.stop = true)
    (hbots : ∀ b ∈ ph.bots, b.sender = .done) (hrep : ph.reporter = .created) :
    ∃ w', Gets c w w' ∧ w'.stage = .phases todo ∧ w'.idle := by
  obtain ⟨w₁, hget₁, h₁⟩ := h.main (c := c) { ph with main := .reporting }
    (by rw [Phase.mainStep, hmain]; exact if_pos hbots)
  obtain ⟨w₂, hget₂, h₂⟩ := h₁.report (c := c)
    { ph with main := .reporting, reporter := .testing w₁.stats } (by rw [Phase.reporterStep, hrep])
  obtain ⟨w₃, hget₃, h₃⟩ := h₂.report (c := c)
    { ph with main := .reporting, reporter := .done }
      (by rw [Phase.reporterStep]; exact if_pos hstop)
  obtain ⟨w', hget', h'⟩ := h₃.main (c := c) { ph with main := .done, reporter := .done } rfl
  refine ⟨w', ((hget₁.trans hget₂).trans hget₃).trans hget', h'.stage, fun p hp => ?_⟩
  rw [h'.phases] at hp
  cases hp
  rfl

end At

/-- **A worker can get to the end of its phases**: by induction on those that
are to come. -/
theorem gets_idle (c : Config) {todo : List Spec} : ∀ {w : Worker}, w.stage = .phases todo → w.idle →
    ∃ w', Gets c w w' ∧ w'.stage = .phases [] ∧ w'.idle := by
  induction todo with
  | nil => exact fun hstage hidle => ⟨_, .start, hstage, hidle⟩
  | cons spec todo ih =>
    intro w hstage hidle
    have hbegin : w.step c .begin
        = some { w with
            stage := .phases todo
            phases := spec.begin c.window w.now :: w.phases } := by
      rw [step, hstage]
      exact if_pos hidle
    have h₀ : At { w with
        stage := .phases todo
        phases := spec.begin c.window w.now :: w.phases } todo
      (spec.begin c.window w.now) w.phases := ⟨rfl, rfl⟩
    obtain ⟨w₁, bots, hget₁, h₁, hbots⟩ := At.refuseAll (c := c)
      (List.replicate spec.bots (.new spec.mode c.window))
      (fun b hb => by rw [List.eq_of_mem_replicate hb]; rfl) [] h₀ rfl
      (List.forall_mem_nil _)
    obtain ⟨w₂, ph, hget₂, h₂, hmain, hstop, hsame, hrep⟩ := h₁.runs (c := c) rfl
    obtain ⟨w₃, hget₃, hstage₃, hidle₃⟩ := h₂.ends (c := c) hmain hstop
      (by rw [hsame]; exact hbots) hrep
    obtain ⟨w', hget', h'⟩ := ih hstage₃ hidle₃
    exact ⟨w', .head (a := .begin) trivial hbegin
      (((hget₁.trans hget₂).trans hget₃).trans hget'), h'⟩

end Worker

/-! ## The first worker goes ahead

It can finish before another begins, since nothing after the count makes one
wait for the other. -/

namespace Crew

/-- **Run-done means that the fleet is done**: when a leader has reported, the
phases of all workers are over. -/
def RunDone (s : Crew) : Prop :=
  (∃ m ∈ s.members, m.isLeader = some true ∧ m.pos = .ended) →
    ∀ m ∈ s.members, m.worker.stage = .finished

instance (s : Crew) : Decidable s.RunDone := inferInstanceAs (Decidable (_ → _))

/-- The first worker gets so far before the second has begun: there is a run of
the crew that ends so. -/
def Ahead (c : Config) (n : ℕ) (m : Member) : Prop :=
  ∃ s, Reaches (step c) (fun _ _ => True) (new n) s ∧ s.members[0]? = some m
    ∧ ∃ m', s.members[1]? = some m' ∧ m'.worker.stage = .warmup

variable {c : Config} {n : ℕ} {m m' : Member}

namespace Ahead

/-- It takes another step, whatever the time and the keys. -/
theorem step {P : Member → Prop} (h : Ahead c n m) {e : MemberEvent}
    (hstep : ∀ now k, ∃ m' k', m.step c now k 0 e = some (m', k') ∧ P m') :
    ∃ m', Ahead c n m' ∧ P m' := by
  obtain ⟨s, hreach, hm, m₁, hm₁, hwarm⟩ := h
  obtain ⟨m', k', hmember, hP⟩ := hstep s.now s.keys
  refine ⟨m', ⟨{ s with members := s.members.set 0 m', keys := k' }, ?_, ?_, m₁, ?_, hwarm⟩, hP⟩
  · exact hreach.step (a := .member 0 e) trivial (step_member hm hmember)
  · exact List.getElem?_set_self (List.getElem?_eq_some_iff.mp hm).1
  · rw [List.getElem?_set_ne (by decide)]
    exact hm₁

/-- A step with one outcome. -/
theorem next (h : Ahead c n m) {e : MemberEvent}
    (hstep : ∀ now k, ∃ k', m.step c now k 0 e = some (m', k')) : Ahead c n m' := by
  obtain ⟨m₁, h₁, rfl⟩ := h.step (P := fun m₁ => m₁ = m') (fun now k => by
    obtain ⟨k', hk'⟩ := hstep now k
    exact ⟨m', k', hk', rfl⟩)
  exact h₁

/-- Its load goes on. -/
theorem gets (h : Ahead c n m) (hpos : m.pos = .loading) (hstage : m.worker.stage ≠ .finished)
    {w : Worker} (hw : Worker.Gets (m.config c) m.worker w) :
    Ahead c n { m with worker := w } ∧ w.stage ≠ .finished := by
  induction hw with
  | start => exact ⟨h, hstage⟩
  | @step w w' e _ hgoes hnext ih =>
    obtain ⟨ih, hstage⟩ := ih
    have hstage' : w'.stage ≠ .finished := by
      cases Worker.steps_of_step hnext with
      | tick | main | report | bot => exact hstage
      | begins => exact nofun
      | probed | warm | finish => exact hgoes.elim
    refine ⟨?_, hstage'⟩
    -- Time goes by for all members at once; the other steps are the member's
    -- own.
    by_cases htick : ∃ secs, e = .tick secs
    · obtain ⟨secs, rfl⟩ := htick
      obtain ⟨s, hreach, hm, m₁, hm₁, hwarm⟩ := ih
      cases Worker.steps_of_step hnext with
      | tick _ hsecs =>
        refine ⟨_, hreach.step (a := .tick secs) trivial (if_pos hsecs), ?_, m₁.tick secs, ?_, hwarm⟩
        · rw [List.getElem?_map, hm]
          rfl
        · rw [List.getElem?_map, hm₁]
          rfl
    · have hof : e.OfLoad := by
        cases e with
        | tick secs => exact htick ⟨secs, rfl⟩
        | probed | warm | finish => exact hgoes.elim
        | begin | main | report | bot => trivial
      refine ih.next (e := .own e) (fun now k => ⟨k, ?_⟩)
      rw [Member.step, if_pos ⟨hpos, hof⟩]
      show Option.map _ (Worker.step (m.config c) w e) = _
      rw [hnext, Option.map_some, if_neg hstage', ← hpos]

end Ahead

/-- The first of two workers can get the lock and probe the engine. -/
theorem ahead_probing (c : Config) (n : ℕ) :
    Ahead c (n + 2) ⟨.probing, some true, none, { Worker.new with now := 0 + 3 / 2 }⟩ := by
  have hexec : ∃ s, exec (step c) (new (n + 2))
      [.member 0 .start, .member 0 .sadd, .member 0 .expire, .member 0 .elect] = some s
      ∧ s.now = 0
      ∧ s.members
        = ⟨.settling (0 + 3 / 2), some true, none, .new⟩ :: .new :: List.replicate n .new :=
    ⟨_, rfl, rfl, rfl⟩
  obtain ⟨s, hs, hnow, hmembers⟩ := hexec
  have htick : s.step c (.tick (3 / 2)) = some { s with
      now := s.now + 3 / 2, members := s.members.map (Member.tick · (3 / 2)) } :=
    if_pos (by norm_num)
  have hwake : Member.step c (s.now + 3 / 2) s.keys 0
      ⟨.settling (0 + 3 / 2), some true, none, { Worker.new with now := 0 + 3 / 2 }⟩ .wake
      = some (⟨.probing, some true, none, { Worker.new with now := 0 + 3 / 2 }⟩, s.keys) :=
    if_pos (by rw [hnow])
  refine ⟨{ s with
      now := s.now + 3 / 2
      members := (s.members.map (Member.tick · (3 / 2))).set 0
        ⟨.probing, some true, none, { Worker.new with now := 0 + 3 / 2 }⟩ },
    ((Reaches.of_exec hs (along_trivial _ _ _)).step trivial htick).step
      (a := .member 0 .wake) trivial
      (step_member ?_ hwake), ?_, Member.new.tick (3 / 2), ?_, rfl⟩
  all_goals
    dsimp only
    rw [hmembers]
    rfl

/-- And go on until it has reported. -/
theorem ahead_ended (c : Config) (n : ℕ) :
    ∃ m, Ahead c (n + 2) m ∧ m.isLeader = some true ∧ m.pos = .ended := by
  have hflagging : Ahead c (n + 2) ⟨.flagging, some true, none,
    { Worker.new with now := 0 + 3 / 2 }⟩ :=
    (ahead_probing c n).next (e := .probeOver) (fun _ k => ⟨k, rfl⟩)
  have hrecording : Ahead c (n + 2) ⟨.recording, some true, none,
    { Worker.new with now := 0 + 3 / 2 }⟩ :=
    hflagging.next (e := .flag) (fun _ _ => ⟨_, rfl⟩)
  have hcounting : Ahead c (n + 2) ⟨.counting, some true, none,
    { Worker.new with now := 0 + 3 / 2 }⟩ :=
    hrecording.next (e := .record) (fun _ k => ⟨k, rfl⟩)
  obtain ⟨m, hm, hpos, hlead, ⟨todo, hstage⟩, hidle⟩ := hcounting.step (e := .count)
    (P := fun m => m.pos = .loading ∧ m.isLeader = some true
      ∧ (∃ todo, m.worker.stage = .phases todo)
      ∧ m.worker.idle) (fun _ k => ⟨_, k, rfl, rfl, rfl, ⟨_, rfl⟩, fun ph hph => by cases hph⟩)
  obtain ⟨w, hgets, hstage', hidle'⟩ := Worker.gets_idle (m.config c) hstage hidle
  obtain ⟨hloaded, -⟩ := hm.gets hpos (by rw [hstage]; nofun) hgets
  have hfinish : w.step (m.config c) .finish = some { w with stage := .finished } := by
    rw [Worker.step, hstage']
    exact if_pos hidle'
  have hreporting : Ahead c (n + 2)
      { m with worker := { w with stage := .finished }, pos := .reporting } :=
    hloaded.next (e := .own .finish) (fun _ k => ⟨k, by
      rw [Member.step, if_pos ⟨hpos, trivial⟩]
      show Option.map _ (Worker.step (m.config c) w .finish) = _
      rw [hfinish, Option.map_some, if_pos rfl, if_pos hlead]⟩)
  exact ⟨_, hreporting.next (e := .report) (fun _ k => ⟨k, rfl⟩), hlead, rfl⟩

/-- **Run-done means that the fleet is done if and only if the fleet is one
worker.** For every configuration, with `n` workers: it holds in every state of
every run, whatever the order of their steps, if and only if there are no
two. -/
theorem run_done_iff (c : Config) (n : ℕ) :
    (∀ es s, exec (step c) (new n) es = some s → s.RunDone) ↔ n ≤ 1 := by
  constructor
  · intro h
    by_contra hn
    obtain ⟨n, rfl⟩ := Nat.exists_eq_add_of_le' (Nat.lt_of_not_le hn)
    obtain ⟨m, ⟨s, hreach, hm, m', hm', hwarm⟩, hlead, hpos⟩ := ahead_ended c n
    obtain ⟨es, hexec⟩ := hreach.exists_exec
    have hfin := h es s hexec ⟨m, List.mem_of_getElem? hm, hlead, hpos⟩ m' (List.mem_of_getElem? hm')
    rw [hwarm] at hfin
    cases hfin
  · intro hn es s hexec
    rintro ⟨m, hm, -, hpos⟩ m' hm'
    have htidy : ∀ m ∈ s.members, m.Tidy :=
      inv_of_exec (fun s : Crew => ∀ m ∈ s.members, m.Tidy) hexec
        (fun _ _ _ hs hstep => tidy_step hs hstep)
        (tidy_new n)
    -- there is no other
    obtain ⟨i, hi⟩ := List.mem_iff_getElem?.mp hm
    obtain ⟨j, hj⟩ := List.mem_iff_getElem?.mp hm'
    have hlen : s.members.length = n := length_exec hexec
    have hi' := (List.getElem?_eq_some_iff.mp hi).1
    have hj' := (List.getElem?_eq_some_iff.mp hj).1
    obtain rfl : i = j := by omega
    cases hi.symm.trans hj
    exact (htidy m hm).finished (Or.inr hpos)

/-- Some steps of the load of a worker. -/
def loads (i : ℕ) (es : List Event) : List CrewEvent := es.map (fun e => .member i (.own e))

/-- The sweep begins. -/
def sweeps : List Event := [.begin, .report, .report, .main, .main, .main]

/-- The sweep ends and the closed phase begins. -/
def closes : List Event :=
  [.main, .main, .main, .report, .report, .main, .begin, .report, .report, .main,
    .bot 0 0 (.connect true 1000)]

/-- The closed phase ends, and its bot drains. -/
def drains : List Event := [.main, .main, .bot 0 0 .test, .report, .report]

/-- The run ends. -/
def finishes : List Event := [.bot 0 0 .wake, .main, .main, .finish]

/-- Two workers, of which the second sees the done flag a tenth of a second
after it is set, and is as fast as the first from there on. -/
def tenthBehind : List CrewEvent :=
  registers 0 ++ registers 1
    ++ [.member 0 .elect, .member 1 .elect, .tick (3 / 2), .member 1 .poll, .member 0 .wake,
      .member 0 .probeOver, .member 0 .flag, .member 0 .record, .member 0 .count]
    ++ loads 0 sweeps ++ [.tick (1 / 10), .member 1 .wake, .member 1 .poll, .member 1 .count]
    ++ loads 1 sweeps ++ .tick (9 / 10) :: loads 0 [.main, .main, .main]
    ++ .tick (1 / 10) :: loads 1 [.main, .main, .main] ++ .tick (39 / 10) :: loads 0 closes
    ++ .tick (1 / 10) :: loads 1 closes ++ .tick (149 / 10) :: loads 0 drains
    ++ .tick (1 / 10) :: loads 1 drains ++ .tick (4 / 10) :: loads 0 finishes ++ [.member 0 .report]

/-- **The leader reports while the bot of the other worker drains.** -/
theorem not_run_done_of_tenthBehind :
    ∃ s, exec (step (Worker.oneBot 32)) (new 2) tenthBehind = some s ∧ ¬ s.RunDone := by
  show ∃ s ∈ exec _ _ _, _
  decide +kernel

end Crew

end Fleet
