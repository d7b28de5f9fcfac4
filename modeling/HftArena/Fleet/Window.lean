import HftArena.Fleet.RunLoad

/-!
# Senders that wait for a permit

In closed mode a sender takes a permit for each order and waits where there is
none; only the receiver gives permits back. A sender that waits where no permit
will come back waits for good: it looks at the stop event and the deadline only
before it takes a permit. Such a bot is `Stuck`, nothing that happens to it
gets it out (`Stuck.step`), and `gather` waits for it for ever.

A step gets a bot there in one of three ways, which `Careful` rules out: the
receiver ends while the sender waits, the connection closes while the sender
waits and no acknowledgement is left to read, or the sender comes round without
a permit when it is too late. As long as every step is careful no bot is ever
stuck (`no_bot_stuck_iff`).

A sender that waits for an engine which is silent on an open connection is not
stuck in this sense: a permit can come back at any time, and whether it does is
up to the engine. What is asked is that nothing in the bot stands in the way.
-/

open Wire

namespace Fleet

/-- What the tasks of a bot do, and not its engine: frames arrive and
connections drop when the engine wants them to. -/
def BotEvent.Own : BotEvent → Prop
  | .arrive _ => False
  | .drop => False
  | _ => True

/-! ## One bot

A bot is stuck if it waits for a permit that nobody will give back. That is so
for good, and it comes about by one kind of step only. -/

namespace Bot

variable {wire : Wire.Mode} {scaled : ℚ → ℤ} {env : Env} {b b' : Bot} {e : BotEvent} {t : Tally}

/-- Whether the receiver gets to an acknowledgement before a frame that it
raises on. What it ignores on the way leaves `send_times` as it is, `empty` or
not. -/
def ackComes (wire : Wire.Mode) (empty : Bool) : List Frame → Bool
  | [] => false
  | frame :: inbox =>
    match readAck empty wire frame with
    | .ignored => ackComes wire empty inbox
    | .acked _ => true
    | .raises => false

/-- Whether a permit can still come back: the receiver runs, and there is a
connection or an acknowledgement left to read. -/
def Relief (wire : Wire.Mode) (b : Bot) : Prop :=
  b.receiver = .waiting
    ∧ (b.connection = .open ∨ ackComes wire b.sendTimes.entries.isEmpty b.inbox = true)

instance (wire : Wire.Mode) (b : Bot) : Decidable (b.Relief wire) :=
  inferInstanceAs (Decidable (_ ∧ (_ ∨ _)))

/-- The sender waits for a permit. -/
def Waits (b : Bot) : Prop := b.sender = .acquiring ∧ b.permits = 0

instance (b : Bot) : Decidable b.Waits := inferInstanceAs (Decidable (_ ∧ _))

/-- **A bot that is stuck**: its sender waits for a permit, and none can come
back. -/
def Stuck (wire : Wire.Mode) (b : Bot) : Prop := b.Waits ∧ ¬ b.Relief wire

instance (wire : Wire.Mode) (b : Bot) : Decidable (b.Stuck wire) :=
  inferInstanceAs (Decidable (_ ∧ ¬ _))

/-- **A bot that moves**: one of its tasks has a step to take, now or when its
sleep is over, or the receiver waits for the engine on an open connection. -/
def Moves (wire : Wire.Mode) (scaled : ℚ → ℤ) (env : Env) (b : Bot) : Prop :=
  (∃ now e, env.now ≤ now ∧ e.Own ∧ b.step wire scaled { env with now := now } e ≠ none)
    ∨ (b.receiver = .waiting ∧ b.connection = .open)

/-- **A careful step.** Permits are given back by the receiver alone, so a
sender without one depends on it; the step must not take this away. There are
three steps that could. The receiver must not read a frame that it raises on
while the sender waits, for it would end. The connection must not close while
the sender waits, unless an acknowledgement is left to read. And the sender
must not come round without a permit, to wait for one, when the receiver has
ended already or the connection is closed with no acknowledgement left to read.

The condition is on the event and on the bot before it. All other steps are
careful. -/
def Careful (wire : Wire.Mode) (env : Env) (b : Bot) : BotEvent → Prop
  | .recv _ => b.Waits → ∀ frame ∈ b.inbox.head?, b.reading wire frame ≠ .raises
  | .drop => b.Waits → ackComes wire b.sendTimes.entries.isEmpty b.inbox = true
  | .test => b.mode = .closed → b.permits = 0 → env.goesOn → b.Relief wire
  | _ => True

instance (wire : Wire.Mode) (env : Env) (b : Bot) : ∀ e, Decidable (b.Careful wire env e)
  | .recv _ =>
    inferInstanceAs (Decidable (b.Waits → ∀ frame ∈ b.inbox.head?, b.reading wire frame ≠ .raises))
  | .drop => inferInstanceAs (Decidable (b.Waits → _ = true))
  | .test => inferInstanceAs (Decidable (_ = _ → _ = 0 → env.goesOn → b.Relief wire))
  | .connect _ _ | .acquire | .wake | .fire _ | .sent | .sendFails | .recvFails | .arrive _ =>
    isTrue trivial

/-- What holds of every bot: only a closed one waits for permits, a turn over a
burst has an order to fire, and a sender that is past connecting and has not
ended has a connection, open or closed. -/
structure WF (b : Bot) : Prop where
  closed : b.sender = .acquiring → b.mode = .closed
  firing : b.sender ≠ .firing 0
  connected : b.connection = .none → b.sender = .connecting ∨ b.sender = .done

/-- After an order a sender neither waits for a permit nor has an empty burst
to fire. -/
theorem rest_ne (n : ℕ) : rest n ≠ .acquiring ∧ rest n ≠ .firing 0 := by
  unfold rest
  split_ifs with hn
  · exact ⟨nofun, nofun⟩
  · exact ⟨nofun, fun h => hn (Sender.firing.inj h)⟩

/-- After a release a closed bot has a permit. -/
theorem mode_ne_closed_of_release (h : b.release.permits = 0) : b.mode ≠ .closed := by
  intro hmode
  rw [release, if_pos hmode] at h
  cases h

/-- A bot that was just created is such a bot. -/
theorem wf_new (mode : BotMode) (window : ℕ) : (Bot.new mode window).WF :=
  ⟨nofun, nofun, fun _ => Or.inl rfl⟩

/-- So is a bot after any of its steps. -/
theorem WF.step (h : b.WF) (hstep : b.step wire scaled env e = some (b', t)) : b'.WF := by
  -- a sender that is neither connecting nor done has a connection
  have hconn : b.sender ≠ .connecting → b.sender ≠ .done → b.connection ≠ .none :=
    fun hc hd hnone => (h.connected hnone).elim hc hd
  cases steps_of_step hstep with
  | connected oid hs => exact ⟨nofun, nofun, nofun⟩
  | refused oid hs => exact ⟨nofun, nofun, fun _ => Or.inr rfl⟩
  | leaves hs | early hs | takes hs | saturated n ns hs | fires n ns hs =>
    exact ⟨nofun, nofun, fun hnone => absurd hnone (hconn (by simp [hs]) (by simp [hs]))⟩
  | waits hs hgoes hmode =>
    exact ⟨fun _ => hmode, nofun, fun hnone => absurd hnone (hconn (by simp [hs]) (by simp [hs]))⟩
  | behind hs | late hs | paced u hs | sent n hs =>
    exact ⟨fun h' => absurd h' (rest_ne _).1, (rest_ne _).2,
      fun hnone => absurd hnone (hconn (by simp [hs]) (by simp [hs]))⟩
  | acquires hs hp =>
    exact ⟨nofun, by simp, fun hnone => absurd hnone (hconn (by simp [hs]) (by simp [hs]))⟩
  | drained u hs => exact ⟨nofun, nofun, nofun⟩
  | fails n hs => exact ⟨nofun, nofun, fun _ => Or.inr rfl⟩
  | ignores ns frame inbox => exact ⟨h.closed, h.firing, h.connected⟩
  | raises ns frame inbox => exact ⟨h.closed, h.firing, h.connected⟩
  | acked ns frame inbox id i t0 => exact ⟨by simpa using h.closed, by simpa using h.firing,
    by simpa using h.connected⟩
  | unknown ns frame inbox id => exact ⟨by simpa using h.closed, by simpa using h.firing,
    by simpa using h.connected⟩
  | hangsUp => exact ⟨h.closed, h.firing, h.connected⟩
  | arrives frame hc => exact ⟨h.closed, h.firing, h.connected⟩
  | drops hc => exact ⟨h.closed, h.firing, nofun⟩

/-- **A careful step gets no bot stuck**: the bot would have waited before
already, with a permit to come, and only a step that is not careful takes it
away. -/
theorem WF.not_stuck_step (h : b.WF) (hstuck : ¬ b.Stuck wire) (hcareful : b.Careful wire env e)
    (hstep : b.step wire scaled env e = some (b', t)) : ¬ b'.Stuck wire := by
  have hrelief : b.Waits → b.Relief wire := fun hw => not_not.mp (fun hr => hstuck ⟨hw, hr⟩)
  rintro ⟨⟨hacq, hper⟩, hno⟩
  -- most steps leave the sender elsewhere than at the semaphore
  cases steps_of_step hstep with
  | connected oid hs => cases hacq
  | refused oid hs => cases hacq
  | leaves hs => cases hacq
  | takes hs => cases hacq
  | waits hs hgoes hmode hp => exact hno (hcareful hmode hp hgoes)
  | early hs => cases hacq
  | behind hs => exact (rest_ne _).1 hacq
  | late hs => exact (rest_ne _).1 hacq
  | acquires hs hp => cases hacq
  | paced u hs => exact (rest_ne _).1 hacq
  | drained u hs => cases hacq
  | saturated n ns hs => cases hacq
  | fires n ns hs => cases hacq
  | sent n hs => exact (rest_ne _).1 hacq
  | fails n hs => cases hacq
  -- what is ignored is no acknowledgement, so the one that comes is still to
  -- come
  | ignores ns frame inbox hwaiting hinbox hread =>
    obtain ⟨-, hr⟩ := hrelief ⟨hacq, hper⟩
    rw [hinbox, ackComes, show readAck _ wire frame = .ignored from hread] at hr
    exact hno ⟨hwaiting, hr⟩
  -- an acknowledgement gives a permit back, so there is one
  | acked ns frame inbox id i t0 =>
    exact mode_ne_closed_of_release hper (h.closed (by simpa using hacq))
  | unknown ns frame inbox id =>
    exact mode_ne_closed_of_release hper (h.closed (by simpa using hacq))
  | raises ns frame inbox hwaiting hinbox hread =>
    exact hcareful ⟨hacq, hper⟩ frame (by rw [hinbox]; rfl) hread
  | hangsUp hwaiting hinbox hclosed =>
    obtain ⟨-, hr⟩ := hrelief ⟨hacq, hper⟩
    rw [hinbox, hclosed] at hr
    simp [ackComes] at hr
  | arrives frame hopen => exact hno ⟨(hrelief ⟨hacq, hper⟩).1, Or.inl hopen⟩
  | drops hopen => exact hno ⟨(hrelief ⟨hacq, hper⟩).1, Or.inr (hcareful ⟨hacq, hper⟩)⟩

/-- **A bot that is stuck stays stuck**, whatever happens to it. -/
theorem Stuck.step (h : b.Stuck wire) (hstep : b.step wire scaled env e = some (b', t)) :
    b'.Stuck wire := by
  obtain ⟨⟨hacq, hper⟩, hno⟩ := h
  -- a receiver that waits has nothing to expect
  have hend : b.receiver = .waiting →
      b.connection ≠ .open ∧ ackComes wire b.sendTimes.entries.isEmpty b.inbox = false :=
    fun hw => ⟨fun ho => hno ⟨hw, Or.inl ho⟩,
      Bool.eq_false_of_not_eq_true (fun ha => hno ⟨hw, Or.inr ha⟩)⟩
  cases steps_of_step hstep with
  | connected oid hs | refused oid hs | leaves hs | takes hs | waits hs | early hs | behind hs
  | late hs | paced u hs | drained u hs | saturated n ns hs | fires n ns hs | sent n hs
  | fails n hs => rw [hacq] at hs; cases hs
  | acquires hs hp => omega
  | ignores ns frame inbox hwaiting hinbox hread =>
    obtain ⟨hclosed, hcomes⟩ := hend hwaiting
    rw [hinbox, ackComes, show readAck _ wire frame = .ignored from hread] at hcomes
    exact ⟨⟨hacq, hper⟩, fun hr => hr.2.elim hclosed
      (fun ha => Bool.false_ne_true (hcomes.symm.trans ha))⟩
  | acked ns frame inbox id i t0 hwaiting hinbox hread =>
    obtain ⟨-, hcomes⟩ := hend hwaiting
    rw [hinbox, ackComes, show readAck _ wire frame = .acked id from hread] at hcomes
    cases hcomes
  | unknown ns frame inbox id hwaiting hinbox hread =>
    obtain ⟨-, hcomes⟩ := hend hwaiting
    rw [hinbox, ackComes, show readAck _ wire frame = .acked id from hread] at hcomes
    cases hcomes
  | raises ns frame inbox => exact ⟨⟨hacq, hper⟩, fun hr => nomatch hr.1⟩
  | hangsUp => exact ⟨⟨hacq, hper⟩, fun hr => nomatch hr.1⟩
  | arrives frame hopen => exact ⟨⟨hacq, hper⟩, fun hr => (hend hr.1).1 hopen⟩
  | drops hopen => exact ⟨⟨hacq, hper⟩, fun hr => (hend hr.1).1 hopen⟩

/-- **A step that is not careful gets the bot stuck.** -/
theorem stuck_of_not_careful (hcareful : ¬ b.Careful wire env e)
    (hstep : b.step wire scaled env e = some (b', t)) : b'.Stuck wire := by
  cases steps_of_step hstep with
  | waits hs hgoes hmode hp =>
    simp only [Careful, not_forall] at hcareful
    obtain ⟨-, -, -, hr⟩ := hcareful
    exact ⟨⟨rfl, hp⟩, hr⟩
  | takes hs hgoes hmode hp => exact absurd (fun _ h0 => absurd h0 hp.ne') hcareful
  | leaves hs hgoes => exact absurd (fun _ _ hg => absurd hg hgoes) hcareful
  | early hs hgoes hmode | behind hs hgoes hmode | late hs hgoes hmode =>
    exact absurd (fun hc => by rw [hmode] at hc; cases hc) hcareful
  | raises ns frame inbox hwaiting hinbox hread =>
    simp only [Careful, not_forall] at hcareful
    obtain ⟨hw, -⟩ := hcareful
    exact ⟨hw, fun hr => nomatch hr.1⟩
  | ignores ns frame inbox hwaiting hinbox hread | acked ns frame inbox id i t0 hwaiting hinbox hread
  | unknown ns frame inbox id hwaiting hinbox hread =>
    refine absurd (fun _ f hf => ?_) hcareful
    rw [hinbox] at hf
    cases hf
    rw [hread]
    nofun
  | drops hopen =>
    simp only [Careful, not_forall] at hcareful
    obtain ⟨hw, hcomes⟩ := hcareful
    exact ⟨hw, fun hr => hr.2.elim nofun hcomes⟩
  -- no other step can be careless
  | connected | refused | acquires | paced | drained | saturated | fires | sent | fails | hangsUp
  | arrives => exact absurd trivial hcareful

/-- **A bot that is not stuck moves** until its sender has ended. -/
theorem WF.moves (h : b.WF) (hstuck : ¬ b.Stuck wire) (hdone : b.sender ≠ .done) :
    b.Moves wire scaled env := by
  cases hs : b.sender with
  | connecting => exact Or.inl ⟨_, .connect true 0, le_rfl, trivial, by simp [Bot.step, hs]⟩
  | testing => exact Or.inl ⟨_, .test, le_rfl, trivial, by simp [Bot.step, hs]⟩
  | acquiring =>
    by_cases hp : b.permits = 0
    · -- a permit can come back: from the engine, or from a frame that has
      -- arrived
      obtain ⟨hwaiting, hr⟩ := not_not.mp (fun hr => hstuck ⟨⟨hs, hp⟩, hr⟩)
      refine hr.elim (fun hopen => Or.inr ⟨hwaiting, hopen⟩) (fun hcomes => Or.inl ?_)
      cases hinbox : b.inbox with
      | nil => rw [hinbox] at hcomes; cases hcomes
      | cons frame inbox =>
        refine ⟨_, .recv 0, le_rfl, trivial, ?_⟩
        rw [Bot.step, hwaiting, hinbox]
        dsimp only
        split <;> exact Option.some_ne_none _
    · exact Or.inl ⟨_, .acquire, le_rfl, trivial, by simp [Bot.step, hs, Nat.pos_of_ne_zero hp]⟩
  | pacing u => exact Or.inl ⟨max env.now u, .wake, le_max_left _ _, trivial, by simp [Bot.step, hs]⟩
  | firing n =>
    cases n with
    | zero => exact absurd hs h.firing
    | succ n => exact Or.inl ⟨_, .fire 0, le_rfl, trivial, by simp [Bot.step, hs]⟩
  | sending n =>
    cases hc : b.connection with
    | none => rcases h.connected hc with hs' | hs' <;> rw [hs] at hs' <;> cases hs'
    | «open» => exact Or.inl ⟨_, .sent, le_rfl, trivial, by simp [Bot.step, hs, hc]⟩
    | closed => exact Or.inl ⟨_, .sendFails, le_rfl, trivial, by simp [Bot.step, hs, hc]⟩
  | draining u => exact Or.inl ⟨max env.now u, .wake, le_max_left _ _, trivial,
    by simp [Bot.step, hs]⟩
  | done => exact absurd hs hdone

end Bot

/-! ## The bots of a worker

Bots do not share permits, so that what holds of one bot by itself holds of all
bots of a worker. -/

namespace Phase

/-- The main task of a phase leaves the bots alone. -/
theorem bots_mainStep {ph ph' : Phase} {now : ℚ} (h : ph.mainStep now = some ph') :
    ph'.bots = ph.bots := by
  cases steps_of_mainStep h <;> rfl

/-- So does the reporter. -/
theorem bots_reporterStep {ph ph' : Phase} {stats : Stats} {now : ℚ} {rec : Option Record}
    (h : ph.reporterStep stats now = some (ph', rec)) : ph'.bots = ph.bots := by
  cases steps_of_reporterStep h <;> rfl

end Phase

namespace Worker

variable {c : Config}

/-- **What each step of each bot meets**: a condition on a bot's step, in the
environment of its phase, as a condition on the step of the worker. -/
def EachBot (good : Env → Bot → BotEvent → Prop) (w : Worker) : Event → Prop
  | .bot p i e => ∀ ph ∈ w.phases[p]?, ∀ b ∈ ph.bots[i]?, good (ph.env w.now) b e
  | _ => True

instance (good : Env → Bot → BotEvent → Prop) [∀ env b e, Decidable (good env b e)]
    (w : Worker) : ∀ e, Decidable (EachBot good w e)
  | .bot p i e => inferInstanceAs
    (Decidable (∀ ph ∈ w.phases[p]?, ∀ b ∈ ph.bots[i]?, good (ph.env w.now) b e))
  | .tick _ | .probed _ | .warm | .begin | .main | .report | .finish => isTrue trivial

/-- **What each bot keeps, as time goes on, holds of all bots**, in every run.
This is the induction over a run of `run_load` for everything that is said of
single bots. -/
theorem forall_bots_at {good : Env → Bot → BotEvent → Prop} (P : ℚ → Bot → Prop)
    (hmono : ∀ now now' b, now ≤ now' → P now b → P now' b)
    (hnew : ∀ now mode, P now (.new mode c.window))
    (hstep : ∀ env b e b' t, P env.now b → good env b e →
      b.step c.wire c.scaled env e = some (b', t) → P env.now b')
    {w : Worker} (h : Reaches (step c) (EachBot good) .new w) :
    ∀ ph ∈ w.phases, ∀ b ∈ ph.bots, P w.now b := by
  refine h.inv (fun w => ∀ ph ∈ w.phases, ∀ b ∈ ph.bots, P w.now b)
    (fun w e w' hw hgood hnext => ?_) (fun ph hph => absurd hph List.not_mem_nil)
  cases steps_of_step hnext with
  | tick secs hsecs =>
    exact fun ph hph b hb => hmono _ _ b (le_add_of_nonneg_right hsecs) (hw ph hph b hb)
  | probed | warm | finish => exact hw
  -- a phase begins with bots that were just created
  | begins spec todo hstage hidle =>
    intro ph hph b hb
    rcases List.mem_cons.mp hph with rfl | hph
    · exact List.eq_of_mem_replicate hb ▸ hnew _ spec.mode
    · exact hw ph hph b hb
  | main todo ph ph' phs hstage hphs hmain =>
    rw [hphs] at hw
    intro ph₁ hph₁ b hb
    rcases List.mem_cons.mp hph₁ with rfl | hph₁
    · rw [Phase.bots_mainStep hmain] at hb
      exact hw ph List.mem_cons_self b hb
    · exact hw ph₁ (List.mem_cons_of_mem _ hph₁) b hb
  | report todo ph ph' phs rec hstage hphs hrep =>
    rw [hphs] at hw
    intro ph₁ hph₁ b hb
    rcases List.mem_cons.mp hph₁ with rfl | hph₁
    · rw [Phase.bots_reporterStep hrep] at hb
      exact hw ph List.mem_cons_self b hb
    · exact hw ph₁ (List.mem_cons_of_mem _ hph₁) b hb
  | bot todo p i e ph b b' t hstage hph hb hbot =>
    have hall := hw ph (List.mem_of_getElem? hph)
    have hb' : P w.now b' :=
      hstep _ b e b' t (hall b (List.mem_of_getElem? hb)) (hgood ph hph b hb) hbot
    exact forall_mem_set hw (forall_mem_set hall hb')

/-- **What each bot keeps holds of all bots**, in every run. -/
theorem forall_bots {good : Env → Bot → BotEvent → Prop} (P : Bot → Prop)
    (hnew : ∀ mode, P (.new mode c.window))
    (hstep : ∀ env b e b' t, P b → good env b e →
      b.step c.wire c.scaled env e = some (b', t) → P b')
    {w : Worker} (h : Reaches (step c) (EachBot good) .new w) :
    ∀ ph ∈ w.phases, ∀ b ∈ ph.bots, P b :=
  forall_bots_at (fun _ => P) (fun _ _ _ _ => id) (fun _ => hnew) hstep h

/-- Every run asks nothing of its bots. -/
theorem reaches_of_exec {w : Worker} {es : List Event} (hexec : exec (step c) .new es = some w) :
    Reaches (step c) (EachBot (fun _ _ _ => True)) .new w := by
  refine .of_exec hexec ((along_congr hexec (fun w e w' _ => ?_)).mp (along_trivial _ _ _))
  cases e with
  | bot p i e => exact iff_of_true trivial (fun _ _ _ _ => trivial)
  | _ => exact Iff.rfl

/-- **What a bot cannot lose is not lost** by some bot. -/
theorem exists_bot_step {P : Bot → Prop}
    (hstep : ∀ env b e b' t, P b → b.step c.wire c.scaled env e = some (b', t) → P b')
    {w w' : Worker} {e : Event} (hnext : w.step c e = some w')
    (h : ∃ ph ∈ w.phases, ∃ b ∈ ph.bots, P b) : ∃ ph ∈ w'.phases, ∃ b ∈ ph.bots, P b := by
  obtain ⟨ph₀, hph₀, b₀, hb₀, hP⟩ := h
  cases steps_of_step hnext with
  | tick | probed | warm | finish => exact ⟨ph₀, hph₀, b₀, hb₀, hP⟩
  | begins => exact ⟨ph₀, List.mem_cons_of_mem _ hph₀, b₀, hb₀, hP⟩
  | main todo ph ph' phs hstage hphs hmain =>
    rw [hphs] at hph₀
    rcases List.mem_cons.mp hph₀ with rfl | hph₀
    · exact ⟨ph', List.mem_cons_self, b₀, (Phase.bots_mainStep hmain).symm ▸ hb₀, hP⟩
    · exact ⟨ph₀, List.mem_cons_of_mem _ hph₀, b₀, hb₀, hP⟩
  | report todo ph ph' phs rec hstage hphs hrep =>
    rw [hphs] at hph₀
    rcases List.mem_cons.mp hph₀ with rfl | hph₀
    · exact ⟨ph', List.mem_cons_self, b₀, (Phase.bots_reporterStep hrep).symm ▸ hb₀, hP⟩
    · exact ⟨ph₀, List.mem_cons_of_mem _ hph₀, b₀, hb₀, hP⟩
  | bot todo p i e ph b b' t hstage hph hb hbot =>
    obtain ⟨hp, -⟩ := List.getElem?_eq_some_iff.mp hph
    obtain ⟨hi, -⟩ := List.getElem?_eq_some_iff.mp hb
    obtain ⟨p₀, hp₀⟩ := List.mem_iff_getElem?.mp hph₀
    obtain ⟨i₀, hi₀⟩ := List.mem_iff_getElem?.mp hb₀
    -- it is the bot that moves, or another
    by_cases hpeq : p = p₀
    · subst hpeq
      rw [hph] at hp₀
      cases hp₀
      refine ⟨_, List.mem_set hp _, ?_⟩
      by_cases hieq : i = i₀
      · subst hieq
        rw [hb] at hi₀
        cases hi₀
        exact ⟨b', List.mem_set hi _, hstep _ _ _ _ _ hP hbot⟩
      · refine ⟨b₀, List.mem_of_getElem? (i := i₀) ?_, hP⟩
        rw [List.getElem?_set_ne hieq, hi₀]
    · refine ⟨ph₀, List.mem_of_getElem? (i := p₀) ?_, b₀, hb₀, hP⟩
      rw [List.getElem?_set_ne hpeq, hp₀]

/-- In a run it is never lost. -/
theorem exists_bot_exec {P : Bot → Prop}
    (hstep : ∀ env b e b' t, P b → b.step c.wire c.scaled env e = some (b', t) → P b')
    {w w' : Worker} {es : List Event} (hexec : exec (step c) w es = some w')
    (h : ∃ ph ∈ w.phases, ∃ b ∈ ph.bots, P b) : ∃ ph ∈ w'.phases, ∃ b ∈ ph.bots, P b := by
  induction es generalizing w with
  | nil => cases hexec; exact h
  | cons e es ih =>
    obtain ⟨w₁, hw₁, hexec⟩ := Option.bind_eq_some_iff.mp hexec
    exact ih hexec (exists_bot_step hstep hw₁ h)

/-- **A careless step leaves a bot stuck**, from then on. -/
theorem stuck_of_not_along {w w' : Worker} {es : List Event}
    (hexec : exec (step c) w es = some w')
    (h : ¬ Along (step c) (EachBot (Bot.Careful c.wire)) w es) :
    ∃ ph ∈ w'.phases, ∃ b ∈ ph.bots, b.Stuck c.wire := by
  induction es generalizing w with
  | nil => exact absurd trivial h
  | cons e es ih =>
    obtain ⟨w₁, hw₁, hexec⟩ := Option.bind_eq_some_iff.mp hexec
    by_cases hgood : EachBot (Bot.Careful c.wire) w e
    · refine ih hexec (fun hall => h ⟨hgood, fun s' hs' => ?_⟩)
      rw [hw₁] at hs'
      cases hs'
      exact hall
    · -- the step leaves a bot stuck, and the rest of the run leaves it so
      have hstuck : ∃ ph ∈ w₁.phases, ∃ b ∈ ph.bots, b.Stuck c.wire := by
        cases steps_of_step hw₁ with
        | bot todo p i e ph b b' t hstage hph hb hbot =>
          have hcareless : ¬ b.Careful c.wire (ph.env w.now) e := by
            refine fun hcareful => hgood (fun ph₁ hph₁ b₁ hb₁ => ?_)
            cases hph.symm.trans hph₁
            cases hb.symm.trans hb₁
            exact hcareful
          exact ⟨_, List.mem_set (List.getElem?_eq_some_iff.mp hph).1 _, b',
            List.mem_set (List.getElem?_eq_some_iff.mp hb).1 _,
            Bot.stuck_of_not_careful hcareless hbot⟩
        | tick | probed | warm | begins | main | report | finish => exact absurd trivial hgood
      exact exists_bot_exec (fun _ _ _ _ _ hb hs => hb.step hs) hexec hstuck

/-- **Bots get stuck only by a careless step.** After any run, whatever the
engine and however the tasks took turns: no bot is stuck, and every bot whose
task has not ended moves, if and only if every step of the run was careful.

One direction is an invariant of each bot; the other is that a bot which is
stuck stays so, whatever happens. -/
theorem no_bot_stuck_iff (c : Config) {w : Worker} {es : List Event}
    (hexec : exec (step c) .new es = some w) :
    (∀ ph ∈ w.phases, ∀ b ∈ ph.bots, ¬ b.Stuck c.wire
        ∧ (b.sender ≠ .done → b.Moves c.wire c.scaled (ph.env w.now)))
      ↔ Along (step c) (EachBot (Bot.Careful c.wire)) .new es := by
  constructor
  · intro h
    by_contra hnot
    obtain ⟨ph, hph, b, hb, hstuck⟩ := stuck_of_not_along hexec hnot
    exact (h ph hph b hb).1 hstuck
  · intro h
    have hall := forall_bots (c := c) (P := fun b => b.WF ∧ ¬ b.Stuck c.wire)
      (fun mode => ⟨Bot.wf_new mode c.window, fun hs => nomatch hs.1.1⟩)
      (fun env b e b' t hb hcareful hstep =>
        ⟨hb.1.step hstep, hb.1.not_stuck_step hb.2 hcareful hstep⟩)
      (Reaches.of_exec hexec h)
    intro ph hph b hb
    obtain ⟨hwf, hstuck⟩ := hall ph hph b hb
    exact ⟨hstuck, hwf.moves hstuck⟩

/-- A worker with one bot in its closed phase and none before, so that a run of
it can be written down. -/
def oneBot (window : ℕ) : Config where
  wire := .binary
  scaled := fun _ => 0
  botsPerWorker := 1
  window := window
  sweepRates := [5000]
  stepSecs := 4
  sweepBots := 0
  burstRates := []
  burstStepSecs := 3
  burstSize := 20
  bots := 1
  duration := 15
  isLeader := true
  fleetN := 1

/-- Its run up to the closed phase, whose bot has just connected. -/
def toClosed : List Event :=
  [.warm, .begin, .report, .report, .main, .main, .main, .tick 1, .main, .main, .main, .tick 4,
    .main, .main, .main, .report, .report, .main, .begin, .report, .report, .main,
    .bot 0 0 (.connect true 1000)]

/-- Its bot sends an order for each permit, and comes round once more. -/
def fillWindow (window : ℕ) : List Event :=
  (List.replicate window [.bot 0 0 .test, .bot 0 0 (.fire 0), .bot 0 0 .sent]).flatten
    ++ [.bot 0 0 .test]

/-- The acknowledgement of the bot's first order. -/
def firstAck : Frame := .binary ([1, 233, 3] ++ List.replicate 14 0)

/-- The engine acknowledges an order and drops the connection while a permit is
left: the next `ws.send` raises, and the bot ends with the phase. -/
theorem no_bot_stuck_with_permit_left :
    ∃ w, exec (step (oneBot 2)) .new (toClosed
      ++ [.bot 0 0 .test, .bot 0 0 (.fire 0), .bot 0 0 .sent,
        .bot 0 0 (.arrive firstAck), .bot 0 0 (.recv 0), .bot 0 0 .test, .bot 0 0 (.fire 0),
        .bot 0 0 .drop, .bot 0 0 .sendFails, .bot 0 0 .recvFails, .tick 15, .main, .main, .main])
          = some w
      ∧ ∀ ph ∈ w.phases, ∀ b ∈ ph.bots, ¬ b.Stuck (oneBot 2).wire
        ∧ (b.sender ≠ .done → b.Moves (oneBot 2).wire (oneBot 2).scaled (ph.env w.now)) := by
  obtain ⟨w, hw⟩ := Option.isSome_iff_exists.mp (by decide +kernel : (exec (step (oneBot 2)) .new
    (toClosed ++ [.bot 0 0 .test, .bot 0 0 (.fire 0), .bot 0 0 .sent, .bot 0 0 (.arrive firstAck),
      .bot 0 0 (.recv 0), .bot 0 0 .test, .bot 0 0 (.fire 0), .bot 0 0 .drop, .bot 0 0 .sendFails,
      .bot 0 0 .recvFails, .tick 15, .main, .main, .main])).isSome)
  exact ⟨w, hw, (no_bot_stuck_iff (oneBot 2) hw).mpr (by decide +kernel)⟩

/-- The engine acknowledges nothing, sends an empty frame once the window is
full, and the phase is over: the bot waits for a permit, with the stop event
set and its receiver ended. -/
theorem bot_stuck_behind_empty_frame :
    ∃ w, exec (step (oneBot 32)) .new (toClosed ++ fillWindow 32
        ++ [.bot 0 0 (.arrive (.binary [])), .bot 0 0 (.recv 0), .tick 15, .main, .main]) = some w
      ∧ ∃ ph ∈ w.phases, ph.stop = true ∧ ∃ b ∈ ph.bots, b.mode = .closed
        ∧ b.sender = .acquiring ∧ b.permits = 0 ∧ b.receiver = .ended ∧ b.Stuck .binary := by
  show ∃ w ∈ exec _ _ _, _
  decide +kernel

end Worker

end Fleet
