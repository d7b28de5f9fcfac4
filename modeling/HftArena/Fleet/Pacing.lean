import Mathlib.Algebra.Order.BigOperators.Group.Finset
import Mathlib.Data.Rat.Floor
import Mathlib.Order.Interval.Finset.Nat
import HftArena.Fleet.InFlight

/-!
# The schedule of a paced bot

In open mode a sender advances `t_next` by the interval that it reads, sleeps
until then if it is early, and fires a burst. If it is more than half a second
late it sets `t_next` to the time it is, so that it does not make up for what
it has missed. What it reads may change at any time, and it may be held up for
as long as it likes.

`t_next` is never before the time at which the bot started and all intervals
that it has read since (`PacedBot.OnTime`), and no order of an iteration is
sent before its `t_next`. So the bot is never ahead of its schedule, and at a
constant pace it sends no more than a burst for each interval that is over
(`PacedBot.on_schedule`).

Times are rational numbers here, and the sums are exact. The doubles of the
code are off by a few units in the last place at each wake-up.
-/

open Wire

namespace Fleet

/-- **An open bot with its schedule**: what it read, and when it sent what.
None of this is in the code, which keeps `t_next` alone. -/
structure PacedBot where
  bot : Bot
  /-- The clock, when the bot last took a step. -/
  now : ℚ
  /-- When it connected. -/
  start : ℚ
  /-- The intervals that it read, one an iteration, oldest first. -/
  reads : List ℚ
  /-- The orders that it sent: the iteration of each, and the time. -/
  orders : List (ℕ × ℚ)

namespace PacedBot

/-- A bot that was just created. -/
def new (window : ℕ) (now : ℚ) : PacedBot := ⟨.new .open window, now, now, [], []⟩

/-- When the schedule has come to. -/
def due (m : PacedBot) : ℚ := m.start + m.reads.sum

/-- **A step of the bot**, on a clock that does not go back. -/
def step (wire : Wire.Mode) (scaled : ℚ → ℤ) (m : PacedBot) (a : Env × BotEvent) :
    Option PacedBot :=
  if m.now ≤ a.1.now then
    (m.bot.step wire scaled a.1 a.2).map (fun r =>
      { bot := r.1
        now := a.1.now
        start := if a.2.connects then a.1.now else m.start
        reads := if a.2 = .test ∧ a.1.goesOn then m.reads ++ [a.1.interval] else m.reads
        orders := if r.2 = .sent then m.orders ++ [(m.reads.length, a.1.now)] else m.orders })
  else none

/-- What a step does. -/
theorem step_eq_some {wire : Wire.Mode} {scaled : ℚ → ℤ} {m m' : PacedBot} {env : Env}
    {e : BotEvent} (h : m.step wire scaled (env, e) = some m') :
    m.now ≤ env.now ∧ ∃ b' t, m.bot.step wire scaled env e = some (b', t)
      ∧ m' = { bot := b'
               now := env.now
               start := if e.connects then env.now else m.start
               reads := if e = .test ∧ env.goesOn then m.reads ++ [env.interval] else m.reads
               orders := if t = .sent then m.orders ++ [(m.reads.length, env.now)]
                 else m.orders } := by
  rw [step] at h
  by_cases hnow : m.now ≤ env.now
  · rw [if_pos hnow] at h
    obtain ⟨⟨b', t⟩, hb', h⟩ := Option.map_eq_some_iff.mp h
    exact ⟨hnow, b', t, hb', h.symm⟩
  · rw [if_neg hnow] at h
    cases h

/-- The schedule does not stand in the way of a step. -/
theorem exists_step {wire : Wire.Mode} {scaled : ℚ → ℤ} {m : PacedBot} {env : Env} {e : BotEvent}
    {b' : Bot} {t : Tally} (hnow : m.now ≤ env.now)
    (h : m.bot.step wire scaled env e = some (b', t)) :
    ∃ m', m.step wire scaled (env, e) = some m' ∧ m'.bot = b' ∧ m'.now = env.now := by
  rw [step, if_pos hnow, h]
  exact ⟨_, rfl, rfl, rfl⟩

/-- **What a step of an open bot does to its schedule.** -/
inductive Turn (env : Env) (m : PacedBot) : PacedBot → Prop where
  /-- The bot connects, or it does not. -/
  | connects (b' : Bot) : m.bot.sender = .connecting →
    b'.sender = .testing ∧ b'.tNext = env.now ∨ b'.sender = .done →
    Turn env m ⟨b', env.now, env.now, m.reads, m.orders⟩
  /-- An iteration reads an interval: the sender sleeps until the schedule is
  there, or fires where it is. -/
  | reads (b' : Bot) : m.bot.sender = .testing → b'.sender ≠ .connecting →
    m.bot.tNext + env.interval ≤ b'.tNext →
    (∀ u, b'.sender = .pacing u → m.bot.tNext + env.interval ≤ u) →
    (0 < b'.sender.held → m.bot.tNext + env.interval ≤ env.now) → b'.sender.held ≤ env.burst →
    Turn env m ⟨b', env.now, m.start, m.reads ++ [env.interval], m.orders⟩
  /-- The sender wakes up. -/
  | wakes (b' : Bot) (u : ℚ) : m.bot.sender = .pacing u → u ≤ env.now →
    b'.sender = Bot.rest env.burst → b'.tNext = m.bot.tNext →
    Turn env m ⟨b', env.now, m.start, m.reads, m.orders⟩
  | sends (b' : Bot) (n : ℕ) : m.bot.sender = .firing (n + 1) → b'.sender = .sending n →
    b'.tNext = m.bot.tNext →
    Turn env m ⟨b', env.now, m.start, m.reads, m.orders ++ [(m.reads.length, env.now)]⟩
  /-- The receiver takes a step, or the sender goes on to nothing new. -/
  | keeps (b' : Bot) : b'.tNext = m.bot.tNext →
    b'.sender = m.bot.sender
      ∨ m.bot.sender ≠ .connecting ∧ m.bot.sender ≠ .done ∧ b'.sender ≠ .connecting
        ∧ b'.sender.held ≤ m.bot.sender.held ∧ (∀ u, b'.sender ≠ .pacing u) →
    Turn env m ⟨b', env.now, m.start, m.reads, m.orders⟩

variable {wire : Wire.Mode} {scaled : ℚ → ℤ} {m m' : PacedBot} {env : Env} {e : BotEvent}

/-- **Every step is one of these.** -/
theorem turn_of_step (hwf : m.bot.WF) (hopen : m.bot.mode = .open)
    (hstep : m.step wire scaled (env, e) = some m') : Turn env m m' := by
  obtain ⟨-, b', t, hb', rfl⟩ := step_eq_some hstep
  have hclosed : m.bot.mode ≠ .closed := BotMode.ne_closed.mpr hopen
  cases Bot.steps_of_step hb' with
  | connected oid hs => exact .connects _ hs (.inl ⟨rfl, rfl⟩)
  | refused oid hs => exact .connects _ hs (.inr rfl)
  | leaves hs hgoes =>
    show Turn env m ⟨_, env.now, m.start,
      if .test = BotEvent.test ∧ env.goesOn then m.reads ++ [env.interval] else m.reads, m.orders⟩
    rw [if_neg (fun hread => hgoes hread.2)]
    exact .keeps _ rfl (.inr (by simp [hs, Sender.held]))
  | takes hs hgoes hmode | waits hs hgoes hmode => exact absurd hmode hclosed
  | early hs hgoes hmode hdelay =>
    show Turn env m ⟨_, env.now, m.start,
      if .test = BotEvent.test ∧ env.goesOn then m.reads ++ [env.interval] else m.reads, m.orders⟩
    rw [if_pos ⟨rfl, hgoes⟩]
    refine .reads _ hs Sender.noConfusion le_rfl (fun u hu => ?_)
      (fun hheld => absurd hheld (lt_irrefl 0)) (Nat.zero_le _)
    cases hu
    linarith
  | behind hs hgoes hmode hdelay =>
    show Turn env m ⟨_, env.now, m.start,
      if .test = BotEvent.test ∧ env.goesOn then m.reads ++ [env.interval] else m.reads, m.orders⟩
    rw [if_pos ⟨rfl, hgoes⟩]
    -- Behind or too late, it does not wait, and what it was due is past.
    have hlate : m.bot.tNext + env.interval ≤ env.now := by linarith
    exact .reads _ hs (Bot.rest_ne_connecting _) hlate
      (fun u hu => absurd hu (Bot.rest_ne_pacing _ u)) (fun _ => hlate) (Bot.held_rest _).le
  | late hs hgoes hmode hdelay =>
    show Turn env m ⟨_, env.now, m.start,
      if .test = BotEvent.test ∧ env.goesOn then m.reads ++ [env.interval] else m.reads, m.orders⟩
    rw [if_pos ⟨rfl, hgoes⟩]
    have hlate : m.bot.tNext + env.interval ≤ env.now := by linarith
    exact .reads _ hs (Bot.rest_ne_connecting _) le_rfl
      (fun u hu => absurd hu (Bot.rest_ne_pacing _ u)) (fun _ => hlate) (Bot.held_rest _).le
  | acquires hs hp => exact absurd (hwf.closed hs) hclosed
  | paced u hs hu => exact .wakes _ u hs hu rfl rfl
  | fires n ns hs => exact .sends _ n hs rfl rfl
  | sent n hs =>
    have hheld : (Bot.rest n).held ≤ m.bot.sender.held := by
      rw [hs, Bot.held_rest]
      rfl
    exact .keeps _ rfl (.inr ⟨by simp [hs], by simp [hs],
      Bot.rest_ne_connecting n, hheld, Bot.rest_ne_pacing n⟩)
  | fails n hs => exact .keeps _ Bot.tNext_release (.inr (by simp [hs, Sender.held]))
  | drained u hs | saturated n ns hs => exact .keeps _ rfl (.inr (by simp [hs, Sender.held]))
  | ignores | raises | hangsUp | arrives | drops => exact .keeps _ rfl (.inl rfl)
  | acked | unknown => exact .keeps _ Bot.tNext_release (.inl Bot.sender_release)

/-! ## The schedule

The time that is due only goes forward: by an interval with every reading, and
to the present where the bot is too late. So it is never before the sum of the
intervals. -/

/-- **The invariant of the schedule**: `t_next` is not before the schedule, a
bot that sleeps wakes up no earlier, and a bot with orders to fire has reached
it. -/
structure OnTime (m : PacedBot) : Prop where
  connecting : m.bot.sender = .connecting → m.reads = [] ∧ m.orders = []
  due : m.bot.sender ≠ .connecting → m.bot.sender ≠ .done → m.due ≤ m.bot.tNext
  pacing : ∀ u, m.bot.sender = .pacing u → m.reads ≠ [] ∧ m.due ≤ u
  firing : 0 < m.bot.sender.held → m.reads ≠ [] ∧ m.due ≤ m.now
  orders : ∀ p ∈ m.orders,
    1 ≤ p.1 ∧ p.1 ≤ m.reads.length ∧ m.start + (m.reads.take p.1).sum ≤ p.2

theorem onTime_new (window : ℕ) (now : ℚ) : (new window now).OnTime where
  connecting _ := ⟨rfl, rfl⟩
  due h := absurd rfl h
  pacing _ h := nomatch h
  firing h := absurd h (lt_irrefl 0)
  orders _ h := absurd h List.not_mem_nil

/-- A schedule that advances by an interval advances `t_next` at least as
far. -/
theorem OnTime.due_append (h : m.OnTime) (hs : m.bot.sender = .testing) (interval : ℚ) :
    m.start + (m.reads ++ [interval]).sum ≤ m.bot.tNext + interval := by
  have hbefore := h.due (by simp [hs]) (by simp [hs])
  rw [List.sum_append, List.sum_singleton, ← add_assoc]
  exact add_le_add_left hbefore interval

/-- **Every step keeps it.** -/
theorem OnTime.step (h : m.OnTime) (hnow : m.now ≤ env.now) (hturn : Turn env m m') :
    m'.OnTime := by
  have hfiring : 0 < m.bot.sender.held → m.reads ≠ [] ∧ m.due ≤ env.now := fun hheld =>
    ⟨(h.firing hheld).1, (h.firing hheld).2.trans hnow⟩
  cases hturn with
  | connects b' hs hs' =>
    obtain ⟨hreads, horders⟩ := h.connecting hs
    rw [hreads, horders]
    rcases hs' with ⟨hs', htNext⟩ | hs'
    · refine ⟨by simp [hs'], fun _ _ => ?_, by simp [hs'], by simp [hs', Sender.held],
        List.forall_mem_nil _⟩
      rw [htNext]
      exact (add_zero env.now).le
    · exact ⟨by simp [hs'], by simp [hs'], by simp [hs'], by simp [hs', Sender.held],
        List.forall_mem_nil _⟩
  | reads b' hs hc' htNext hpace hfire =>
    have hdue := h.due_append hs env.interval
    have hread : m.reads ++ [env.interval] ≠ [] := by simp
    refine ⟨fun hconn => absurd hconn hc', fun _ _ => hdue.trans htNext,
      fun u hu => ⟨hread, hdue.trans (hpace u hu)⟩, fun hheld => ⟨hread, hdue.trans (hfire hheld)⟩,
      fun p hp => ?_⟩
    obtain ⟨hone, hle, htime⟩ := h.orders p hp
    refine ⟨hone, hle.trans (by rw [List.length_append]; exact Nat.le_add_right _ _), ?_⟩
    rw [List.take_append_of_le_length hle]
    exact htime
  | wakes b' u hs hu hs' htNext =>
    obtain ⟨hread, hdue⟩ := h.pacing u hs
    refine ⟨fun hc => ?_, fun _ _ => ?_, fun u' hu' => ?_, fun _ => ⟨hread, hdue.trans hu⟩,
      h.orders⟩
    · exact absurd (hs'.symm.trans hc) (Bot.rest_ne_connecting _)
    · rw [htNext]
      exact h.due (by simp [hs]) (by simp [hs])
    · exact absurd (hs'.symm.trans hu') (Bot.rest_ne_pacing _ u')
  | sends b' n hs hs' htNext =>
    obtain ⟨hread, hdue⟩ := hfiring (by rw [hs]; exact Nat.succ_pos n)
    refine ⟨by simp [hs'], fun _ _ => ?_, by simp [hs'], fun _ => ⟨hread, hdue⟩,
      List.forall_mem_append.mpr ⟨h.orders, fun p hp => ?_⟩⟩
    · rw [htNext]
      exact h.due (by simp [hs]) (by simp [hs])
    · rw [List.mem_singleton.mp hp]
      refine ⟨List.length_pos_of_ne_nil hread, le_rfl, ?_⟩
      show m.start + (m.reads.take m.reads.length).sum ≤ env.now
      rw [List.take_length]
      exact hdue
  | keeps b' htNext hs' =>
    rcases hs' with hsame | ⟨hc, hd, hc', hheld, hpace⟩
    · refine ⟨?_, ?_, ?_, ?_, h.orders⟩ <;> dsimp only <;> rw [hsame]
      · exact h.connecting
      · rw [htNext]
        exact h.due
      · exact h.pacing
      · exact hfiring
    · refine ⟨fun hconn => absurd hconn hc', fun _ _ => ?_, fun u hu => absurd hu (hpace u),
        fun hpos => hfiring (hpos.trans_le hheld), h.orders⟩
      rw [htNext]
      exact h.due hc hd

/-! ## Bursts

Between two readings the bot holds one burst, and fires it order by order. -/

/-- How many orders an iteration has sent. -/
def fired (m : PacedBot) (k : ℕ) : ℕ := (m.orders.map Prod.fst).count k

/-- **The invariant of the bursts**: no iteration sends more than `size`
orders. -/
structure Bursts (size : ℕ) (m : PacedBot) : Prop where
  fired : ∀ k, m.fired k ≤ size
  firing : m.fired m.reads.length + m.bot.sender.held ≤ size
  pacing : ∀ u, m.bot.sender = .pacing u → m.fired m.reads.length = 0

/-- A bot that was just created has sent nothing. -/
theorem bursts_new (size window : ℕ) (now : ℚ) : Bursts size (new window now) :=
  ⟨fun _ => Nat.zero_le _, Nat.zero_le _, nofun⟩

/-- An iteration that has not begun has sent nothing. -/
theorem OnTime.fired_eq_zero (h : m.OnTime) {k : ℕ} (hk : m.reads.length < k) : m.fired k = 0 := by
  refine List.count_eq_zero.mpr (fun hmem => ?_)
  obtain ⟨p, hp, rfl⟩ := List.mem_map.mp hmem
  exact absurd (h.orders p hp).2.1 (not_le.mpr hk)

/-- **Every step keeps it**: an iteration has no more orders to fire than it
read. -/
theorem Bursts.step {size : ℕ} (h : m.Bursts size) (honTime : m.OnTime) (hburst : env.burst ≤ size)
    (hturn : Turn env m m') : m'.Bursts size := by
  cases hturn with
  | connects b' hs hs' =>
    have hheld : b'.sender.held = 0 := by rcases hs' with ⟨hs', -⟩ | hs' <;> rw [hs'] <;> rfl
    refine ⟨h.fired, ?_, fun u hu => ?_⟩
    · show m.fired m.reads.length + b'.sender.held ≤ size
      rw [hheld]
      exact h.fired _
    · rcases hs' with ⟨hs', -⟩ | hs' <;> rw [hs'] at hu <;> cases hu
  | reads b' hs hc' htNext hpace hfire hheld =>
    have hzero : m.fired (m.reads ++ [env.interval]).length = 0 :=
      honTime.fired_eq_zero (by simp)
    refine ⟨h.fired, ?_, fun _ _ => hzero⟩
    show m.fired (m.reads ++ [env.interval]).length + b'.sender.held ≤ size
    omega
  | wakes b' u hs hu hs' =>
    have hzero := h.pacing u hs
    refine ⟨h.fired, ?_, fun u' hu' => absurd (hs'.symm.trans hu') (Bot.rest_ne_pacing _ u')⟩
    show m.fired m.reads.length + b'.sender.held ≤ size
    rw [hs', Bot.held_rest]
    omega
  | sends b' n hs hs' =>
    have hfired : ∀ k, ((m.orders ++ [(m.reads.length, env.now)]).map Prod.fst).count k
        = m.fired k + if m.reads.length = k then 1 else 0 := by
      intro k
      rw [List.map_append, List.count_append, List.map_singleton, List.count_singleton]
      simp only [beq_iff_eq]
      rfl
    have hroom := h.firing
    rw [hs] at hroom
    simp only [Sender.held] at hroom
    refine ⟨fun k => ?_, ?_, fun u hu => by rw [hs'] at hu; cases hu⟩
    · have hle := h.fired k
      show ((m.orders ++ [(m.reads.length, env.now)]).map Prod.fst).count k ≤ size
      rw [hfired]
      split_ifs with hk
      · subst hk
        omega
      · exact hle
    · show ((m.orders ++ [(m.reads.length, env.now)]).map Prod.fst).count m.reads.length
        + b'.sender.held ≤ size
      rw [hfired, if_pos rfl, hs']
      simp only [Sender.held]
      omega
  | keeps b' htNext hs' =>
    rcases hs' with hsame | ⟨-, -, -, hheld, hpace⟩
    · refine ⟨h.fired, ?_, ?_⟩ <;> dsimp only <;> rw [hsame]
      · exact h.firing
      · exact h.pacing
    · exact ⟨h.fired, (Nat.add_le_add_left hheld _).trans h.firing, fun u hu => absurd hu (hpace u)⟩

/-! ## Runs

With one interval and one size of bursts the sum is a product, and so the
number of orders by a time is bounded by how often the interval has passed. -/

/-- What holds after a run. -/
structure Kept (m : PacedBot) : Prop where
  wf : m.bot.WF
  mode : m.bot.mode = .open
  onTime : m.OnTime

/-- A bot that was just created is on time. -/
theorem kept_new (window : ℕ) (now : ℚ) : (new window now).Kept :=
  ⟨Bot.wf_new _ _, rfl, onTime_new window now⟩

/-- It stays so. -/
theorem Kept.step (h : m.Kept) (hstep : m.step wire scaled (env, e) = some m') : m'.Kept := by
  have hturn := turn_of_step h.wf h.mode hstep
  obtain ⟨hnow, b', t, hb', rfl⟩ := step_eq_some hstep
  exact ⟨h.wf.step hb', (Bot.mode_of_step hb').trans h.mode, h.onTime.step hnow hturn⟩

/-- **Bursts over a run**, none larger than `size`. -/
theorem bursts_of_exec {window size : ℕ} {now : ℚ} {as : List (Env × BotEvent)}
    (h : exec (PacedBot.step wire scaled) (new window now) as = some m)
    (hburst : ∀ a ∈ as, a.1.burst ≤ size) : m.Bursts size := by
  have hrun := inv_of_exec_past (fun _ m => m.Kept ∧ m.Bursts size) [] h
    (fun _ m a m' ha hm hstep => ?_) ⟨kept_new window now, bursts_new size window now⟩
  · exact hrun.2
  · obtain ⟨env, e⟩ := a
    have hturn := turn_of_step hm.1.wf hm.1.mode hstep
    exact ⟨hm.1.step hstep, hm.2.step hm.1.onTime (hburst _ ha) hturn⟩

/-- The intervals that were read are those of the run. -/
theorem reads_of_exec {window : ℕ} {now interval : ℚ} {as : List (Env × BotEvent)}
    (h : exec (PacedBot.step wire scaled) (new window now) as = some m)
    (hinterval : ∀ a ∈ as, a.1.interval = interval) : ∀ i ∈ m.reads, i = interval := by
  refine inv_of_exec_past (fun _ m => ∀ i ∈ m.reads, i = interval) [] h
    (fun _ m a m' ha hm hstep => ?_) (List.forall_mem_nil _)
  obtain ⟨env, e⟩ := a
  obtain ⟨-, b', t, -, rfl⟩ := step_eq_some hstep
  dsimp only
  split_ifs
  · exact List.forall_mem_append.mpr ⟨hm, fun i hi =>
      (List.mem_singleton.mp hi).trans (hinterval _ ha)⟩
  · exact hm

/-- Entries of so many kinds, of each no more than so many. -/
theorem length_le_of_count_le {ks : List ℕ} {n size : ℕ} (hrange : ∀ k ∈ ks, 1 ≤ k ∧ k ≤ n)
    (hcount : ∀ k, ks.count k ≤ size) : ks.length ≤ size * n := by
  have hsub : ks.toFinset ⊆ Finset.Icc 1 n := fun k hk =>
    Finset.mem_Icc.mpr (hrange k (List.mem_toFinset.mp hk))
  calc ks.length = ∑ k ∈ ks.toFinset, ks.count k := (List.sum_toFinset_count_eq_length ks).symm
    _ ≤ ks.toFinset.card • size := Finset.sum_le_card_nsmul _ _ _ (fun k _ => hcount k)
    _ ≤ n • size := by
      refine Nat.mul_le_mul_right size ((Finset.card_le_card hsub).trans ?_)
      rw [Nat.card_Icc, Nat.add_sub_cancel]
    _ = size * n := Nat.mul_comm n size

/-- **A paced bot is never ahead of its schedule.** In every run of an open
bot, on a clock that does not go back – whatever the engine does, however long
the tasks are held up, and whatever pace the bot reads: each order of the
`k`-th iteration is sent no earlier than the time at which the bot started and
the intervals that it read in its first `k` iterations. So with a constant
interval and a constant burst no more than a burst for each interval that is
over was sent by any time. -/
theorem on_schedule (wire : Wire.Mode) (scaled : ℚ → ℤ) (window : ℕ) (now : ℚ)
    (as : List (Env × BotEvent)) {m : PacedBot}
    (h : exec (PacedBot.step wire scaled) (new window now) as = some m) :
    (∀ p ∈ m.orders, m.start + (m.reads.take p.1).sum ≤ p.2)
      ∧ ∀ (interval : ℚ) (burst : ℕ), 0 < interval →
        (∀ a ∈ as, a.1.interval = interval ∧ a.1.burst = burst) → ∀ t, m.start ≤ t →
          (m.orders.countP (fun p => p.2 ≤ t) : ℤ) ≤ burst * ⌊(t - m.start) / interval⌋ := by
  have hkept : m.Kept := inv_of_exec Kept h (fun _ _ _ hm hstep => hm.step hstep)
    (kept_new window now)
  have horders := hkept.onTime.orders
  refine ⟨fun p hp => (horders p hp).2.2, fun interval burst hpos hconst t ht => ?_⟩
  have hbursts := bursts_of_exec h (fun a ha => (hconst a ha).2.le)
  have hreads := List.eq_replicate_of_mem (reads_of_exec h (fun a ha => (hconst a ha).1))
  have hfloor : 0 ≤ ⌊(t - m.start) / interval⌋ :=
    Int.floor_nonneg.mpr (div_nonneg (sub_nonneg.mpr ht) hpos.le)
  -- Every order by then is of one of the readings whose time has come, and
  -- each of these has one burst.
  have hle : ((m.orders.filter (fun p => p.2 ≤ t)).map Prod.fst).length
      ≤ burst * ⌊(t - m.start) / interval⌋.toNat := by
    refine length_le_of_count_le (fun k hk => ?_) (fun k => ?_)
    · obtain ⟨p, hp, rfl⟩ := List.mem_map.mp hk
      obtain ⟨hp, htime⟩ := List.mem_filter.mp hp
      obtain ⟨hone, hlen, hdue⟩ := horders p hp
      refine ⟨hone, (Int.le_toNat hfloor).mpr (Int.le_floor.mpr ?_)⟩
      have hsum : (m.reads.take p.1).sum = p.1 * interval := by
        rw [hreads, List.take_replicate, min_eq_left hlen, List.sum_replicate, nsmul_eq_mul]
      rw [Int.cast_natCast, le_div_iff₀ hpos, ← hsum]
      have htime : p.2 ≤ t := by simpa using htime
      linarith
    · exact ((List.filter_sublist.map Prod.fst).count_le k).trans (hbursts.fired k)
  rw [List.length_map, ← List.countP_eq_length_filter] at hle
  calc (m.orders.countP (fun p => p.2 ≤ t) : ℤ)
      ≤ ((burst * ⌊(t - m.start) / interval⌋.toNat : ℕ) : ℤ) := Int.ofNat_le.mpr hle
    _ = burst * ⌊(t - m.start) / interval⌋ := by
      rw [Int.natCast_mul, Int.toNat_of_nonneg hfloor]

/-- A bot that fires two orders a second: it sleeps for a second, fires, is
held up for two, and fires again. -/
def heldUp : List (Env × BotEvent) :=
  let at_ (now : ℚ) (es : List BotEvent) : List (Env × BotEvent) :=
    es.map (fun e => (⟨false, now, 9, 1, 2⟩, e))
  at_ 0 [.connect true 0, .test] ++ at_ 1 [.wake, .fire 0, .sent, .fire 0, .sent]
    ++ at_ 3 [.test, .fire 0, .sent, .fire 0]

/-- Four of the six orders of three seconds were sent. -/
theorem on_schedule_of_heldUp :
    ∃ m, exec (PacedBot.step .binary (fun _ => 0)) (new 32 0) heldUp = some m
      ∧ m.orders = [(1, 1), (1, 1), (2, 3), (2, 3)]
      ∧ (∀ p ∈ m.orders, m.start + (m.reads.take p.1).sum ≤ p.2)
      ∧ (m.orders.countP (fun p => p.2 ≤ 3) : ℤ) ≤ (2 : ℕ) * ⌊(3 - m.start) / 1⌋ := by
  have hrun : ∃ m ∈ exec (PacedBot.step .binary (fun _ => 0)) (new 32 0) heldUp,
      m.orders = [(1, 1), (1, 1), (2, 3), (2, 3)] ∧ m.start = 0 := by
    decide +kernel
  obtain ⟨m, hm, horders, hstart⟩ := hrun
  obtain ⟨hdue, hcount⟩ := on_schedule .binary _ 32 0 heldUp hm
  exact ⟨m, hm, horders, hdue, hcount 1 2 zero_lt_one (by decide +kernel) 3
    (by rw [hstart]; decide +kernel)⟩

end PacedBot

/-- **Every open bot of a run of a worker is such a bot**, on the worker's
clock. -/
theorem Worker.exists_paced {c : Config} {w : Worker} {es : List Event}
    (hexec : exec (step c) .new es = some w) :
    ∀ ph ∈ w.phases, ∀ b ∈ ph.bots, b.mode = .open → ∃ now as m,
      exec (PacedBot.step c.wire c.scaled) (.new c.window now) as = some m
        ∧ m.bot = b ∧ m.now ≤ w.now := by
  refine forall_bots_at (fun t b => b.mode = .open → ∃ now as m,
      exec (PacedBot.step c.wire c.scaled) (.new c.window now) as = some m ∧ m.bot = b ∧ m.now ≤ t)
    (fun t t' b ht hb hopen => ?_) (fun t mode hopen => ?_)
    (fun env b e b' t hb _ hstep hopen => ?_) (reaches_of_exec hexec)
  · obtain ⟨now, as, m, hm, hbot, hnow⟩ := hb hopen
    exact ⟨now, as, m, hm, hbot, hnow.trans ht⟩
  · cases show mode = .open from hopen
    exact ⟨t, [], _, rfl, rfl, le_rfl⟩
  · obtain ⟨now, as, m, hm, rfl, hnow⟩ := hb ((Bot.mode_of_step hstep).symm.trans hopen)
    obtain ⟨m', hm', hbot, hnow'⟩ := PacedBot.exists_step hnow hstep
    refine ⟨now, as ++ [(env, e)], m', ?_, hbot, hnow'.le⟩
    exact exec_concat hm hm'

end Fleet
