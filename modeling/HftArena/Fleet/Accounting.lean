import HftArena.Lib.Tickets
import HftArena.Fleet.OrderIds

/-!
# A bot's account of its orders

A bot keeps three records of one thing: the send times by order id, the count
of outstanding orders, and the counters. Its sender and its receiver change
them between suspension points, and the engine decides what the receiver reads:
it may acknowledge an order late, twice or never, and ids that were never sent.

An order that is sent is a ticket, and an acknowledgement that is read a claim
for one. With a log of both next to the bot (`Account`), the send times are the
tickets that are out, and what was counted as acknowledged are the tickets
redeemed (`Account.Kept`): that is why no engine gets an order counted twice,
or more orders than were sent (`Account.acks_accounted`).

The bots of a worker are such bots (`Worker.exists_account`).
-/

open Wire

namespace Fleet

namespace Bot

variable {wire : Wire.Mode} {scaled : ℚ → ℤ} {env : Env} {b b' : Bot} {e : BotEvent} {t : Tally}

/-- The id in the acknowledgement that the receiver deals with, if it is an
integer. Other ids find nothing in `send_times`, whose keys are integers. -/
def ackId (wire : Wire.Mode) (b : Bot) : BotEvent → Option ℤ
  | .recv _ =>
    match b.inbox.head?.map (b.reading wire) with
    | some (.acked id) => id
    | _ => none
  | _ => none

/-- **What a step does to the records of a bot**: an order is entered in them,
or one that is acknowledged is taken out, or they stay as they are. -/
inductive Enters (wire : Wire.Mode) (b : Bot) (e : BotEvent) (b' : Bot) : Tally → Prop where
  | sends (ns : ℕ) : b.sender ≠ .connecting → b'.sender ≠ .connecting → b.ackId wire e = none →
    b'.oid = b.oid + 1 → b'.sendTimes = b.sendTimes.set (b.oid + 1) ns →
    b'.outstanding = b.outstanding + 1 → (b.mode = .open → b.outstanding < maxOutstanding) →
    Enters wire b e b' .sent
  | acks (i : ℤ) (bucket : Bucket) : b'.sender = b.sender → b.ackId wire e = some i →
    b'.oid = b.oid → i ∈ b.sendTimes.keys → b'.sendTimes = b.sendTimes.erase i →
    b'.outstanding = b.outstanding - 1 → Enters wire b e b' (.acked bucket)
  | stays (t : Tally) : t = .nothing ∨ t = .error →
    (b'.sender = .connecting → b.sender = .connecting) →
    b.sender = .connecting ∨ b'.oid = b.oid → (∀ i ∈ b.ackId wire e, i ∉ b.sendTimes.keys) →
    b'.sendTimes = b.sendTimes → b'.outstanding = b.outstanding → Enters wire b e b' t

/-- An order that is waited for has a send time. -/
theorem awaited_eq_some {id : Option ℤ} {i : ℤ} {t0 : ℕ} (h : b.awaited id = some (i, t0)) :
    id = some i ∧ i ∈ b.sendTimes.keys := by
  obtain ⟨i', rfl, h⟩ := Option.bind_eq_some_iff.mp h
  obtain ⟨t0', hget, h⟩ := Option.map_eq_some_iff.mp h
  cases h
  exact ⟨rfl, Dict.mem_keys_of_get? hget⟩

/-- An acknowledgement that is not waited for has an id without a send time. -/
theorem awaited_eq_none {id : Option ℤ} (h : b.awaited id = none) :
    ∀ i ∈ id, i ∉ b.sendTimes.keys := by
  rintro i rfl
  rw [awaited, Option.bind_some, Option.map_eq_none_iff] at h
  exact Dict.get?_eq_none_iff.mp h

/-- **Every step does one of these.** The cases of `Bot.Steps` that touch a
record are the one that fires an order and the one that reads an
acknowledgement. -/
theorem enters_of_step (h : b.step wire scaled env e = some (b', t)) : Enters wire b e b' t := by
  cases steps_of_step h with
  | connected oid hs => exact .stays _ (.inl rfl) nofun (.inl hs) nofun rfl rfl
  | refused oid hs => exact .stays _ (.inr rfl) nofun (.inl hs) nofun rfl rfl
  | leaves | takes | waits | early | acquires | drained | saturated =>
    exact .stays _ (.inl rfl) nofun (.inr rfl) nofun rfl rfl
  | behind | late | paced | sent =>
    exact .stays _ (.inl rfl) (fun hc => absurd hc (rest_ne_connecting _)) (.inr rfl) nofun rfl rfl
  | fires n ns hs hroom => exact .sends ns (by simp [hs]) nofun rfl rfl rfl rfl hroom
  | fails n hs => exact .stays _ (.inr rfl) nofun (.inr (by simp)) nofun (by simp) (by simp)
  | hangsUp | arrives | drops => exact .stays _ (.inl rfl) id (.inr rfl) nofun rfl rfl
  | ignores ns frame inbox hwaiting hinbox hread =>
    exact .stays _ (.inl rfl) id (.inr rfl) (by simp [ackId, hinbox, hread]) rfl rfl
  | raises ns frame inbox hwaiting hinbox hread =>
    exact .stays _ (.inl rfl) id (.inr rfl) (by simp [ackId, hinbox, hread]) rfl rfl
  | acked ns frame inbox id i t0 hwaiting hinbox hread hid =>
    obtain ⟨rfl, hi⟩ := awaited_eq_some hid
    exact .acks i _ (by simp) (by simp [ackId, hinbox, hread]) (by simp) hi (by simp) (by simp)
  | unknown ns frame inbox id hwaiting hinbox hread hid =>
    have hack : b.ackId wire (.recv ns) = id := by simp [ackId, hinbox, hread]
    refine .stays _ (.inl rfl) (by simp) (.inr (by simp)) ?_ (by simp) (by simp)
    rw [hack]
    exact awaited_eq_none hid

/-- A bot keeps its mode. -/
theorem mode_of_step (h : b.step wire scaled env e = some (b', t)) : b'.mode = b.mode := by
  cases steps_of_step h with
  | fails | acked | unknown => exact mode_release
  | _ => rfl

end Bot

/-! ## A bot and its log

The log is of tickets: one is issued when an order is sent, and an
acknowledgement is a claim to one. What the bot keeps is what such a log says
is out. -/

/-- **A bot, with what it has done itself**: the log is not in the code, and
nothing that the bot does depends on it. -/
structure Account where
  bot : Bot
  /-- The orders it sent and the acknowledgements it read, oldest first. -/
  log : List (Ticket ℤ)
  /-- The orders it counted as acknowledged, with the bucket of each. -/
  counted : List (ℤ × Bucket)
  /-- What it added to the counters. -/
  stats : Stats

namespace Account

/-- A bot that was just created. -/
def new (mode : BotMode) (window : ℕ) : Account := ⟨.new mode window, [], [], .zero⟩

/-- The entry for a step: the order that is sent, or the acknowledgement. -/
def entry (wire : Wire.Mode) (b : Bot) (e : BotEvent) (b' : Bot) (t : Tally) :
    List (Ticket ℤ) :=
  if t = .sent then [.issue b'.oid] else (b.ackId wire e).toList.map .claim

/-- The order that a step counts as acknowledged. -/
def credit (wire : Wire.Mode) (b : Bot) (e : BotEvent) : Tally → List (ℤ × Bucket)
  | .acked bucket => (b.ackId wire e).toList.map (fun i => (i, bucket))
  | _ => []

/-- **A step of the bot**, in an environment of its own: the clock, the pace
and the stop event may be different at each step. -/
def step (wire : Wire.Mode) (scaled : ℚ → ℤ) (m : Account) (a : Env × BotEvent) : Option Account :=
  (m.bot.step wire scaled a.1 a.2).map (fun r =>
    ⟨r.1, m.log ++ entry wire m.bot a.2 r.1 r.2, m.counted ++ credit wire m.bot a.2 r.2,
      m.stats.add r.2⟩)

/-- The log does not stand in the way of a step. -/
theorem exists_step {wire : Wire.Mode} {scaled : ℚ → ℤ} {m : Account} {env : Env} {e : BotEvent}
    {b' : Bot} {t : Tally} (h : m.bot.step wire scaled env e = some (b', t)) :
    ∃ m', m.step wire scaled (env, e) = some m' ∧ m'.bot = b' := by
  refine ⟨⟨b', m.log ++ entry wire m.bot e b' t, m.counted ++ credit wire m.bot e t,
    m.stats.add t⟩, ?_, rfl⟩
  rw [step, h]
  rfl

/-- **The invariant**: the three records of the bot say what its log says. The
ids of the log are no larger than the last that was used, and so the next one
is new. -/
structure Kept (m : Account) : Prop where
  connecting : m.bot.sender = .connecting → Ticket.issued m.log = []
  ids : ∀ i ∈ Ticket.issued m.log, i ≤ m.bot.oid
  nodup : (Ticket.issued m.log).Nodup
  keys : m.bot.sendTimes.keys = Ticket.out m.log
  outstanding : m.bot.outstanding = (Ticket.out m.log).length
  room : m.bot.mode = .open → m.bot.outstanding ≤ maxOutstanding
  counted : m.counted.map Prod.fst = Ticket.redeemed m.log
  sent : m.stats.sent = (Ticket.issued m.log).length
  acked : m.stats.acked = m.counted.length
  hist : ∀ bucket, m.stats.hist bucket = m.counted.countP (fun p => p.2 = bucket)

/-- A bot that was just created has sent nothing. -/
theorem kept_new (mode : BotMode) (window : ℕ) : (new mode window).Kept where
  connecting _ := rfl
  ids _ h := absurd h List.not_mem_nil
  nodup := List.nodup_nil
  keys := rfl
  outstanding := rfl
  room _ := show (0 : ℤ) ≤ 512 by decide
  counted := rfl
  sent := rfl
  acked := rfl
  hist _ := rfl

variable {wire : Wire.Mode} {scaled : ℚ → ℤ} {m m' : Account} {a : Env × BotEvent}

/-- An order is entered: its id is new. -/
theorem Kept.issue {b' : Bot} {ns : ℕ} (h : m.Kept) (hs : b'.sender ≠ .connecting)
    (hmode : b'.mode = m.bot.mode) (hoid : b'.oid = m.bot.oid + 1)
    (htimes : b'.sendTimes = m.bot.sendTimes.set (m.bot.oid + 1) ns)
    (hout : b'.outstanding = m.bot.outstanding + 1)
    (hroom : m.bot.mode = .open → m.bot.outstanding < maxOutstanding) :
    Kept ⟨b', m.log ++ [.issue b'.oid], m.counted, m.stats.add .sent⟩ := by
  -- ids go up, so the next was never used
  have hnew : m.bot.oid + 1 ∉ Ticket.issued m.log := fun hmem => by
    have hle := h.ids _ hmem
    omega
  have hkey : m.bot.oid + 1 ∉ m.bot.sendTimes.keys := by
    rw [h.keys]
    exact fun hmem => hnew ((Ticket.perm_issued m.log).subset (List.mem_append_left _ hmem))
  have hissued : Ticket.issued (m.log ++ [.issue b'.oid])
      = Ticket.issued m.log ++ [m.bot.oid + 1] := by
    rw [Ticket.issued_append, hoid]
    rfl
  refine ⟨fun hc => absurd hc hs, ?_, ?_, ?_, ?_, ?_, ?_, ?_, h.acked, h.hist⟩
  · show ∀ i ∈ Ticket.issued (m.log ++ [.issue b'.oid]), i ≤ b'.oid
    rw [hissued, hoid]
    refine List.forall_mem_append.mpr ⟨fun i hi => (h.ids i hi).trans (by omega), fun i hi => ?_⟩
    exact (List.mem_singleton.mp hi).le
  · show (Ticket.issued (m.log ++ [.issue b'.oid])).Nodup
    rw [hissued]
    refine List.nodup_append.mpr ⟨h.nodup, List.nodup_singleton _, fun i hi j hj heq => hnew ?_⟩
    rw [← List.mem_singleton.mp hj, ← heq]
    exact hi
  · show b'.sendTimes.keys = Ticket.out (m.log ++ [.issue b'.oid])
    rw [htimes, Dict.keys_set_of_notMem hkey, h.keys, Ticket.out_append_issue, hoid]
  · show b'.outstanding = (Ticket.out (m.log ++ [.issue b'.oid])).length
    rw [hout, h.outstanding, Ticket.out_append_issue, List.length_append, List.length_singleton,
      Nat.cast_add, Nat.cast_one]
  · intro hopen
    have hlt := hroom (hmode ▸ hopen)
    show b'.outstanding ≤ maxOutstanding
    omega
  · show m.counted.map Prod.fst = Ticket.redeemed (m.log ++ [.issue b'.oid])
    rw [Ticket.redeemed_append_issue]
    exact h.counted
  · show m.stats.sent + 1 = (Ticket.issued (m.log ++ [.issue b'.oid])).length
    rw [hissued, List.length_append, List.length_singleton, ← h.sent]

/-- An order that is acknowledged is taken out. -/
theorem Kept.redeem {b' : Bot} {i : ℤ} {bucket : Bucket} (h : m.Kept)
    (hs : b'.sender = m.bot.sender) (hmode : b'.mode = m.bot.mode) (hoid : b'.oid = m.bot.oid)
    (hi : i ∈ m.bot.sendTimes.keys) (htimes : b'.sendTimes = m.bot.sendTimes.erase i)
    (hout : b'.outstanding = m.bot.outstanding - 1) :
    Kept ⟨b', m.log ++ [.claim i], m.counted ++ [(i, bucket)], m.stats.add (.acked bucket)⟩ := by
  -- what has a send time is out
  have hin : i ∈ Ticket.out m.log := h.keys ▸ hi
  have hissued : Ticket.issued (m.log ++ [.claim i]) = Ticket.issued m.log := by
    rw [Ticket.issued_append]
    exact List.append_nil _
  refine ⟨?_, ?_, ?_, ?_, ?_, ?_, ?_, ?_, ?_, fun bucket' => ?_⟩
  · show b'.sender = .connecting → Ticket.issued (m.log ++ [.claim i]) = []
    rw [hissued, hs]
    exact h.connecting
  · show ∀ j ∈ Ticket.issued (m.log ++ [.claim i]), j ≤ b'.oid
    rw [hissued, hoid]
    exact h.ids
  · show (Ticket.issued (m.log ++ [.claim i])).Nodup
    rw [hissued]
    exact h.nodup
  · show b'.sendTimes.keys = Ticket.out (m.log ++ [.claim i])
    rw [htimes, Dict.keys_erase, h.keys, Ticket.out_append_claim]
  · have hpos := List.length_pos_of_mem hin
    show b'.outstanding = (Ticket.out (m.log ++ [.claim i])).length
    rw [hout, h.outstanding, Ticket.out_append_claim, List.length_erase_of_mem hin]
    omega
  · intro hopen
    have hle := h.room (hmode ▸ hopen)
    show b'.outstanding ≤ maxOutstanding
    omega
  · show (m.counted ++ [(i, bucket)]).map Prod.fst = Ticket.redeemed (m.log ++ [.claim i])
    rw [List.map_append, h.counted, Ticket.redeemed_append_claim, if_pos hin]
    rfl
  · show m.stats.sent = (Ticket.issued (m.log ++ [.claim i])).length
    rw [hissued]
    exact h.sent
  · show m.stats.acked + 1 = (m.counted ++ [(i, bucket)]).length
    rw [List.length_append, List.length_singleton, ← h.acked]
  · show Function.update m.stats.hist bucket (m.stats.hist bucket + 1) bucket'
      = (m.counted ++ [(i, bucket)]).countP (fun p => p.2 = bucket')
    rw [List.countP_append, ← h.hist, List.countP_singleton]
    by_cases hb : bucket = bucket'
    · subst hb
      rw [Function.update_self, if_pos (decide_eq_true rfl)]
    · rw [Function.update_of_ne (Ne.symm hb), if_neg (by simpa using hb), add_zero]

/-- Nothing is entered: an acknowledgement that is read is for no order that is
waited for. -/
theorem Kept.ignore {b' : Bot} {t : Tally} {claims : List ℤ} (h : m.Kept)
    (ht : t = .nothing ∨ t = .error) (hs : b'.sender = .connecting → m.bot.sender = .connecting)
    (hmode : b'.mode = m.bot.mode) (hoid : m.bot.sender = .connecting ∨ b'.oid = m.bot.oid)
    (htimes : b'.sendTimes = m.bot.sendTimes) (hout : b'.outstanding = m.bot.outstanding)
    (hclaims : ∀ i ∈ claims, i ∉ m.bot.sendTimes.keys) :
    Kept ⟨b', m.log ++ claims.map .claim, m.counted, m.stats.add t⟩ := by
  have hissued : Ticket.issued (m.log ++ claims.map .claim) = Ticket.issued m.log := by
    rw [Ticket.issued_append, Ticket.issued_map_claim, List.append_nil]
  have hfold := Ticket.enter_claims (fun i hi => h.keys ▸ hclaims i hi)
  have hstats : (m.stats.add t).sent = m.stats.sent ∧ (m.stats.add t).acked = m.stats.acked
      ∧ (m.stats.add t).hist = m.stats.hist := by
    rcases ht with rfl | rfl <;> exact ⟨rfl, rfl, rfl⟩
  refine ⟨?_, ?_, ?_, ?_, ?_, ?_, ?_, ?_, ?_, fun bucket => ?_⟩
  · show b'.sender = .connecting → Ticket.issued (m.log ++ claims.map .claim) = []
    rw [hissued]
    exact fun hc => h.connecting (hs hc)
  · show ∀ i ∈ Ticket.issued (m.log ++ claims.map .claim), i ≤ b'.oid
    rw [hissued]
    rcases hoid with hc | hoid
    · rw [h.connecting hc]
      exact List.forall_mem_nil _
    · rw [hoid]
      exact h.ids
  · show (Ticket.issued (m.log ++ claims.map .claim)).Nodup
    rw [hissued]
    exact h.nodup
  · show b'.sendTimes.keys = Ticket.out (m.log ++ claims.map .claim)
    rw [htimes, h.keys, hfold.1]
  · show b'.outstanding = (Ticket.out (m.log ++ claims.map .claim)).length
    rw [hout, h.outstanding, hfold.1]
  · intro hopen
    show b'.outstanding ≤ maxOutstanding
    rw [hout]
    exact h.room (hmode ▸ hopen)
  · show m.counted.map Prod.fst = Ticket.redeemed (m.log ++ claims.map .claim)
    rw [h.counted, hfold.2]
  · show (m.stats.add t).sent = (Ticket.issued (m.log ++ claims.map .claim)).length
    rw [hissued, hstats.1, h.sent]
  · show (m.stats.add t).acked = m.counted.length
    rw [hstats.2.1, h.acked]
  · show (m.stats.add t).hist bucket = m.counted.countP (fun p => p.2 = bucket)
    rw [hstats.2.2, h.hist]

/-- **Every step keeps it.** -/
theorem Kept.step (h : m.Kept) (hstep : m.step wire scaled a = some m') : m'.Kept := by
  obtain ⟨⟨b', t⟩, hb', rfl⟩ := Option.map_eq_some_iff.mp hstep
  have hmode := Bot.mode_of_step hb'
  dsimp only
  cases Bot.enters_of_step hb' with
  | sends ns _ hs hack hoid htimes hout hroom =>
    rw [entry, if_pos rfl, show credit wire m.bot a.2 .sent = [] from rfl, List.append_nil]
    exact h.issue hs hmode hoid htimes hout hroom
  | acks i bucket hs hack hoid hi htimes hout =>
    rw [entry, if_neg nofun, credit, hack]
    exact h.redeem hs hmode hoid hi htimes hout
  | stays _ ht hs hoid hack htimes hout =>
    have hcredit : credit wire m.bot a.2 t = [] := by rcases ht with rfl | rfl <;> rfl
    have hsent : t ≠ .sent := by rcases ht with rfl | rfl <;> exact nofun
    rw [entry, if_neg hsent, hcredit, List.append_nil]
    exact h.ignore ht hs hmode hoid htimes hout (fun i hi => hack i (Option.mem_toList.mp hi))

/-- **It holds after any run.** -/
theorem kept_of_exec {mode : BotMode} {window : ℕ} {as : List (Env × BotEvent)}
    (h : exec (Account.step wire scaled) (new mode window) as = some m) :
    m.Kept ∧ m.bot.mode = mode :=
  inv_of_exec (fun m => m.Kept ∧ m.bot.mode = mode) h
    (fun m a m' hm hstep => by
      obtain ⟨⟨b', t⟩, hb', rfl⟩ := Option.map_eq_some_iff.mp hstep
      exact ⟨hm.1.step hstep, (Bot.mode_of_step hb').trans hm.2⟩)
    ⟨kept_new mode window, rfl⟩

/-- **No engine can falsify a bot's account.** After any run of a bot, in
either mode – whatever frames arrive, however its sender and its receiver take
turns, and whatever they read of the clock and the pace: the send times are
exactly those of the orders that were sent and not acknowledged since, as many
as are outstanding; what is counted as acknowledged, in the counter and in the
histogram, are orders that were sent, none of them twice, and no more than were
sent; and in open mode no more than `MAX_OUTSTANDING` are outstanding. -/
theorem acks_accounted (wire : Wire.Mode) (scaled : ℚ → ℤ) (mode : BotMode) (window : ℕ)
    (as : List (Env × BotEvent)) {m : Account}
    (h : exec (Account.step wire scaled) (new mode window) as = some m) :
    (∀ i, i ∈ m.bot.sendTimes.keys ↔ Ticket.IsOut m.log i)
      ∧ m.bot.outstanding = m.bot.sendTimes.keys.length
      ∧ (m.counted.map Prod.fst).Nodup
      ∧ (∀ p ∈ m.counted, .issue p.1 ∈ m.log)
      ∧ m.stats.acked = m.counted.length
      ∧ (∀ bucket, m.stats.hist bucket = m.counted.countP (fun p => p.2 = bucket))
      ∧ m.stats.sent = (Ticket.issued m.log).length
      ∧ m.stats.acked ≤ m.stats.sent
      ∧ (mode = .open → m.bot.outstanding ≤ maxOutstanding) := by
  obtain ⟨hkept, hmode⟩ := kept_of_exec h
  refine ⟨fun i => ?_, ?_, ?_, fun p hp => ?_, hkept.acked, hkept.hist, hkept.sent, ?_,
    fun hopen => hkept.room (hmode.trans hopen)⟩
  · rw [hkept.keys]
    exact Ticket.mem_out_iff hkept.nodup
  · rw [hkept.keys]
    exact hkept.outstanding
  · rw [hkept.counted]
    exact Ticket.nodup_redeemed hkept.nodup
  · have hmem : p.1 ∈ Ticket.redeemed m.log := hkept.counted ▸ List.mem_map_of_mem hp
    exact Ticket.mem_issued.mp (Ticket.mem_issued_of_mem_redeemed hmem)
  · have hlen : m.counted.length = (Ticket.redeemed m.log).length := by
      rw [← hkept.counted, List.length_map]
    rw [hkept.acked, hkept.sent, hlen]
    exact Ticket.length_redeemed_le m.log

/-- An engine that acknowledges an order twice, and one that was never sent. -/
def repeatedAcks : List (Env × BotEvent) :=
  let env : Env := ⟨false, 0, 9, 1, 1⟩
  let ack (i : UInt8) : Frame := .binary ([1, i, 0] ++ List.replicate 14 0)
  [.connect true 0, .test, .fire 0, .sent, .arrive (ack 1), .recv 8000, .arrive (ack 1), .recv 8000,
    .arrive (ack 7), .recv 8000].map (fun e => (env, e))

/-- The first acknowledgement is counted. -/
theorem acks_accounted_of_repeated :
    ∃ m, exec (Account.step .binary (fun us => us.floor)) (new .closed 32) repeatedAcks = some m
      ∧ m.log = [.issue 1, .claim 1, .claim 1, .claim 7] ∧ m.counted.length = 1
      ∧ (∀ i, i ∈ m.bot.sendTimes.keys ↔ Ticket.IsOut m.log i)
      ∧ m.stats.acked ≤ m.stats.sent := by
  have hrun : ∃ m ∈ exec (Account.step .binary (fun us => us.floor)) (new .closed 32) repeatedAcks,
      m.log = [.issue 1, .claim 1, .claim 1, .claim 7] ∧ m.counted.length = 1 := by
    decide +kernel
  obtain ⟨m, hm, hlog, hcounted⟩ := hrun
  have hkept := acks_accounted .binary _ .closed 32 repeatedAcks hm
  exact ⟨m, hm, hlog, hcounted, hkept.1, hkept.2.2.2.2.2.2.2.1⟩

end Account

/-! ## The bots of a worker

Whatever run of a worker a bot is in, there is a log that it has written. -/

/-- **Every bot of a run of a worker is such a bot**, of some kind and with
some log. -/
theorem Worker.exists_account {c : Config} {w : Worker} {es : List Event}
    (hexec : exec (step c) .new es = some w) :
    ∀ ph ∈ w.phases, ∀ b ∈ ph.bots, ∃ mode as m,
      exec (Account.step c.wire c.scaled) (.new mode c.window) as = some m ∧ m.bot = b := by
  refine forall_bots _ (fun mode => ⟨mode, [], _, rfl, rfl⟩) (fun env b e b' t hb _ hstep => ?_)
    (reaches_of_exec hexec)
  obtain ⟨mode, as, m, hm, rfl⟩ := hb
  obtain ⟨m', hm', hbot⟩ := Account.exists_step hstep
  refine ⟨mode, as ++ [(env, e)], m', ?_, hbot⟩
  exact exec_concat hm hm'

end Fleet
