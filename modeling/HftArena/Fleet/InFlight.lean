import HftArena.Fleet.Accounting

/-!
# The window of a closed bot

In closed mode a sender takes a permit for each order, and the receiver gives
one back for each acknowledgement that it reads – also for one that names no
order that is waited for, whether it is repeated or was never sent. Each such
acknowledgement lets the bot have one more order in flight than `WINDOW`.

What a bot has in permits, orders in flight and permits in hand is `WINDOW` and
one for each of these (`Bot.Holds`). So no more than `WINDOW` orders are in
flight as long as every acknowledgement that is read names an order that is
waited for (`Account.in_flight_le`), and after one that does not a bot that
goes on sending can have more (`Account.in_flight_le_iff`).

The sum is the invariant: a step moves a permit from one of the three places to
another, and only a release for nothing makes one up.
-/

open Wire

namespace Fleet

/-- The permits that a sender has taken for orders that it has not fired. -/
def Sender.held : Sender → ℕ
  | .firing n => n
  | .sending n => n
  | _ => 0

namespace Bot

variable {wire : Wire.Mode} {scaled : ℚ → ℤ} {env : Env} {b b' : Bot} {e : BotEvent} {t : Tally}

/-- Whether an acknowledgement that the receiver deals with **names an order**
that the bot waits for. The release in the code stands outside the test for
this. -/
def named (wire : Wire.Mode) (b : Bot) : BotEvent → Bool
  | .recv _ =>
    match b.inbox.head?.map (b.reading wire) with
    | some (.acked id) => (b.awaited id).isSome
    | _ => true
  | _ => true

/-- The permits that a step makes up: one where an acknowledgement names
nothing. -/
def surplus (wire : Wire.Mode) (b : Bot) (e : BotEvent) : ℕ := if b.named wire e then 0 else 1

/-- **What a closed bot holds**: its permits, its orders in flight and the
permits in hand make up a window that is too large by `k`. A bot whose sender
has ended may have got back the permit of its last order. -/
structure Holds (window k : ℕ) (b : Bot) : Prop where
  closed : b.mode = .closed
  unpaced : ∀ u, b.sender ≠ .pacing u
  total : b.sender ≠ .done → (b.permits + b.outstanding + b.sender.held : ℤ) = window + k
  inFlight : b.outstanding ≤ window + k

/-- A bot that was just created has all its permits. -/
theorem holds_new (window : ℕ) : (Bot.new .closed window).Holds window 0 :=
  ⟨rfl, nofun, fun _ => rfl, Int.add_nonneg (Int.natCast_nonneg _) le_rfl⟩

/-- A bot whose sender goes on. -/
theorem holds_of_total {window k : ℕ} (hclosed : b.mode = .closed)
    (hpace : ∀ u, b.sender ≠ .pacing u)
    (htotal : (b.permits + b.outstanding + b.sender.held : ℤ) = window + k) : b.Holds window k :=
  ⟨hclosed, hpace, fun _ => htotal, by omega⟩

/-- After an order the permits in hand are those of the rest of the burst. -/
@[simp] theorem held_rest (n : ℕ) : (rest n).held = n := by
  unfold rest
  split_ifs with hn
  · exact hn.symm
  · rfl

/-- A bot that goes on to the next order is not asleep. -/
theorem rest_ne_pacing (n : ℕ) (u : ℚ) : rest n ≠ .pacing u := by
  unfold rest
  split_ifs <;> exact Sender.noConfusion

/-- A release gives back a permit. -/
theorem holds_release {window k : ℕ} (hclosed : b.mode = .closed)
    (hpace : ∀ u, b.sender ≠ .pacing u)
    (htotal : b.sender ≠ .done →
      (b.permits + 1 + b.outstanding + b.sender.held : ℤ) = window + k)
    (hout : b.outstanding ≤ window + k) : b.release.Holds window k := by
  rw [release, if_pos hclosed]
  exact ⟨hclosed, hpace, fun hd => by rw [← htotal hd, Nat.cast_succ], hout⟩

/-- **A step makes up no permit** but for an acknowledgement that names no
order that is waited for. -/
theorem Holds.step {window k : ℕ} (h : b.Holds window k)
    (hstep : b.step wire scaled env e = some (b', t)) :
    b'.Holds window (k + b.surplus wire e) := by
  -- all but acknowledgements make up nothing
  have hnone : ∀ {b' : Bot}, b.named wire e = true → b'.Holds window k →
      b'.Holds window (k + b.surplus wire e) := by
    intro b' hnamed hb'
    rw [surplus, if_pos hnamed]
    exact hb'
  have hsender : ∀ {s : Sender}, b.sender = s → s ≠ .done →
      (b.permits + b.outstanding + s.held : ℤ) = window + k := by
    rintro s rfl hs
    exact h.total hs
  have hopen : b.mode ≠ .open := by
    rw [h.closed]
    exact nofun
  cases steps_of_step hstep with
  | connected oid hs =>
    have htotal := hsender hs nofun
    exact hnone rfl (holds_of_total h.closed nofun htotal)
  | refused oid hs => exact hnone rfl ⟨h.closed, nofun, fun hd => absurd rfl hd, h.inFlight⟩
  | leaves hs =>
    have htotal := hsender hs nofun
    exact hnone rfl (holds_of_total h.closed nofun htotal)
  | takes hs hgoes hmode hp =>
    have htotal := hsender hs nofun
    refine hnone rfl (holds_of_total h.closed nofun ?_)
    simp only [Sender.held] at htotal ⊢
    omega
  | waits hs =>
    have htotal := hsender hs nofun
    exact hnone rfl (holds_of_total h.closed nofun htotal)
  | early hs hgoes hmode | behind hs hgoes hmode | late hs hgoes hmode => exact absurd hmode hopen
  | acquires hs hp =>
    have htotal := hsender hs nofun
    refine hnone rfl (holds_of_total h.closed nofun ?_)
    simp only [Sender.held] at htotal ⊢
    omega
  | paced u hs => exact absurd hs (h.unpaced u)
  | drained u hs => exact hnone rfl ⟨h.closed, nofun, fun hd => absurd rfl hd, h.inFlight⟩
  | saturated n ns hs hmode => exact absurd hmode hopen
  | fires n ns hs =>
    have htotal := hsender hs nofun
    refine hnone rfl (holds_of_total h.closed nofun ?_)
    simp only [Sender.held] at htotal ⊢
    omega
  | sent n hs =>
    have htotal := hsender hs nofun
    refine hnone rfl (holds_of_total h.closed (fun u => rest_ne_pacing n u) ?_)
    rw [held_rest]
    exact htotal
  | fails n hs =>
    refine hnone rfl ⟨mode_release.trans h.closed, nofun, fun hd => absurd rfl hd, ?_⟩
    exact outstanding_release.trans_le h.inFlight
  | ignores ns frame inbox hwaiting hinbox hread =>
    exact hnone (by simp [named, hinbox, hread]) ⟨h.closed, h.unpaced, h.total, h.inFlight⟩
  | acked ns frame inbox id i t0 hwaiting hinbox hread hid =>
    refine hnone (by simp [named, hinbox, hread, hid])
      (holds_release h.closed h.unpaced (fun hd => ?_) ?_)
    · have htotal := h.total hd
      dsimp only
      omega
    · have hle := h.inFlight
      dsimp only
      omega
  | unknown ns frame inbox id hwaiting hinbox hread hid =>
    have hnot : ¬ b.named wire (.recv ns) = true := by simp [named, hinbox, hread, hid]
    rw [surplus, if_neg hnot]
    refine holds_release h.closed h.unpaced (fun hd => ?_) ?_
    · have htotal := h.total hd
      dsimp only
      omega
    · have hle := h.inFlight
      dsimp only
      omega
  | raises ns frame inbox hwaiting hinbox hread =>
    exact hnone (by simp [named, hinbox, hread]) ⟨h.closed, h.unpaced, h.total, h.inFlight⟩
  | hangsUp | arrives | drops => exact hnone rfl ⟨h.closed, h.unpaced, h.total, h.inFlight⟩

end Bot

/-! ## Runs of a closed bot

A permit is taken for every order, and given back for every acknowledgement.
They balance if each acknowledgement is for one of the orders. -/

namespace Account

variable {wire : Wire.Mode} {scaled : ℚ → ℤ} {window : ℕ} {m : Account}
  {as : List (Env × BotEvent)}

/-- The step reads no acknowledgement but of an order that the bot waits
for. -/
def Named (wire : Wire.Mode) (m : Account) (a : Env × BotEvent) : Prop :=
  m.bot.named wire a.2 = true

instance (wire : Wire.Mode) (m : Account) (a : Env × BotEvent) : Decidable (m.Named wire a) :=
  inferInstanceAs (Decidable (_ = true))

/-- **The account of the permits** over a run. -/
theorem holds_of_exec (h : exec (Account.step wire scaled) (new .closed window) as = some m) :
    m.bot.Holds window (total (Account.step wire scaled)
      (fun m a => m.bot.surplus wire a.2) (new .closed window) as) := by
  have hrun := inv_of_exec_total (fun m a => m.bot.surplus wire a.2)
    (fun k m => m.bot.Holds window k) h (fun k m a m' hm hstep => ?_) (Bot.holds_new window)
  · rw [Nat.zero_add] at hrun
    exact hrun
  · obtain ⟨⟨b', t⟩, hb', rfl⟩ := Option.map_eq_some_iff.mp hstep
    exact hm.step hb'

/-- A step that is named keeps it. -/
theorem holds_step_named {m' : Account} {a : Env × BotEvent} (h : m.bot.Holds window 0)
    (hnamed : m.Named wire a) (hstep : m.step wire scaled a = some m') : m'.bot.Holds window 0 := by
  obtain ⟨⟨b', t⟩, hb', rfl⟩ := Option.map_eq_some_iff.mp hstep
  have hnext := h.step hb'
  rw [Bot.surplus, if_pos (show m.bot.named wire a.2 = true from hnamed)] at hnext
  exact hnext

/-- A run makes up no permit if and only if every acknowledgement names an
order. -/
theorem surplus_eq_zero_iff {s : Account} (h : exec (Account.step wire scaled) s as = some m) :
    total (Account.step wire scaled) (fun m a => m.bot.surplus wire a.2) s as = 0
      ↔ Along (Account.step wire scaled) (Account.Named wire) s as := by
  rw [total_eq_zero_iff h]
  refine along_congr h (fun m a m' _ => ?_)
  unfold Bot.surplus
  by_cases hnamed : m.bot.named wire a.2 = true
  · rw [if_pos hnamed]
    exact iff_of_true rfl hnamed
  · rw [if_neg hnamed]
    exact iff_of_false Nat.one_ne_zero hnamed

/-- As many orders are outstanding as are in flight. -/
theorem outstanding_eq {mode : BotMode}
    (h : exec (Account.step wire scaled) (new mode window) as = some m) :
    m.bot.outstanding = (Ticket.out m.log).length :=
  (kept_of_exec h).1.outstanding

/-- **The window holds as long as acknowledgements name orders.** In every run
of a closed bot whose receiver reads no acknowledgement but of an order that
the bot waits for, no more than `WINDOW` orders are sent and not acknowledged,
at any time. -/
theorem in_flight_le (wire : Wire.Mode) (scaled : ℚ → ℤ) (window : ℕ)
    (as : List (Env × BotEvent)) {m : Account}
    (h : exec (Account.step wire scaled) (new .closed window) as = some m)
    (hnamed : Along (Account.step wire scaled) (Account.Named wire) (new .closed window) as) :
    (Ticket.out m.log).length ≤ window := by
  have hle := (holds_of_exec h).inFlight
  rw [(surplus_eq_zero_iff h).mpr hnamed, outstanding_eq h] at hle
  omega

/-- The acknowledgement of an order with a small id. -/
def ackFrame (i : UInt8) : Frame := .binary ([1, i, 0] ++ List.replicate 14 0)

/-- A bot fills a window of `n`, reads the acknowledgement of an order, and
sends one more. -/
def oneMore (n : ℕ) (i : UInt8) : List (Env × BotEvent) :=
  let events : List BotEvent := .connect true 0
    :: (List.replicate n [.test, .fire 0, .sent]).flatten
      ++ [.arrive (ackFrame i), .recv 0, .test, .fire 0]
  events.map (fun e => (⟨false, 0, 9, 1, 1⟩, e))

/-- The order was sent. -/
theorem in_flight_le_behind_ack :
    ∃ m, exec (Account.step .binary (fun _ => 0)) (new .closed 2) (oneMore 2 1) = some m
      ∧ Ticket.out m.log = [2, 3] ∧ (Ticket.out m.log).length ≤ 2 := by
  have hrun : ∃ m ∈ exec (Account.step .binary (fun _ => 0)) (new .closed 2) (oneMore 2 1),
      Ticket.out m.log = [2, 3] := by
    decide +kernel
  obtain ⟨m, hm, hout⟩ := hrun
  exact ⟨m, hm, hout, in_flight_le .binary _ 2 _ hm (by decide +kernel)⟩

/-- The order was never sent: of a window of 32, there are 33 in flight. -/
theorem in_flight_gt_behind_unknown_ack :
    ¬ ∀ as m, exec (Account.step .binary (fun _ => 0)) (new .closed 32) as = some m →
      (Ticket.out m.log).length ≤ 32 := by
  intro h
  have hrun : ∃ m ∈ exec (Account.step .binary (fun _ => 0)) (new .closed 32) (oneMore 32 99),
      ¬ (Ticket.out m.log).length ≤ 32 := by
    decide +kernel
  obtain ⟨m, hm, hout⟩ := hrun
  exact hout (h _ m hm)

/-! ## After an acknowledgement that names no order

A permit more than there should be stays for good. The bot can use it at any
time, and then has an order more in flight than the window allows. -/

/-- A bot at its loop, connected, that may go on sending: what an engine needs
to have more orders in flight, if there are permits. -/
structure Ready (b : Bot) : Prop where
  closed : b.mode = .closed
  testing : b.sender = .testing
  connected : b.connection = .open

/-- One order, from a test of the loop to the next. -/
theorem exists_send {env : Env} (hgoes : env.goesOn) {m : Account} (h : Ready m.bot) {p : ℕ}
    (hp : m.bot.permits = p + 1) :
    ∃ m', Reaches (Account.step wire scaled) (Account.Named wire) m m' ∧ Ready m'.bot
      ∧ m'.bot.permits = p ∧ m'.bot.outstanding = m.bot.outstanding + 1 := by
  have htest : m.bot.step wire scaled env .test
      = some ({ m.bot with permits := p, sender := .firing 1 }, .nothing) := by
    rw [Bot.step, if_pos h.testing, Bot.test, if_pos hgoes, if_pos h.closed, if_pos (by omega), hp]
    rfl
  -- It takes a permit, fires the order, and sends it.
  obtain ⟨m₁, hm₁, hbot₁⟩ := exists_step htest
  have hfire : m₁.bot.step wire scaled env (.fire 0)
      = some ({ m₁.bot with oid := m₁.bot.oid + 1, sender := .sending 0
                            sendTimes := m₁.bot.sendTimes.set (m₁.bot.oid + 1) 0
                            outstanding := m₁.bot.outstanding + 1 }, .sent) := by
    have hclosed : m₁.bot.mode = .closed := by rw [hbot₁]; exact h.closed
    rw [Bot.step, show m₁.bot.sender = .firing 1 by rw [hbot₁]]
    dsimp only
    rw [Bot.fire, if_neg (fun hopen => hopen.1 hclosed)]
  obtain ⟨m₂, hm₂, hbot₂⟩ := exists_step hfire
  have hsent : m₂.bot.step wire scaled env .sent
      = some ({ m₂.bot with sender := .testing }, .nothing) := by
    have hopen : m₂.bot.connection = .open := by rw [hbot₂, hbot₁]; exact h.connected
    rw [Bot.step, show m₂.bot.sender = .sending 0 by rw [hbot₂]]
    dsimp only
    rw [if_pos hopen]
    rfl
  obtain ⟨m₃, hm₃, hbot₃⟩ := exists_step hsent
  have hbot : m₃.bot.permits = p ∧ m₃.bot.outstanding = m.bot.outstanding + 1 ∧ Ready m₃.bot := by
    rw [hbot₃, hbot₂, hbot₁]
    exact ⟨rfl, rfl, h.closed, rfl, h.connected⟩
  refine ⟨m₃, ?_, hbot.2.2, hbot.1, hbot.2.1⟩
  exact .step (.step (.step .start (rfl : m.Named wire (env, .test)) hm₁)
    (rfl : m₁.Named wire (env, .fire 0)) hm₂) (rfl : m₂.Named wire (env, .sent)) hm₃

/-- **A bot that goes on sending has its permits to spend.** -/
theorem exists_spend {env : Env} (hgoes : env.goesOn) {m : Account} (h : Ready m.bot) :
    ∃ m', Reaches (Account.step wire scaled) (Account.Named wire) m m'
      ∧ m'.bot.outstanding = m.bot.outstanding + m.bot.permits := by
  induction hp : m.bot.permits generalizing m with
  | zero => exact ⟨m, .start, (add_zero _).symm⟩
  | succ p ih =>
    obtain ⟨m₁, hreach, hready, hpermits, hout⟩ := exists_send hgoes h hp
    obtain ⟨m', hreach', hout'⟩ := ih hready hpermits
    refine ⟨m', hreach.trans hreach', ?_⟩
    rw [hout', hout]
    omega

/-- **The window holds from here on exactly if it was never widened**: a bot
that may go on sending stays within its window, whatever happens as long as the
acknowledgements that it reads name orders, if and only if all those did that
it has read so far. -/
theorem in_flight_le_iff {env : Env} (hgoes : env.goesOn)
    (h : exec (Account.step wire scaled) (new .closed window) as = some m) (hready : Ready m.bot) :
    (∀ m', Reaches (Account.step wire scaled) (Account.Named wire) m m' →
        (Ticket.out m'.log).length ≤ window)
      ↔ Along (Account.step wire scaled) (Account.Named wire) (new .closed window) as := by
  have hholds := holds_of_exec h
  constructor
  · intro hall
    obtain ⟨m', hreach, hout⟩ : ∃ m', Reaches (Account.step wire scaled) (Account.Named wire) m m'
        ∧ m'.bot.outstanding = m.bot.outstanding + m.bot.permits := exists_spend hgoes hready
    obtain ⟨as', hexec⟩ := hreach.exists_exec
    have hrun : exec (Account.step wire scaled) (new .closed window) (as ++ as') = some m' := by
      rw [exec_append, h]
      exact hexec
    have hle := hall m' hreach
    have htotal := hholds.total (by rw [hready.testing]; exact nofun)
    rw [hready.testing] at htotal
    have hflight := outstanding_eq hrun
    rw [← surplus_eq_zero_iff h]
    simp only [Sender.held] at htotal
    omega
  · intro hnamed m' hreach
    rw [(surplus_eq_zero_iff h).mpr hnamed] at hholds
    obtain ⟨hkept, hwithin⟩ := hreach.inv (fun m => m.Kept ∧ m.bot.Holds window 0)
      (fun m a m' hm hnamed hstep => ⟨hm.1.step hstep, holds_step_named hm.2 hnamed hstep⟩)
      ⟨(kept_of_exec h).1, hholds⟩
    have hle := hwithin.inFlight
    rw [hkept.outstanding] at hle
    omega

end Account

end Fleet
