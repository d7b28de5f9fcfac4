import Mathlib.Algebra.Order.BigOperators.Group.List
import HftArena.Fleet.Accounting
import HftArena.Fleet.Ledger

/-!
# Orders that are out

What a worker has sent is what was acknowledged to it and what its bots have
outstanding (`Worker.balance`): an order that is sent is outstanding until it
is acknowledged, and a bot lets no acknowledgement count that is for no order
of its own. So a worker has never counted more acknowledgements than orders.

Its records need not agree: an acknowledgement is in a record of its own, and
the order that it answers is in none if it was sent while no reporter looked.
If every order is sent under the eyes of a reporter, then at no time have the
records acknowledged more than they report sent
(`Worker.acked_records_le_sent`).

The condition is on the sending alone. Acknowledgements that nobody sees make
the records report fewer, which does no harm here.
-/

namespace Fleet

/-- A bot sends an order in a step: a turn over a burst does, unless the bot is
saturated. -/
def Bot.sends (b : Bot) : BotEvent → Bool
  | .fire _ => b.mode = .closed ∨ b.outstanding < maxOutstanding
  | _ => false

/-- A step is counted as an order exactly if the bot sends one. -/
theorem Bot.sends_iff {wire : Wire.Mode} {scaled : ℚ → ℤ} {env : Env} {b b' : Bot} {e : BotEvent}
    {t : Tally} (h : b.step wire scaled env e = some (b', t)) : b.sends e = true ↔ t = .sent := by
  cases steps_of_step h with
  | fires n ns hs hroom =>
    cases hmode : b.mode with
    | closed => simp [sends, hmode]
    | «open» => simp [sends, hmode, hroom hmode]
  | saturated n ns hs hmode hsat => simp [sends, hmode, hsat]
  | _ => simp [sends]

/-- What is outstanding goes up with each order and down with each
acknowledgement that counts. -/
theorem Bot.outstanding_of_step {wire : Wire.Mode} {scaled : ℚ → ℤ} {env : Env} {b b' : Bot}
    {e : BotEvent} {t : Tally} (h : b.step wire scaled env e = some (b', t)) :
    b'.outstanding + t.get .acked = b.outstanding + t.get .sent := by
  cases enters_of_step h with
  | sends ns _ _ _ _ _ hout =>
    rw [hout]
    exact add_zero _
  | acks i bucket _ _ _ _ _ hout =>
    rw [hout]
    show b.outstanding - 1 + 1 = b.outstanding + 0
    omega
  | stays t ht _ _ _ _ hout =>
    rw [hout]
    rcases ht with rfl | rfl <;> rfl

/-- The orders that a phase's bots have outstanding. -/
def Phase.inFlight (ph : Phase) : ℤ := (ph.bots.map Bot.outstanding).sum

namespace Worker

variable {c : Config} {w w' : Worker} {e : Event} {es : List Event}

/-- The orders that a worker's bots have outstanding. -/
def inFlight (w : Worker) : ℤ := (w.phases.map Phase.inFlight).sum

/-! ## What was counted

Of the orders that a worker has counted as sent, its bots wait for some, and
the others were acknowledged or given up. -/

/-- A phase begins with no order out. -/
theorem inFlight_begin (spec : Spec) (window : ℕ) (now : ℚ) :
    (spec.begin window now).inFlight = 0 := by
  show ((List.replicate spec.bots (Bot.new spec.mode window)).map Bot.outstanding).sum = 0
  rw [List.map_replicate]
  exact List.sum_eq_zero (fun x hx => List.eq_of_mem_replicate hx)

/-- **An order that is sent is out, and one that is acknowledged no
longer.** -/
theorem balance_step (hnext : w.step c e = some w') :
    (w'.stats.sent : ℤ) - w'.stats.acked - w'.inFlight
      = (w.stats.sent : ℤ) - w.stats.acked - w.inFlight := by
  cases steps_of_step hnext with
  | tick | probed | warm | finish => rfl
  | begins spec todo hstage hidle =>
    show _ - ((spec.begin c.window w.now).inFlight + w.inFlight) = _
    rw [inFlight_begin, zero_add]
  | main todo ph ph' phs hstage hphs hmain =>
    have hsame : ph'.inFlight = ph.inFlight :=
      congrArg (fun bots => (List.map Bot.outstanding bots).sum) (Phase.bots_mainStep hmain)
    unfold inFlight
    rw [hphs, List.map_cons, List.map_cons, hsame]
  | report todo ph ph' phs rec hstage hphs hrep =>
    have hsame : ph'.inFlight = ph.inFlight :=
      congrArg (fun bots => (List.map Bot.outstanding bots).sum) (Phase.bots_reporterStep hrep)
    unfold inFlight
    rw [hphs, List.map_cons, List.map_cons, hsame]
  | bot todo p i e ph b b' t hstage hph hb hbot =>
    have hout := Bot.outstanding_of_step hbot
    have hsent : (w.stats.add t).sent = w.stats.sent + t.get .sent := w.stats.get_add t .sent
    have hacked : (w.stats.add t).acked = w.stats.acked + t.get .acked := w.stats.get_add t .acked
    have hphase : Phase.inFlight { ph with bots := ph.bots.set i b' }
        = ph.inFlight + (b'.outstanding - b.outstanding) := sum_map_set hb Bot.outstanding
    unfold inFlight
    rw [sum_map_set hph Phase.inFlight, hphase, hsent, hacked]
    omega

/-- **What a worker has sent is what was acknowledged and what is out.** -/
theorem balance (hexec : exec (step c) .new es = some w) :
    (w.stats.sent : ℤ) = w.stats.acked + w.inFlight := by
  have hzero := inv_of_exec (fun w : Worker => (w.stats.sent : ℤ) - w.stats.acked - w.inFlight = 0)
    hexec (fun w e w' h hnext => (balance_step hnext).trans h) rfl
  omega

/-- **A worker counts no more acknowledgements than orders.** -/
theorem acked_le_sent (hexec : exec (step c) .new es = some w) : w.stats.acked ≤ w.stats.sent := by
  have hout : 0 ≤ w.inFlight := by
    refine List.sum_nonneg (fun x hx => ?_)
    obtain ⟨ph, hph, rfl⟩ := List.mem_map.mp hx
    refine List.sum_nonneg (fun y hy => ?_)
    obtain ⟨b, hb, rfl⟩ := List.mem_map.mp hy
    -- a bot has as many orders outstanding as it has send times
    obtain ⟨mode, as, m, hm, rfl⟩ := exists_account hexec ph hph b hb
    rw [(Account.acks_accounted c.wire c.scaled mode c.window as hm).2.1]
    exact Int.natCast_nonneg _
  have hbalance := balance hexec
  omega

/-- The baselines after a step are those before, or what is counted then. -/
theorem last_of_step (hnext : w.step c e = some w') : ∀ last ∈ w'.last, last ∈ w.last
    ∨ last.sent = w'.stats.sent ∧ last.acked = w'.stats.acked := by
  have hhead : ∀ {ph : Phase} {phs : List Phase} {v : Worker}, v.phases = ph :: phs →
      v.last = ph.reporter.last := fun {ph phs v} hphs => by
    unfold last
    rw [hphs]
    rfl
  intro last hlast
  cases steps_of_step hnext with
  | tick | probed | warm | finish => exact Or.inl hlast
  | begins => cases hlast
  | main todo ph ph' phs hstage hphs hmain =>
    rw [hhead rfl, (reporter_mainStep hmain).1, ← hhead hphs] at hlast
    exact Or.inl hlast
  | report todo ph ph' phs rec hstage hphs hrep =>
    rw [hhead rfl] at hlast
    rw [hhead hphs]
    cases Phase.steps_of_reporterStep hrep with
    -- The baseline is what the counters show when the reporter begins.
    | looks hrep =>
      cases hlast
      exact Or.inr ⟨rfl, rfl⟩
    | ends => cases hlast
    | sleeps before htesting =>
      cases hlast
      rw [htesting]
      exact Or.inl rfl
    | flushes before t hasleep =>
      cases hlast
      exact Or.inr (flush_counters ph.tag before w.stats)
  | bot todo p i e ph b b' t hstage hph hb hbot =>
    have hsame : Worker.last { w with
        phases := w.phases.set p { ph with bots := ph.bots.set i b' }
        stats := w.stats.add t } = w.last :=
      congrArg (Option.bind · Reporter.last) (map_head?_set hph rfl)
    exact Or.inl (hsame ▸ hlast)

/-- Nor had it when its reporter looked last. -/
theorem last_acked_le_sent (hexec : exec (step c) .new es = some w) :
    ∀ last ∈ w.last, last.acked ≤ last.sent := by
  have hpast : exec (step c) .new ([] ++ es) = some w ∧ ∀ last ∈ w.last, last.acked ≤ last.sent := by
    refine inv_of_exec_past (fun past w => exec (step c) .new past = some w
      ∧ ∀ last ∈ w.last, last.acked ≤ last.sent) [] hexec
      (fun past w e w' _ h hnext => ⟨exec_concat h.1 hnext, fun last hlast => ?_⟩) ⟨rfl, nofun⟩
    have hstats := acked_le_sent (exec_concat h.1 hnext)
    rcases last_of_step hnext last hlast with hold | ⟨hsent, hacked⟩
    · exact h.2 last hold
    · rw [hsent, hacked]
      exact hstats
  exact hpast.2

/-! ## What was transmitted

A record holds what was counted between two looks of a reporter. If every send
is seen by one, no acknowledgement is transmitted before its order. -/

/-- **Every order is sent under the eyes of a reporter**: none is fired before
the phase's reporter has read its baselines, or after it has found the stop
event set. -/
def SendsReported (w : Worker) (e : Event) : Prop :=
  EachBot (fun _ b e => b.sends e = true → w.Watched) w e

instance (w : Worker) (e : Event) : Decidable (SendsReported w e) :=
  inferInstanceAs (Decidable (EachBot _ w e))

/-- Then no order is missed. -/
theorem missed_sent (h : SendsReported w e) (hnext : w.step c e = some w') :
    missed c .sent w e = 0 := by
  unfold missed
  split_ifs with hwatched
  · rfl
  · cases steps_of_step hnext with
    | bot todo p i e ph b b' t hstage hph hb hbot =>
      rw [tally_bot hph hb hbot]
      have hnot : t ≠ .sent := fun ht =>
        hwatched (h ph hph b hb ((Bot.sends_iff hbot).mpr ht))
      cases t with
      | sent => exact absurd rfl hnot
      | nothing | acked | error => rfl
    | _ => rfl

/-- **The records acknowledge no more orders than they report sent**, as long
as every order is sent under the eyes of a reporter. -/
theorem acked_records_le_sent (hexec : exec (step c) .new es = some w)
    (hsends : Along (step c) SendsReported .new es) :
    (w.records.map (·.get .acked)).sum ≤ (w.records.map (·.get .sent)).sum := by
  have hstep : ∀ col w e w', Kept c w → w.step c e = some w' →
      Kept c w' ∧ short col w' = short col w + missed c col w e :=
    fun col w e w' h hnext => ⟨(h.step hnext).1, (h.step hnext).2 col⟩
  obtain ⟨-, hacked⟩ := total_of_exec (Kept c) (short .acked) (missed c .acked) hexec
    (hstep .acked) (kept_new c)
  obtain ⟨-, hsent⟩ := total_of_exec (Kept c) (short .sent) (missed c .sent) hexec
    (hstep .sent) (kept_new c)
  have hnone : total (step c) (missed c .sent) .new es = 0 :=
    (total_eq_zero_iff hexec).mpr (along_of_inv (fun _ => True) hexec
      (fun w e w' _ h hnext => ⟨trivial, missed_sent h hnext⟩) trivial hsends)
  have hbaseline : w.baseline.get .acked ≤ w.baseline.get .sent := by
    unfold baseline
    split
    · exact le_rfl
    · cases hlast : w.last with
      | none => exact acked_le_sent hexec
      | some last => exact last_acked_le_sent hexec last hlast
  rw [hnone] at hsent
  have hnew : ∀ col, short col .new = 0 := fun col => by cases col <;> rfl
  rw [hnew] at hacked hsent
  unfold short at hacked hsent
  omega

end Worker

end Fleet
