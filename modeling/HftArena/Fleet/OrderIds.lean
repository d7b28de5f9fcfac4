import Mathlib.Data.List.Range
import HftArena.Fleet.Window

/-!
# The ids of a run's orders

Every bot draws a number, starts from a thousand times it, and counts upward
for as long as it sends. A `Swarm` is all the bots of a run – of all workers
and all phases, since the orders of all of them rest on one book – each with
what it drew and the ids of its orders. The draws are independent, and nothing
bounds the count, so two bots can use one id: they do exactly if the intervals
of their ids overlap (`ids_disjoint_iff`).

The two ways to share ids are to draw the same number, and to send more than a
thousand orders after drawing the number next to another's. Both can happen,
and neither is likely; here only what follows from the draws is of interest.

The bots of workers that run `run_load` are such bots (`Swarm.exists_exec`).
-/

open Wire

namespace Fleet

/-- What `random.randint(1, 10_000_000)` gives. -/
abbrev Draw := { d : ℕ // 1 ≤ d ∧ d ≤ 10000000 }

/-- The number from which a bot counts its ids. -/
def idBase (d : Draw) : ℤ := (d : ℕ) * 1000

/-! ## One bot

It draws a base when it connects, and counts up from there. -/

/-- **A bot with the ids it has used.** The bot itself knows only the last
one. -/
structure NumberedBot where
  bot : Bot
  /-- What it drew, once it is connected. -/
  draw : Option Draw
  used : List ℤ

/-- How many orders it has sent. -/
def NumberedBot.orders (m : NumberedBot) : ℕ := m.used.length

/-- **What can happen to it**: it connects, with what it draws, or takes
another step. -/
inductive NumberedEvent where
  | connect (env : Env) (ok : Bool) (draw : Draw)
  | step (env : Env) (e : BotEvent)

/-- Whether the event is a connection that is made or not. -/
def BotEvent.connects : BotEvent → Bool
  | .connect _ _ => true
  | _ => false

/-- **A step of a bot**, with the id of the order if one is sent. -/
def NumberedBot.step (wire : Wire.Mode) (scaled : ℚ → ℤ) (m : NumberedBot) : NumberedEvent
    → Option NumberedBot
  | .connect env ok d =>
    (m.bot.step wire scaled env (.connect ok (idBase d))).map (fun r =>
      { m with bot := r.1, draw := if ok then some d else m.draw })
  | .step env e =>
    if e.connects then none
    else (m.bot.step wire scaled env e).map (fun r =>
      { m with bot := r.1, used := if r.2 = .sent then m.used ++ [r.1.oid] else m.used })

/-- **What two bots have to keep** for their ids to differ: the ids of the one
end before those of the other begin. A bot that has sent nothing keeps it with
any other. -/
def NumberedBot.Apart (m m' : NumberedBot) : Prop :=
  ∀ d ∈ m.draw, ∀ d' ∈ m'.draw, m.orders = 0 ∨ m'.orders = 0
    ∨ idBase d + m.orders ≤ idBase d' ∨ idBase d' + m'.orders ≤ idBase d

/-- **What holds of every bot**: before it is connected it has used no id, and
then the ones that follow its base. -/
structure NumberedBot.WF (m : NumberedBot) : Prop where
  connecting : m.bot.sender = .connecting → m.draw = none
  idle : m.draw = none →
    m.used = [] ∧ (m.bot.sender = .connecting ∨ m.bot.sender = .done)
  counted : ∀ d ∈ m.draw, m.bot.oid = idBase d + m.orders
    ∧ ∀ x, x ∈ m.used ↔ idBase d < x ∧ x ≤ idBase d + m.orders

/-- A bot that was just created has drawn nothing and used nothing. -/
theorem NumberedBot.wf_new (mode : BotMode) (window : ℕ) :
    NumberedBot.WF ⟨.new mode window, none, []⟩ :=
  ⟨fun _ => rfl, fun _ => ⟨rfl, Or.inl rfl⟩, fun d hd => by cases hd⟩

/-! ### What a step does to the count

It goes up by one with an order that is sent, and with nothing else. -/

/-- A bot that goes on to the next order has connected. -/
theorem Bot.rest_ne_connecting (n : ℕ) : Bot.rest n ≠ .connecting := by
  unfold Bot.rest
  split_ifs <;> exact Sender.noConfusion

/-- **Only an order counts**, and it is sent by a bot that is connected and has
not ended. -/
theorem Bot.oid_of_step {wire : Wire.Mode} {scaled : ℚ → ℤ} {env : Env} {b b' : Bot} {e : BotEvent}
    {t : Tally} (he : e.connects = false) (h : b.step wire scaled env e = some (b', t)) :
    (t = .sent ∧ b'.oid = b.oid + 1 ∧ b.sender ≠ .connecting ∧ b.sender ≠ .done
        ∧ b'.sender ≠ .connecting)
      ∨ (t ≠ .sent ∧ b'.oid = b.oid ∧ (b'.sender = .connecting → b.sender = .connecting)
        ∧ (b.sender = .connecting ∨ b.sender = .done → b'.sender = b.sender)) := by
  -- a step that moves the sender finds it neither connecting nor at its end
  have hmoves : ∀ {s s' : Sender}, s ≠ .connecting → s ≠ .done → s' ≠ .connecting →
      (s' = .connecting → s = .connecting) ∧ (s = .connecting ∨ s = .done → s' = s) :=
    fun hc hd hc' => ⟨fun h => absurd h hc', fun h => (h.elim hc hd).elim⟩
  cases Bot.steps_of_step h with
  | connected oid hs => cases he
  | refused oid hs => cases he
  | leaves hs => exact Or.inr ⟨by simp, rfl, hmoves (by simp [hs]) (by simp [hs]) (by simp)⟩
  | takes hs => exact Or.inr ⟨by simp, rfl, hmoves (by simp [hs]) (by simp [hs]) (by simp)⟩
  | waits hs => exact Or.inr ⟨by simp, rfl, hmoves (by simp [hs]) (by simp [hs]) (by simp)⟩
  | early hs => exact Or.inr ⟨by simp, rfl, hmoves (by simp [hs]) (by simp [hs]) (by simp)⟩
  | behind hs =>
    exact Or.inr ⟨by simp, rfl, hmoves (by simp [hs]) (by simp [hs]) (rest_ne_connecting _)⟩
  | late hs =>
    exact Or.inr ⟨by simp, rfl, hmoves (by simp [hs]) (by simp [hs]) (rest_ne_connecting _)⟩
  | acquires hs => exact Or.inr ⟨by simp, rfl, hmoves (by simp [hs]) (by simp [hs]) (by simp)⟩
  | paced t hs =>
    exact Or.inr ⟨by simp, rfl, hmoves (by simp [hs]) (by simp [hs]) (rest_ne_connecting _)⟩
  | drained t hs => exact Or.inr ⟨by simp, rfl, hmoves (by simp [hs]) (by simp [hs]) (by simp)⟩
  | saturated n ns hs => exact Or.inr ⟨by simp, rfl, hmoves (by simp [hs]) (by simp [hs]) (by simp)⟩
  | fires n ns hs => exact Or.inl ⟨rfl, rfl, by simp [hs], by simp [hs], by simp⟩
  | sent n hs =>
    exact Or.inr ⟨by simp, rfl, hmoves (by simp [hs]) (by simp [hs]) (rest_ne_connecting _)⟩
  | fails n hs =>
    exact Or.inr ⟨by simp, oid_release, hmoves (by simp [hs]) (by simp [hs]) (by simp)⟩
  | acked => exact Or.inr ⟨by simp, oid_release, by simp, by simp⟩
  | unknown => exact Or.inr ⟨by simp, oid_release, by simp, by simp⟩
  | ignores | raises | hangsUp | arrives | drops => exact Or.inr ⟨by simp, rfl, id, fun _ => rfl⟩

/-- **Every step keeps the count**: an order takes the id after the last, and
nothing else changes the count once the bot is connected. -/
theorem NumberedBot.WF.step {wire : Wire.Mode} {scaled : ℚ → ℤ} {m m' : NumberedBot}
    {e : NumberedEvent}
    (h : m.WF) (hstep : m.step wire scaled e = some m') : m'.WF := by
  cases e with
  | connect env ok d =>
    obtain ⟨⟨b', t⟩, hb', rfl⟩ := Option.map_eq_some_iff.mp hstep
    cases Bot.steps_of_step hb' with
    | connected oid hs =>
      have hused : m.used = [] := (h.idle (h.connecting hs)).1
      refine ⟨fun hc => by simp at hc, fun hnone => by simp at hnone, fun d' hd' => ?_⟩
      cases hd'
      show idBase d = idBase d + m.used.length
        ∧ ∀ x, x ∈ m.used ↔ idBase d < x ∧ x ≤ idBase d + m.used.length
      rw [hused]
      refine ⟨by simp, fun x => iff_of_false List.not_mem_nil (fun hx => ?_)⟩
      simp only [List.length_nil] at hx
      omega
    | refused oid hs =>
      have hdraw := h.connecting hs
      exact ⟨fun hc => by simp at hc, fun _ => ⟨(h.idle hdraw).1, Or.inr rfl⟩,
        fun d' hd' => absurd hd' (by simp [hdraw])⟩
  | step env e =>
    rw [NumberedBot.step] at hstep
    split_ifs at hstep with he
    obtain ⟨⟨b', t⟩, hb', rfl⟩ := Option.map_eq_some_iff.mp hstep
    rcases Bot.oid_of_step (Bool.eq_false_of_not_eq_true he) hb' with
      ⟨rfl, hoid, hc, hd, hc'⟩ | ⟨ht, hoid, hc, hkeep⟩
    · refine ⟨fun h' => absurd h' hc', fun hnone => ?_, fun d hd' => ?_⟩
      · exact ((h.idle hnone).2.elim hc hd).elim
      · obtain ⟨hcount, hmem⟩ := h.counted d hd'
        show b'.oid = idBase d + (m.used ++ [b'.oid]).length
          ∧ ∀ x, x ∈ m.used ++ [b'.oid] ↔ idBase d < x ∧ x ≤ idBase d + (m.used ++ [b'.oid]).length
        rw [hoid, hcount, List.length_append, List.length_singleton]
        unfold NumberedBot.orders at *
        refine ⟨by omega, fun x => ?_⟩
        rw [List.mem_append, List.mem_singleton, hmem]
        omega
    · -- A step that sends no order uses no id.
      have hused : (if t = .sent then m.used ++ [b'.oid] else m.used) = m.used := if_neg ht
      refine ⟨fun h' => h.connecting (hc h'), fun hnone => ?_, fun d hd' => ?_⟩
      · obtain ⟨hnil, hend⟩ := h.idle hnone
        dsimp only
        rw [hused, hkeep hend]
        exact ⟨hnil, hend⟩
      · obtain ⟨hcount, hmem⟩ := h.counted d hd'
        unfold NumberedBot.orders at *
        dsimp only
        rw [hused, hoid]
        exact ⟨hcount, hmem⟩

/-- **Two bots share no id exactly if their intervals do not overlap.** -/
theorem NumberedBot.WF.disjoint_iff {m m' : NumberedBot} (h : m.WF) (h' : m'.WF) :
    (∀ x ∈ m.used, x ∉ m'.used) ↔ m.Apart m' := by
  constructor
  · intro hdisjoint d hd d' hd'
    obtain ⟨-, hmem⟩ := h.counted d hd
    obtain ⟨-, hmem'⟩ := h'.counted d' hd'
    by_contra hoverlap
    -- the first id after both bases
    have hx : max (idBase d) (idBase d') + 1 ∈ m.used := (hmem _).mpr (by omega)
    exact hdisjoint _ hx ((hmem' _).mpr (by omega))
  · intro hapart x hx hx'
    have hdraw : ∀ {m : NumberedBot}, m.WF → x ∈ m.used → ∃ d, d ∈ m.draw := fun {m} h hx => by
      cases hdraw : m.draw with
      | none =>
        rw [(h.idle hdraw).1] at hx
        exact absurd hx List.not_mem_nil
      | some d => exact ⟨d, rfl⟩
    obtain ⟨d, hd⟩ := hdraw h hx
    obtain ⟨d', hd'⟩ := hdraw h' hx'
    have hin := ((h.counted d hd).2 x).mp hx
    have hin' := ((h'.counted d' hd').2 x).mp hx'
    rcases hapart d hd d' hd' with h0 | h0 | hle | hle <;> omega

/-! ## All bots of a run

Bots that draw independently, from which any two are compared by their bases
and by how many orders they have sent. -/

/-- **The bots of a run**, each under a name of its own: worker, phase and
number, say. -/
abbrev Swarm (κ : Type) := κ → Option NumberedBot

/-- **What can happen in a run**: a task is created for a bot, or a bot takes a
step. -/
inductive SwarmEvent (κ : Type) where
  | start (i : κ) (mode : BotMode) (window : ℕ)
  | member (i : κ) (e : NumberedEvent)

namespace Swarm

variable {κ : Type} [DecidableEq κ]

/-- No bot yet. -/
def empty : Swarm κ := fun _ => none

/-- **A step of a run.** -/
def step (wire : Wire.Mode) (scaled : ℚ → ℤ) (s : Swarm κ) : SwarmEvent κ → Option (Swarm κ)
  | .start i mode window =>
    match s i with
    | none => some (Function.update s i (some ⟨.new mode window, none, []⟩))
    | some _ => none
  | .member i e =>
    (s i).bind (fun m => (m.step wire scaled e).map (fun m' => Function.update s i (some m')))

/-- What holds of every bot. -/
def WF (s : Swarm κ) : Prop := ∀ i, ∀ m ∈ s i, m.WF

/-- A bot that is replaced leaves the others as they are. -/
theorem WF.update {s : Swarm κ} (h : WF s) (i : κ) {m : NumberedBot} (hm : m.WF) :
    WF (Function.update s i (some m)) := by
  intro j m' hm'
  by_cases hj : j = i
  · subst hj
    rw [Function.update_self] at hm'
    cases hm'
    exact hm
  · rw [Function.update_of_ne hj] at hm'
    exact h j m' hm'

/-- It holds after every step of the run. -/
theorem WF.step {wire : Wire.Mode} {scaled : ℚ → ℤ} {s s' : Swarm κ} {e : SwarmEvent κ}
    (h : WF s) (hstep : s.step wire scaled e = some s') : WF s' := by
  cases e with
  | start i mode window =>
    rw [Swarm.step] at hstep
    split at hstep
    · cases hstep
      exact h.update i (NumberedBot.wf_new mode window)
    · cases hstep
  | member i e =>
    obtain ⟨m, hm, hstep⟩ := Option.bind_eq_some_iff.mp hstep
    obtain ⟨m', hm', rfl⟩ := Option.map_eq_some_iff.mp hstep
    exact h.update i ((h i m hm).step hm')

/-- It holds of every bot of a run. -/
theorem wf_of_exec {wire : Wire.Mode} {scaled : ℚ → ℤ} {s : Swarm κ} {es : List (SwarmEvent κ)}
    (h : exec (Swarm.step wire scaled) empty es = some s) : WF s :=
  inv_of_exec WF h (fun _ _ _ hs hstep => hs.step hstep) (fun i m hm => by cases hm)

/-- **Bots use disjoint ids exactly if what they drew is far enough apart** for
what they send: in every state of every run no id is used by two bots, if and
only if for any two of them, that both sent an order, the ids of the one end
before those of the other begin. -/
theorem ids_disjoint_iff (wire : Wire.Mode) (scaled : ℚ → ℤ) (es : List (SwarmEvent κ))
    {s : Swarm κ} (h : exec (Swarm.step wire scaled) empty es = some s) :
    (∀ i j, i ≠ j → ∀ m ∈ s i, ∀ m' ∈ s j, ∀ x ∈ m.used, x ∉ m'.used)
      ↔ ∀ i j, i ≠ j → ∀ m ∈ s i, ∀ m' ∈ s j, m.Apart m' := by
  have hwf := wf_of_exec h
  exact forall₅_congr (fun i j hij m hm => forall₂_congr (fun m' hm' =>
    (hwf i m hm).disjoint_iff (hwf j m' hm')))

/-- Two bots that connect and send one order each. -/
def oneOrderEach (d d' : Draw) : List (SwarmEvent ℕ) :=
  let env : Env := ⟨false, 0, 9, 1, 1⟩
  [.start 0 .closed 1, .start 1 .closed 1, .member 0 (.connect env true d),
    .member 1 (.connect env true d'), .member 0 (.step env .test), .member 0 (.step env (.fire 0)),
    .member 1 (.step env .test), .member 1 (.step env (.fire 0))]

/-- Two bots that draw 1 and 2. -/
theorem ids_disjoint_iff_of_two_draws :
    ∃ s : Swarm ℕ, exec (Swarm.step .binary (fun _ => 0)) empty
        (oneOrderEach ⟨1, by decide⟩ ⟨2, by decide⟩) = some s
      ∧ ((∀ i j, i ≠ j → ∀ m ∈ s i, ∀ m' ∈ s j, ∀ x ∈ m.used, x ∉ m'.used)
        ↔ ∀ i j, i ≠ j → ∀ m ∈ s i, ∀ m' ∈ s j, m.Apart m') :=
  ⟨_, rfl, ids_disjoint_iff .binary (fun _ => 0) (oneOrderEach ⟨1, by decide⟩ ⟨2, by decide⟩) rfl⟩

/-- Two bots that both draw 1 send their first order under the id 1001. -/
theorem ids_shared_by_two_bots :
    ∃ s : Swarm ℕ, exec (Swarm.step .binary (fun _ => 0)) empty
        (oneOrderEach ⟨1, by decide⟩ ⟨1, by decide⟩) = some s
      ∧ ¬ ∀ i j, i ≠ j → ∀ m ∈ s i, ∀ m' ∈ s j, ∀ x ∈ m.used, x ∉ m'.used :=
  ⟨_, rfl, fun h => h 0 1 (by decide) _ rfl _ rfl 1001 (by decide) (by decide)⟩

end Swarm

/-! ## The bots of workers

The bots of the phases of all workers of a run are such bots. -/

section Workers

variable {K : Type} [DecidableEq K]

/-- **The workers of a run**, each under its own name: one of them takes a
step. -/
def Workers.step (c : K → Config) (ws : K → Worker) (e : K × Event) : Option (K → Worker) :=
  ((ws e.1).step (c e.1) e.2).map (fun w => Function.update ws e.1 w)

/-- A bot of a worker: of its so-and-so-many-th phase, counted from the first,
and with its number there. -/
def Worker.botAt (w : Worker) (q i : ℕ) : Option Bot :=
  ((w.phases.map Phase.bots).reverse[q]?).bind (fun bots => bots[i]?)

/-- The swarm has the bots of all workers. -/
def Swarm.Shows (s : Swarm (K × ℕ × ℕ)) (ws : K → Worker) : Prop :=
  ∀ k q i, (s (k, q, i)).map NumberedBot.bot = (ws k).botAt q i

omit [DecidableEq K] in
/-- What leaves the bots of all phases alone leaves this one alone. -/
theorem Worker.botAt_congr {w w' : Worker} (h : w'.phases.map Phase.bots = w.phases.map Phase.bots)
    (q i : ℕ) : w'.botAt q i = w.botAt q i := by
  rw [botAt, botAt, h]

/-- The bots of a phase that begins. -/
theorem Worker.botAt_begin {w w' : Worker} {n : ℕ} {b : Bot}
    (h : w'.phases.map Phase.bots = List.replicate n b :: w.phases.map Phase.bots) (q i : ℕ) :
    w'.botAt q i = if q = w.phases.length ∧ i < n then some b else w.botAt q i := by
  have hlen : (w.phases.map Phase.bots).reverse.length = w.phases.length := by
    rw [List.length_reverse, List.length_map]
  unfold botAt
  rw [h, List.reverse_cons]
  rcases lt_trichotomy q w.phases.length with hq | rfl | hq
  · rw [List.getElem?_append_left (hlen ▸ hq), if_neg (fun h => hq.ne h.1)]
  · rw [List.getElem?_append_right hlen.le, hlen, Nat.sub_self, List.getElem?_eq_none hlen.le]
    show (List.replicate n b)[i]? = _
    rw [List.getElem?_replicate]
    simp
  · have hnew : [List.replicate n b].length ≤ q - w.phases.length := by
      rw [List.length_singleton]
      omega
    rw [List.getElem?_append_right (hlen ▸ hq.le), hlen, if_neg (fun h => hq.ne' h.1),
      List.getElem?_eq_none hnew, List.getElem?_eq_none (hlen ▸ hq.le)]

/-- The bots after one of them took a step. -/
theorem Worker.botAt_set {w w' : Worker} {p i : ℕ} {ph : Phase} {b b' : Bot}
    (hph : w.phases[p]? = some ph) (hb : ph.bots[i]? = some b)
    (h : w'.phases = w.phases.set p { ph with bots := ph.bots.set i b' }) (q j : ℕ) :
    w'.botAt q j
      = if q = w.phases.length - 1 - p ∧ j = i then some b' else w.botAt q j := by
  obtain ⟨hp, -⟩ := List.getElem?_eq_some_iff.mp hph
  obtain ⟨hi, -⟩ := List.getElem?_eq_some_iff.mp hb
  unfold botAt
  rcases lt_or_ge q w.phases.length with hq | hq
  · rw [List.getElem?_reverse (by rw [h]; simpa using hq), List.getElem?_reverse (by simpa using hq),
      h, List.length_map, List.length_map, List.length_set, List.getElem?_map, List.getElem?_map,
      List.getElem?_set]
    by_cases hqp : p = w.phases.length - 1 - q
    · rw [if_pos hqp, if_pos hp, ← hqp, hph]
      show (ph.bots.set i b')[j]? = if _ then some b' else ph.bots[j]?
      rw [List.getElem?_set]
      by_cases hj : i = j
      · rw [if_pos hj, if_pos hi, if_pos ⟨by omega, hj.symm⟩]
      · rw [if_neg hj, if_neg (fun h => hj h.2.symm)]
    · rw [if_neg hqp, if_neg (fun h => hqp (by omega))]
  · rw [List.getElem?_eq_none (by rw [h]; simpa using hq), List.getElem?_eq_none (by simpa using hq),
      if_neg (fun h => by omega)]

namespace Swarm

variable {wire : Wire.Mode} {scaled : ℚ → ℤ} {c : K → Config}

/-- Tasks are created for the bots of a phase, one after the other. -/
theorem exec_starts (s : Swarm (K × ℕ × ℕ)) (k : K) (q : ℕ) (mode : BotMode) (window n : ℕ)
    (hs : ∀ i, s (k, q, i) = none) :
    ∃ s', exec (Swarm.step wire scaled) s
        ((List.range n).map (fun i => .start (k, q, i) mode window)) = some s'
      ∧ ∀ x, s' x = if x.1 = k ∧ x.2.1 = q ∧ x.2.2 < n then some ⟨.new mode window, none, []⟩
        else s x := by
  induction n with
  | zero => exact ⟨s, rfl, fun x => by simp⟩
  | succ n ih =>
    obtain ⟨s', hs', hx⟩ := ih
    have hnone : s' (k, q, n) = none := by
      rw [hx, if_neg (by simp), hs]
    refine ⟨Function.update s' (k, q, n) (some ⟨.new mode window, none, []⟩), ?_, fun x => ?_⟩
    · rw [List.range_succ, List.map_append, exec_append, hs', Option.bind_some]
      show (Swarm.step wire scaled s' _).bind _ = _
      rw [Swarm.step, hnone]
      rfl
    · obtain ⟨k', q', i⟩ := x
      by_cases hnew : (k', q', i) = (k, q, n)
      · rw [hnew, Function.update_self, if_pos (by simp)]
      · rw [Function.update_of_ne hnew, hx]
        refine if_congr ?_ rfl rfl
        have hne : ¬ (k' = k ∧ q' = q ∧ i = n) := fun ⟨hk, hq, hi⟩ => hnew (by rw [hk, hq, hi])
        dsimp only
        constructor
        · exact fun ⟨hk, hq, hi⟩ => ⟨hk, hq, by omega⟩
        · exact fun ⟨hk, hq, hi⟩ => ⟨hk, hq, by
            have : i ≠ n := fun h => hne ⟨hk, hq, h⟩
            omega⟩

/-- A bot's step, as one of the swarm's. -/
theorem Shows.member {s : Swarm (K × ℕ × ℕ)} {x : K × ℕ × ℕ} {b b' : Bot} {env : Env} {e : BotEvent}
    {t : Tally} (hb : (s x).map NumberedBot.bot = some b)
    (hdraw : ∀ ok oid, e = .connect ok oid → ∃ d, oid = idBase d)
    (h : b.step wire scaled env e = some (b', t)) :
    ∃ e' m, m.bot = b' ∧ s.step wire scaled (.member x e') = some
      (Function.update s x (some m)) := by
  obtain ⟨m, hm, rfl⟩ := Option.map_eq_some_iff.mp hb
  by_cases he : e.connects = true
  · cases e with
    | connect ok oid =>
      obtain ⟨d, rfl⟩ := hdraw ok oid rfl
      refine ⟨.connect env ok d,
        { m with bot := b', draw := if ok then some d else m.draw }, rfl, ?_⟩
      rw [Swarm.step, hm, Option.bind_some, NumberedBot.step, h]
      rfl
    | _ => cases he
  · refine ⟨.step env e, { m with
      bot := b', used := if t = .sent then m.used ++ [b'.oid] else m.used }, rfl, ?_⟩
    rw [Swarm.step, hm, Option.bind_some, NumberedBot.step, if_neg he, h]
    rfl

/-- **A step of a worker is steps of the swarm**: one of a bot's is one, and
where a phase begins a task is created for each of its bots. -/
theorem Shows.step {s : Swarm (K × ℕ × ℕ)} {ws ws' : K → Worker} {e : K × Event} (h : s.Shows ws)
    (hc : ∀ k, (c k).wire = wire ∧ (c k).scaled = scaled)
    (hdraw : ∀ p i ok oid, e.2 = .bot p i (.connect ok oid) → ∃ d, oid = idBase d)
    (hstep : Workers.step c ws e = some ws') :
    ∃ es s', exec (Swarm.step wire scaled) s es = some s' ∧ s'.Shows ws' := by
  obtain ⟨k, e⟩ := e
  obtain ⟨w', hw', rfl⟩ := Option.map_eq_some_iff.mp hstep
  -- what another worker's bots are, and what this one's are if none of them moved
  have hother : ∀ k' q i, k' ≠ k → (Function.update ws k w' k').botAt q i = (ws k').botAt q i :=
    fun k' q i hk => by rw [Function.update_of_ne hk]
  have hsame : w'.phases.map Phase.bots = (ws k).phases.map Phase.bots →
      ∃ es s', exec (Swarm.step wire scaled) s es = some s' ∧ s'.Shows (Function.update ws k w') :=
    fun heq => ⟨[], s, rfl, fun k' q i => by
      by_cases hk : k' = k
      · subst hk
        rw [Function.update_self, h, Worker.botAt_congr heq]
      · rw [hother k' q i hk, h]⟩
  cases Worker.steps_of_step hw' with
  | tick | probed | warm | finish => exact hsame rfl
  | main todo ph ph' phs hstage hphases hmain =>
    refine hsame ?_
    have hbots : ph'.bots = ph.bots := by cases Phase.steps_of_mainStep hmain <;> rfl
    rw [hphases, List.map_cons, List.map_cons, hbots]
  | report todo ph ph' phs rec hstage hphases hrep =>
    refine hsame ?_
    have hbots : ph'.bots = ph.bots := by cases Phase.steps_of_reporterStep hrep <;> rfl
    rw [hphases, List.map_cons, List.map_cons, hbots]
  | begins spec todo hstage hidle =>
    have hbots := @Worker.botAt_begin (ws k)
      { ws k with stage := .phases todo, phases := spec.begin (c k).window (ws k).now
        :: (ws k).phases } spec.bots (.new spec.mode (c k).window) rfl
    have hnone : ∀ i, s (k, (ws k).phases.length, i) = none := fun i => by
      rw [← Option.map_eq_none_iff (f := NumberedBot.bot), h, Worker.botAt,
        List.getElem?_eq_none (by simp)]
      rfl
    obtain ⟨s', hs', hx⟩ := exec_starts s k (ws k).phases.length
      spec.mode (c k).window spec.bots hnone
    refine ⟨_, s', hs', fun k' q i => ?_⟩
    rw [hx]
    by_cases hk : k' = k
    · subst hk
      rw [Function.update_self, hbots]
      dsimp only
      split_ifs with hnew hnew' hnew'
      · rfl
      · exact absurd hnew.2 hnew'
      · exact absurd ⟨rfl, hnew'⟩ hnew
      · exact h k' q i
    · rw [hother k' q i hk, if_neg (fun hnew => hk hnew.1), h]
  | bot todo p i e ph b b' t hstage hph hb hbot =>
    have hbots := @Worker.botAt_set (ws k) { ws k with
      phases := (ws k).phases.set p { ph with bots := ph.bots.set i b' },
      stats := (ws k).stats.add t } p i ph b b' hph hb rfl
    have hp : p < (ws k).phases.length := (List.getElem?_eq_some_iff.mp hph).1
    have hhave : (s (k, (ws k).phases.length - 1 - p, i)).map NumberedBot.bot = some b := by
      rw [h, Worker.botAt, List.getElem?_reverse (by simp; omega), List.getElem?_map,
        List.length_map,
        show (ws k).phases.length - 1 - ((ws k).phases.length - 1 - p) = p by omega, hph]
      exact hb
    rw [(hc k).1, (hc k).2] at hbot
    obtain ⟨e', m, hm, hswarm⟩ := Shows.member hhave
      (fun ok oid heq => hdraw p i ok oid (by rw [heq])) hbot
    refine ⟨[.member _ e'], _, by rw [exec, hswarm]; rfl, fun k' q j => ?_⟩
    by_cases hk : k' = k
    · subst hk
      rw [Function.update_self, hbots]
      by_cases hit : q = (ws k').phases.length - 1 - p ∧ j = i
      · rw [if_pos hit, hit.1, hit.2, Function.update_self]
        exact congrArg some hm
      · rw [if_neg hit, Function.update_of_ne, h]
        exact fun heq => hit ⟨congrArg (fun x => x.2.1) heq, congrArg (fun x => x.2.2) heq⟩
    · rw [hother k' q j hk, Function.update_of_ne, h]
      exact fun heq => hk (congrArg (fun x => x.1) heq)

/-- **The bots of the workers of a run are a swarm**: whatever workers do that
run `run_load` with what their bots draw, the bots of all their phases are what
a swarm comes to. -/
theorem exists_exec (hc : ∀ k, (c k).wire = wire ∧ (c k).scaled = scaled) {es : List (K × Event)}
    (hdraw : ∀ x ∈ es, ∀ p i ok oid, x.2 = .bot p i (.connect ok oid) → ∃ d, oid = idBase d)
    {ws : K → Worker} (h : exec (Workers.step c) (fun _ => .new) es = some ws) :
    ∃ ses s, exec (Swarm.step wire scaled) empty ses = some s ∧ s.Shows ws := by
  refine inv_of_exec_past (fun _ ws => ∃ ses s, exec (Swarm.step wire scaled) empty ses = some s
    ∧ s.Shows ws) [] h (fun _ ws x ws' hx ⟨ses, s, hs, hshows⟩ hstep => ?_)
    ⟨[], empty, rfl, fun k q i => rfl⟩
  obtain ⟨ses', s', hs', hshows'⟩ := hshows.step hc (hdraw x hx) hstep
  exact ⟨ses ++ ses', s', by rw [exec_append, hs]; exact hs', hshows'⟩

end Swarm

end Workers

end Fleet
