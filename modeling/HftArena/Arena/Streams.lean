import HftArena.Arena.World

/-!
# The command streams

Over gRPC the workers get their commands from the `ControlServicer`: each has a
`Subscribe` call, for which the servicer keeps a queue, and `broadcast` puts a
command into every queue. A call can break at any moment, with commands in its
queue and under way, and the worker makes another one; the queue of the broken
call stays among the others until the servicer has noticed.

In the world of the arena a worker has a mailbox instead, which is empty while
the worker is not subscribed. A mailbox is what a stream is
(`Servicer.Simulates`), and the world does with its mailboxes what can be done
with one (`World.mails_step`). What a worker gets, in the end, are commands
that were broadcast, in their order and none twice; and of those that were
broadcast since it subscribed, all, if it waits (`Servicer.delivers`).

A mailbox holds what is under way and what is queued, and nothing of the calls
that are broken: no worker reads from these any more.
-/

open Orchestrator

namespace Arena

variable {α : Type}

/-! ## Mailboxes

What a stream of commands is for: whoever subscribes has a box, into which
every command is put, and takes the commands out in order. -/

/-- **A mailbox**: whether anybody is subscribed, and what has come and was not
given yet. -/
structure Mail (α : Type) where
  subscribed : Bool
  commands : List α

/-- What can be done with mailboxes: a command is sent to all, and one of them
is subscribed to, gives a command, or is dropped. -/
inductive MailEvent (α : Type) where
  | send (cmd : α)
  | subscribe (i : ℕ)
  | deliver (i : ℕ) (cmd : α)
  | drop (i : ℕ)

namespace Mail

def new : Mail α := ⟨false, []⟩

/-- A command comes, for whoever is subscribed. -/
def put (cmd : α) (m : Mail α) : Mail α :=
  if m.subscribed then { m with commands := m.commands ++ [cmd] } else m

/-- **What can be done with mailboxes.** -/
inductive Steps (ms : List (Mail α)) : MailEvent α → List (Mail α) → Prop where
  | send (cmd : α) : Steps ms (.send cmd) (ms.map (put cmd))
  | subscribe (i : ℕ) (m : Mail α) : ms[i]? = some m →
    Steps ms (.subscribe i) (ms.set i { m with subscribed := true })
  | deliver (i : ℕ) (m : Mail α) (cmd : α) (cmds : List α) : ms[i]? = some m →
    m.commands = cmd :: cmds → Steps ms (.deliver i cmd) (ms.set i { m with commands := cmds })
  | drop (i : ℕ) (m : Mail α) : ms[i]? = some m → Steps ms (.drop i) (ms.set i new)

/-- Any number of steps. -/
inductive Run (ms : List (Mail α)) : List (MailEvent α) → List (Mail α) → Prop where
  | nil : Run ms [] ms
  | concat {es : List (MailEvent α)} {ms' ms'' : List (Mail α)} {e : MailEvent α} :
    Run ms es ms' → Steps ms' e ms'' → Run ms (es ++ [e]) ms''

/-- One run after another is a run. -/
theorem Run.append {ms ms' ms'' : List (Mail α)} {es es' : List (MailEvent α)}
    (h : Run ms es ms') (h' : Run ms' es' ms'') : Run ms (es ++ es') ms'' := by
  induction h' with
  | nil => rwa [List.append_nil]
  | concat _ hstep ih =>
    rw [← List.append_assoc]
    exact ih.concat hstep

/-- A step is a run. -/
theorem Run.single {ms ms' : List (Mail α)} {e : MailEvent α} (h : Steps ms e ms') :
    Run ms [e] ms' := by
  show Run ms ([] ++ [e]) ms'
  exact Run.nil.concat h

end Mail

/-- What was sent. -/
def MailEvent.sent : MailEvent α → Option α
  | .send cmd => some cmd
  | _ => none

/-- What a mailbox has given. -/
def MailEvent.given (i : ℕ) : MailEvent α → Option α
  | .deliver j cmd => if j = i then some cmd else none
  | _ => none

/-- An event that does not count adds nothing, -/
theorem filterMap_concat_of_none {β : Type} {f : α → Option β} {a : α} (h : f a = none)
    (as : List α) : (as ++ [a]).filterMap f = as.filterMap f := by
  rw [List.filterMap_append, List.filterMap_cons_none h, List.filterMap_nil, List.append_nil]

/-- and one that counts adds what it counts. -/
theorem filterMap_concat_of_some {β : Type} {f : α → Option β} {a : α} {b : β} (h : f a = some b)
    (as : List α) : (as ++ [a]).filterMap f = as.filterMap f ++ [b] := by
  rw [List.filterMap_append, List.filterMap_cons_some h, List.filterMap_nil]

/-! ## `ControlServicer`

What the code does instead: a queue for every call, which is added when the
call reaches the servicer, and the stream between the queue and the worker. -/

/-- **A call of `Subscribe`**, from its start on: it is not in `_subs` before
it runs. -/
structure Call (α : Type) where
  /-- How much had been broadcast when its queue was added to `_subs`. -/
  since : Option ℕ
  /-- `q` -/
  queue : List α
  /-- What it has yielded that is still under way. -/
  transit : List α

/-- A worker, in `_control_grpc`: it reads from one call at a time, and makes
another when that breaks. -/
structure Client (α : Type) where
  /-- The call that it reads from. -/
  call : Option (Call α)
  /-- What it has dispatched. -/
  received : List α

/-- **The servicer and its workers**, with everything that was broadcast so
far. -/
structure Servicer (α : Type) where
  broadcasted : List α
  clients : List (Client α)
  /-- The calls that are broken, and whose queues have not been discarded
  yet. -/
  orphans : List (Call α)

/-- **What can happen**: steps of the workers, of the calls, and of the
connections between them. -/
inductive ServicerEvent (α : Type) where
  /-- A worker makes a call. -/
  | connect (i : ℕ)
  /-- The call of a worker begins to run: its queue is added to `_subs`. -/
  | subscribe (i : ℕ)
  | broadcast (cmd : α)
  /-- The call of a worker gets a command from its queue, and yields it. -/
  | yield (i : ℕ)
  /-- A worker reads a command. -/
  | receive (i : ℕ)
  /-- The call of a worker breaks. -/
  | drop (i : ℕ)
  /-- `finally`: the queue of a broken call is discarded. -/
  | discard (j : ℕ)

/-- `q.put_nowait(cmd)`, for a queue in `_subs`. -/
def Call.put (cmd : α) (c : Call α) : Call α :=
  if c.since.isSome then { c with queue := c.queue ++ [cmd] } else c

namespace Servicer

def new (n : ℕ) : Servicer α := ⟨[], List.replicate n ⟨none, []⟩, []⟩

/-- A worker and its call. -/
def reading (s : Servicer α) (i : ℕ) : Option (Client α × Call α) :=
  s.clients[i]?.bind (fun w => w.call.map (fun c => (w, c)))

/-- The worker whose call is another one now. -/
def put (s : Servicer α) (i : ℕ) (w : Client α) : Servicer α :=
  { s with clients := s.clients.set i w }

/-- **A step.** -/
def step (s : Servicer α) : ServicerEvent α → Option (Servicer α)
  | .connect i =>
    s.clients[i]?.bind (fun w =>
      if w.call.isNone then some (s.put i { w with call := some ⟨none, [], []⟩ }) else none)
  | .subscribe i =>
    (s.reading i).bind (fun (w, c) =>
      if c.since.isNone then
        some (s.put i { w with call := some { c with since := some s.broadcasted.length } })
      else none)
  | .broadcast cmd =>
    some
      { broadcasted := s.broadcasted ++ [cmd]
        clients := s.clients.map (fun w => { w with call := w.call.map (.put cmd) })
        orphans := s.orphans.map (.put cmd) }
  | .yield i =>
    (s.reading i).bind (fun (w, c) =>
      match c.queue with
      | cmd :: q => some (s.put i { w with call := some ⟨c.since, q, c.transit ++ [cmd]⟩ })
      | [] => none)
  | .receive i =>
    (s.reading i).bind (fun (w, c) =>
      match c.transit with
      | cmd :: rest => some (s.put i ⟨some { c with transit := rest }, w.received ++ [cmd]⟩)
      | [] => none)
  | .drop i =>
    (s.reading i).map (fun (w, c) =>
      { s.put i { w with call := none } with orphans := s.orphans ++ [c] })
  | .discard j =>
    if j < s.orphans.length then some { s with orphans := s.orphans.eraseIdx j } else none

/-- **What a step does.** -/
inductive Steps (s : Servicer α) : ServicerEvent α → Servicer α → Prop where
  | connect (i : ℕ) (w : Client α) : s.clients[i]? = some w → w.call = none →
    Steps s (.connect i) (s.put i { w with call := some ⟨none, [], []⟩ })
  | subscribe (i : ℕ) (w : Client α) (c : Call α) : s.clients[i]? = some w → w.call = some c →
    c.since = none → Steps s (.subscribe i)
      (s.put i { w with call := some { c with since := some s.broadcasted.length } })
  | broadcast (cmd : α) : Steps s (.broadcast cmd)
    { broadcasted := s.broadcasted ++ [cmd]
      clients := s.clients.map (fun w => { w with call := w.call.map (.put cmd) })
      orphans := s.orphans.map (.put cmd) }
  | yield (i : ℕ) (w : Client α) (c : Call α) (cmd : α) (q : List α) : s.clients[i]? = some w →
    w.call = some c → c.queue = cmd :: q →
    Steps s (.yield i) (s.put i { w with call := some ⟨c.since, q, c.transit ++ [cmd]⟩ })
  | receive (i : ℕ) (w : Client α) (c : Call α) (cmd : α) (rest : List α) :
    s.clients[i]? = some w → w.call = some c → c.transit = cmd :: rest →
    Steps s (.receive i) (s.put i ⟨some { c with transit := rest }, w.received ++ [cmd]⟩)
  | drop (i : ℕ) (w : Client α) (c : Call α) : s.clients[i]? = some w → w.call = some c →
    Steps s (.drop i) { s.put i { w with call := none } with orphans := s.orphans ++ [c] }
  | discard (j : ℕ) : Steps s (.discard j) { s with orphans := s.orphans.eraseIdx j }

/-- There is such a worker, and it has such a call. -/
theorem reading_eq_some {s : Servicer α} {i : ℕ} {w : Client α} {c : Call α} :
    s.reading i = some (w, c) ↔ s.clients[i]? = some w ∧ w.call = some c := by
  unfold reading
  constructor
  · intro h
    obtain ⟨w', hw, h⟩ := Option.bind_eq_some_iff.mp h
    obtain ⟨c', hc, h⟩ := Option.map_eq_some_iff.mp h
    cases h
    exact ⟨hw, hc⟩
  · rintro ⟨hw, hc⟩
    rw [hw, Option.bind_some, hc]
    rfl

/-- **A step does one of these.** -/
theorem steps_of_step {s s' : Servicer α} {e : ServicerEvent α} (h : s.step e = some s') :
    Steps s e s' := by
  cases e with
  | connect i =>
    obtain ⟨w, hw, h⟩ := Option.bind_eq_some_iff.mp h
    obtain ⟨hnone, h⟩ := Option.ite_none_right_eq_some.mp h
    cases h
    exact .connect i w hw (Option.isNone_iff_eq_none.mp hnone)
  | subscribe i =>
    obtain ⟨⟨w, c⟩, hread, h⟩ := Option.bind_eq_some_iff.mp h
    obtain ⟨hw, hc⟩ := reading_eq_some.mp hread
    obtain ⟨hnone, h⟩ := Option.ite_none_right_eq_some.mp h
    cases h
    exact .subscribe i w c hw hc (Option.isNone_iff_eq_none.mp hnone)
  | broadcast cmd =>
    cases h
    exact .broadcast cmd
  | yield i =>
    obtain ⟨⟨w, c⟩, hread, h⟩ := Option.bind_eq_some_iff.mp h
    obtain ⟨hw, hc⟩ := reading_eq_some.mp hread
    dsimp only at h
    split at h
    next cmd q hq =>
      cases h
      exact .yield i w c cmd q hw hc hq
    next => cases h
  | receive i =>
    obtain ⟨⟨w, c⟩, hread, h⟩ := Option.bind_eq_some_iff.mp h
    obtain ⟨hw, hc⟩ := reading_eq_some.mp hread
    dsimp only at h
    split at h
    next cmd rest hrest =>
      cases h
      exact .receive i w c cmd rest hw hc hrest
    next => cases h
  | drop i =>
    obtain ⟨⟨w, c⟩, hread, h⟩ := Option.map_eq_some_iff.mp h
    obtain ⟨hw, hc⟩ := reading_eq_some.mp hread
    cases h
    exact .drop i w c hw hc
  | discard j =>
    obtain ⟨-, h⟩ := Option.ite_none_right_eq_some.mp h
    cases h
    exact .discard j

end Servicer

/-! ## A stream is a mailbox

The box of a worker is what is in the queue of its call and what is in transit.
A step of the servicer is one of the mailboxes, or none. -/

/-- The mailbox that a worker's call is. -/
def Client.mail (w : Client α) : Mail α :=
  w.call.elim .new (fun c => ⟨c.since.isSome, c.transit ++ c.queue⟩)

/-- A broadcast comes into the mailbox if the queue is in `_subs`. -/
theorem Client.mail_put (w : Client α) (cmd : α) :
    Client.mail { w with call := w.call.map (.put cmd) } = w.mail.put cmd := by
  obtain ⟨call, received⟩ := w
  cases call with
  | none => rfl
  | some c =>
    show Mail.mk (c.put cmd).since.isSome ((c.put cmd).transit ++ (c.put cmd).queue)
      = Mail.put cmd ⟨c.since.isSome, c.transit ++ c.queue⟩
    by_cases hsince : c.since.isSome = true
    · rw [Call.put, Mail.put, if_pos hsince, if_pos hsince, List.append_assoc]
    · rw [Call.put, Mail.put, if_neg hsince, if_neg hsince]

namespace Servicer

/-- What there is of the workers' streams. -/
def mails (s : Servicer α) : List (Mail α) := s.clients.map Client.mail

/-- **The streams are mailboxes**: what was done with them has sent what was
broadcast, and given each worker what it has dispatched. -/
structure Simulates (n : ℕ) (s : Servicer α) (es : List (MailEvent α)) : Prop where
  run : Mail.Run (List.replicate n .new) es s.mails
  sent : es.filterMap MailEvent.sent = s.broadcasted
  given : ∀ (i : ℕ) (w : Client α), s.clients[i]? = some w →
    es.filterMap (MailEvent.given i) = w.received

/-- Before anything happens all mailboxes are new. -/
theorem simulates_new (n : ℕ) : Simulates n (new n : Servicer α) [] := by
  refine ⟨?_, rfl, fun i w hw => ?_⟩
  · show Mail.Run (List.replicate n .new) [] ((List.replicate n ⟨none, []⟩).map Client.mail)
    rw [List.map_replicate]
    exact .nil
  · rw [List.eq_of_mem_replicate (List.mem_of_getElem? hw)]
    rfl

variable {n : ℕ} {s s' : Servicer α} {es : List (MailEvent α)} {i : ℕ} {w w' : Client α}

/-- A worker that changes changes its own mailbox. -/
theorem mails_put (s : Servicer α) (i : ℕ) (w : Client α) :
    (s.put i w).mails = s.mails.set i w.mail := List.map_set

/-- Each worker has its mailbox. -/
theorem getElem?_mails (hw : s.clients[i]? = some w) : s.mails[i]? = some w.mail := by
  rw [mails, List.getElem?_map, hw]
  rfl

/-- A worker whose stream is as it was. -/
theorem Simulates.keep (h : Simulates n s es) (hw : s.clients[i]? = some w)
    (hmail : w'.mail = w.mail) (hreceived : w'.received = w.received) :
    Simulates n (s.put i w') es := by
  refine ⟨?_, h.sent, forall_getElem?_set (fun j v _ hv => h.given j v hv) ?_⟩
  · obtain ⟨hlen, heq⟩ := List.getElem?_eq_some_iff.mp (getElem?_mails hw)
    rw [mails_put, hmail, ← heq, List.set_getElem_self]
    exact h.run
  · rw [hreceived]
    exact h.given i w hw

/-- A worker with whose stream something is done. -/
theorem Simulates.move (h : Simulates n s es) (w' : Client α) {e : MailEvent α}
    (hsent : e.sent = none)
    (hother : ∀ j, i ≠ j → e.given j = none) (hstep : Mail.Steps s.mails e (s.mails.set i w'.mail))
    (hreceived : (es ++ [e]).filterMap (MailEvent.given i) = w'.received) :
    Simulates n (s.put i w') (es ++ [e]) := by
  refine ⟨?_, ?_, forall_getElem?_set (fun j v hij hv => ?_) hreceived⟩
  · rw [mails_put]
    exact h.run.concat hstep
  · rw [filterMap_concat_of_none hsent]
    exact h.sent
  · rw [filterMap_concat_of_none (hother j hij)]
    exact h.given j v hv

/-- **Every step of the servicer is a step of its mailboxes**, or none. -/
theorem Simulates.step (h : Simulates n s es) {e : ServicerEvent α} (hstep : s.step e = some s') :
    ∃ es', Simulates n s' es' := by
  cases steps_of_step hstep with
  | connect i w hw hcall => exact ⟨es, h.keep hw (by rw [Client.mail, Client.mail, hcall]; rfl) rfl⟩
  | subscribe i w c hw hcall hsince =>
    have hmail : w.mail = ⟨c.since.isSome, c.transit ++ c.queue⟩ := by
      rw [Client.mail, hcall]
      rfl
    refine ⟨_, h.move _ (e := .subscribe i) rfl (fun _ _ => rfl) ?_ ?_⟩
    · have hsub := Mail.Steps.subscribe i w.mail (getElem?_mails hw)
      rw [hmail] at hsub
      exact hsub
    · rw [filterMap_concat_of_none rfl]
      exact h.given i w hw
  | broadcast cmd =>
    have hmails : (s.clients.map (fun w => { w with call := w.call.map (.put cmd) })).map
        Client.mail = s.mails.map (Mail.put cmd) := by
      rw [mails, List.map_map, List.map_map]
      exact List.map_congr_left (fun w _ => w.mail_put cmd)
    refine ⟨es ++ [.send cmd], ?_, ?_, fun i w hw => ?_⟩
    · show Mail.Run _ _ ((s.clients.map _).map Client.mail)
      rw [hmails]
      exact h.run.concat (.send cmd)
    · rw [filterMap_concat_of_some (f := MailEvent.sent) (a := .send cmd) rfl, h.sent]
    · rw [filterMap_concat_of_none (f := MailEvent.given i) (a := .send cmd) rfl]
      rw [List.getElem?_map] at hw
      obtain ⟨w', hw', rfl⟩ := Option.map_eq_some_iff.mp hw
      exact h.given i w' hw'
  | yield i w c cmd q hw hcall hq =>
    refine ⟨es, h.keep hw ?_ rfl⟩
    rw [Client.mail, Client.mail, hcall]
    show Mail.mk _ (c.transit ++ [cmd] ++ q) = Mail.mk _ (c.transit ++ c.queue)
    rw [hq, List.append_assoc]
    rfl
  | receive i w c cmd rest hw hcall hrest =>
    have hmail : w.mail = ⟨c.since.isSome, cmd :: (rest ++ c.queue)⟩ := by
      rw [Client.mail, hcall]
      show Mail.mk _ (c.transit ++ c.queue) = _
      rw [hrest]
      rfl
    refine ⟨_, h.move _ (e := .deliver i cmd) rfl (fun j hij => if_neg hij) ?_ ?_⟩
    · have hdeliver := Mail.Steps.deliver i w.mail cmd (rest ++ c.queue)
        (getElem?_mails hw) (by rw [hmail])
      rw [hmail] at hdeliver
      exact hdeliver
    · rw [filterMap_concat_of_some (f := MailEvent.given i) (a := .deliver i cmd) (if_pos rfl),
        h.given i w hw]
  | drop i w c hw hcall =>
    refine ⟨es ++ [.drop i], ?_⟩
    have hmoved := h.move { w with call := none } (e := .drop i) rfl (fun _ _ => rfl)
      (Mail.Steps.drop i w.mail (getElem?_mails hw)) (by
        rw [filterMap_concat_of_none rfl]
        exact h.given i w hw)
    exact ⟨hmoved.run, hmoved.sent, hmoved.given⟩
  | discard j => exact ⟨es, h.run, h.sent, h.given⟩

/-! ## What the workers get

What was broadcast since the queue was added is received, in transit, or
queued, in this order; and before that nothing came to it by this call. -/

/-- **What a worker has got and what it waits for**: commands that were
broadcast, in their order and each once; and from the moment its queue was
added on, all of them. -/
structure Keeps (sent : List α) (w : Client α) : Prop where
  sublist : w.received.Sublist sent
  idle : ∀ c, w.call = some c → c.since = none → c.transit ++ c.queue = []
  since : ∀ c, w.call = some c → ∀ n, c.since = some n → n ≤ sent.length
    ∧ ∃ earlier : List α, earlier.Sublist (sent.take n)
      ∧ w.received ++ (c.transit ++ c.queue) = earlier ++ sent.drop n

/-- A broadcast comes into the queues that are there. -/
theorem Keeps.broadcast {sent : List α} (h : Keeps sent w) (cmd : α) :
    Keeps (sent ++ [cmd]) { w with call := w.call.map (.put cmd) } := by
  refine ⟨h.sublist.trans (List.sublist_append_left _ _), fun c hc hsince => ?_,
    fun c hc n hn => ?_⟩
  · obtain ⟨c', hc', rfl⟩ := Option.map_eq_some_iff.mp hc
    have hnone : c'.since.isSome = false := by
      unfold Call.put at hsince
      split_ifs at hsince with hsome
      · rw [hsince] at hsome
        exact absurd hsome Bool.false_ne_true
      · rw [hsince]
        rfl
    rw [Call.put, hnone]
    exact h.idle c' hc' (Option.isSome_eq_false_iff.mp hnone |> Option.isNone_iff_eq_none.mp)
  · obtain ⟨c', hc', rfl⟩ := Option.map_eq_some_iff.mp hc
    have hsome : c'.since = some n := by
      unfold Call.put at hn
      split_ifs at hn <;> exact hn
    obtain ⟨hle, earlier, hearlier, heq⟩ := h.since c' hc' n hsome
    have hput : c'.put cmd = { c' with queue := c'.queue ++ [cmd] } :=
      if_pos (by rw [hsome]; rfl)
    refine ⟨hle.trans (by simp), earlier, ?_, ?_⟩
    · rwa [List.take_append_of_le_length hle]
    · rw [hput, List.drop_append_of_le_length hle, ← List.append_assoc earlier, ← heq]
      simp only [List.append_assoc]

/-- A call on which something has moved on. -/
theorem Keeps.moveOn {sent : List α} (h : Keeps sent w) {c : Call α} (hc : w.call = some c)
    (c' : Call α) (hsince : c'.since = c.since) {received : List α} (hsub : received.Sublist sent)
    (hall : received ++ (c'.transit ++ c'.queue) = w.received ++ (c.transit ++ c.queue))
    (hidle : c.since = none → c'.transit ++ c'.queue = []) :
    Keeps sent ⟨some c', received⟩ := by
  refine ⟨hsub, fun d hd hnone => ?_, fun d hd n hn => ?_⟩
  · cases hd
    exact hidle (hsince.symm.trans hnone)
  · cases hd
    obtain ⟨hle, earlier, hearlier, heq⟩ := h.since c hc n (hsince.symm.trans hn)
    exact ⟨hle, earlier, hearlier, hall.trans heq⟩

/-- **Every step keeps it.** -/
theorem Keeps.step {e : ServicerEvent α} (h : ∀ w ∈ s.clients, Keeps s.broadcasted w)
    (hstep : s.step e = some s') : ∀ w ∈ s'.clients, Keeps s'.broadcasted w := by
  cases steps_of_step hstep with
  | connect i w hw hcall =>
    refine forall_mem_set h ⟨(h w (List.mem_of_getElem? hw)).sublist, fun c hc _ => ?_,
      fun c hc n hn => ?_⟩
    · cases hc
      rfl
    · cases hc
      cases hn
  | subscribe i w c hw hcall hsince =>
    have hkeeps := h w (List.mem_of_getElem? hw)
    refine forall_mem_set h ⟨hkeeps.sublist, fun d hd hnone => ?_, fun d hd n hn => ?_⟩
    · cases hd
      cases hnone
    · cases hd
      cases hn
      refine ⟨le_rfl, w.received, ?_, ?_⟩
      · show w.received.Sublist (s.broadcasted.take s.broadcasted.length)
        rw [List.take_length]
        exact hkeeps.sublist
      · show w.received ++ (c.transit ++ c.queue)
          = w.received ++ s.broadcasted.drop s.broadcasted.length
        rw [hkeeps.idle c hcall hsince, List.drop_length]
  | broadcast cmd =>
    intro w hw
    obtain ⟨w', hw', rfl⟩ := List.mem_map.mp hw
    exact (h w' hw').broadcast cmd
  | yield i w c cmd q hw hcall hq =>
    have hkeeps := h w (List.mem_of_getElem? hw)
    have hsame : c.transit ++ [cmd] ++ q = c.transit ++ c.queue := by
      rw [hq, List.append_assoc]
      rfl
    have hmoved : Keeps s.broadcasted ⟨some ⟨c.since, q, c.transit ++ [cmd]⟩, w.received⟩ :=
      hkeeps.moveOn hcall ⟨c.since, q, c.transit ++ [cmd]⟩ rfl hkeeps.sublist (congrArg _ hsame)
        (fun hnone => hsame.trans (hkeeps.idle c hcall hnone))
    exact forall_mem_set h hmoved
  | receive i w c cmd rest hw hcall hrest =>
    have hkeeps := h w (List.mem_of_getElem? hw)
    -- A call that is not subscribed has nothing in transit.
    have hsome : c.since ≠ none := fun hnone => by
      have hidle := hkeeps.idle c hcall hnone
      rw [hrest] at hidle
      cases hidle
    obtain ⟨n, hn⟩ := Option.ne_none_iff_exists'.mp hsome
    obtain ⟨-, earlier, hearlier, heq⟩ := hkeeps.since c hcall n hn
    have hsame : w.received ++ [cmd] ++ (rest ++ c.queue)
        = w.received ++ (c.transit ++ c.queue) := by
      rw [hrest, List.append_assoc]
      rfl
    have hsub : (w.received ++ [cmd]).Sublist s.broadcasted := by
      have hall := hearlier.append (List.Sublist.refl (s.broadcasted.drop n))
      rw [List.take_append_drop, ← heq, ← hsame] at hall
      exact (List.sublist_append_left _ _).trans hall
    have hmoved : Keeps s.broadcasted ⟨some { c with transit := rest }, w.received ++ [cmd]⟩ :=
      hkeeps.moveOn hcall { c with transit := rest } rfl hsub hsame (fun hnone => absurd hnone hsome)
    exact forall_mem_set h hmoved
  | drop i w c hw hcall =>
    exact forall_mem_set h ⟨(h w (List.mem_of_getElem? hw)).sublist, nofun, nofun⟩
  | discard j => exact h

/-- A call can yield all that is queued. -/
theorem exists_yielded (q transit : List α) (since : Option ℕ) (received : List α)
    (hw : s.clients[i]? = some ⟨some ⟨since, q, transit⟩, received⟩) :
    ∃ s', exec step s (List.replicate q.length (.yield i)) = some s'
      ∧ s'.clients[i]? = some ⟨some ⟨since, [], transit ++ q⟩, received⟩
      ∧ s'.broadcasted = s.broadcasted := by
  induction q generalizing s transit with
  | nil => exact ⟨s, rfl, by rw [List.append_nil]; exact hw, rfl⟩
  | cons cmd q ih =>
    have hstep : s.step (.yield i)
        = some (s.put i ⟨some ⟨since, q, transit ++ [cmd]⟩, received⟩) := by
      rw [step, reading_eq_some.mpr ⟨hw, rfl⟩]
      rfl
    have hput : (s.put i ⟨some ⟨since, q, transit ++ [cmd]⟩, received⟩).clients[i]?
        = some ⟨some ⟨since, q, transit ++ [cmd]⟩, received⟩ :=
      List.getElem?_set_self (List.getElem?_eq_some_iff.mp hw).1
    obtain ⟨s', hexec, hs', hsent⟩ := ih (transit ++ [cmd]) hput
    refine ⟨s', ?_, by rw [hs', List.append_assoc]; rfl, hsent⟩
    rw [List.length_cons, List.replicate_succ, exec, hstep]
    exact hexec

/-- A worker can read all that is under way. -/
theorem exists_received (transit : List α) (since : Option ℕ) (received : List α)
    (hw : s.clients[i]? = some ⟨some ⟨since, [], transit⟩, received⟩) :
    ∃ s', exec step s (List.replicate transit.length (.receive i)) = some s'
      ∧ s'.clients[i]? = some ⟨some ⟨since, [], []⟩, received ++ transit⟩
      ∧ s'.broadcasted = s.broadcasted := by
  induction transit generalizing s received with
  | nil => exact ⟨s, rfl, by rw [List.append_nil]; exact hw, rfl⟩
  | cons cmd rest ih =>
    have hstep : s.step (.receive i)
        = some (s.put i ⟨some ⟨since, [], rest⟩, received ++ [cmd]⟩) := by
      rw [step, reading_eq_some.mpr ⟨hw, rfl⟩]
      rfl
    have hput : (s.put i ⟨some ⟨since, [], rest⟩, received ++ [cmd]⟩).clients[i]?
        = some ⟨some ⟨since, [], rest⟩, received ++ [cmd]⟩ :=
      List.getElem?_set_self (List.getElem?_eq_some_iff.mp hw).1
    obtain ⟨s', hexec, hs', hsent⟩ := ih (received ++ [cmd]) hput
    refine ⟨s', ?_, by rw [hs', List.append_assoc]; rfl, hsent⟩
    rw [List.length_cons, List.replicate_succ, exec, hstep]
    exact hexec

/-- **A worker that waits gets all there is.** -/
theorem exists_drained {c : Call α} (hw : s.clients[i]? = some w) (hc : w.call = some c) :
    ∃ es s' w', exec step s es = some s' ∧ (∀ e ∈ es, e = .yield i ∨ e = .receive i)
      ∧ s'.clients[i]? = some w' ∧ w'.received = w.received ++ (c.transit ++ c.queue) := by
  obtain ⟨call, received⟩ := w
  cases hc
  obtain ⟨s₁, hexec₁, hw₁, -⟩ := exists_yielded c.queue c.transit c.since received hw
  obtain ⟨s₂, hexec₂, hw₂, -⟩ := exists_received (c.transit ++ c.queue) c.since received hw₁
  refine ⟨List.replicate c.queue.length (.yield i)
      ++ List.replicate (c.transit ++ c.queue).length (.receive i), s₂,
    ⟨some ⟨c.since, [], []⟩, received ++ (c.transit ++ c.queue)⟩, ?_, ?_, hw₂, rfl⟩
  · exact exec_append_eq_some.mpr ⟨s₁, hexec₁, hexec₂⟩
  · intro e he
    rcases List.mem_append.mp he with he | he
    · exact .inl (List.eq_of_mem_replicate he)
    · exact .inr (List.eq_of_mem_replicate he)

/-- **The command streams deliver**, however calls break and are made again:
what was done is what can be done with mailboxes; what a worker has dispatched
was broadcast, in that order and each once; and of what was broadcast since its
queue was added it misses nothing, but for what is on its way to it. -/
theorem delivers {es : List (ServicerEvent α)} (h : exec step (new n) es = some s) :
    (∃ es', Simulates n s es')
      ∧ ∀ i w, s.clients[i]? = some w → w.received.Sublist s.broadcasted
        ∧ ∀ c, w.call = some c → ∀ since, c.since = some since →
          (∃ earlier : List α, earlier.Sublist (s.broadcasted.take since)
            ∧ w.received ++ (c.transit ++ c.queue) = earlier ++ s.broadcasted.drop since)
          ∧ ∃ es s' w', exec step s es = some s' ∧ (∀ e ∈ es, e = .yield i ∨ e = .receive i)
            ∧ s'.clients[i]? = some w' ∧ w'.received = w.received ++ (c.transit ++ c.queue) := by
  have hkeeps : ∀ w ∈ s.clients, Keeps s.broadcasted w :=
    inv_of_exec (fun s => ∀ w ∈ s.clients, Keeps s.broadcasted w) h
      (fun _ _ _ hs hstep => Keeps.step hs hstep) (fun w hw => by
        rw [List.eq_of_mem_replicate hw]
        exact ⟨List.Sublist.refl _, nofun, nofun⟩)
  refine ⟨inv_of_exec (fun s => ∃ es', Simulates n s es') h
    (fun _ _ _ ⟨_, hs⟩ hstep => hs.step hstep) ⟨[], simulates_new n⟩, fun i w hw => ?_⟩
  have hone := hkeeps w (List.mem_of_getElem? hw)
  exact ⟨hone.sublist, fun c hc since hsince => ⟨(hone.since c hc since hsince).2,
    exists_drained hw hc⟩⟩

/-- A worker whose call broke with a command under way gets the one after the
next. -/
theorem delivers_reconnected :
    ∃ s : Servicer ℕ, exec step (new 1) [.connect 0, .subscribe 0, .broadcast 1, .yield 0,
        .receive 0, .broadcast 2, .yield 0, .drop 0, .broadcast 3, .connect 0, .subscribe 0,
        .broadcast 4, .yield 0, .receive 0] = some s
      ∧ s.clients[0]? = some ⟨some ⟨some 3, [], []⟩, [1, 4]⟩
      ∧ [1, 4].Sublist s.broadcasted := by
  have hexec : exec step (new 1) [.connect 0, .subscribe 0, .broadcast 1, .yield 0, .receive 0,
        .broadcast 2, .yield 0, .drop 0, .broadcast 3, .connect 0, .subscribe 0, .broadcast 4,
        .yield 0, .receive 0]
      = some ⟨[1, 2, 3, 4], [⟨some ⟨some 3, [], []⟩, [1, 4]⟩], [⟨some 0, [3, 4], [2]⟩]⟩ := rfl
  exact ⟨_, hexec, rfl, ((delivers hexec).2 0 ⟨some ⟨some 3, [], []⟩, [1, 4]⟩ rfl).1⟩

end Servicer

/-! ## The mailboxes of the world

The commands of the whole system go by mailboxes too, over both transports, and
so by what a servicer can do. -/

namespace Mail

/-- Commands come, one after the other. -/
theorem Run.sends (ms : List (Mail α)) (cmds : List α) :
    Run ms (cmds.map .send) (ms.map (fun m => cmds.foldl (fun m cmd => put cmd m) m)) := by
  induction cmds generalizing ms with
  | nil =>
    show Run ms [] (ms.map id)
    rw [List.map_id]
    exact .nil
  | cons cmd cmds ih =>
    have hrest := ih (ms.map (put cmd))
    rw [List.map_map] at hrest
    exact (Run.single (.send cmd)).append hrest

/-- Commands that come to one who is subscribed are added to what is there. -/
theorem foldl_put (m : Mail α) (cmds : List α) :
    cmds.foldl (fun m cmd => put cmd m) m
      = if m.subscribed then { m with commands := m.commands ++ cmds } else m := by
  induction cmds generalizing m with
  | nil => rw [List.foldl_nil, List.append_nil, ite_self]
  | cons cmd cmds ih =>
    rw [List.foldl_cons, ih, put]
    by_cases h : m.subscribed = true
    · rw [if_pos h, if_pos h, if_pos h, List.append_assoc]
      rfl
    · rw [if_neg h, if_neg h, if_neg h]

end Mail

/-- The mailbox of a worker. -/
def Station.mail (s : Station) : Mail Command := ⟨s.subscribed, s.commands⟩

/-- What the orchestrator sends comes into the mailbox. -/
theorem Station.mail_send (s : Station) (cmds : List Command) :
    (s.send cmds).mail = cmds.foldl (fun m cmd => Mail.put cmd m) s.mail := by
  have hsubscribed : s.mail.subscribed = s.subscribed := rfl
  rw [Mail.foldl_put, send, hsubscribed]
  by_cases h : s.subscribed = true
  · rw [if_pos h, if_pos h]
    rfl
  · rw [if_neg h, if_neg h]

namespace World

/-- The mailboxes of the workers. -/
def mails (w : World) : List (Mail Command) := w.stations.map Station.mail

/-- The commands that the orchestrator sends with a step. -/
def sends (control : Control) (w : World) : WorldEvent → List Command
  | .app e => (w.starts control e).map .start
  | .stopAll => [.stop]
  | _ => []

variable {control : Control} {c : Job → Fleet.Config} {w w' : World} {e : WorldEvent}

theorem getElem?_mails {i : ℕ} {s : Station} (hs : w.stations[i]? = some s) :
    w.mails[i]? = some s.mail := by
  rw [mails, List.getElem?_map, hs]
  rfl

/-- A worker that changes changes its own mailbox. -/
theorem map_mail_set (w : World) (i : ℕ) (s : Station) :
    (w.stations.set i s).map Station.mail = w.mails.set i s.mail := List.map_set

/-- A worker whose mailbox is as it was. -/
theorem map_mail_set_of_eq {i : ℕ} {s s' : Station} (hs : w.stations[i]? = some s)
    (hmail : s'.mail = s.mail) : (w.stations.set i s').map Station.mail = w.mails := by
  obtain ⟨hlen, heq⟩ := List.getElem?_eq_some_iff.mp (getElem?_mails hs)
  rw [map_mail_set, hmail, ← heq]
  exact List.set_getElem_self hlen

/-- Commands that are sent to all come into all mailboxes. -/
theorem mails_send (cmds : List Command) :
    Mail.Run w.mails (cmds.map .send) ((w.stations.map (.send cmds)).map Station.mail) := by
  have hsends := Mail.Run.sends w.mails cmds
  rw [mails, List.map_map] at hsends
  rw [List.map_map]
  exact (List.map_congr_left (fun s _ => s.mail_send cmds) :
    w.stations.map (Station.mail ∘ .send cmds) = _) ▸ hsends

/-- **The world does with its mailboxes what can be done with them**, and sends
what the orchestrator sends. -/
theorem mails_step (h : w.step control c e = some w') :
    ∃ es, Mail.Run w.mails es w'.mails ∧ es.filterMap MailEvent.sent = w.sends control e := by
  have hsent (cmds : List Command) :
      (cmds.map MailEvent.send).filterMap MailEvent.sent = cmds := by
    rw [List.filterMap_map]
    exact List.filterMap_some
  have hkept {ss : List Station} (heq : ss.map Station.mail = w.mails) :
      Mail.Run w.mails [] (ss.map Station.mail) := heq ▸ .nil
  cases steps_of_step h with
  | app e a hne ha => exact ⟨_, mails_send _, hsent _⟩
  | stopAll => exact ⟨_, mails_send _, hsent _⟩
  | tick secs hsecs =>
    refine ⟨[], hkept ?_, rfl⟩
    rw [List.map_map]
    rfl
  | subscribe i s hs =>
    refine ⟨[.subscribe i], .single ?_, rfl⟩
    show Mail.Steps w.mails _ ((w.stations.set i _).map Station.mail)
    rw [map_mail_set]
    exact .subscribe i s.mail (getElem?_mails hs)
  | drop i s hs hgrpc =>
    refine ⟨[.drop i], .single ?_, rfl⟩
    show Mail.Steps w.mails _ ((w.stations.set i _).map Station.mail)
    rw [map_mail_set]
    exact .drop i s.mail (getElem?_mails hs)
  | deliver i s cmd cmds hs hcmds =>
    have hmail : (Station.dispatch { s with commands := cmds } cmd).mail
        = { s.mail with commands := cmds } := by
      cases cmd <;> rfl
    refine ⟨[.deliver i cmd], .single ?_, rfl⟩
    show Mail.Steps w.mails _ ((w.stations.set i _).map Station.mail)
    rw [map_mail_set, hmail]
    exact .deliver i s.mail cmd cmds (getElem?_mails hs) hcmds
  | task i e s t m k hs ht hcancelled hsent' hm => exact ⟨[], hkept (map_mail_set_of_eq hs rfl), rfl⟩
  | publish i s t a hs ht hpos hsent' ha => exact ⟨[], hkept (map_mail_set_of_eq hs rfl), rfl⟩
  | raises i s t hs ht => exact ⟨[], hkept (map_mail_set_of_eq hs rfl), rfl⟩

end World

end Arena
