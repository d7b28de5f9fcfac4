import HftArena.Lib.PubSub
import HftArena.Lib.System

/-!
# A dashboard that connects

`ws_leaderboard` of `orchestrator/app.py` against Redis, where any number of
writers call `publish_event`, and telemetry's `publisher` does the same: each
event is written to the snapshot key, and then published. The client is sent
what it finds in the key, and what is published from the time that it is
subscribed.

Between the two it hears nothing. An event that is written after the key was
read, and published before the subscription begins, is neither replayed nor
relayed: the client is relayed every event that is written after it read if and
only if there is none of these (`Hub.relayed_iff`).

The client is one of many, and the others do not matter for what it is sent;
the writers matter, and all of them may write and publish at any time.
-/

namespace Orchestrator

/-- **An event**: a call of `publish_event` or a round of `publisher`, with its
text. -/
structure Event where
  id : ℕ
  /-- `msg` -/
  text : String
deriving DecidableEq

/-- **Where `ws_leaderboard` is.** -/
inductive Client where
  /-- The socket is accepted, and the key not read. -/
  | connecting
  /-- With what was in the key. -/
  | replaying (snap : Option String)
  | subscribing
  /-- In the loop over `listen()`. -/
  | listening
  /-- The socket is closed. -/
  | gone
deriving DecidableEq

/-- **Redis, and a client of the dashboard.** What was written is kept beside
the key, which has the last event alone. -/
structure Hub where
  /-- `arena:snapshot` -/
  key : Option Event
  /-- The events that were written to the key, in order. -/
  written : List Event
  /-- `arena:events`, as the client hears it. -/
  channel : Channel Event
  client : Client
  /-- How many events had been written when the client read the key. -/
  readAt : Option ℕ
  /-- What the client was sent of the key. -/
  replayed : Option String

/-- **What can happen**: a writer writes or publishes, and the client goes
on. -/
inductive HubEvent where
  /-- A writer has set the key. -/
  | write (e : Event)
  /-- It has published what it wrote. -/
  | publish (e : Event)
  /-- The client's turns, one for each call that it awaits. -/
  | read
  | replay
  | subscribe
  | relay
  /-- The socket is found closed. -/
  | disconnect
deriving DecidableEq

namespace Hub

/-- Redis before anything was written, and a client that connects. -/
def new : Hub := ⟨none, [], .new, .connecting, none, none⟩

/-- **A step.** -/
def step (h : Hub) : HubEvent → Option Hub
  | .write e =>
    if e.id ∈ h.written.map Event.id then none
    else some { h with key := some e, written := h.written ++ [e] }
  | .publish e =>
    if e ∈ h.written ∧ e ∉ h.channel.published then
      some { h with channel := h.channel.publish e }
    else none
  | .read =>
    match h.client with
    | .connecting =>
      some { h with client := .replaying (h.key.map Event.text), readAt := some h.written.length }
    | _ => none
  | .replay =>
    match h.client with
    | .replaying snap =>
      -- `if snap`: an empty text is not sent
      some { h with client := .subscribing, replayed := snap.filter (fun text => text ≠ "") }
    | _ => none
  | .subscribe =>
    match h.client with
    | .subscribing => some { h with client := .listening, channel := h.channel.subscribe }
    | _ => none
  | .relay =>
    match h.client with
    | .listening => h.channel.take.map (fun channel => { h with channel := channel })
    | _ => none
  | .disconnect =>
    match h.client with
    | .replaying _ | .listening => some { h with client := .gone, channel := h.channel.unsubscribe }
    | _ => none

/-- The events that were written after the client read the key. -/
def late (h : Hub) : List Event := h.readAt.elim [] (fun n => h.written.drop n)

/-- **No event is published that the client cannot hear**: none that was
written after it read the key, before its subscription begins. The condition is
on the event and on the client before it. -/
def Audible (h : Hub) : HubEvent → Prop
  | .publish e => e ∈ h.late → h.client = .listening ∨ h.client = .gone
  | _ => True

instance (h : Hub) : ∀ e, Decidable (h.Audible e)
  | .publish e => inferInstanceAs (Decidable (e ∈ h.late → _ ∨ _))
  | .write _ | .read | .replay | .subscribe | .relay | .disconnect => isTrue trivial

/-- **The steps, one by one**, each with what it asks for. -/
inductive Steps (h : Hub) : HubEvent → Hub → Prop where
  | write (e : Event) : e.id ∉ h.written.map Event.id →
    Steps h (.write e) { h with key := some e, written := h.written ++ [e] }
  | publish (e : Event) : e ∈ h.written → e ∉ h.channel.published →
    Steps h (.publish e) { h with channel := h.channel.publish e }
  | read : h.client = .connecting →
    Steps h .read
      { h with client := .replaying (h.key.map Event.text), readAt := some h.written.length }
  | replay (snap : Option String) : h.client = .replaying snap →
    Steps h .replay
      { h with client := .subscribing, replayed := snap.filter (fun text => text ≠ "") }
  | subscribe : h.client = .subscribing →
    Steps h .subscribe { h with client := .listening, channel := h.channel.subscribe }
  | relay (channel : Channel Event) : h.client = .listening → h.channel.take = some channel →
    Steps h .relay { h with channel := channel }
  | disconnect : (∃ snap, h.client = .replaying snap) ∨ h.client = .listening →
    Steps h .disconnect { h with client := .gone, channel := h.channel.unsubscribe }

/-- **A step is one of these.** -/
theorem steps_of_step {h h' : Hub} {e : HubEvent} (hstep : h.step e = some h') : Steps h e h' := by
  cases e with
  | write e =>
    rw [step] at hstep
    split_ifs at hstep with hfresh
    cases hstep
    exact .write e hfresh
  | publish e =>
    rw [step] at hstep
    split_ifs at hstep with he
    cases hstep
    exact .publish e he.1 he.2
  | read =>
    rw [step] at hstep
    split at hstep
    · cases hstep
      exact .read ‹_›
    · cases hstep
  | replay =>
    rw [step] at hstep
    split at hstep
    · cases hstep
      exact .replay _ ‹_›
    · cases hstep
  | subscribe =>
    rw [step] at hstep
    split at hstep
    · cases hstep
      exact .subscribe ‹_›
    · cases hstep
  | relay =>
    rw [step] at hstep
    split at hstep
    · obtain ⟨channel, htake, rfl⟩ := Option.map_eq_some_iff.mp hstep
      exact .relay channel ‹_› htake
    · cases hstep
  | disconnect =>
    rw [step] at hstep
    split at hstep
    · cases hstep
      exact .disconnect (Or.inl ⟨_, ‹_›⟩)
    · cases hstep
      exact .disconnect (Or.inr ‹_›)
    · cases hstep

/-! ## What holds of it

What is published was written before, and a client that is not subscribed has
nothing pending. -/

/-- What holds of Redis and the client. -/
structure WF (h : Hub) : Prop where
  channel : h.channel.WF
  published : ∀ e ∈ h.channel.published, e ∈ h.written
  unread : h.client = .connecting → h.readAt = none
  listening : h.client = .listening → ∃ n, h.channel.since = some n
  /-- Before the subscription there is nothing to relay. -/
  silent : h.client ≠ .listening → h.client ≠ .gone →
    h.channel.since = none ∧ h.channel.taken = []

/-- Nothing was written, and nothing heard. -/
theorem wf_new : new.WF where
  channel := Channel.wf_new
  published := List.forall_mem_nil _
  unread := fun _ => rfl
  listening := fun hclient => Client.noConfusion hclient
  silent := fun _ _ => ⟨rfl, rfl⟩

variable {h h' : Hub} {e : HubEvent} {ev : Event}

/-- **A step keeps it.** -/
theorem WF.step (hwf : h.WF) (hstep : h.step e = some h') : h'.WF := by
  cases steps_of_step hstep with
  | write ev hfresh =>
    exact ⟨hwf.channel, fun e he => List.mem_append_left _ (hwf.published e he), hwf.unread,
      hwf.listening, hwf.silent⟩
  | publish ev hev hnew =>
    refine ⟨hwf.channel.publish ev, fun e he => ?_, hwf.unread, hwf.listening, hwf.silent⟩
    rcases List.mem_append.mp he with he | he
    · exact hwf.published e he
    · exact List.mem_singleton.mp he ▸ hev
  | read hclient =>
    exact ⟨hwf.channel, hwf.published, fun hc => Client.noConfusion hc,
      fun hc => Client.noConfusion hc, fun _ _ => hwf.silent
        (hclient.trans_ne (fun hc => Client.noConfusion hc))
        (hclient.trans_ne (fun hc => Client.noConfusion hc))⟩
  | replay snap hclient =>
    exact ⟨hwf.channel, hwf.published, fun hc => Client.noConfusion hc,
      fun hc => Client.noConfusion hc, fun _ _ => hwf.silent
        (hclient.trans_ne (fun hc => Client.noConfusion hc))
        (hclient.trans_ne (fun hc => Client.noConfusion hc))⟩
  | subscribe hclient =>
    exact ⟨Channel.WF.subscribe _, hwf.published, fun hc => Client.noConfusion hc,
      fun _ => ⟨_, rfl⟩, fun hc => absurd rfl hc⟩
  | relay channel hclient htake =>
    obtain ⟨-, hpublished, hsince, -⟩ := Channel.relayed_append_pending_take htake
    refine ⟨hwf.channel.take htake, fun e he => hwf.published e (hpublished ▸ he), hwf.unread,
      fun hc => ?_, fun hc => absurd hclient hc⟩
    exact hsince.symm ▸ hwf.listening hc
  | disconnect hclient =>
    exact ⟨Channel.WF.unsubscribe _, hwf.published, fun hc => Client.noConfusion hc,
      fun hc => Client.noConfusion hc, fun _ hc => absurd rfl hc⟩

/-- Before the subscription, nothing was relayed and nothing is pending. -/
theorem WF.nothing (hwf : h.WF) (hclient : h.client ≠ .listening) (hgone : h.client ≠ .gone) :
    h.channel.relayed = [] ∧ h.channel.inbox = [] := by
  obtain ⟨hsince, htaken⟩ := hwf.silent hclient hgone
  rw [Channel.relayed, htaken, hwf.channel.idle hsince]
  exact ⟨rfl, rfl⟩

/-! ## What is missed

A client misses an event that is written after it has read the snapshot, and
published before it is subscribed. Whatever else is published reaches it, if it
stays. -/

/-- **An event is missed**: it was published, and was not relayed, and is not
pending. -/
def Missed (h : Hub) (ev : Event) : Prop :=
  ev ∈ h.channel.published ∧ ev ∉ h.channel.relayed ∧ ev ∉ h.channel.pending

/-- **What is missed is missed for good.** -/
theorem Missed.step (hmissed : h.Missed ev) (hstep : h.step e = some h') : h'.Missed ev := by
  obtain ⟨hpub, hrelayed, hpending⟩ := hmissed
  cases steps_of_step hstep with
  | write _ _ => exact ⟨hpub, hrelayed, hpending⟩
  | publish ev' _ hnew =>
    refine ⟨List.mem_append_left _ hpub, hrelayed, fun hmem => ?_⟩
    rcases Channel.mem_pending_publish hmem with hmem | rfl
    · exact hpending hmem
    · exact hnew hpub
  | read _ => exact ⟨hpub, hrelayed, hpending⟩
  | replay _ _ => exact ⟨hpub, hrelayed, hpending⟩
  | subscribe _ => exact ⟨hpub, List.not_mem_nil, List.not_mem_nil⟩
  | relay channel _ htake =>
    obtain ⟨hsame, hpublished, -, -⟩ := Channel.relayed_append_pending_take htake
    have hnot : ev ∉ channel.relayed ++ channel.pending := by
      rw [hsame]
      exact fun hmem => (List.mem_append.mp hmem).elim hrelayed hpending
    rw [List.mem_append, not_or] at hnot
    exact ⟨hpublished.symm ▸ hpub, hnot⟩
  | disconnect _ => exact ⟨hpub, hrelayed, List.not_mem_nil⟩

/-- An event is late if it was written after the client had read. -/
theorem mem_late_iff : ev ∈ h.late ↔ ∃ n, h.readAt = some n ∧ ev ∈ h.written.drop n := by
  unfold late
  cases h.readAt with
  | none => exact ⟨fun hmem => absurd hmem List.not_mem_nil, fun ⟨_, hn, _⟩ => by cases hn⟩
  | some n => exact ⟨fun hmem => ⟨n, rfl, hmem⟩, fun ⟨_, hn, hmem⟩ => by cases hn; exact hmem⟩

/-- What is late stays late. -/
theorem WF.late_step (hwf : h.WF) (hlate : ev ∈ h.late) (hstep : h.step e = some h') :
    ev ∈ h'.late := by
  obtain ⟨n, hread, hmem⟩ := mem_late_iff.mp hlate
  refine mem_late_iff.mpr ?_
  cases steps_of_step hstep with
  | write ev' _ =>
    refine ⟨n, hread, ?_⟩
    rw [List.drop_append]
    exact List.mem_append_left _ hmem
  | read hclient => cases (hwf.unread hclient).symm.trans hread
  | publish _ _ _ | replay _ _ | subscribe _ | relay _ _ _ | disconnect _ => exact ⟨n, hread, hmem⟩

/-- What becomes late is what is written. -/
theorem late_of_step (hstep : h.step e = some h') (hlate : ev ∈ h'.late) :
    ev ∈ h.late ∨ e = .write ev := by
  obtain ⟨n, hread, hmem⟩ := mem_late_iff.mp hlate
  cases steps_of_step hstep with
  | write ev' _ =>
    rw [List.drop_append] at hmem
    rcases List.mem_append.mp hmem with hmem | hmem
    · exact Or.inl (mem_late_iff.mpr ⟨n, hread, hmem⟩)
    · exact Or.inr (congrArg _ (List.mem_singleton.mp (List.mem_of_mem_drop hmem)).symm)
  | read _ =>
    cases hread
    rw [List.drop_length] at hmem
    exact absurd hmem List.not_mem_nil
  | publish _ _ _ | replay _ _ | subscribe _ | relay _ _ _ | disconnect _ => exact Or.inl hlate

/-- **The client misses nothing**, as far as it is there: every event that was
written after it read the key was relayed to it when it was published, or will
be. -/
def Complete (h : Hub) : Prop :=
  h.client ≠ .gone → ∀ ev ∈ h.late, ev ∈ h.channel.published →
    ev ∈ h.channel.relayed ∨ ev ∈ h.channel.pending

/-- **An audible step keeps it so.** -/
theorem Complete.step (hcomplete : h.Complete) (hwf : h.WF) (haudible : h.Audible e)
    (hstep : h.step e = some h') : h'.Complete := by
  intro hgone ev hlate hpub
  have hold : ev ∈ h.late ∨ e = .write ev := late_of_step hstep hlate
  cases steps_of_step hstep with
  | write ev' hfresh =>
    rcases hold with hold | heq
    · exact hcomplete hgone ev hold hpub
    · cases heq
      exact absurd (List.mem_map_of_mem (hwf.published ev hpub)) hfresh
  | publish ev' _ _ =>
    have hbefore : ev ∈ h.late := hlate
    rcases List.mem_append.mp hpub with hpub | hpub
    · exact (hcomplete hgone ev hbefore hpub).imp_right
        (fun hpending => Channel.mem_publish_pending hpending ev')
    · -- What is published now reaches the channel, as the client listens.
      cases List.mem_singleton.mp hpub
      obtain ⟨n, hn⟩ := hwf.listening ((haudible hbefore).resolve_right hgone)
      refine Or.inr ?_
      show ev ∈ (h.channel.publish ev).pending
      rw [Channel.pending_publish hn]
      exact List.mem_append_right _ List.mem_cons_self
  | read hclient =>
    exact hcomplete (hclient.trans_ne (fun hc => Client.noConfusion hc)) ev
      (hold.resolve_right (fun heq => HubEvent.noConfusion heq)) hpub
  | replay snap hclient =>
    exact hcomplete (hclient.trans_ne (fun hc => Client.noConfusion hc)) ev hlate hpub
  | subscribe hclient =>
    have hgone' : h.client ≠ .gone := hclient.trans_ne (fun hc => Client.noConfusion hc)
    obtain ⟨hrelayed, hinbox⟩ := hwf.nothing
      (hclient.trans_ne (fun hc => Client.noConfusion hc)) hgone'
    have hmem := hcomplete hgone' ev hlate hpub
    rw [hrelayed, Channel.pending, hinbox] at hmem
    exact hmem.elim (fun h => absurd h List.not_mem_nil) (fun h => absurd h List.not_mem_nil)
  | relay channel hclient htake =>
    obtain ⟨hsame, hpublished, -, -⟩ := Channel.relayed_append_pending_take htake
    have hmem := hcomplete hgone ev hlate (hpublished ▸ hpub)
    rw [← List.mem_append] at hmem ⊢
    exact hsame.symm ▸ hmem
  | disconnect hclient => exact absurd rfl hgone

/-- **And a step that is not misses an event.** -/
theorem WF.missed_of_not_audible (hwf : h.WF) (haudible : ¬ h.Audible e)
    (hstep : h.step e = some h') : ∃ ev ∈ h'.late, h'.Missed ev := by
  cases steps_of_step hstep with
  | publish ev hev hnew =>
    obtain ⟨hlate, hclient⟩ := Classical.not_imp.mp haudible
    obtain ⟨hlistening, hgone⟩ := not_or.mp hclient
    obtain ⟨hrelayed, hinbox⟩ := hwf.nothing hlistening hgone
    refine ⟨ev, hlate, List.mem_append_right _ List.mem_cons_self, ?_, ?_⟩
    · show ev ∉ h.channel.relayed
      rw [hrelayed]
      exact List.not_mem_nil
    · show ev ∉ (h.channel.publish ev).pending
      rw [Channel.pending, Channel.inbox_publish_of_none (hwf.silent hlistening hgone).1, hinbox]
      exact List.not_mem_nil
  | write _ _ | read _ | replay _ _ | subscribe _ | relay _ _ _ | disconnect _ =>
    exact absurd trivial haudible

/-- A client that goes on with its loop is sent all that is pending. -/
theorem exists_drained (h : Hub) (hclient : h.client = .listening) :
    ∃ h', exec step h (List.replicate h.channel.inbox.length .relay) = some h'
      ∧ h'.channel.pending = []
      ∧ h'.channel.relayed = h.channel.relayed ++ h.channel.pending := by
  generalize hn : h.channel.inbox.length = n
  induction n generalizing h with
  | zero =>
    have hinbox : h.channel.inbox = [] := List.length_eq_zero_iff.mp hn
    have hpending : h.channel.pending = [] := by
      rw [Channel.pending, hinbox]
      rfl
    exact ⟨h, rfl, hpending, by rw [hpending, List.append_nil]⟩
  | succ n ih =>
    have hne : h.channel.inbox ≠ [] := by
      intro hnil
      rw [hnil] at hn
      cases hn
    obtain ⟨channel, htake⟩ := Channel.exists_take hne
    obtain ⟨hsame, -, -, hlength⟩ := Channel.relayed_append_pending_take htake
    obtain ⟨h', hexec, hpending, hrelayed⟩ := ih { h with channel := channel } hclient
      (Nat.succ_injective (hlength.trans hn))
    refine ⟨h', ?_, hpending, hrelayed.trans hsame⟩
    have hstep : h.step .relay = some { h with channel := channel } := by
      rw [step, hclient]
      exact Option.map_eq_some_iff.mpr ⟨channel, htake, rfl⟩
    rw [List.replicate_succ, exec, hstep]
    exact hexec

/-- What is late in a run is relayed or pending if none of it was published too
early. -/
theorem complete_of_audible {h : Hub} {es : List HubEvent} (hexec : exec step new es = some h)
    (haudible : Along step Audible new es) : h.Complete := by
  have hnew : new.WF ∧ new.Complete :=
    ⟨wf_new, fun _ ev hlate => absurd hlate List.not_mem_nil⟩
  exact ((Reaches.of_exec hexec haudible).inv (fun h => h.WF ∧ h.Complete)
    (fun _ _ _ hh hgood hstep => ⟨hh.1.step hstep, hh.2.step hh.1 hgood hstep⟩) hnew).2

/-- And some of it is missed otherwise. -/
theorem exists_missed {h : Hub} {es : List HubEvent} (hexec : exec step new es = some h)
    (hnot : ¬ Along step Audible new es) : ∃ ev ∈ h.late, h.Missed ev := by
  refine of_not_along WF (fun h => ∃ ev ∈ h.late, h.Missed ev) hexec
    (fun _ _ _ hwf hstep => hwf.step hstep)
    (fun _ _ _ hwf hstep hbad => hwf.missed_of_not_audible hbad hstep) ?_ wf_new hnot
  rintro _ _ _ hwf ⟨ev, hlate, hmissed⟩ hstep
  exact ⟨ev, hwf.late_step hlate hstep, hmissed.step hstep⟩

/-- **A connecting dashboard misses no event, unless one is published before it
subscribes.** In every interleaving of writes and publications, by any writers,
with the turns of a client that is still there: every event that was written
after the client read the key and has been published was relayed to it or is
pending, if and only if none was published before the subscription. And what is
pending is relayed as the client goes on, which then was relayed just what was
published since it subscribed, in order. -/
theorem relayed_iff {h : Hub} {es : List HubEvent} (hexec : exec step new es = some h)
    (hclient : h.client ≠ .gone) :
    ((∀ ev ∈ h.late, ev ∈ h.channel.published →
        ev ∈ h.channel.relayed ∨ ev ∈ h.channel.pending) ↔ Along step Audible new es)
      ∧ (h.client = .listening → ∃ n h', h.channel.since = some n
        ∧ exec step h (List.replicate h.channel.inbox.length .relay) = some h'
        ∧ h'.channel.pending = []
        ∧ h'.channel.relayed = h.channel.relayed ++ h.channel.pending
        ∧ h'.channel.relayed = h.channel.published.drop n) := by
  refine ⟨⟨fun hall => ?_, fun haudible => complete_of_audible hexec haudible hclient⟩,
    fun hlistening => ?_⟩
  · by_contra hnot
    obtain ⟨ev, hlate, hpub, hrelayed, hpending⟩ := exists_missed hexec hnot
    exact (hall ev hlate hpub).elim hrelayed hpending
  · have hwf : h.WF := inv_of_exec WF hexec (fun _ _ _ hwf hstep => hwf.step hstep) wf_new
    obtain ⟨n, hn⟩ := hwf.listening hlistening
    obtain ⟨h', hexec', hpending, hrelayed⟩ := h.exists_drained hlistening
    exact ⟨n, h', hn, hexec', hpending, hrelayed, hrelayed.trans (hwf.channel.since n hn).2⟩

/-- A client that is subscribed in time. -/
def inTime (e : Event) : List HubEvent := [.read, .write e, .replay, .subscribe, .publish e]

/-- What is written while it connects is relayed, where it is published
later. -/
theorem relayed_when_in_time :
    ∃ h, exec step new (inTime ⟨0, "built"⟩) = some h ∧ h.client = .listening
      ∧ ∀ ev ∈ h.late, ev ∈ h.channel.published →
        ev ∈ h.channel.relayed ∨ ev ∈ h.channel.pending := by
  refine ⟨_, rfl, rfl, ?_⟩
  exact (relayed_iff (rfl : exec step new (inTime ⟨0, "built"⟩) = some _) (by decide)).1.mpr
    (by decide)

/-- One that is not: a build fails after it read the key and before it
subscribes. -/
def tooLate (e : Event) : List HubEvent := [.read, .write e, .publish e, .replay, .subscribe]

/-- **The event of the failed build is not relayed**, whatever happens from
there on. -/
theorem missed_when_too_late :
    ∃ h, exec step new (tooLate ⟨0, "failed"⟩) = some h ∧ h.client = .listening
      ∧ ⟨0, "failed"⟩ ∈ h.late ∧ ⟨0, "failed"⟩ ∈ h.channel.published
      ∧ ∀ es h', exec step h es = some h' → ⟨0, "failed"⟩ ∉ h'.channel.relayed := by
  refine ⟨_, rfl, rfl, by decide, by decide, fun es h' hexec => ?_⟩
  have hmissed : h'.Missed ⟨0, "failed"⟩ :=
    inv_of_exec (fun h => h.Missed ⟨0, "failed"⟩) hexec
      (fun _ _ _ hmissed hstep => hmissed.step hstep) ⟨by decide, by decide, by decide⟩
  exact hmissed.2.1

end Hub

end Orchestrator
