import Mathlib.Data.List.ReduceOption

/-!
# A channel and a subscriber

A message that is published on a channel goes to those who are subscribed to it
then, and to nobody later. What a subscriber has taken and what there still is
for it to take are therefore, with its confirmation left out, what was
published since it subscribed (`WF`): nothing is lost, doubled or overtaken in
between.

What was published before is not seen at all. A subscriber that needs to know
it has to look elsewhere, and what is published between its look and its
subscription is in neither place.
-/

variable {α : Type}

/-- **A channel**, as one subscriber sees it. -/
structure Channel (α : Type) where
  /-- What was published, in order. -/
  published : List α
  /-- How much had been published when the subscription began. -/
  since : Option ℕ
  /-- What there is to take; `none` is the confirmation of the subscription. -/
  inbox : List (Option α)
  /-- What the subscriber has taken since it subscribed. -/
  taken : List (Option α)

namespace Channel

/-- A channel on which nothing was published. -/
def new : Channel α := ⟨[], none, [], []⟩

/-- A message goes to the subscriber, if it is one. The channel itself keeps
nothing of it for later. -/
def publish (c : Channel α) (a : α) : Channel α :=
  { c with published := c.published ++ [a],
           inbox := if c.since.isSome then c.inbox ++ [some a] else c.inbox }

/-- The subscription begins, with its confirmation, which comes before every
message. -/
def subscribe (c : Channel α) : Channel α :=
  { c with since := some c.published.length, inbox := [none], taken := [] }

/-- What comes next is taken, if there is something. -/
def take (c : Channel α) : Option (Channel α) :=
  match c.inbox with
  | [] => none
  | item :: items => some { c with inbox := items, taken := c.taken ++ [item] }

/-- The subscription ends, and what was not taken is lost. -/
def unsubscribe (c : Channel α) : Channel α := { c with since := none, inbox := [] }

/-- The messages that were taken. -/
def relayed (c : Channel α) : List α := c.taken.reduceOption

/-- The messages there are to take. -/
def pending (c : Channel α) : List α := c.inbox.reduceOption

theorem pending_publish {c : Channel α} {n : ℕ} (h : c.since = some n) (a : α) :
    (c.publish a).pending = c.pending ++ [a] := by
  show (if c.since.isSome then c.inbox ++ [some a] else c.inbox).reduceOption = _
  rw [h, if_pos Option.isSome_some, List.reduceOption_append]
  rfl

theorem inbox_publish_of_none {c : Channel α} (h : c.since = none) (a : α) :
    (c.publish a).inbox = c.inbox := by
  show (if c.since.isSome then _ else c.inbox) = _
  rw [h]
  rfl

/-- What is pending stays so. -/
theorem mem_publish_pending {c : Channel α} {b : α} (h : b ∈ c.pending) (a : α) :
    b ∈ (c.publish a).pending := by
  cases hsince : c.since with
  | none =>
    rw [pending, inbox_publish_of_none hsince]
    exact h
  | some n =>
    rw [pending_publish hsince]
    exact List.mem_append_left _ h

/-- A message that is published is pending, or nothing changes for the
subscriber. -/
theorem mem_pending_publish {c : Channel α} {a b : α} (h : b ∈ (c.publish a).pending) :
    b ∈ c.pending ∨ b = a := by
  cases hsince : c.since with
  | none =>
    rw [pending, inbox_publish_of_none hsince] at h
    exact Or.inl h
  | some n =>
    rw [pending_publish hsince] at h
    exact (List.mem_append.mp h).imp_right List.mem_singleton.mp

/-- **What is taken is what was pending.** -/
theorem relayed_append_pending_take {c c' : Channel α} (h : c.take = some c') :
    c'.relayed ++ c'.pending = c.relayed ++ c.pending ∧ c'.published = c.published
      ∧ c'.since = c.since ∧ c'.inbox.length + 1 = c.inbox.length := by
  unfold take at h
  cases hinbox : c.inbox with
  | nil =>
    rw [hinbox] at h
    cases h
  | cons item items =>
    rw [hinbox] at h
    cases h
    refine ⟨?_, rfl, rfl, rfl⟩
    show (c.taken ++ [item]).reduceOption ++ items.reduceOption = c.relayed ++ c.pending
    rw [relayed, pending, hinbox, ← List.reduceOption_append, ← List.reduceOption_append,
      List.append_assoc, List.singleton_append]

/-- **The subscriber gets what is published since it subscribed**, each message
once and in order: what it took and what is pending are what was published
since then. Without a subscription there is nothing to take. -/
structure WF (c : Channel α) : Prop where
  since : ∀ n, c.since = some n → n ≤ c.published.length
    ∧ c.relayed ++ c.pending = c.published.drop n
  idle : c.since = none → c.inbox = []

/-- So it is before anything was published. -/
theorem wf_new : (new : Channel α).WF where
  since := fun n hn => by cases hn
  idle := fun _ => rfl

namespace WF

variable {c c' : Channel α}

theorem publish (h : c.WF) (a : α) : (c.publish a).WF := by
  refine ⟨fun n hn => ?_, fun hnone => ?_⟩
  · have hsince : c.since = some n := hn
    obtain ⟨hle, heq⟩ := h.since n hsince
    refine ⟨Nat.le_trans hle (by simp [Channel.publish]), ?_⟩
    show c.relayed ++ (c.publish a).pending = (c.published ++ [a]).drop n
    rw [pending_publish hsince, ← List.append_assoc, heq, List.drop_append_of_le_length hle]
  · have hsince : c.since = none := hnone
    rw [inbox_publish_of_none hsince]
    exact h.idle hsince

theorem subscribe (c : Channel α) : c.subscribe.WF := by
  refine ⟨fun n hn => ?_, (fun hnone => by cases hnone)⟩
  cases hn
  exact ⟨Nat.le_refl _, List.drop_length.symm⟩

theorem unsubscribe (c : Channel α) : c.unsubscribe.WF where
  since := fun n hn => by cases hn
  idle := fun _ => rfl

theorem take (h : c.WF) (htake : c.take = some c') : c'.WF := by
  obtain ⟨hsame, hpublished, hsince, hlength⟩ := relayed_append_pending_take htake
  refine ⟨fun n hn => ?_, fun hnone => ?_⟩
  · rw [hsince] at hn
    rw [hpublished, hsame]
    exact h.since n hn
  · rw [hsince] at hnone
    rw [h.idle hnone] at hlength
    cases hlength

end WF

/-- There is something to take as long as the inbox is not empty. -/
theorem exists_take {c : Channel α} (h : c.inbox ≠ []) : ∃ c', c.take = some c' := by
  unfold take
  cases hinbox : c.inbox with
  | nil => exact absurd hinbox h
  | cons item items => exact ⟨_, rfl⟩

end Channel
