import HftArena.Fleet.Shares

/-!
# The probe and the load

The worker that gets the lock probes the engine while the others wait for its
flag, but they look for it 120 times at most, and the lock of a run expires. So
no order of a load reaches the book before the probe is over as long as no
worker gives up before that, or comes so late that it becomes a second leader
(`alone_of_patient`).

The invariant is that whoever is past the barrier got there when the probe was
over (`Barred`), together with what it rests on: the flag is set by a leader
that has probed, and there is one leader.
-/

namespace Fleet

namespace Pos

/-- Not before the lock, nor in front of the engine: a leader there has
probed. -/
def Probed : Pos → Prop
  | .settling _ | .probing => False
  | _ => True

instance : ∀ pos : Pos, Decidable pos.Probed
  | .settling _ | .probing => isFalse id
  | .waiting | .registering | .refreshing | .electing | .flagging | .recording | .polling _
  | .napping _ _ | .counting | .loading | .reporting | .ended => isTrue trivial

/-- Before the lock. -/
def Unelected : Pos → Prop
  | .waiting | .registering | .refreshing | .electing => True
  | _ => False

/-- Where only the leader is. -/
def Leads : Pos → Prop
  | .settling _ | .probing | .flagging | .recording => True
  | _ => False

/-- Past the barrier. -/
def Past : Pos → Prop
  | .counting | .loading | .reporting | .ended => True
  | _ => False

end Pos

/-- What the place of a worker says of its role. -/
structure Member.Cast (m : Member) : Prop where
  unelected : m.pos.Unelected → m.isLeader = none
  leads : m.pos.Leads → m.isLeader = some true

namespace Member

variable {c : Config} {now : ℚ} {k k' : Keys} {i : ℕ} {m m' : Member} {e : MemberEvent}

/-- Before the start there are no roles. -/
theorem cast_new : new.Cast := ⟨fun _ => rfl, False.elim⟩

/-- A role is given where the lock is asked for, and nowhere else. -/
theorem Cast.step (h : m.Cast) (hstep : Steps c now k i m e m' k') : m'.Cast := by
  cases hstep with
  | starts hpos | registers hpos | refreshes hpos =>
    exact ⟨fun _ => h.unelected (by rw [hpos]; trivial), False.elim⟩
  | leads hpos => exact ⟨False.elim, fun _ => rfl⟩
  | settles _ hpos | probeOver hpos | flags hpos =>
    exact ⟨False.elim, fun _ => h.leads (by rw [hpos]; trivial)⟩
  | follows | givesUp | wakes | records | sees | naps | counts | reports =>
    exact ⟨False.elim, False.elim⟩
  | probed passed w hpos hw => exact ⟨h.unelected, h.leads⟩
  | loads e w hpos => exact ⟨h.unelected, h.leads⟩
  | finishes e w hpos =>
    constructor <;> intro hp <;> dsimp only at hp <;> split_ifs at hp <;> exact hp.elim

/-- A role is given once. -/
theorem isLeader_step (h : m.Cast) (hstep : Steps c now k i m e m' k') :
    m'.isLeader = m.isLeader ∨ e = .elect ∧ m.isLeader = none := by
  cases hstep with
  | leads hpos | follows _ hpos => exact Or.inr ⟨rfl, h.unelected (by rw [hpos]; trivial)⟩
  | _ => exact Or.inl rfl

/-- Nobody probes twice. -/
theorem probed_step (h : m.pos.Probed) (hstep : Steps c now k i m e m' k') :
    m'.pos.Probed ∨ e = .elect ∧ k.lock.get? now = none := by
  cases hstep with
  | leads _ hlock => exact Or.inr ⟨rfl, hlock⟩
  | settles _ hpos => rw [hpos] at h; exact h.elim
  | probed passed w hpos => exact Or.inl h
  | loads e w hpos => exact Or.inl h
  | finishes e w hpos =>
    refine Or.inl ?_
    dsimp only
    split_ifs <;> trivial
  | _ => exact Or.inl trivial

end Member

/-- A worker sends an order of its load. -/
def CrewEvent.Fires : CrewEvent → Prop
  | .member _ (.own (.bot _ _ (.fire _))) => True
  | _ => False

instance (e : CrewEvent) : Decidable e.Fires := by
  unfold CrewEvent.Fires
  split <;> infer_instance

namespace Crew

/-- **The probe of a run is over**: there is a leader, and none that has not
probed. -/
def ProbeOver (s : Crew) : Prop :=
  (∃ m ∈ s.members, m.isLeader = some true)
    ∧ ∀ m ∈ s.members, m.isLeader = some true → m.pos.Probed

instance (s : Crew) : Decidable s.ProbeOver := inferInstanceAs (Decidable (_ ∧ _))

/-- No order of a load is sent before the probe is over: if this step sends
one, it is over. -/
def Alone (s : Crew) (e : CrewEvent) : Prop := e.Fires → s.ProbeOver

instance (s : Crew) (e : CrewEvent) : Decidable (s.Alone e) :=
  inferInstanceAs (Decidable (_ → _))

/-- No worker gives up before the probe is over, or gets the lock after
another. The first is the last look at a flag that is not set yet; the second
needs a lock that has expired. -/
def Patient (s : Crew) : CrewEvent → Prop
  | .member i .wake => ∀ m ∈ s.members[i]?,
      (match m.pos with | .napping 0 _ => s.ProbeOver | _ => True)
  | .member _ .elect =>
    (∃ m ∈ s.members, m.isLeader = some true) → s.keys.lock.get? s.now ≠ none
  | _ => True

instance (pos : Pos) (P : Prop) [Decidable P] :
    Decidable (match pos with | .napping 0 _ => P | _ => True) := by
  split <;> infer_instance

instance (s : Crew) (e : CrewEvent) : Decidable (s.Patient e) := by
  unfold Patient
  split
  · exact inferInstanceAs (Decidable (∀ m ∈ s.members[_]?, _))
  · infer_instance
  · infer_instance

/-- Only this worker may be a leader. Before the lock is taken it can be
any. -/
def Led (s : Crew) (l : ℕ) : Prop :=
  ∀ i m, s.members[i]? = some m → m.isLeader = some true → i = l

/-- What keeps the load behind the probe. -/
structure Barred (s : Crew) : Prop where
  cast : ∀ m ∈ s.members, m.Cast
  led : ∃ l, s.Led l
  done : s.keys.done.All (fun _ => s.ProbeOver)
  past : ∀ m ∈ s.members, m.pos.Past → s.ProbeOver

/-- Before a run nobody is past the barrier. -/
theorem barred_new (n : ℕ) : (new n).Barred := by
  have hnew : ∀ m ∈ (new n).members, m = .new := fun m hm => List.eq_of_mem_replicate hm
  refine ⟨fun m hm => ?_, ⟨0, fun i m hm hl => ?_⟩, .empty, fun m hm hp => ?_⟩
  · rw [hnew m hm]
    exact Member.cast_new
  · rw [hnew m (List.mem_of_getElem? hm)] at hl
    cases hl
  · rw [hnew m hm] at hp
    exact hp.elim

variable {c : Config} {s s' : Crew} {e : CrewEvent}

/-- The probe is over when the leader has probed. -/
theorem Barred.probeOver (h : s.Barred) {m : Member} (hm : m ∈ s.members)
    (hlead : m.isLeader = some true) (hprobed : m.pos.Probed) : s.ProbeOver := by
  obtain ⟨l, hled⟩ := h.led
  obtain ⟨i, hi⟩ := List.mem_iff_getElem?.mp hm
  refine ⟨⟨m, hm, hlead⟩, fun m' hm' hlead' => ?_⟩
  obtain ⟨j, hj⟩ := List.mem_iff_getElem?.mp hm'
  obtain rfl := (hled i m hi hlead).trans (hled j m' hj hlead').symm
  cases hi.symm.trans hj
  exact hprobed

/-- It stays over. -/
theorem ProbeOver.step (h : s.ProbeOver) (hcast : ∀ m ∈ s.members, m.Cast) (hgood : s.Patient e)
    (hstep : s.step c e = some s') : s'.ProbeOver := by
  refine ⟨exists_step h.1 (fun _ _ hm => hm) (fun i e m m' k hm hlead hmember => ?_) hstep, ?_⟩
  · rcases Member.isLeader_step (hcast m hm) hmember with heq | ⟨-, hnone⟩
    · rw [heq, hlead]
    · cases hlead.symm.trans hnone
  · cases steps_of_step hstep with
    | tick secs => exact List.forall_mem_map.mpr h.2
    | member i e m m' k hm hmember =>
      have hmem := List.mem_of_getElem? hm
      refine forall_mem_set h.2 (fun hlead => ?_)
      by_cases hprobed : m.pos.Probed
      · -- there is a leader, so nobody gets the lock
        exact (Member.probed_step hprobed hmember).resolve_right
          (fun hlock => by obtain ⟨rfl, hnone⟩ := hlock; exact hgood h.1 hnone)
      · rcases Member.isLeader_step (hcast m hmem) hmember with heq | ⟨rfl, -⟩
        · exact absurd (h.2 m hmem (heq ▸ hlead)) hprobed
        · cases hmember with
          | leads hpos | follows _ hpos => rw [hpos] at hprobed; exact absurd trivial hprobed

/-- There is still one leader: whoever gets the lock is the first. -/
theorem Barred.led_step (h : s.Barred) (hgood : s.Patient e) (hstep : s.step c e = some s') :
    ∃ l, s'.Led l := by
  obtain ⟨l, hled⟩ := h.led
  cases steps_of_step hstep with
  | tick secs =>
    refine ⟨l, fun i m hm hlead => ?_⟩
    rw [List.getElem?_map] at hm
    obtain ⟨m₀, hm₀, rfl⟩ := Option.map_eq_some_iff.mp hm
    exact hled i m₀ hm₀ hlead
  | member i e m m' k hm hmember =>
    have hset : ∀ l, s.Led l → (m'.isLeader = some true → i = l) →
        Led { s with members := s.members.set i m', keys := k } l := by
      intro l hl hm' j m₀ hj hlead
      by_cases hij : i = j
      · subst hij
        rw [List.getElem?_set_self (List.getElem?_eq_some_iff.mp hm).1] at hj
        cases hj
        exact hm' hlead
      · rw [List.getElem?_set_ne hij] at hj
        exact hl j m₀ hj hlead
    rcases Member.isLeader_step (h.cast m (List.mem_of_getElem? hm)) hmember with heq | ⟨rfl, -⟩
    · exact ⟨l, hset l hled (fun hlead => hled i m hm (heq ▸ hlead))⟩
    · cases hmember with
      | follows => exact ⟨l, hset l hled nofun⟩
      | leads hpos hlock =>
        have hnobody : ∀ m ∈ s.members, m.isLeader ≠ some true :=
          fun m hm hlead => hgood ⟨m, hm, hlead⟩ hlock
        exact ⟨i, hset i (fun j m₀ hj hlead => absurd hlead (hnobody m₀ (List.mem_of_getElem? hj)))
          (fun _ => rfl)⟩

/-- A worker gets past the barrier when the probe is over. -/
theorem Barred.past_step (h : s.Barred) {i : ℕ} {m m' : Member} {e : MemberEvent} {k : Keys}
    (hgood : s.Patient (.member i e)) (hm : s.members[i]? = some m)
    (hmember : Member.Steps c s.now s.keys i m e m' k) (hpast : m'.pos.Past) : s.ProbeOver := by
  have hmem := List.mem_of_getElem? hm
  cases hmember with
  | givesUp t hpos =>
    have hwait := hgood m hm
    rw [hpos] at hwait
    exact hwait
  | sees n hpos hdone => exact h.done.get? hdone
  | records hpos =>
    exact h.probeOver hmem ((h.cast m hmem).leads (by rw [hpos]; trivial)) (by rw [hpos]; trivial)
  | counts w hpos | finishes e w hpos | reports hpos => exact h.past m hmem (by rw [hpos]; trivial)
  | probed passed w hpos | loads e w hpos => exact h.past m hmem hpast
  | _ => exact hpast.elim

/-- **Every patient step keeps it.** -/
theorem Barred.step (h : s.Barred) (hgood : s.Patient e) (hstep : s.step c e = some s') :
    s'.Barred := by
  have hover : s.ProbeOver → s'.ProbeOver := fun ho => ho.step h.cast hgood hstep
  have hkept : s.keys.done.All (fun _ => s'.ProbeOver) := fun d hd => hover (h.done d hd)
  have hpast : ∀ m ∈ s.members, m.pos.Past → s'.ProbeOver := fun m hm hp => hover (h.past m hm hp)
  refine ⟨forall_step h.cast (fun _ _ hm => ⟨hm.unelected, hm.leads⟩)
    (fun _ _ _ _ _ hm hmember => hm.step hmember) hstep, h.led_step hgood hstep, ?_, ?_⟩
  · cases steps_of_step hstep with
    | tick secs => exact hkept
    | member i e m m' k hm hmember =>
      have hmem := List.mem_of_getElem? hm
      cases hmember with
      | flags hpos =>
        refine .set (hover (h.probeOver hmem ((h.cast m hmem).leads ?_) ?_)) <;>
          rw [hpos] <;> trivial
      | _ => exact hkept
  · cases steps_of_step hstep with
    | tick secs => exact List.forall_mem_map.mpr hpast
    | member i e m m' k hm hmember =>
      exact forall_mem_set hpast (fun hp => hover (h.past_step hgood hm hmember hp))

/-- A load that fires is past the barrier. -/
theorem Barred.alone (h : s.Barred) (hstep : s.step c e = some s') : s.Alone e := by
  intro hfires
  cases steps_of_step hstep with
  | tick => exact hfires.elim
  | member i e m m' k hm hmember =>
    cases hmember with
    | loads e w hpos | finishes e w hpos =>
      exact h.past m (List.mem_of_getElem? hm) (by rw [hpos]; trivial)
    | _ => exact hfires.elim

/-- **The probe is alone on the book as long as the workers are patient.** For
every number of workers, however long the probe takes, and in every order of
steps.

A worker that has waited out its looks goes on to its load, although the leader
may still be at the probe. Patience is that no worker takes this way out before
the probe is over, and that none is elected after another. -/
theorem alone_of_patient (c : Config) (n : ℕ) {s : Crew} {es : List CrewEvent}
    (hexec : exec (step c) (new n) es = some s) (h : Along (step c) Patient (new n) es) :
    Along (step c) Alone (new n) es :=
  along_of_inv Barred hexec (fun _ _ _ hs hgood hstep => ⟨hs.step hgood hstep, hs.alone hstep⟩)
    (barred_new n) h

/-- The bot of a worker's sweep connects and sends an order. -/
def fires (i : ℕ) : List CrewEvent :=
  [.member i (.own .begin), .member i (.own .main), .member i (.own (.bot 0 0 (.connect true 1000))),
    .member i (.own (.bot 0 0 .test)), .tick 1, .member i (.own (.bot 0 0 .wake)),
    .member i (.own (.bot 0 0 (.fire 0)))]

/-- The second worker sees the flag when it looks the second time. -/
def quickProbe : List CrewEvent :=
  registers 0 ++ registers 1
    ++ [.member 0 .elect, .member 1 .elect, .member 1 .poll, .tick (3 / 2), .member 0 .wake,
      .member 0 .probeOver, .member 0 .flag, .member 1 .wake, .member 1 .poll, .member 1 .count]
    ++ fires 1

theorem alone_when_quick :
    ∃ s, exec (step twoWorkers) (new 2) quickProbe = some s
      ∧ Along (step twoWorkers) Alone (new 2) quickProbe := by
  obtain ⟨s, hs⟩ := Option.isSome_iff_exists.mp
    (by decide +kernel : (exec (step twoWorkers) (new 2) quickProbe).isSome)
  exact ⟨s, hs, alone_of_patient twoWorkers 2 hs (by decide +kernel)⟩

/-- The engine takes its time to answer the probe, and the second worker looks
for the flag as often as it does. -/
def slowProbe : List CrewEvent :=
  registers 0 ++ registers 1
    ++ [.member 0 .elect, .member 1 .elect, .tick (3 / 2), .member 0 .wake]
    ++ (List.replicate 120 [.member 1 .poll, .tick (1 / 10), .member 1 .wake]).flatten
    ++ .member 1 .count :: fires 1 ++ [.member 0 (.probed true), .member 0 .probeOver]

/-- **The second worker gives up**, and sends an order in the middle of the
probe. -/
theorem not_alone_when_slow :
    (exec (step twoWorkers) (new 2) slowProbe).isSome
      ∧ ¬ Along (step twoWorkers) Alone (new 2) slowProbe := by
  decide +kernel

end Crew

end Fleet
