import HftArena.Fleet.Crew
import HftArena.Fleet.Window
import Mathlib.Data.Finset.Card
import Mathlib.Order.Interval.Finset.Nat
import Mathlib.Tactic.FieldSimp

/-!
# The shares of a rate

A worker offers its share of a rate, by the number of workers it has counted,
and no less than one order a second. The tag of its samples has the whole rate.

The count is a read of the set in which the workers register, each when it gets
to it. So the shares add up to the rate if and only if no worker counts before
the last has registered, and the rate has an order a second for each of them
(`splits_iff`).

What a worker offers is a mean rate, as the interval between two wake-ups gives
it: the number of bots times the orders of a burst, over the interval. That all
bots start at once, and that they may be held up, is not in it.
-/

namespace Fleet

namespace Config

variable (c : Config)

/-- `state.interval` of the sweep. -/
def sweepInterval (rate : ℕ) : ℚ := max c.nSweep 1 / max (c.share rate) 1

/-- `state.interval` of the microbursts. -/
def burstInterval (rate : ℕ) : ℚ := max c.nSweep 1 * c.burstSize / max (c.share rate) 1

/-- The script of the sweep, with the interval by its name. -/
theorem script_runSweep : c.runSweep.script = c.sweepRates.flatMap (fun rate =>
    [.pace (c.sweepInterval rate), .tagRate 0, .sleep 1, .tagRate rate, .sleep c.stepSecs]) := rfl

/-- The script of the bursts. -/
theorem script_runBurst (h : c.burstRates ≠ []) :
    c.runBurst.map Spec.script = some (c.burstRates.flatMap (fun rate =>
      [.pace (c.burstInterval rate), .tagRate 0, .sleep 1, .tagRate rate,
        .sleep c.burstStepSecs])) := by
  unfold runBurst
  rw [if_neg (by rw [List.isEmpty_iff]; exact h)]
  rfl

/-- The mean rate of the orders of the sweep: a pool without bots offers
nothing. -/
def sweepOffer (rate : ℕ) : ℚ := c.nSweep / c.sweepInterval rate

/-- The mean rate of the orders of the microbursts. -/
def burstOffer (rate : ℕ) : ℚ := c.nSweep * c.burstSize / c.burstInterval rate

/-- A bot pool that fires so many orders at a time offers the share, which is
one order a second at least, or nothing. -/
theorem offer_eq (n b : ℕ) (x : ℚ) (hx : 0 < x) :
    (n * b : ℚ) / (max n 1 * b / x) = if 0 < n * b then x else 0 := by
  split_ifs with h
  · have hn : 0 < n := Nat.pos_of_mul_pos_right h
    have hb : 0 < b := Nat.pos_of_mul_pos_left h
    have hn' : (n : ℚ) ≠ 0 := Nat.cast_ne_zero.mpr hn.ne'
    have hb' : (b : ℚ) ≠ 0 := Nat.cast_ne_zero.mpr hb.ne'
    rw [max_eq_left hn]
    field_simp
  · have hnb : (n * b : ℚ) = 0 := by
      rw [← Nat.cast_mul, Nat.eq_zero_of_not_pos h, Nat.cast_zero]
    rw [hnb, zero_div]

/-- The bursts offer the share, or nothing. -/
theorem burstOffer_eq (rate : ℕ) :
    c.burstOffer rate = if 0 < c.nSweep * c.burstSize then max (c.share rate) 1 else 0 :=
  offer_eq c.nSweep c.burstSize (max (c.share rate) 1) (lt_of_lt_of_le one_pos (le_max_right _ _))

/-- So does the sweep. -/
theorem sweepOffer_eq (rate : ℕ) :
    c.sweepOffer rate = if 0 < c.nSweep then max (c.share rate) 1 else 0 := by
  have h := offer_eq c.nSweep 1 (max (c.share rate) 1) (lt_of_lt_of_le one_pos (le_max_right _ _))
  rw [Nat.cast_one, mul_one, mul_one, mul_one] at h
  exact h

end Config

/-- A rate that so many workers can split, each with some orders at a time:
there is one order a second for each of them, or there is nothing to split. -/
def Fits (orders n rate : ℕ) : Prop := 0 < orders ∧ n ≤ rate ∨ orders = 0 ∧ rate = 0

instance (orders n rate : ℕ) : Decidable (Fits orders n rate) :=
  inferInstanceAs (Decidable (_ ∨ _))

/-- Shares that are one order a second at least add up to what they are of, or
to more. -/
theorem mul_share_eq_iff {orders n rate : ℕ} (hn : 0 < n) :
    n * (if 0 < orders then max ((rate : ℚ) / n) 1 else 0) = rate ↔ Fits orders n rate := by
  have hn' : (0 : ℚ) < n := Nat.cast_pos.mpr hn
  by_cases h : 0 < orders
  · rw [if_pos h, mul_max_of_nonneg _ _ hn'.le, mul_one, mul_div_cancel₀ _ hn'.ne', max_eq_left_iff,
      Nat.cast_le]
    exact ⟨fun hle => Or.inl ⟨h, hle⟩, fun hfits => (hfits.resolve_right (fun hz => h.ne' hz.1)).2⟩
  · rw [if_neg h, mul_zero, eq_comm, Nat.cast_eq_zero]
    exact ⟨fun hz => Or.inr ⟨Nat.eq_zero_of_not_pos h, hz⟩,
      fun hfits => (hfits.resolve_left (fun hpos => h hpos.1)).2⟩

/-- The rates of a run can be split by so many workers. -/
def Config.Splittable (c : Config) (n : ℕ) : Prop :=
  (∀ rate ∈ c.sweepRates, Fits c.nSweep n rate)
    ∧ ∀ rate ∈ c.burstRates, Fits (c.nSweep * c.burstSize) n rate

instance (c : Config) (n : ℕ) : Decidable (c.Splittable n) :=
  inferInstanceAs (Decidable (_ ∧ _))

/-- A list of different numbers below a bound is as long as the bound if and
only if it has them all. -/
theorem length_eq_iff {l : List ℕ} {n : ℕ} (hnodup : l.Nodup) (hlt : ∀ i ∈ l, i < n) :
    l.length = n ↔ ∀ i < n, i ∈ l := by
  have hsub : l.toFinset ⊆ Finset.range n := fun i hi =>
    Finset.mem_range.mpr (hlt i (List.mem_toFinset.mp hi))
  rw [← List.toFinset_card_of_nodup hnodup]
  constructor
  · intro hcard i hi
    have heq := Finset.eq_of_subset_of_card_le hsub (by rw [Finset.card_range, hcard])
    exact List.mem_toFinset.mp (heq ▸ Finset.mem_range.mpr hi)
  · intro hall
    have heq : l.toFinset = Finset.range n :=
      hsub.antisymm (fun i hi => List.mem_toFinset.mpr (hall i (Finset.mem_range.mp hi)))
    rw [heq, Finset.card_range]

/-- The workers that are registered at a time. -/
def Keys.registered (k : Keys) (now : ℚ) : List ℕ := (k.fleet.get? now).getD []

namespace Crew

/-- **The load is split exactly**: the workers have counted each other, and
what they offer adds up to what they tag. -/
def Splits (c : Config) (s : Crew) : Prop :=
  ∀ m ∈ s.members, m.fleetN = some s.members.length
    ∧ (∀ rate ∈ c.sweepRates, (s.members.map (fun m => (m.config c).sweepOffer rate)).sum = rate)
    ∧ ∀ rate ∈ c.burstRates, (s.members.map (fun m => (m.config c).burstOffer rate)).sum = rate

/-- A worker counts when all are registered, if there is another. One that is
alone counts one in any case. -/
def CountsAll (s : Crew) : CrewEvent → Prop
  | .member _ .count =>
    1 < s.members.length → ∀ i < s.members.length, i ∈ s.keys.registered s.now
  | _ => True

instance (s : Crew) : ∀ e, Decidable (s.CountsAll e) := fun e => by
  unfold CountsAll
  split <;> infer_instance

/-! ## What the workers count

The members of a set that only grows. Whoever counts when all have registered
counts right, and whoever does not counts too few. -/

/-- What the set of a run holds: workers of the run, each once. -/
def Registers (n : ℕ) (l : List ℕ) : Prop := l.Nodup ∧ ∀ i ∈ l, i < n

/-- A worker that registers is entered once. -/
theorem Registers.insert {n i : ℕ} {l : List ℕ} (h : Registers n l) (hi : i < n) :
    Registers n (l.insert i) := by
  refine ⟨h.1.insert, fun j hj => ?_⟩
  rcases List.mem_insert_iff.mp hj with rfl | hj
  · exact hi
  · exact h.2 j hj

/-- **A count is right if and only if all are registered**, if there is
another. -/
theorem max_scard_eq_iff {n : ℕ} {k : Keys} (now : ℚ) (hn : 0 < n) (h : k.fleet.All (Registers n)) :
    max 1 (k.scard now) = n ↔ (1 < n → ∀ i < n, i ∈ k.registered now) := by
  have hreg : Registers n (k.registered now) := by
    unfold Keys.registered
    cases hget : k.fleet.get? now with
    | none => exact ⟨List.nodup_nil, nofun⟩
    | some l => exact h.get? hget
  have hcard : (k.registered now).length = n ↔ _ := length_eq_iff hreg.1 hreg.2
  have hle : (k.registered now).length ≤ n := by
    rw [← List.toFinset_card_of_nodup hreg.1, ← Finset.card_range n]
    exact Finset.card_le_card (fun i hi => Finset.mem_range.mpr (hreg.2 i (List.mem_toFinset.mp hi)))
  rw [← hcard]
  show max 1 (k.registered now).length = n ↔ _
  omega

/-- What holds of the registered and the counts at any time. -/
structure Counts (n : ℕ) (s : Crew) : Prop where
  length : s.members.length = n
  registers : s.keys.fleet.All (Registers n)
  tidy : ∀ m ∈ s.members, m.Tidy

variable {c : Config} {n : ℕ} {s s' : Crew} {e : CrewEvent}

/-- Before a run nobody is registered. -/
theorem counts_new (n : ℕ) : (new n).Counts n :=
  ⟨List.length_replicate, .empty, tidy_new n⟩

/-- Every step keeps it. -/
theorem Counts.step (h : s.Counts n) (hstep : s.step c e = some s') : s'.Counts n := by
  refine ⟨(length_step hstep).trans h.length, ?_, tidy_step h.tidy hstep⟩
  cases steps_of_step hstep with
  | tick => exact h.registers
  | member i e m m' k hm hmember =>
    have hi : i < n := h.length ▸ (List.getElem?_eq_some_iff.mp hm).1
    cases hmember with
    | registers =>
      exact h.registers.update ⟨List.nodup_singleton i, fun j hj =>
        by cases List.mem_singleton.mp hj; exact hi⟩
        (fun l hl => hl.insert hi)
    | refreshes => exact h.registers.expire
    | _ => exact h.registers

/-- A count that was read stays. -/
theorem Counts.fleetN (h : s.Counts n) (hstep : s.step c e = some s') {x : ℕ}
    (hx : ∃ m ∈ s.members, m.fleetN = some x) : ∃ m ∈ s'.members, m.fleetN = some x := by
  refine exists_step hx (fun _ _ hm => hm) (fun i e m m' k hm hx hmember => ?_) hstep
  rw [Member.fleetN_step hmember, if_neg, hx]
  rintro rfl
  have hcounted := (h.tidy m hm).counted_iff.mp (by rw [hx]; nofun)
  cases hmember with
  | counts w hpos => rw [hpos] at hcounted; exact hcounted

/-- A worker that counts when all are registered gets it right. -/
theorem Counts.right (h : s.Counts n) (hstep : s.step c e = some s') (hgood : s.CountsAll e)
    (hall : ∀ m ∈ s.members, m.fleetN = none ∨ m.fleetN = some n) :
    ∀ m ∈ s'.members, m.fleetN = none ∨ m.fleetN = some n := by
  cases steps_of_step hstep with
  | tick secs => exact List.forall_mem_map.mpr hall
  | member i e m m' k hm hmember =>
    refine forall_mem_set hall ?_
    rw [Member.fleetN_step hmember]
    split_ifs with he
    · subst he
      have hn : 0 < n := h.length ▸ List.length_pos_of_mem (List.mem_of_getElem? hm)
      refine Or.inr (congrArg some ((max_scard_eq_iff s.now hn h.registers).mpr ?_))
      rw [← h.length]
      exact hgood
    · exact hall m (List.mem_of_getElem? hm)

/-- A worker that counts too early gets it wrong. -/
theorem Counts.wrong (h : s.Counts n) (hstep : s.step c e = some s') (hbad : ¬ s.CountsAll e) :
    ∃ m ∈ s'.members, ∃ x, m.fleetN = some x ∧ x ≠ n := by
  cases steps_of_step hstep with
  | tick secs => exact absurd trivial hbad
  | member i e m m' k hm hmember =>
    have hi := (List.getElem?_eq_some_iff.mp hm).1
    cases e with
    | count =>
      refine ⟨m', List.mem_set hi m', _, by rw [Member.fleetN_step hmember, if_pos rfl],
        fun heq => hbad ?_⟩
      have hn : 0 < n := h.length ▸ List.length_pos_of_mem (List.mem_of_getElem? hm)
      show 1 < s.members.length → _
      rw [h.length]
      exact (max_scard_eq_iff s.now hn h.registers).mp heq
    | _ => exact absurd trivial hbad

/-- What workers that have counted each other offer together. -/
theorem sum_offer (offer : Config → ℚ) {x : ℚ} (hlen : s.members.length = n)
    (hall : ∀ m ∈ s.members, offer (m.config c) = x) :
    (s.members.map (fun m => offer (m.config c))).sum = n * x := by
  rw [List.map_congr_left hall, List.map_const', List.sum_replicate, hlen, nsmul_eq_mul]

/-- What they offer together in the sweep. -/
theorem sum_sweepOffer (hlen : s.members.length = n) (hall : ∀ m ∈ s.members, m.fleetN = some n)
    (rate : ℕ) : (s.members.map (fun m => (m.config c).sweepOffer rate)).sum
      = n * (if 0 < c.nSweep then max ((rate : ℚ) / n) 1 else 0) := by
  refine sum_offer (·.sweepOffer rate) hlen (fun m hm => ?_)
  rw [Config.sweepOffer_eq, Config.share, Member.config, hall m hm]
  rfl

/-- What they offer together in bursts. -/
theorem sum_burstOffer (hlen : s.members.length = n) (hall : ∀ m ∈ s.members, m.fleetN = some n)
    (rate : ℕ) : (s.members.map (fun m => (m.config c).burstOffer rate)).sum
      = n * (if 0 < c.nSweep * c.burstSize then max ((rate : ℚ) / n) 1 else 0) := by
  refine sum_offer (·.burstOffer rate) hlen (fun m hm => ?_)
  rw [Config.burstOffer_eq, Config.share, Member.config, hall m hm]
  rfl

/-- Where all counts are right, the load is split if it can be. -/
theorem splits_iff_splittable (hlen : s.members.length = n)
    (hall : ∀ m ∈ s.members, m.fleetN = some n) : s.Splits c ↔ (0 < n → c.Splittable n) := by
  have hsweep : ∀ hn : 0 < n, ∀ rate, _ ↔ _ := fun hn rate =>
    (Eq.congr_left (sum_sweepOffer (c := c) hlen hall rate)).trans (mul_share_eq_iff hn)
  have hburst : ∀ hn : 0 < n, ∀ rate, _ ↔ _ := fun hn rate =>
    (Eq.congr_left (sum_burstOffer (c := c) hlen hall rate)).trans (mul_share_eq_iff hn)
  constructor
  · intro h hn
    obtain ⟨m, hm⟩ := List.exists_mem_of_length_pos (hlen ▸ hn)
    obtain ⟨-, hs, hb⟩ := h m hm
    exact ⟨fun rate hr => (hsweep hn rate).mp (hs rate hr),
      fun rate hr => (hburst hn rate).mp (hb rate hr)⟩
  · intro h m hm
    have hn : 0 < n := hlen ▸ List.length_pos_of_mem hm
    exact ⟨hlen.symm ▸ hall m hm, fun rate hr => (hsweep hn rate).mpr ((h hn).1 rate hr),
      fun rate hr => (hburst hn rate).mpr ((h hn).2 rate hr)⟩

/-- **The load is split exactly if and only if the counts come late** and the
rates can be split. For every number of workers and every order of their steps,
once all have counted.

A worker divides by the number of those that have registered when it counts. If
one counts too early its share is too large, and no other share makes up for
it. -/
theorem splits_iff (c : Config) {n : ℕ} {s : Crew} {es : List CrewEvent}
    (hexec : exec (step c) (new n) es = some s) (hread : ∀ m ∈ s.members, m.fleetN ≠ none) :
    s.Splits c ↔ Along (step c) CountsAll (new n) es ∧ (0 < n → c.Splittable n) := by
  have hlen : s.members.length = n := length_exec hexec
  by_cases h : Along (step c) CountsAll (new n) es
  · obtain ⟨-, hright⟩ := Reaches.inv
      (fun s => Counts n s ∧ ∀ m ∈ s.members, m.fleetN = none ∨ m.fleetN = some n)
      (fun s e s' hs hgood hstep => ⟨hs.1.step hstep, hs.1.right hstep hgood hs.2⟩)
      ⟨counts_new n, fun m hm => by rw [List.eq_of_mem_replicate hm]; exact Or.inl rfl⟩
      (Reaches.of_exec hexec h)
    rw [and_iff_right h]
    exact splits_iff_splittable hlen (fun m hm => (hright m hm).resolve_left (hread m hm))
  · refine iff_of_false (fun hs => ?_) (fun hand => h hand.1)
    obtain ⟨m, hm, x, hx, hne⟩ := of_not_along (Counts n)
      (fun s => ∃ m ∈ s.members, ∃ x, m.fleetN = some x ∧ x ≠ n) hexec
      (fun _ _ _ hs hstep => hs.step hstep) (fun _ _ _ hs hstep hbad => hs.wrong hstep hbad)
      (fun s e s' hs hw hstep => by
        obtain ⟨m, hm, x, hx, hne⟩ := hw
        obtain ⟨m', hm', hx'⟩ := hs.fleetN hstep ⟨m, hm, hx⟩
        exact ⟨m', hm', x, hx', hne⟩) (counts_new n) h
    have heq := (hs m hm).1
    rw [hx, hlen] at heq
    exact hne (Option.some_inj.mp heq)

/-- Two workers at one rate, with one bot for the sweep. -/
def twoWorkers : Config := { Worker.oneBot 32 with sweepBots := 1 }

/-- The first worker up to the count. -/
def firstCounts : List CrewEvent :=
  [.member 0 .elect, .tick (3 / 2), .member 0 .wake, .member 0 .probeOver, .member 0 .flag,
    .member 0 .record, .member 0 .count]

/-- A worker registers. -/
def registers (i : ℕ) : List CrewEvent := [.member i .start, .member i .sadd, .member i .expire]

/-- The second worker finds the done flag set. -/
def secondCounts : List CrewEvent := [.member 1 .elect, .member 1 .poll, .member 1 .count]

/-- Both register while the first settles. -/
theorem splits_when_registered :
    ∃ s, exec (step twoWorkers) (new 2) (registers 0 ++ registers 1 ++ firstCounts ++ secondCounts)
        = some s
      ∧ s.Splits twoWorkers := by
  have hrun : ∃ s ∈ exec (step twoWorkers) (new 2)
      (registers 0 ++ registers 1 ++ firstCounts ++ secondCounts),
      ∀ m ∈ s.members, m.fleetN ≠ none := by decide +kernel
  obtain ⟨s, hs, hread⟩ := hrun
  exact ⟨s, hs, (splits_iff twoWorkers hs hread).mpr (by decide +kernel)⟩

/-- **The second worker gets the start after the first has counted**: they
count one and two, and offer 7500 orders a second under the tag 5000. -/
theorem not_splits_when_late :
    ∃ s, exec (step twoWorkers) (new 2) (registers 0 ++ firstCounts ++ registers 1 ++ secondCounts)
        = some s
      ∧ s.members.map Member.fleetN = [some 1, some 2]
      ∧ (s.members.map (fun m => (m.config twoWorkers).sweepOffer 5000)).sum = 7500
      ∧ ¬ s.Splits twoWorkers := by
  have hrun : ∃ s ∈ exec (step twoWorkers) (new 2)
      (registers 0 ++ firstCounts ++ registers 1 ++ secondCounts),
      s.members.map Member.fleetN = [some 1, some 2]
        ∧ (s.members.map (fun m => (m.config twoWorkers).sweepOffer 5000)).sum = 7500 := by
    decide +kernel
  obtain ⟨s, hs, hcounts, hsum⟩ := hrun
  refine ⟨s, hs, hcounts, hsum, fun h => ?_⟩
  have hlen : s.members.length = 2 := length_exec hs
  obtain ⟨m, hm⟩ := List.exists_mem_of_length_pos (hlen ▸ Nat.zero_lt_two)
  have heq := (h m hm).2.1 5000 List.mem_cons_self
  rw [hsum] at heq
  norm_num at heq

end Crew

end Fleet
