import Mathlib.Algebra.BigOperators.Fin
import HftArena.Lib.Covering
import HftArena.Telemetry.Peak

/-!
# The peak and the schedules

The peak of a run depends on two schedules: when the records of the fleet's
flushes arrive, and when snapshots are taken. Here the schedules are given by
themselves – the times at which each worker flushes, and the order in which its
records and the snapshots come – and the question is whether there is any fleet
that sends at most `rho` a second and is said to peak above.

There is none exactly if the schedule is *timely* (`peakTps_le_all_iff`):
between two snapshots that are compared only records arrive whose flush
intervals can be covered by flush intervals that are together no longer than
the time between the snapshots. What is sent in a covering is bounded interval
by interval, and what arrives was sent in it. A schedule that is not timely is
not saved by the bound either: then a fleet can send where covering is dear,
and have more arrive than the time between the snapshots allows.

Records that are late, or bunched by the transport, are what makes a schedule
untimely, and so are snapshots that split a flush interval: whole records are
counted at the times at which they arrive.
-/

open Fleet

namespace Telemetry

/-! ## The fleet

When it flushes is given, and what it has counted is open. -/

/-- **When a worker flushes**, after it has read its baselines. Time goes on
from one flush to the next. -/
structure Timetable where
  start : ℚ
  flushes : List ℚ
  sorted : (start :: flushes).Pairwise (· < ·)

/-- The intervals between a time and later ones. -/
def intervalsFrom : ℚ → List ℚ → List (ℚ × ℚ)
  | _, [] => []
  | t, t' :: ts => (t, t') :: intervalsFrom t' ts

/-- Its flush intervals. -/
def Timetable.intervals (w : Timetable) : List (ℚ × ℚ) := intervalsFrom w.start w.flushes

/-- **What a worker has counted** as time goes by: of the orders sent, more and
more. -/
structure Counters where
  stats : ℚ → Stats
  monotone : Monotone (fun t => (stats t).sent)

/-- What it transmits at the end of a flush interval, if it does. -/
def Timetable.record (w : Timetable) (run : String) (tag : ℚ → Tag) (c : Counters) (i : ℚ × ℚ) :
    Option Sample :=
  ((transmitted run tag c.stats (c.stats w.start) w.start w.flushes).lookup i).join

variable {ι : Type}

/-- **The fleet sends at most `rho` a second** over any flush interval. -/
def SentAtMost [Fintype ι] (fleet : ι → Timetable) (counters : ι → Counters) (rho : ℚ) : Prop :=
  ∀ w, ∀ i ∈ (fleet w).intervals,
    ∑ v, ((((counters v).stats i.2).sent : ℚ) - ((counters v).stats i.1).sent) ≤ rho * (i.2 - i.1)

/-! ### Intervals

A worker's intervals lie side by side. -/

/-- Each of them runs from one of the times to one of the later ones. -/
theorem mem_of_intervalsFrom {t : ℚ} {ts : List ℚ} {i : ℚ × ℚ} (hi : i ∈ intervalsFrom t ts) :
    i.1 ∈ t :: ts ∧ i.2 ∈ ts := by
  induction ts generalizing t with
  | nil => cases hi
  | cons t' ts ih =>
    rcases List.mem_cons.mp hi with rfl | hi
    · exact ⟨List.mem_cons_self, List.mem_cons_self⟩
    · exact ⟨List.mem_cons_of_mem _ (ih hi).1, List.mem_cons_of_mem _ (ih hi).2⟩

/-- They come one after the other, and none is empty. -/
theorem pairwise_intervalsFrom {t : ℚ} {ts : List ℚ} (hts : (t :: ts).Pairwise (· < ·)) :
    (intervalsFrom t ts).Pairwise (fun i j => i.2 ≤ j.1)
      ∧ ∀ i ∈ intervalsFrom t ts, i.1 < i.2 := by
  induction ts generalizing t with
  | nil => exact ⟨.nil, List.forall_mem_nil _⟩
  | cons t' ts ih =>
    obtain ⟨ht, hts⟩ := List.pairwise_cons.mp hts
    obtain ⟨hpairwise, hlt⟩ := ih hts
    refine ⟨List.pairwise_cons.mpr ⟨fun j hj => ?_, hpairwise⟩,
      List.forall_mem_cons.mpr ⟨ht t' List.mem_cons_self, hlt⟩⟩
    rcases List.mem_cons.mp (mem_of_intervalsFrom hj).1 with hj | hj
    · exact hj.ge
    · exact ((List.pairwise_cons.mp hts).1 j.1 hj).le

/-- No flush interval of a worker is empty, -/
theorem Timetable.lt_of_mem (w : Timetable) {i : ℚ × ℚ} (hi : i ∈ w.intervals) : i.1 < i.2 :=
  (pairwise_intervalsFrom w.sorted).2 i hi

/-- Two intervals one of which ends before the other begins. -/
def Apart (i j : ℚ × ℚ) : Prop := i.2 ≤ j.1 ∨ j.2 ≤ i.1

instance : Std.Symm Apart := ⟨fun _ _ h => h.symm⟩

/-- and no two of them overlap. -/
theorem Timetable.apart (w : Timetable) {i j : ℚ × ℚ} (hi : i ∈ w.intervals)
    (hj : j ∈ w.intervals) (hij : i ≠ j) : Apart i j :=
  ((pairwise_intervalsFrom w.sorted).1.imp (S := Apart) Or.inl).forall hi hj hij

/-! ### Records

A flush in which nothing was counted transmits nothing, which carries as many
orders. -/

/-- The orders that a sample carries, if there is one. -/
def carried (s : Option Sample) : ℤ := s.elim 0 (fun s => s.record.sent)

/-- Of a flush these are the orders that were sent since the baseline, whether
or not there is a record. -/
theorem carried_flush (run : String) (t : ℚ) (tag : Tag) (last stats : Stats) :
    carried ((flush tag last stats).2.map (fun record => ⟨run, t, record⟩))
      = (stats.sent : ℤ) - last.sent := by
  unfold flush
  dsimp only
  split_ifs with hnone
  · exact hnone.1.symm
  · rfl

/-- **What is transmitted is what was sent in the interval.** -/
theorem carried_transmitted {run : String} {tag : ℚ → Tag} {stats : ℚ → Stats} {last : Stats}
    {t : ℚ} (hlast : last.sent = (stats t).sent) {ts : List ℚ} (hts : (t :: ts).Pairwise (· < ·))
    {i : ℚ × ℚ} (hi : i ∈ intervalsFrom t ts) :
    carried ((transmitted run tag stats last t ts).lookup i).join
      = ((stats i.2).sent : ℤ) - (stats i.1).sent := by
  induction ts generalizing t last with
  | nil => cases hi
  | cons t' ts ih =>
    obtain ⟨ht, hts⟩ := List.pairwise_cons.mp hts
    rw [transmitted, List.lookup_cons]
    rcases List.mem_cons.mp hi with rfl | hi
    · rw [beq_self_eq_true]
      exact (carried_flush run t' (tag t') last (stats t')).trans (by rw [hlast])
    · -- a later interval begins later
      have hne : i ≠ (t, t') := fun h => by
        have hmem := (mem_of_intervalsFrom hi).1
        rw [h] at hmem
        exact absurd (ht t hmem) (lt_irrefl t)
      rw [beq_false_of_ne hne]
      exact ih (flush_counters (tag t') last (stats t')).1 hts hi

/-- So the record of an interval carries what was sent in it. -/
theorem Timetable.carried_record (w : Timetable) (run : String) (tag : ℚ → Tag) (c : Counters)
    {i : ℚ × ℚ} (hi : i ∈ w.intervals) :
    carried (w.record run tag c i) = countedIn (fun t => (c.stats t).sent) i := by
  refine (carried_transmitted rfl w.sorted hi).trans ?_
  have hle : (c.stats i.1).sent ≤ (c.stats i.2).sent := c.monotone (w.lt_of_mem hi).le
  unfold countedIn
  dsimp only
  omega

/-! ## The schedule

Records and snapshots, in the order in which telemetry meets them. For the
aggregate a record is a sample, and an interval without one is nothing. -/

/-- **What telemetry meets**: the record of a worker's flush, named by its
interval, or a snapshot. -/
inductive Passage (ι : Type) where
  | lands (v : ι) (i : ℚ × ℚ)
  | looks (now : ℚ)
deriving DecidableEq

/-- The records that land. -/
def landings (ps : List (Passage ι)) : List (ι × (ℚ × ℚ)) :=
  ps.filterMap (fun p => match p with | .lands v i => some (v, i) | .looks _ => none)

/-- The times of the snapshots. -/
def looks (ps : List (Passage ι)) : List ℚ :=
  ps.filterMap (fun p => match p with | .looks now => some now | .lands _ _ => none)

/-- Of two schedules, one after the other, first those of the one land, then
those of the other, -/
theorem landings_append (ps qs : List (Passage ι)) :
    landings (ps ++ qs) = landings ps ++ landings qs := List.filterMap_append

/-- and so with the snapshots. -/
theorem looks_append (ps qs : List (Passage ι)) : looks (ps ++ qs) = looks ps ++ looks qs :=
  List.filterMap_append

@[simp] theorem landings_lands (v : ι) (i : ℚ × ℚ) (ps : List (Passage ι)) :
    landings (.lands v i :: ps) = (v, i) :: landings ps := rfl

@[simp] theorem landings_looks (now : ℚ) (ps : List (Passage ι)) :
    landings (.looks now :: ps) = landings ps := rfl

@[simp] theorem looks_lands (v : ι) (i : ℚ × ℚ) (ps : List (Passage ι)) :
    looks (.lands v i :: ps) = looks ps := rfl

@[simp] theorem looks_looks (now : ℚ) (ps : List (Passage ι)) :
    looks (.looks now :: ps) = now :: looks ps := rfl

/-- **A schedule of a fleet's records and of snapshots**: the records are those
of the workers' flushes and arrive once at most, early or late, one by one or
in batches; the clock of the snapshots does not go back. -/
structure Plays (fleet : ι → Timetable) (ps : List (Passage ι)) : Prop where
  own : ∀ l ∈ landings ps, l.2 ∈ (fleet l.1).intervals
  once : (landings ps).Nodup
  clock : (looks ps).Pairwise (· ≤ ·)

/-- **Some records can be covered** in a time: by flush intervals of the
fleet's that are together no longer, and that hold all of the records' own. The
covering intervals need not be those of the records, and may be those of other
workers. -/
def Coverable (fleet : ι → Timetable) (ls : List (ι × (ℚ × ℚ))) (span : ℚ) : Prop :=
  ∃ js : Finset (ℚ × ℚ), (∀ j ∈ js, ∃ w, j ∈ (fleet w).intervals) ∧ Covers js (spanned ls)
    ∧ ∑ j ∈ js, (j.2 - j.1) ≤ span

/-- **A timely schedule**: between any two snapshots that are compared, what
arrives can be covered in the time between them. -/
def Timely (fleet : ι → Timetable) (ps : List (Passage ι)) : Prop :=
  ∀ pre t₀ between now post, ps = pre ++ .looks t₀ :: (between ++ .looks now :: post) →
    Oldest now (looks pre) t₀ → t₀ < now → Coverable fleet (landings between) (now - t₀)

section life

variable (run : String) (fleet : ι → Timetable) (tag : ι → ℚ → Tag) (counters : ι → Counters)

/-- What a passage is for the aggregate. -/
def Passage.moments : Passage ι → List Moment
  | lands v i => ((fleet v).record run (tag v) (counters v) i).toList.map .arrive
  | looks now => [.snapshot now]

/-- **The aggregate's life** under a schedule. -/
def life (ps : List (Passage ι)) : List Moment := ps.flatMap (Passage.moments run fleet tag counters)

/-- The lives under two schedules, one after the other, follow on each
other. -/
theorem life_append (ps qs : List (Passage ι)) :
    life run fleet tag counters (ps ++ qs)
      = life run fleet tag counters ps ++ life run fleet tag counters qs := List.flatMap_append

/-- A snapshot of the schedule is one of the life. -/
theorem life_looks (now : ℚ) (ps : List (Passage ι)) :
    life run fleet tag counters (.looks now :: ps)
      = .snapshot now :: life run fleet tag counters ps := rfl

variable {run fleet tag counters}

/-- Samples take no time. -/
theorem clock_map_arrive (ss : List Sample) (ms : List Moment) :
    clock (ss.map .arrive ++ ms) = clock ms := by
  induction ss with
  | nil => rfl
  | cons s ss ih => exact ih

/-- **The snapshots are taken when the schedule says**, whatever arrives in
between. -/
theorem clock_life (ps : List (Passage ι)) : clock (life run fleet tag counters ps) = looks ps := by
  induction ps with
  | nil => rfl
  | cons p ps ih =>
    cases p with
    | lands v i => exact (clock_map_arrive _ _).trans ih
    | looks now => exact congrArg (now :: ·) ih

/-- **The orders that arrive are those counted in the records' own
intervals.** -/
theorem ordersIn_life {ps : List (Passage ι)}
    (hown : ∀ l ∈ landings ps, l.2 ∈ (fleet l.1).intervals) :
    ordersIn (life run fleet tag counters ps)
      = ((landings ps).map
          (fun l => countedIn (fun t => ((counters l.1).stats t).sent) l.2)).sum := by
  induction ps with
  | nil => rfl
  | cons p ps ih =>
    cases p with
    | lands v i =>
      obtain ⟨hi, hown⟩ := List.forall_mem_cons.mp hown
      have harrive : ∀ o : Option Sample, ordersIn (o.toList.map .arrive) = carried o := fun o => by
        cases o with
        | none => rfl
        | some s => exact (ordersIn_arrive s []).trans (add_zero _)
      show ordersIn ((((fleet v).record run (tag v) (counters v) i).toList.map .arrive)
        ++ life run fleet tag counters ps) = _
      rw [ordersIn_append, ih hown, harrive, (fleet v).carried_record run (tag v) (counters v) hi]
      rw [landings_lands, List.map_cons, List.sum_cons, Nat.cast_add]
    | looks now => exact (ordersIn_snapshot now _).trans (ih hown)

/-- A snapshot of the life is one of the schedule. -/
theorem exists_of_life_eq {ps : List (Passage ι)} {ms ms' : List Moment} {t : ℚ}
    (h : life run fleet tag counters ps = ms ++ .snapshot t :: ms') :
    ∃ pre post, ps = pre ++ .looks t :: post ∧ life run fleet tag counters pre = ms
      ∧ life run fleet tag counters post = ms' := by
  induction ps generalizing ms with
  | nil => exact absurd h.symm (List.append_ne_nil_of_right_ne_nil ms (List.cons_ne_nil _ _))
  | cons p ps ih =>
    have hskip : ∀ ss : List Sample, life run fleet tag counters [p] = ss.map .arrive →
        ss.map .arrive ++ life run fleet tag counters ps = ms ++ .snapshot t :: ms' →
        ∃ ms₀, ms = ss.map .arrive ++ ms₀
          ∧ life run fleet tag counters ps = ms₀ ++ .snapshot t :: ms' := by
      intro ss _ heq
      rcases List.append_eq_append_iff.mp heq with ⟨ms₀, rfl, hrest⟩ | ⟨ms₀, hms, hrest⟩
      · exact ⟨ms₀, rfl, hrest⟩
      · -- no sample is a snapshot
        cases ms₀ with
        | nil => exact ⟨[], by rw [hms, List.append_nil, List.append_nil], hrest.symm⟩
        | cons m ms₀ =>
          obtain ⟨rfl, -⟩ := List.cons.inj hrest
          have hmem : Moment.snapshot t ∈ ss.map Moment.arrive := by
            rw [hms]
            exact List.mem_append_right _ List.mem_cons_self
          obtain ⟨s, -, hs⟩ := List.mem_map.mp hmem
          cases hs
    cases p with
    | lands v i =>
      obtain ⟨ms₀, rfl, hrest⟩ := hskip _ (List.append_nil _) h
      obtain ⟨pre, post, rfl, hpre, hpost⟩ := ih hrest
      refine ⟨.lands v i :: pre, post, rfl, ?_, hpost⟩
      rw [← hpre]
      rfl
    | looks now =>
      cases ms with
      | nil =>
        obtain ⟨hnow, hrest⟩ := List.cons.inj h
        cases hnow
        exact ⟨[], ps, rfl, rfl, hrest⟩
      | cons m ms =>
        obtain ⟨rfl, hrest⟩ := List.cons.inj h
        obtain ⟨pre, post, rfl, hpre, hpost⟩ := ih hrest
        exact ⟨.looks now :: pre, post, rfl, congrArg (_ :: ·) hpre, hpost⟩

end life

/-! ## The peak

In one direction the covering bounds what arrives. In the other there is a
fleet that keeps to its rate and has more arrive. -/

section peak

variable [Fintype ι] {fleet : ι → Timetable} {counters : ι → Counters} {rho : ℚ}
  {ps : List (Passage ι)} {run submission : String} {tag : ι → ℚ → Tag}

/-- The bound on the fleet, in terms of what the counters count. -/
theorem sentAtMost_iff : SentAtMost fleet counters rho ↔ ∀ w, ∀ i ∈ (fleet w).intervals,
    ((∑ v, countedIn (fun t => ((counters v).stats t).sent) i : ℕ) : ℚ) ≤ rho * (i.2 - i.1) := by
  refine forall₃_congr (fun w i hi => ?_)
  have hsum : ∑ v, ((((counters v).stats i.2).sent : ℚ) - ((counters v).stats i.1).sent)
      = ((∑ v, countedIn (fun t => ((counters v).stats t).sent) i : ℕ) : ℚ) := by
    rw [Nat.cast_sum]
    refine Finset.sum_congr rfl (fun v _ => ?_)
    exact (Nat.cast_sub ((counters v).monotone ((fleet w).lt_of_mem hi).le)).symm
  rw [hsum]

variable [DecidableEq ι]

/-- **No more arrives than `rho` times the time that it can be covered in.** -/
theorem Coverable.orders_le (hown : ∀ l ∈ landings ps, l.2 ∈ (fleet l.1).intervals)
    (honce : (landings ps).Nodup) (hrho : 0 ≤ rho) (hrate : SentAtMost fleet counters rho)
    {span : ℚ} (h : Coverable fleet (landings ps) span) :
    (ordersIn (life run fleet tag counters ps) : ℚ) ≤ rho * span := by
  obtain ⟨js, hjs, hcovers, hspan⟩ := h
  have hapart : (landings ps).Pairwise (fun l l' => l.1 = l'.1 →
      l.2.2 ≤ l'.2.1 ∨ l'.2.2 ≤ l.2.1) := by
    refine honce.imp_of_mem (fun {l l'} hl hl' hne heq => ?_)
    have hi' : l'.2 ∈ (fleet l.1).intervals := heq ▸ hown l' hl'
    exact (fleet l.1).apart (hown l hl) hi' (fun hi => hne (Prod.ext heq hi))
  have hcount := sum_counted_le (fun v => (counters v).monotone) hapart hcovers
  have hbound : ((∑ j ∈ js, ∑ v, countedIn (fun t => ((counters v).stats t).sent) j : ℕ) : ℚ)
      ≤ ∑ j ∈ js, rho * (j.2 - j.1) := by
    rw [Nat.cast_sum]
    refine Finset.sum_le_sum (fun j hj => ?_)
    obtain ⟨w, hw⟩ := hjs j hj
    exact sentAtMost_iff.mp hrate w j hw
  rw [ordersIn_life hown]
  calc ((((landings ps).map
        (fun l => countedIn (fun t => ((counters l.1).stats t).sent) l.2)).sum : ℤ) : ℚ)
      ≤ ((∑ j ∈ js, ∑ v, countedIn (fun t => ((counters v).stats t).sent) j : ℕ) : ℚ) := by
        exact_mod_cast hcount
    _ ≤ ∑ j ∈ js, rho * (j.2 - j.1) := hbound
    _ = rho * ∑ j ∈ js, (j.2 - j.1) := (Finset.mul_sum _ _ _).symm
    _ ≤ rho * span := mul_le_mul_of_nonneg_left hspan hrho

variable (run tag) in
/-- **Where some records cannot be covered in a time, a fleet can have more of
them**: at some rate that it keeps to over every flush interval. -/
theorem exists_orders_gt (hown : ∀ l ∈ landings ps, l.2 ∈ (fleet l.1).intervals) {span : ℚ}
    (hspan : 0 ≤ span) (h : ¬ Coverable fleet (landings ps) span) :
    ∃ (counters : ι → Counters) (rho : ℚ), 0 ≤ rho ∧ SentAtMost fleet counters rho
      ∧ rho * span < ordersIn (life run fleet tag counters ps) := by
  let A : Finset (ℚ × ℚ) := Finset.univ.biUnion (fun v => (fleet v).intervals.toFinset)
  have hA : ∀ {j}, j ∈ A ↔ ∃ w, j ∈ (fleet w).intervals := fun {j} => by
    simp only [A, Finset.mem_biUnion, Finset.mem_univ, true_and, List.mem_toFinset]
  -- at this rate the orders of every interval of the fleet's are a whole number
  obtain ⟨rate, hpos, hwhole⟩ := exists_whole_rate 1 (A.toList.map (fun j => j.2 - j.1))
  have hweight : ∀ j ∈ A, ((⌊(rate : ℚ) * (j.2 - j.1)⌋₊ : ℕ) : ℚ) = rate * (j.2 - j.1) := by
    intro j hj
    obtain ⟨w, hw⟩ := hA.mp hj
    obtain ⟨n, hn⟩ := hwhole _ (List.mem_map_of_mem (Finset.mem_toList.mpr hj))
    have hnonneg : (0 : ℚ) ≤ rate * (j.2 - j.1) :=
      mul_nonneg (Nat.cast_nonneg _) (sub_nonneg.mpr ((fleet w).lt_of_mem hw).le)
    rw [natCast_floor_eq_intCast_floor hnonneg, hn, Int.floor_intCast]
  have hleast : ∀ js ⊆ A, Covers js (spanned (landings ps)) →
      ⌊(rate : ℚ) * span⌋₊ < ∑ j ∈ js, ⌊(rate : ℚ) * (j.2 - j.1)⌋₊ := by
    intro js hjs hcovers
    have hlong : span < ∑ j ∈ js, (j.2 - j.1) := not_le.mp (fun hle =>
      h ⟨js, fun j hj => hA.mp (hjs hj), hcovers, hle⟩)
    have hsum : ((∑ j ∈ js, ⌊(rate : ℚ) * (j.2 - j.1)⌋₊ : ℕ) : ℚ)
        = rate * ∑ j ∈ js, (j.2 - j.1) := by
      rw [Nat.cast_sum, Finset.mul_sum]
      exact Finset.sum_congr rfl (fun j hj => hweight j (hjs hj))
    rw [Nat.floor_lt (mul_nonneg (Nat.cast_nonneg _) hspan), hsum]
    exact mul_lt_mul_of_pos_left hlong (by exact_mod_cast hpos)
  obtain ⟨f, hmono, hrate, hcount⟩ := exists_counters (fun j => ⌊(rate : ℚ) * (j.2 - j.1)⌋₊)
    (fun l hl => hA.mpr ⟨l.1, hown l hl⟩) hleast
  refine ⟨fun v => ⟨fun t => { Stats.zero with sent := f v t }, hmono v⟩, rate,
    Nat.cast_nonneg _, sentAtMost_iff.mpr (fun w i hi => ?_), ?_⟩
  · rw [← hweight i (hA.mpr ⟨w, hi⟩)]
    exact_mod_cast hrate i (hA.mpr ⟨w, hi⟩)
  · rw [ordersIn_life hown, Int.cast_natCast]
    exact (Nat.floor_lt (mul_nonneg (Nat.cast_nonneg rate) hspan)).mp hcount

/-- **The peak is not overstated exactly under timely schedules.** Given when
the workers of a fleet flush, and in which order their records and the
snapshots come, on a clock that does not go back: of no fleet with these,
whatever it sends, and for no `rho` that it keeps to over every flush interval
is the peak above `rho`, if and only if the schedule is timely. -/
theorem peakTps_le_all_iff (run submission : String) (tag : ι → ℚ → Tag) (h : Plays fleet ps) :
    (∀ counters rho, 0 ≤ rho → SentAtMost fleet counters rho →
        ((life run fleet tag counters ps).foldl Live.meet (.new run submission)).peakTps ≤ rho)
      ↔ Timely fleet ps := by
  have hclock : ∀ counters, (clock (life run fleet tag counters ps)).Pairwise (· ≤ ·) :=
    fun counters => (clock_life ps).symm ▸ h.clock
  constructor
  · rintro hnever pre t₀ between now post rfl hold hlt
    by_contra hlong
    have hown : ∀ l ∈ landings between, l.2 ∈ (fleet l.1).intervals := fun l hl => h.own l (by
      rw [landings_append, landings_looks, landings_append]
      exact List.mem_append_right _ (List.mem_append_left _ hl))
    -- The fleet that has more arrive than the time between the two snapshots
    -- allows.
    obtain ⟨counters, rho, hrho, hrate, hover⟩ :=
      exists_orders_gt run tag hown (sub_nonneg.mpr hlt.le) hlong
    have hfits := (peakTps_le_iff run submission hrho (hclock counters)).mp
      (hnever counters rho hrho hrate)
    have hsplit : life run fleet tag counters (pre ++ .looks t₀ :: (between ++ .looks now :: post))
        = life run fleet tag counters pre ++ .snapshot t₀
          :: (life run fleet tag counters between ++ .snapshot now
            :: life run fleet tag counters post) := by
      rw [life_append, life_looks, life_append, life_looks]
    exact absurd (hfits _ _ _ _ _ hsplit ((clock_life pre).symm ▸ hold) hlt) (not_le.mpr hover)
  · intro htimely counters rho hrho hrate
    rw [peakTps_le_iff run submission hrho (hclock counters)]
    intro pre t₀ between now post heq hold hlt
    obtain ⟨pre, rest, rfl, rfl, hrest⟩ := exists_of_life_eq heq
    obtain ⟨between, post, rfl, rfl, rfl⟩ := exists_of_life_eq hrest
    have hmem : ∀ l ∈ landings between,
        l ∈ landings (pre ++ .looks t₀ :: (between ++ .looks now :: post)) := fun l hl => by
      rw [landings_append, landings_looks, landings_append]
      exact List.mem_append_right _ (List.mem_append_left _ hl)
    have honce : (landings between).Nodup := by
      have honce := h.once
      rw [landings_append, landings_looks, landings_append] at honce
      exact honce.of_append_right.of_append_left
    rw [clock_life] at hold
    exact (htimely pre t₀ between now post rfl hold hlt).orders_le
      (fun l hl => h.own l (hmem l hl)) honce hrho hrate

end peak

/-! ## Where it happens

With a flush every 0.2 seconds and a look every 0.51, a look falls into an
interval, and the whole record counts for the time after it. -/

/-- A schedule with two snapshots is timely if all of its records can be
covered in the time between them. -/
theorem timely_of_looks {fleet : ι → Timetable} {ps : List (Passage ι)} {t t' : ℚ}
    (hlooks : looks ps = [t, t']) (h : Coverable fleet (landings ps) (t' - t)) :
    Timely fleet ps := by
  rintro pre t₀ between now post rfl - -
  rw [looks_append, looks_looks, looks_append, looks_looks] at hlooks
  have hlen := congrArg List.length hlooks
  rw [List.length_append, List.length_cons, List.length_append, List.length_cons, List.length_cons,
    List.length_cons, List.length_nil] at hlen
  have hpre : looks pre = [] := List.eq_nil_of_length_eq_zero (by omega)
  have hbetween : looks between = [] := List.eq_nil_of_length_eq_zero (by omega)
  rw [hpre, hbetween, List.nil_append, List.nil_append] at hlooks
  obtain ⟨ht, hlooks⟩ := List.cons.inj hlooks
  obtain ⟨ht', -⟩ := List.cons.inj hlooks
  rw [ht, ht']
  obtain ⟨js, hjs, hcovers, hspan⟩ := h
  refine ⟨js, hjs, hcovers.mono (fun x hx => ?_), hspan⟩
  obtain ⟨l, hl, hx⟩ := hx
  refine ⟨l, ?_, hx⟩
  rw [landings_append, landings_looks, landings_append]
  exact List.mem_append_right _ (List.mem_append_left _ hl)

/-- A worker that flushes every 0.2 seconds. -/
def steadyTimes : Timetable where
  start := 1700000000
  flushes := (List.range 8).map (fun i => 1700000000 + (i + 1) / 5)
  sorted := by decide +kernel

/-- It sends 1000 orders a second. -/
def steadyCounters : Counters where
  stats t := { Stats.zero with sent := ⌊1000 * (t - 1700000000)⌋₊ }
  monotone := fun _ _ htt' => Nat.floor_mono
    (mul_le_mul_of_nonneg_left (sub_le_sub_right htt' _) (by norm_num))

/-- The publisher looks right after the start, and after the fifth flush. -/
def alignedSchedule : List (Passage Unit) :=
  let arrived := steadyTimes.intervals.map (Passage.lands ())
  [.looks 1700000000] ++ arrived.take 5 ++ [.looks 1700000001]

/-- Its samples arrive as soon as they are transmitted, and the publisher looks
every 0.51 seconds. -/
def steadySchedule : List (Passage Unit) :=
  let arrived := steadyTimes.intervals.map (Passage.lands ())
  [.looks 1700000000.08] ++ arrived.take 2 ++ [.looks 1700000000.59]
    ++ (arrived.drop 2).take 3 ++ [.looks 1700000001.10] ++ arrived.drop 5
    ++ [.looks 1700000001.61]

/-- The bound holds of every one of its flush intervals: the numbers are round,
and nothing is lost to the floor. -/
theorem sentAtMost_steady :
    SentAtMost (fun _ : Unit => steadyTimes) (fun _ => steadyCounters) 1000 := by
  unfold SentAtMost
  decide +kernel

/-- What arrives between two looks is what was sent in between. -/
theorem peakTps_le_when_aligned :
    ((life "r" (fun _ => steadyTimes) (fun _ _ => ⟨"closed", 0⟩) (fun _ => steadyCounters)
      alignedSchedule).foldl Live.meet (.new "r" "?")).peakTps ≤ 1000 := by
  have hplays : Plays (fun _ => steadyTimes) alignedSchedule :=
    ⟨by decide +kernel, by decide +kernel, by decide +kernel⟩
  have htimely : Timely (fun _ => steadyTimes) alignedSchedule := by
    have hlooks : looks alignedSchedule = [1700000000, 1700000001] := by decide +kernel
    refine timely_of_looks hlooks
      ⟨(steadyTimes.intervals.take 5).toFinset, fun j hj => ⟨(), ?_⟩, ?_, by decide +kernel⟩
    · exact List.mem_of_mem_take (List.mem_toFinset.mp hj)
    · rintro x ⟨l, hl, hx⟩
      have hown : ∀ l ∈ landings alignedSchedule, l.2 ∈ steadyTimes.intervals.take 5 := by
        decide +kernel
      exact ⟨l.2, List.mem_toFinset.mpr (hown l hl), hx⟩
  exact (peakTps_le_all_iff "r" "?" _ hplays).mpr htimely _ 1000 (by norm_num) sentAtMost_steady

/-- **The fleet sends 1000 orders a second, and the peak is more**: those of
1.6 seconds arrive in 1.53. -/
theorem peakTps_overstated_when_steady :
    Plays (fun _ => steadyTimes) steadySchedule
      ∧ SentAtMost (fun _ : Unit => steadyTimes) (fun _ => steadyCounters) 1000
      ∧ 1000 < ((life "r" (fun _ => steadyTimes) (fun _ _ => ⟨"closed", 0⟩)
        (fun _ => steadyCounters) steadySchedule).foldl Live.meet (.new "r" "?")).peakTps :=
  ⟨⟨by decide +kernel, by decide +kernel, by decide +kernel⟩, sentAtMost_steady,
    by decide +kernel⟩

end Telemetry
