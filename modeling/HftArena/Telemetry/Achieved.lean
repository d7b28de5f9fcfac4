import Mathlib.Tactic.Ring
import Mathlib.Data.Rat.Floor
import HftArena.Telemetry.Score

/-!
# Achieved throughput

A point of the curve divides what was acknowledged in `k` records by the time
from the first record to the last. The first record carries what was
acknowledged before that time begins, since the flush before it, so that `k`
intervals are divided by the length of `k - 1`.

Of an engine that never acknowledges more than `rho` a second the point
therefore says more than `rho`, unless the acknowledgements of the first
interval fit into what the later ones leave (`achievedTps_le_iff`). Over all
that a worker may acknowledge later this means that there must be none: an
engine which keeps to `rho` and uses it up after the first record is overstated
by what that record carries (`achievedTps_le_all_iff`).
-/

open Fleet

namespace Telemetry

/-! ## Records of flushes

Time is cut into intervals by the flushes. A record is at the end of its
interval, and carries what was counted in it. -/

/-- **The records of a worker's flushes** after a time, where `counted` is the
worker's counter of acknowledgements as time goes by: each carries what was
counted since the flush before it. -/
def Flushed (counted : ℚ → ℕ) : ℚ → List Sample → Prop
  | _, [] => True
  | t, s :: ss =>
    t < s.ts ∧ s.record.acked = (counted s.ts : ℤ) - counted t ∧ Flushed counted s.ts ss

/-- **At most `rho` a second** are acknowledged in each of the intervals. The
bound is on what the records carry, each over the interval that it stands
for. -/
def AckedAtMost (rho : ℚ) : ℚ → List Sample → Prop
  | _, [] => True
  | t, s :: ss => s.record.acked ≤ rho * (s.ts - t) ∧ AckedAtMost rho s.ts ss

/-- What the intervals fall short of `rho` a second. -/
def slack (rho : ℚ) : ℚ → List Sample → ℚ
  | _, [] => 0
  | t, s :: ss => rho * (s.ts - t) - s.record.acked + slack rho s.ts ss

/-- The time of the last record, or the time there is. -/
def lastTime : ℚ → List Sample → ℚ
  | t, [] => t
  | _, s :: ss => lastTime s.ts ss

instance Flushed.decidable (counted : ℚ → ℕ) : ∀ t ss, Decidable (Flushed counted t ss)
  | _, [] => isTrue trivial
  | t, s :: ss =>
    have : Decidable (Flushed counted s.ts ss) := Flushed.decidable counted s.ts ss
    inferInstanceAs (Decidable (t < s.ts ∧ _ ∧ _))

instance AckedAtMost.decidable (rho : ℚ) : ∀ t ss, Decidable (AckedAtMost rho t ss)
  | _, [] => isTrue trivial
  | t, s :: ss =>
    have : Decidable (AckedAtMost rho s.ts ss) := AckedAtMost.decidable rho s.ts ss
    inferInstanceAs (Decidable (_ ≤ rho * (s.ts - t) ∧ _))

variable {counted : ℚ → ℕ} {t rho : ℚ} {s : Sample} {ss : List Sample}

/-- Time goes on from record to record. -/
theorem Flushed.le_lastTime (h : Flushed counted t ss) : t ≤ lastTime t ss := by
  induction ss generalizing t with
  | nil => exact le_rfl
  | cons s ss ih => exact h.1.le.trans (ih h.2.2)

/-- What nothing is counted in can be passed over. -/
theorem Flushed.skip {t' : ℚ} (htt' : t < t') (hcounted : counted t' = counted t)
    (h : Flushed counted t' ss) : Flushed counted t ss := by
  cases ss with
  | nil => trivial
  | cons s ss => exact ⟨htt'.trans h.1, hcounted ▸ h.2.1, h.2.2⟩

/-- **The intervals telescope.** -/
theorem slack_eq (rho t : ℚ) (ss : List Sample) :
    slack rho t ss
      = rho * (lastTime t ss - t) - ((ss.map (fun s => s.record.acked)).sum : ℤ) := by
  induction ss generalizing t with
  | nil =>
    rw [slack, lastTime, sub_self, mul_zero, List.map_nil, List.sum_nil, Int.cast_zero, sub_zero]
  | cons s ss ih =>
    rw [slack, lastTime, ih, List.map_cons, List.sum_cons, Int.cast_add]
    ring

/-! ### A reporter's records -/

/-- **The flushes of a reporter** at some times, with its baselines: the
interval since the flush before, and what is transmitted, if there is
something. -/
def transmitted (run : String) (tag : ℚ → Tag) (stats : ℚ → Stats) :
    Stats → ℚ → List ℚ → List ((ℚ × ℚ) × Option Sample)
  | _, _, [] => []
  | last, t, t' :: ts =>
    let flushed := flush (tag t') last (stats t')
    ((t, t'), flushed.2.map (fun record => ⟨run, t', record⟩))
      :: transmitted run tag stats flushed.1 t' ts

/-- The samples among them. -/
def reported (run : String) (tag : ℚ → Tag) (stats : ℚ → Stats) (last : Stats) (t : ℚ)
    (ts : List ℚ) : List Sample :=
  (transmitted run tag stats last t ts).filterMap Prod.snd

/-- **They carry what was counted since the flush before**, those at which
there was nothing to transmit left out. -/
theorem flushed_reported (run : String) (tag : ℚ → Tag) (stats : ℚ → Stats) {last : Stats}
    (hlast : last.acked = (stats t).acked) {ts : List ℚ} (hts : (t :: ts).Pairwise (· < ·)) :
    Flushed (fun t => (stats t).acked) t (reported run tag stats last t ts) := by
  induction ts generalizing t last with
  | nil => trivial
  | cons t' ts ih =>
    obtain ⟨ht, hts⟩ := List.pairwise_cons.mp hts
    have htt' := ht t' List.mem_cons_self
    have hrest := ih (flush_counters (tag t') last (stats t')).2 hts
    unfold reported at hrest ⊢
    rw [transmitted, List.filterMap_cons]
    dsimp only
    cases hrecord : (flush (tag t') last (stats t')).2 with
    -- A flush with nothing to transmit: then nothing was counted in its
    -- interval either.
    | none =>
      have hsame : (stats t').acked = (stats t).acked := by
        unfold flush at hrecord
        dsimp only at hrecord
        split_ifs at hrecord with hnone
        omega
      exact hrest.skip htt' hsame
    | some record =>
      have hacked : record.acked = ((stats t').acked : ℤ) - last.acked := by
        unfold flush at hrecord
        dsimp only at hrecord
        split_ifs at hrecord
        exact congrArg Record.acked (Option.some_inj.mp hrecord).symm
      exact ⟨htt', hacked.trans (congrArg (fun n : ℕ => ((stats t').acked : ℤ) - n) hlast), hrest⟩

/-! ## The bin

A bin adds up what all records carry, and keeps the first time and the last. -/

/-- What a bin says that has a first record and a last. -/
theorem achievedTps_eq {b : RateBin} {first last : ℚ} (hfirst : b.firstTs = some first)
    (hlast : b.lastTs = some last) (hfirst₀ : first ≠ 0) (hlast₀ : last ≠ 0) :
    b.achievedTps = if 1 / 2 < last - first then b.acked / (last - first) else 0 := by
  have hspan : (if first ≠ 0 ∧ last ≠ 0 then last - first else 0) = last - first :=
    if_pos ⟨hfirst₀, hlast₀⟩
  unfold RateBin.achievedTps
  rw [hfirst, hlast]
  dsimp only
  rw [hspan]

/-- What a bin holds after records of later and later times. -/
theorem foldl_add_of_flushed {b : RateBin} {first : ℚ} (hfirst : b.firstTs = some first)
    (hlast : b.lastTs = some t) (hle : first ≤ t) (ht : 0 ≤ t) (h : Flushed counted t ss) :
    (ss.foldl RateBin.add b).acked = b.acked + (ss.map (fun s => s.record.acked)).sum
      ∧ (ss.foldl RateBin.add b).firstTs = some first
      ∧ (ss.foldl RateBin.add b).lastTs = some (lastTime t ss) := by
  induction ss generalizing b t with
  | nil => exact ⟨(add_zero _).symm, hfirst, hlast⟩
  | cons s ss ih =>
    obtain ⟨hts, -, hss⟩ := h
    have hne : s.ts ≠ 0 := (ht.trans_lt hts).ne'
    have hfirst' : (b.add s).firstTs = some first := by
      unfold RateBin.add
      dsimp only
      rw [if_neg hne, hfirst, Option.elim_some, min_eq_right (hle.trans hts.le)]
    have hlast' : (b.add s).lastTs = some s.ts := by
      unfold RateBin.add
      dsimp only
      rw [if_neg hne, hlast, Option.elim_some, max_eq_left hts.le]
    obtain ⟨hacked, hf, hl⟩ := ih hfirst' hlast' (hle.trans hts.le) (ht.trans hts.le) hss
    refine ⟨?_, hf, hl⟩
    rw [List.foldl_cons, hacked, List.map_cons, List.sum_cons, ← add_assoc]
    rfl

/-- **The bin of a worker's records**, whichever order it is fed in: all that
was acknowledged, and the times of the first record and the last. -/
theorem bin_of_flushed {fed : List Sample} (ht : 0 ≤ t) (h : Flushed counted t (s :: ss))
    (hfed : fed.Perm (s :: ss)) :
    (fed.foldl RateBin.add .new).acked
        = s.record.acked + (ss.map (fun s => s.record.acked)).sum
      ∧ (fed.foldl RateBin.add .new).firstTs = some s.ts
      ∧ (fed.foldl RateBin.add .new).lastTs = some (lastTime s.ts ss) := by
  have hpos : 0 < s.ts := ht.trans_lt h.1
  have hperm : fed.foldl RateBin.add .new = ss.foldl RateBin.add (RateBin.new.add s) :=
    hfed.foldl_eq' (fun s _ s' _ b => RateBin.add_comm b s s') _
  have hfirst : (RateBin.new.add s).firstTs = some s.ts := if_neg hpos.ne'
  have hlast : (RateBin.new.add s).lastTs = some s.ts := if_neg hpos.ne'
  have hnew : (RateBin.new.add s).acked = s.record.acked := zero_add _
  rw [hperm, ← hnew]
  exact foldl_add_of_flushed hfirst hlast le_rfl hpos.le h.2.2

/-- **The first interval fits into the later ones**, or the records span too
little time for a throughput. -/
def FirstFits (rho : ℚ) (s : Sample) (ss : List Sample) : Prop :=
  lastTime s.ts ss - s.ts ≤ 1 / 2 ∨ s.record.acked ≤ slack rho s.ts ss

/-- **What a bin says** of a worker that acknowledges at most `rho` a second
between two of its flushes is at most `rho` if and only if the first interval
fits. -/
theorem achievedTps_le_iff (hcounted : Monotone counted) (ht : 0 ≤ t)
    (hflushed : Flushed counted t (s :: ss)) (hrate : AckedAtMost rho t (s :: ss))
    {fed : List Sample} (hfed : fed.Perm (s :: ss)) :
    (fed.foldl RateBin.add .new).achievedTps ≤ rho ↔ FirstFits rho s ss := by
  obtain ⟨hacked, hfirst, hlast⟩ := bin_of_flushed ht hflushed hfed
  have hpos : 0 < s.ts := ht.trans_lt hflushed.1
  have hle : s.ts ≤ lastTime s.ts ss := hflushed.2.2.le_lastTime
  have hrho : 0 ≤ rho := by
    have hcount : (0 : ℚ) ≤ s.record.acked := by
      rw [hflushed.2.1]
      exact_mod_cast sub_nonneg.mpr (Int.ofNat_le.mpr (hcounted hflushed.1.le))
    exact nonneg_of_mul_nonneg_left (hcount.trans hrate.1) (sub_pos.mpr hflushed.1)
  unfold FirstFits
  rw [achievedTps_eq hfirst hlast hpos.ne' (hpos.trans_le hle).ne', hacked, slack_eq]
  by_cases hspan : 1 / 2 < lastTime s.ts ss - s.ts
  · have hspan' : 0 < lastTime s.ts ss - s.ts := lt_trans (by norm_num) hspan
    rw [if_pos hspan, div_le_iff₀ hspan', or_iff_right (not_le.mpr hspan), Int.cast_add,
      le_sub_iff_add_le]
  · rw [if_neg hspan]
    exact ⟨fun _ => Or.inl (not_lt.mp hspan), fun _ => hrho⟩

/-! ## Every worker that flushes at some times

What is known beforehand are the times and the first interval. What a worker
will acknowledge later is up to the engine. -/

/-- **The bins of the workers that flush at some times** after `t`, acknowledge
`acked` orders in the first interval and never more than `rho` a second: the
records may be fed in any order, and what is acknowledged in the later
intervals is left open. -/
def Fed (t : ℚ) (times : List ℚ) (acked : ℕ) (rho : ℚ) (b : RateBin) : Prop :=
  ∃ (counted : ℚ → ℕ) (s : Sample) (ss fed : List Sample),
    Monotone counted ∧ Flushed counted t (s :: ss) ∧ (s :: ss).map Sample.ts = times
      ∧ s.record.acked = acked ∧ AckedAtMost rho t (s :: ss) ∧ fed.Perm (s :: ss)
      ∧ b = fed.foldl RateBin.add .new

/-- **The first record carries nothing, or the records span too little
time.** -/
def StartsEmpty (acked : ℕ) (first last : ℚ) : Prop := acked = 0 ∨ last - first ≤ 1 / 2

/-- It is the last of the times. -/
theorem lastTime_eq_getLast (t : ℚ) (ss : List Sample) :
    lastTime t ss = (t :: ss.map Sample.ts).getLast (List.cons_ne_nil _ _) := by
  induction ss generalizing t with
  | nil => rfl
  | cons s ss ih => exact (ih s.ts).trans (List.getLast_cons (List.cons_ne_nil _ _)).symm

/-- Where none of the intervals is above `rho`, they do not fall short of it by
less than nothing. -/
theorem AckedAtMost.slack_nonneg (h : AckedAtMost rho t ss) : 0 ≤ slack rho t ss := by
  induction ss generalizing t with
  | nil => exact le_rfl
  | cons s ss ih => exact add_nonneg (sub_nonneg.mpr h.1) (ih h.2)

/-- **Nothing is overstated** where the first record carries nothing: its
interval adds neither orders nor time. -/
theorem Fed.achievedTps_le {first : ℚ} {times : List ℚ} {n : ℕ} {b : RateBin} (ht : 0 ≤ t)
    (hstart : StartsEmpty n first ((first :: times).getLast (List.cons_ne_nil _ _)))
    (hfed : Fed t (first :: times) n rho b) : b.achievedTps ≤ rho := by
  obtain ⟨counted, s, ss, fed, hcounted, hflushed, htimes, hacked, hrate, hperm, rfl⟩ := hfed
  obtain ⟨rfl, rfl⟩ := List.cons.inj htimes
  refine (achievedTps_le_iff hcounted ht hflushed hrate hperm).mpr ?_
  rcases hstart with rfl | hspan
  · refine Or.inr ?_
    rw [hacked]
    exact_mod_cast hrate.2.slack_nonneg
  · rw [← lastTime_eq_getLast] at hspan
    exact Or.inl hspan

/-! ### A worker that wastes nothing

One that acknowledges `rho` a second from the first record on, without a
fraction of an order left over. -/

/-- The records of a counter at some times. -/
def recordsAt (counted : ℚ → ℕ) : ℚ → List ℚ → List Sample
  | _, [] => []
  | t, x :: xs =>
    ⟨"r", x, ⟨⟨"open", 0⟩, 0, (counted x : ℤ) - counted t, 0, 0, 0, []⟩⟩ :: recordsAt counted x xs

/-- They are of these times, -/
theorem map_ts_recordsAt (counted : ℚ → ℕ) (t : ℚ) (xs : List ℚ) :
    (recordsAt counted t xs).map Sample.ts = xs := by
  induction xs generalizing t with
  | nil => rfl
  | cons x xs ih => exact congrArg (x :: ·) (ih x)

/-- and are flushes of the counter. -/
theorem flushed_recordsAt (counted : ℚ → ℕ) {xs : List ℚ} (hxs : (t :: xs).Pairwise (· < ·)) :
    Flushed counted t (recordsAt counted t xs) := by
  induction xs generalizing t with
  | nil => trivial
  | cons x xs ih =>
    obtain ⟨ht, hxs⟩ := List.pairwise_cons.mp hxs
    exact ⟨ht x List.mem_cons_self, rfl, ih hxs⟩

/-- A counter that goes at `rho` a second leaves no slack. -/
theorem slack_recordsAt {c : ℚ} {xs : List ℚ}
    (h : ∀ x ∈ t :: xs, (counted x : ℚ) = c + rho * x) :
    slack rho t (recordsAt counted t xs) = 0 ∧ AckedAtMost rho t (recordsAt counted t xs) := by
  induction xs generalizing t with
  | nil => exact ⟨rfl, trivial⟩
  | cons x xs ih =>
    obtain ⟨ht, hxs⟩ := List.forall_mem_cons.mp h
    obtain ⟨hslack, hrate⟩ := ih hxs
    have hstep : (((counted x : ℤ) - counted t : ℤ) : ℚ) = rho * (x - t) := by
      push_cast
      rw [ht, hxs x List.mem_cons_self]
      ring
    refine ⟨?_, hstep.le, hrate⟩
    show rho * (x - t) - (((counted x : ℤ) - counted t : ℤ) : ℚ) + _ = 0
    rw [hstep, sub_self, zero_add]
    exact hslack

/-- A rate at which a whole number of orders goes by between some times, and
that is as high as is wanted: a multiple of the denominators. -/
theorem exists_whole_rate (least : ℕ) (xs : List ℚ) :
    ∃ rate : ℕ, least ≤ rate ∧ ∀ x ∈ xs, ∃ n : ℤ, (rate : ℚ) * x = n := by
  induction xs with
  | nil => exact ⟨least, le_rfl, List.forall_mem_nil _⟩
  | cons x xs ih =>
    obtain ⟨rate, hleast, hwhole⟩ := ih
    refine ⟨rate * x.den, hleast.trans (Nat.le_mul_of_pos_right _ x.den_pos),
      List.forall_mem_cons.mpr ⟨⟨rate * x.num, ?_⟩, fun y hy => ?_⟩⟩
    · rw [Nat.cast_mul, mul_assoc, Rat.den_mul_eq_num, Int.cast_mul, Int.cast_natCast]
    · obtain ⟨n, hn⟩ := hwhole y hy
      refine ⟨n * x.den, ?_⟩
      rw [Nat.cast_mul, mul_right_comm, hn, Int.cast_mul, Int.cast_natCast]

/-- The counter of a worker that acknowledges `acked` orders at once, and
`rate` a second from then on. -/
def burstThenSteady (acked rate : ℕ) (first x : ℚ) : ℕ :=
  if x < first then 0 else acked + ⌊(rate : ℚ) * (x - first)⌋₊

/-- Nothing is taken back. -/
theorem monotone_burstThenSteady (acked rate : ℕ) (first : ℚ) :
    Monotone (burstThenSteady acked rate first) := by
  intro x y hxy
  unfold burstThenSteady
  by_cases hx : x < first
  · rw [if_pos hx]
    exact Nat.zero_le _
  · rw [if_neg hx, if_neg (not_lt.mpr ((not_lt.mp hx).trans hxy))]
    exact Nat.add_le_add_left (Nat.floor_mono
      (mul_le_mul_of_nonneg_left (sub_le_sub_right hxy first) (Nat.cast_nonneg _))) _

/-- **Some worker is overstated** wherever the first record carries something
and the records span enough time: the one that acknowledges as much as it may
afterwards. -/
theorem exists_overstated {first : ℚ} {times : List ℚ} {n : ℕ} (ht : 0 ≤ t)
    (htimes : (t :: first :: times).Pairwise (· < ·))
    (hstart : ¬ StartsEmpty n first ((first :: times).getLast (List.cons_ne_nil _ _))) :
    ∃ rho b, Fed t (first :: times) n rho b ∧ rho < b.achievedTps := by
  obtain ⟨hbefore, hafter⟩ := List.pairwise_cons.mp htimes
  have hfirst : t < first := hbefore first List.mem_cons_self
  -- All times are rational, so at some rate a whole number of orders goes by
  -- until each of them, and no slack is lost to the floor.
  obtain ⟨rate, hleast, hwhole⟩ :=
    exists_whole_rate ⌈(n : ℚ) / (first - t)⌉₊ (times.map (· - first))
  have hburst : (n : ℚ) ≤ rate * (first - t) :=
    (div_le_iff₀ (sub_pos.mpr hfirst)).mp ((Nat.le_ceil _).trans (by exact_mod_cast hleast))
  let counted := burstThenSteady n rate first
  have hzero : counted t = 0 := if_pos hfirst
  have hsteady : ∀ x ∈ first :: times, (counted x : ℚ) = (n - rate * first) + rate * x := by
    intro x hx
    have hle : first ≤ x := by
      rcases List.mem_cons.mp hx with rfl | hx
      · exact le_rfl
      · exact ((List.pairwise_cons.mp hafter).1 x hx).le
    have hfloor : (⌊(rate : ℚ) * (x - first)⌋₊ : ℚ) = rate * (x - first) := by
      rcases List.mem_cons.mp hx with rfl | hx
      · rw [sub_self, mul_zero, Nat.floor_zero, Nat.cast_zero]
      · obtain ⟨m, hm⟩ := hwhole _ (List.mem_map_of_mem hx)
        rw [natCast_floor_eq_intCast_floor (mul_nonneg (Nat.cast_nonneg _) (sub_nonneg.mpr hle)),
          hm, Int.floor_intCast]
    show ((if x < first then 0 else n + ⌊(rate : ℚ) * (x - first)⌋₊ : ℕ) : ℚ) = _
    rw [if_neg (not_lt.mpr hle), Nat.cast_add, hfloor]
    ring
  obtain ⟨hslack, hrate⟩ := slack_recordsAt hsteady
  have hn : counted first = n := by
    have hfirst := hsteady first List.mem_cons_self
    rw [sub_add_cancel] at hfirst
    exact_mod_cast hfirst
  have hacked : (counted first : ℤ) - counted t = n := by
    rw [hn, hzero, Nat.cast_zero, sub_zero]
  obtain ⟨s, hs⟩ : ∃ s : Sample, s
      = ⟨"r", first, ⟨⟨"open", 0⟩, 0, (counted first : ℤ) - counted t, 0, 0, 0, []⟩⟩ := ⟨_, rfl⟩
  have hflushed : Flushed counted t (s :: recordsAt counted first times) := by
    rw [hs]
    exact flushed_recordsAt counted htimes
  have hrate' : AckedAtMost rate t (s :: recordsAt counted first times) := by
    rw [hs]
    refine ⟨?_, hrate⟩
    rw [hacked]
    exact_mod_cast hburst
  have hts : (s :: recordsAt counted first times).map Sample.ts = first :: times := by
    rw [hs]
    exact congrArg (first :: ·) (map_ts_recordsAt counted first times)
  have hmono : Monotone counted := monotone_burstThenSteady n rate first
  refine ⟨rate, _, ⟨counted, s, recordsAt counted first times, _, hmono, hflushed, hts,
    hs ▸ hacked, hrate', List.Perm.refl _, rfl⟩, not_le.mp ?_⟩
  rw [achievedTps_le_iff hmono ht hflushed hrate' (List.Perm.refl _)]
  unfold StartsEmpty at hstart
  rw [not_or] at hstart
  rintro (hspan | hfits)
  · rw [hs, lastTime_eq_getLast, map_ts_recordsAt] at hspan
    exact hstart.2 hspan
  · -- The later intervals leave no slack for what the first record carries.
    rw [hs, hacked] at hfits
    have hle : (n : ℚ) ≤ 0 := by
      refine le_trans (by exact_mod_cast hfits) hslack.le
    exact hstart.1 (Nat.le_zero.mp (by exact_mod_cast hle))

/-- **Achieved throughput is what was acknowledged, as long as the first record
carries nothing.** Take the times of a worker's flushes, and what it
acknowledges in the first interval. Of no worker with these, whatever it
acknowledges later and in which order its records are fed, and for no `rho`
that it keeps to in every interval, does the bin say more than `rho`, if and
only if the first record carries nothing or the records span at most half a
second.

Then a rate is not reported as sustained either, where `rho` does not sustain
it, rounded as the curve rounds; and where some worker's bin says `rho` itself,
no less will do. -/
theorem achievedTps_le_all_iff {first : ℚ} {times : List ℚ} {n : ℕ} (ht : 0 ≤ t)
    (htimes : (t :: first :: times).Pairwise (· < ·)) :
    ((∀ rho b, Fed t (first :: times) n rho b → b.achievedTps ≤ rho)
        ↔ StartsEmpty n first ((first :: times).getLast (List.cons_ne_nil _ _)))
      ∧ (StartsEmpty n first ((first :: times).getLast (List.cons_ne_nil _ _)) →
        ∀ (bucketUs : Bucket → ℚ) (sustain : ℚ) (offered : ℕ) (rho : ℚ),
          (roundEven rho < sustain * offered → ∀ b, Fed t (first :: times) n rho b →
            (b.point bucketUs offered).achieved < sustain * offered)
          ∧ ((∃ b, Fed t (first :: times) n rho b ∧ b.achievedTps = rho) →
            (∀ b, Fed t (first :: times) n rho b →
              (b.point bucketUs offered).achieved < sustain * offered) →
            roundEven rho < sustain * offered)) := by
  refine ⟨⟨fun h => ?_, fun hstart rho b hfed => hfed.achievedTps_le ht hstart⟩,
    fun hstart bucketUs sustain offered rho => ⟨fun hsustain b hfed => ?_, ?_⟩⟩
  · by_contra hstart
    obtain ⟨rho, b, hfed, hover⟩ := exists_overstated ht htimes hstart
    exact absurd (h rho b hfed) (not_le.mpr hover)
  · refine lt_of_le_of_lt ?_ hsustain
    exact_mod_cast roundEven_mono (hfed.achievedTps_le ht hstart)
  · -- the point of a bin that says `rho` is `rho` rounded
    rintro ⟨b, hfed, rfl⟩ hnever
    exact hnever b hfed

/-- An engine that acknowledges 4400 orders a second from some time on. -/
def steadyAcks (since t : ℚ) : ℕ := ⌊4400 * (t - since)⌋₊

/-- Nothing is taken back. -/
theorem monotone_steadyAcks (since : ℚ) : Monotone (steadyAcks since) := fun t t' htt' =>
  Nat.floor_mono (mul_le_mul_of_nonneg_left (sub_le_sub_right htt' since) (by norm_num))

/-- The records of a step at 5000 orders a second, with a flush every 0.2
seconds. -/
def steadyRecords : List Sample :=
  (List.range 20).map (fun i => ⟨"r", 1700000000 + (i + 1) / 5,
    ⟨⟨"open", 5000⟩, 1000, 880, 0, 0, 0, [(⟨80, by decide⟩, 880)]⟩⟩)

/-- A first record with no acknowledgement, and one with those of a second. -/
def lateRecords : Sample × Sample :=
  (⟨"r", 1700000001, ⟨⟨"open", 5000⟩, 5000, 0, 0, 0, 0, []⟩⟩,
    ⟨"r", 1700000002, ⟨⟨"open", 5000⟩, 5000, 4400, 0, 0, 0, [(⟨80, by decide⟩, 4400)]⟩⟩)

/-- Nothing was acknowledged in the first interval. -/
theorem achievedTps_le_when_late :
    ([lateRecords.2, lateRecords.1].foldl RateBin.add .new).achievedTps ≤ 4400
      ∧ (([lateRecords.2, lateRecords.1].foldl RateBin.add .new).point (fun b => b.val) 5000).achieved
        < (9 / 10 : ℚ) * (5000 : ℕ) := by
  have hflushed : Flushed (steadyAcks 1700000001) 1700000000 [lateRecords.1, lateRecords.2] := by
    decide +kernel
  have hrate : AckedAtMost 4400 1700000000 [lateRecords.1, lateRecords.2] := by decide +kernel
  have hfed : Fed 1700000000 [1700000001, 1700000002] 0 4400
      ([lateRecords.2, lateRecords.1].foldl RateBin.add .new) :=
    ⟨steadyAcks 1700000001, _, _, _, monotone_steadyAcks 1700000001, hflushed, rfl, rfl, hrate,
      List.Perm.swap _ _ [], rfl⟩
  have hbins := achievedTps_le_all_iff (n := 0) (show (0 : ℚ) ≤ 1700000000 by norm_num)
    (show [(1700000000 : ℚ), 1700000001, 1700000002].Pairwise (· < ·) by decide +kernel)
  exact ⟨hbins.1.mpr (Or.inl rfl) _ _ hfed,
    (hbins.2 (Or.inl rfl) _ _ _ _).1 (by decide +kernel) _ hfed⟩

/-- **4400 orders a second are acknowledged, and 5000 are reported as
sustained**: the bin divides the acknowledgements of four seconds by 3.8. -/
theorem overstated_when_steady :
    Monotone (steadyAcks 1700000000)
      ∧ Flushed (steadyAcks 1700000000) 1700000000 steadyRecords
      ∧ AckedAtMost 4400 1700000000 steadyRecords
      ∧ 4400 < (steadyRecords.foldl RateBin.add .new).achievedTps
      ∧ 4400 < Settings.standard.sustain * 5000
      ∧ maxSustained Settings.standard.sustain
          ((steadyRecords.foldl Agg.add (.new "r" "?")).curve (fun b => b.val)) = 5000 :=
  ⟨monotone_steadyAcks _, by decide +kernel, by decide +kernel, by decide +kernel,
    by decide +kernel, by decide +kernel⟩

end Telemetry
