import Mathlib.Tactic.Linarith
import Mathlib.Tactic.Positivity
import HftArena.Telemetry.Folding

/-!
# The score

`tps` and `snapshot` of `telemetry/metrics.py` in exact arithmetic, and the
process that folds samples, takes snapshots and may be restarted: it then
begins again with no runs, and with the samples that are still to come.

Speed and latency give a performance between 0 and 1 whatever is measured
(`Live.performance_range`), and the probe's factor is a share. The share of the
orders that are acknowledged need not be one: where consumption starts while
orders are in flight, their acknowledgements come without them, and as nothing
caps it correctness is then more than 1 (`Agg.one_lt_correctness`). Where the
counters that were added up cover each other, all of it is in range
(`Agg.Covered.correctness_range`, `Live.score_range`).
-/

open Fleet

namespace Telemetry

/-! ## Rounding

What is rounded keeps its order and its bounds, as far as these are integers. -/

/-- What is rounded is one of the two integers around, -/
theorem floor_le_roundEven (q : ℚ) : ⌊q⌋ ≤ roundEven q := by
  unfold roundEven
  split_ifs <;> omega

/-- the one below or the next. -/
theorem roundEven_le_floor_add_one (q : ℚ) : roundEven q ≤ ⌊q⌋ + 1 := by
  unfold roundEven
  split_ifs <;> omega

/-- **Rounding keeps the order.** -/
theorem roundEven_mono {q q' : ℚ} (hle : q ≤ q') : roundEven q ≤ roundEven q' := by
  have hfloor : ⌊q⌋ ≤ ⌊q'⌋ := Int.floor_le_floor hle
  rcases hfloor.lt_or_eq with hlt | heq
  · calc roundEven q ≤ ⌊q⌋ + 1 := roundEven_le_floor_add_one q
      _ ≤ ⌊q'⌋ := Int.add_one_le_of_lt hlt
      _ ≤ roundEven q' := floor_le_roundEven q'
  · -- both are between the same two integers, and `q` is no nearer the upper one
    unfold roundEven
    rw [heq]
    split_ifs <;> first | omega | linarith

/-- An integer is rounded to itself. -/
theorem roundEven_intCast (n : ℤ) : roundEven n = n := by
  have hzero : (n : ℚ) - ⌊(n : ℚ)⌋ < 1 / 2 := by
    rw [Int.floor_intCast, sub_self]
    norm_num
  rw [roundEven, if_pos hzero, Int.floor_intCast]

/-- So does rounding to some digits. -/
theorem roundTo_mono (digits : ℕ) {q q' : ℚ} (hle : q ≤ q') :
    roundTo digits q ≤ roundTo digits q' := by
  have hround : roundEven (q * 10 ^ digits) ≤ roundEven (q' * 10 ^ digits) :=
    roundEven_mono (mul_le_mul_of_nonneg_right hle (by positivity))
  exact div_le_div_of_nonneg_right (by exact_mod_cast hround) (by positivity)

/-- An integer is rounded to itself. -/
theorem roundTo_intCast (digits : ℕ) (n : ℤ) : roundTo digits n = n := by
  have hround : roundEven ((n : ℚ) * 10 ^ digits) = n * 10 ^ digits := by
    exact_mod_cast roundEven_intCast (n * 10 ^ digits)
  have hpos : (0 : ℚ) < 10 ^ digits := by positivity
  rw [roundTo, hround, div_eq_iff hpos.ne']
  push_cast
  rfl

/-- Nothing is rounded below zero. -/
theorem roundTo_nonneg {q : ℚ} (digits : ℕ) (h : 0 ≤ q) : 0 ≤ roundTo digits q := by
  have hle := roundTo_mono digits (q := ((0 : ℤ) : ℚ)) (by exact_mod_cast h)
  rwa [roundTo_intCast, Int.cast_zero] at hle

/-- What is no more than an integer is not rounded beyond it. -/
theorem roundTo_le {q : ℚ} {n : ℤ} (digits : ℕ) (h : q ≤ n) : roundTo digits q ≤ n :=
  (roundTo_mono digits h).trans_eq (roundTo_intCast digits n)

/-! ## Snapshots

A snapshot changes the aggregate: the window and the peak go on with it. -/

/-- The settings of the module, which come from its environment. -/
structure Settings where
  targetTps : ℚ
  latRefUs : ℚ
  sustain : ℚ
  refLoad : ℚ
  targetTps_nonneg : 0 ≤ targetTps
  latRefUs_nonneg : 0 ≤ latRefUs

/-- **An aggregate with the window of its throughput.** -/
structure Live where
  agg : Agg
  peakTps : ℚ
  /-- Times, with what had been sent by then. -/
  win : List (ℚ × ℤ)

/-- `Agg.__init__`. -/
def Live.new (runId submission : String) : Live := ⟨.new runId submission, 0, []⟩

/-- `tps`: the throughput over the last two seconds, and the aggregate after
it. Entries that are older are dropped from the window, and the peak is the
greatest throughput so far. -/
def Live.tps (l : Live) (now : ℚ) : Live × ℚ :=
  let win := (l.win ++ [(now, l.agg.sent)]).dropWhile (fun w => decide (2 < now - w.1))
  match win with
  | (t0, s0) :: _ :: _ =>
    let dt := now - t0
    let cur : ℚ := if 0 < dt then (l.agg.sent - s0) / dt else 0
    ({ l with win := win, peakTps := max l.peakTps cur }, cur)
  | _ => ({ l with win := win }, 0)

/-- `_ref_point`: the point nearest the reference load, and the first of those
if several are as near. -/
def refPoint (refLoad : ℚ) : List Point → Option Point
  | [] => none
  | p :: pts => some (pts.foldl
      (fun best p => if |p.offered - refLoad| < |best.offered - refLoad| then p else best) p)

/-- `_max_sustained`: the greatest rate of which enough was achieved. -/
def maxSustained (sustain : ℚ) (pts : List Point) : ℕ :=
  pts.foldl (fun best p => if sustain * p.offered ≤ p.achieved then max best p.offered else best) 0

/-- What `snapshot` returns. -/
structure Snapshot where
  submission : String
  runId : String
  p50Us : ℚ
  p90Us : ℚ
  p99Us : ℚ
  refLoad : ℕ
  maxSustainedTps : ℕ
  jitterUs : ℚ
  burstP50Us : ℚ
  burstP99Us : ℚ
  burstJitterUs : ℚ
  tps : ℤ
  peakTps : ℤ
  sent : ℤ
  acked : ℤ
  errors : ℤ
  correctness : ℚ
  performance : ℚ
  score : ℚ
  curve : List Point
  burstCurve : List Point

/-- `throughput_norm`. -/
def Live.throughputNorm (cfg : Settings) (l : Live) : ℚ :=
  if cfg.targetTps ≠ 0 then min 1 (l.peakTps / cfg.targetTps) else 0

/-- `latency_score`. -/
def latencyScore (cfg : Settings) (p99 : ℚ) : ℚ :=
  if 0 < p99 then cfg.latRefUs / (cfg.latRefUs + p99) else 0

/-- `performance`. -/
def Live.performance (cfg : Settings) (l : Live) (p99 : ℚ) : ℚ :=
  3 / 5 * l.throughputNorm cfg + 2 / 5 * latencyScore cfg p99

/-- `snapshot`, with the aggregate after it. Latencies are those of the point
at the reference load; the score is correctness times performance, on a scale
up to 1000. -/
def Live.snapshot (cfg : Settings) (bucketUs : Bucket → ℚ) (l : Live) (now : ℚ) : Live × Snapshot :=
  let t := l.tps now
  let l := t.1
  let pts := l.agg.curve bucketUs
  let rp := refPoint cfg.refLoad pts
  let p50 := rp.elim 0 Point.p50Us
  let p90 := rp.elim 0 Point.p90Us
  let p99 := rp.elim 0 Point.p99Us
  let burstPts := l.agg.burstCurve bucketUs
  let brp := refPoint cfg.refLoad burstPts
  let burstP50 := brp.elim 0 Point.p50Us
  let burstP99 := brp.elim 0 Point.p99Us
  let performance := l.performance cfg p99
  (l,
    { submission := l.agg.submission
      runId := l.agg.runId
      p50Us := roundTo 1 p50
      p90Us := roundTo 1 p90
      p99Us := roundTo 1 p99
      refLoad := rp.elim 0 Point.offered
      maxSustainedTps := maxSustained cfg.sustain pts
      jitterUs := roundTo 1 (max 0 (p99 - p50))
      burstP50Us := roundTo 1 burstP50
      burstP99Us := roundTo 1 burstP99
      burstJitterUs := roundTo 1 (max 0 (burstP99 - burstP50))
      tps := roundEven t.2
      peakTps := roundEven l.peakTps
      sent := l.agg.sent
      acked := l.agg.acked
      errors := l.agg.errors
      correctness := roundTo 4 l.agg.correctness
      performance := roundTo 4 performance
      score := roundTo 1 (l.agg.correctness * performance * 1000)
      curve := pts
      burstCurve := burstPts })

/-! ### What a snapshot leaves as it is -/

/-- The counters are as they were, -/
theorem Live.agg_tps (l : Live) (now : ℚ) : (l.tps now).1.agg = l.agg := by
  unfold Live.tps
  dsimp only
  split <;> rfl

/-- What is left of the window. -/
def Live.window (l : Live) (now : ℚ) : List (ℚ × ℤ) :=
  (l.win ++ [(now, l.agg.sent)]).dropWhile (fun w => decide (2 < now - w.1))

/-- and the window is what is left of it. -/
theorem Live.win_tps (l : Live) (now : ℚ) : (l.tps now).1.win = l.window now := by
  unfold Live.tps
  dsimp only
  split <;> rfl

/-- A snapshot that is alone in the window leaves the peak. -/
theorem Live.peakTps_tps_of_singleton {l : Live} {now : ℚ} {w : ℚ × ℤ} (h : l.window now = [w]) :
    (l.tps now).1.peakTps = l.peakTps := by
  unfold Live.window at h
  unfold Live.tps
  rw [h]

/-- Else it is compared with the oldest there is. -/
theorem Live.peakTps_tps_of_cons {l : Live} {now t₀ : ℚ} {s₀ : ℤ} {w : ℚ × ℤ} {ws : List (ℚ × ℤ)}
    (h : l.window now = (t₀, s₀) :: w :: ws) :
    (l.tps now).1.peakTps
      = max l.peakTps (if 0 < now - t₀ then ((l.agg.sent : ℚ) - s₀) / (now - t₀) else 0) := by
  unfold Live.window at h
  unfold Live.tps
  rw [h]

/-- The peak only rises. -/
theorem Live.peakTps_le_tps (l : Live) (now : ℚ) : l.peakTps ≤ (l.tps now).1.peakTps := by
  unfold Live.tps
  dsimp only
  split
  · exact le_max_left _ _
  · exact le_rfl

/-! ### Ranges

Each factor of the score by itself. -/

/-- **Performance is a share**, whatever is measured. -/
theorem Live.performance_range (cfg : Settings) {l : Live} (hpeak : 0 ≤ l.peakTps) (p99 : ℚ) :
    0 ≤ l.performance cfg p99 ∧ l.performance cfg p99 ≤ 1 := by
  have hthroughput : 0 ≤ l.throughputNorm cfg ∧ l.throughputNorm cfg ≤ 1 := by
    unfold Live.throughputNorm
    split_ifs
    · exact ⟨le_min zero_le_one (div_nonneg hpeak cfg.targetTps_nonneg), min_le_left _ _⟩
    · exact ⟨le_rfl, zero_le_one⟩
  have hlatency : 0 ≤ latencyScore cfg p99 ∧ latencyScore cfg p99 ≤ 1 := by
    have href := cfg.latRefUs_nonneg
    unfold latencyScore
    split_ifs with hp99
    · exact ⟨div_nonneg href (by linarith), div_le_one_of_le₀ (by linarith) (by linarith)⟩
    · exact ⟨le_rfl, zero_le_one⟩
  unfold Live.performance
  constructor <;> linarith [hthroughput.1, hthroughput.2, hlatency.1, hlatency.2]

/-- **What holds of the counters** as long as acknowledgements are covered. -/
structure Agg.Covered (a : Agg) : Prop where
  acked : 0 ≤ a.acked
  sent : a.acked ≤ a.sent
  corrPass : 0 ≤ a.corrPass
  corrTotal : a.corrPass ≤ a.corrTotal

/-- A quotient of counters, or 1 where there is nothing to divide by. -/
theorem share_nonneg {x y : ℤ} (hx : 0 ≤ x) (hy : 0 ≤ y) :
    0 ≤ (if y ≠ 0 then (x : ℚ) / y else 1) := by
  split_ifs
  · exact div_nonneg (by exact_mod_cast hx) (by exact_mod_cast hy)
  · exact zero_le_one

/-- It is a share if the one covers the other. -/
theorem share_range {x y : ℤ} (hx : 0 ≤ x) (hxy : x ≤ y) :
    0 ≤ (if y ≠ 0 then (x : ℚ) / y else 1) ∧ (if y ≠ 0 then (x : ℚ) / y else 1) ≤ 1 := by
  refine ⟨share_nonneg hx (hx.trans hxy), ?_⟩
  split_ifs
  · exact div_le_one_of_le₀ (by exact_mod_cast hxy) (by exact_mod_cast hx.trans hxy)
  · exact le_rfl

/-- **Then correctness is a share.** -/
theorem Agg.Covered.correctness_range {a : Agg} (h : a.Covered) :
    0 ≤ a.correctness ∧ a.correctness ≤ 1 := by
  have hpriority := share_range h.corrPass h.corrTotal
  have hreliability := share_range h.acked h.sent
  exact ⟨mul_nonneg hpriority.1 hreliability.1,
    mul_le_one₀ hpriority.2 hreliability.1 hreliability.2⟩

/-- **And the score is in range.** -/
theorem Live.score_range (cfg : Settings) (bucketUs : Bucket → ℚ) {l : Live} (h : l.agg.Covered)
    (hpeak : 0 ≤ l.peakTps) (now : ℚ) :
    0 ≤ (l.snapshot cfg bucketUs now).2.score ∧ (l.snapshot cfg bucketUs now).2.score ≤ 1000 := by
  have hcorrectness : 0 ≤ (l.tps now).1.agg.correctness ∧ (l.tps now).1.agg.correctness ≤ 1 := by
    rw [Live.agg_tps]
    exact h.correctness_range
  have hperformance := Live.performance_range cfg (hpeak.trans (l.peakTps_le_tps now))
    ((refPoint cfg.refLoad ((l.tps now).1.agg.curve bucketUs)).elim 0 Point.p99Us)
  have hscore := mul_nonneg hcorrectness.1 hperformance.1
  have hscore' := mul_le_one₀ hcorrectness.2 hperformance.1 hperformance.2
  refine ⟨roundTo_nonneg 1 ?_, roundTo_le (n := 1000) 1 ?_⟩
  · exact mul_nonneg hscore (by norm_num)
  · push_cast
    linarith

/-- Where more is acknowledged than was sent and nothing of the probe is
failed, correctness is out of range. -/
theorem Agg.one_lt_correctness {a : Agg} (hsent : 0 < a.sent) (hacked : a.sent < a.acked)
    (hpass : a.corrPass = a.corrTotal) : 1 < a.correctness := by
  have hpriority : a.priority = 1 := by
    unfold Agg.priority
    rw [hpass]
    split_ifs with hzero
    · exact div_self (by exact_mod_cast hzero)
    · rfl
  have hsent' : (0 : ℚ) < a.sent := by exact_mod_cast hsent
  rw [Agg.correctness, hpriority, one_mul, Agg.reliability, if_pos hsent.ne', one_lt_div hsent']
  exact_mod_cast hacked

/-- **Where every iteration of the probe is failed the score is zero**, however
fast the engine is. -/
theorem Live.score_eq_zero_of_failed (cfg : Settings) (bucketUs : Bucket → ℚ) {l : Live}
    (hpass : l.agg.corrPass = 0) (htotal : 0 < l.agg.corrTotal) (now : ℚ) :
    (l.snapshot cfg bucketUs now).2.correctness = 0
      ∧ (l.snapshot cfg bucketUs now).2.score = 0 := by
  have hcorrectness : l.agg.correctness = 0 := by
    rw [Agg.correctness, Agg.priority, hpass, if_pos htotal.ne', Int.cast_zero, zero_div, zero_mul]
  have hround : ∀ digits, roundTo digits 0 = 0 := fun digits => by
    have hzero := roundTo_intCast digits 0
    rwa [Int.cast_zero] at hzero
  refine ⟨?_, ?_⟩
  · show roundTo 4 (l.tps now).1.agg.correctness = 0
    rw [l.agg_tps, hcorrectness, hround]
  · show roundTo 1 ((l.tps now).1.agg.correctness * _ * 1000) = 0
    rw [l.agg_tps, hcorrectness, zero_mul, zero_mul, hround]

/-! ## The process

Messages, snapshots and restarts, in any order. The snapshots are those of the
publisher and of the listener alike. -/

/-- `RUNS`, with the windows. -/
abbrev LiveRuns := Dict String Live

/-- **What the process does.** -/
inductive Deed where
  /-- It handles a message. -/
  | handle (m : Message)
  /-- It takes a snapshot of a run: to publish or to persist it. -/
  | snapshot (run : String) (now : ℚ)
  /-- It is restarted. -/
  | restart
deriving DecidableEq

/-- The aggregate of a run, or a new one. -/
def LiveRuns.of (runs : LiveRuns) (run : String) : Live := (runs.get? run).getD (.new run "?")

/-- `_apply`: a sample is added to the aggregate of its run. -/
def LiveRuns.apply (runs : LiveRuns) (s : Sample) : LiveRuns :=
  runs.set s.runId { runs.of s.runId with agg := (runs.of s.runId).agg.add s }

/-- `control_listener`: a run that is started has a new aggregate, whether
there was one or not. -/
def LiveRuns.control (runs : LiveRuns) (m : Control) : LiveRuns :=
  if m.cmd = "start" then runs.set m.runId (.new m.runId (m.submission.getD "?")) else runs

/-- A step of the process. -/
def LiveRuns.step (runs : LiveRuns) : Deed → Option LiveRuns
  | .handle (.control m) => some (runs.control m)
  | .handle (.sample s) => some (runs.apply s)
  | .snapshot run now => (runs.get? run).map (fun l => runs.set run (l.tps now).1)
  | .restart => some .empty

/-- **Where an aggregate comes from** that there is after a step: it was there
before, it is new, or the step adds a sample to it or takes a snapshot of
it. -/
theorem LiveRuns.get?_step {runs runs' : LiveRuns} {d : Deed} {run : String} {l : Live}
    (hstep : runs.step d = some runs') (hl : runs'.get? run = some l) :
    runs.get? run = some l
      ∨ (∃ submission, l = .new run submission)
      ∨ (∃ s, d = .handle (.sample s) ∧ s.runId = run
          ∧ l = { runs.of run with agg := (runs.of run).agg.add s })
      ∨ ∃ now l', d = .snapshot run now ∧ runs.get? run = some l' ∧ l = (l'.tps now).1 := by
  cases d with
  | handle m =>
    cases m with
    | control m =>
      cases hstep
      unfold LiveRuns.control at hl
      -- Of the commands only a start makes an aggregate, and it makes a new
      -- one.
      by_cases hcmd : m.cmd = "start"
      · rw [if_pos hcmd, Dict.get?_set] at hl
        split_ifs at hl with hrun
        · cases hl
          exact .inr (.inl ⟨_, by rw [hrun]⟩)
        · exact .inl hl
      · rw [if_neg hcmd] at hl
        exact .inl hl
    | sample s =>
      cases hstep
      rw [LiveRuns.apply, Dict.get?_set] at hl
      split_ifs at hl with hrun
      · cases hl
        exact .inr (.inr (.inl ⟨s, rfl, hrun.symm, by rw [hrun]⟩))
      · exact .inl hl
  | snapshot run' now =>
    obtain ⟨l', hl', rfl⟩ := Option.map_eq_some_iff.mp hstep
    rw [Dict.get?_set] at hl
    split_ifs at hl with hrun
    · cases hl
      subst hrun
      exact .inr (.inr (.inr ⟨now, l', rfl, hl', rfl⟩))
    · exact .inl hl
  | restart =>
    cases hstep
    cases hl

/-- **What holds of every aggregate**, whatever the process does: what holds of
a new one, and is kept by the samples that are handled and by snapshots. -/
theorem LiveRuns.forall_of_exec (P : Live → Prop) {runs : LiveRuns} {deeds : List Deed}
    (hexec : exec LiveRuns.step .empty deeds = some runs)
    (hnew : ∀ run submission, P (.new run submission))
    (hadd : ∀ l s, .handle (.sample s) ∈ deeds → P l → P { l with agg := l.agg.add s })
    (htps : ∀ (l : Live) now, P l → P (l.tps now).1) : ∀ run, ∀ l ∈ runs.get? run, P l := by
  have hstep : ∀ (past : List Deed) (runs : LiveRuns) d runs', d ∈ deeds →
      (∀ run, ∀ l ∈ runs.get? run, P l) →
      runs.step d = some runs' → ∀ run, ∀ l ∈ runs'.get? run, P l := by
    intro past runs d runs' hd h hstep run l hl
    rcases LiveRuns.get?_step hstep hl with hold | ⟨_, rfl⟩ | ⟨s, rfl, -, rfl⟩
      | ⟨now, l', -, hl', rfl⟩
    · exact h run l hold
    · exact hnew run _
    · refine hadd (runs.of run) s hd ?_
      unfold LiveRuns.of
      cases hrun : runs.get? run with
      | none => exact hnew run "?"
      | some l' => exact h run l' hrun
    · exact htps l' now (h run l' hl')
  exact inv_of_exec_past (fun _ runs => ∀ run, ∀ l ∈ runs.get? run, P l) [] hexec hstep
    (fun run l hl => by cases hl)

/-- `TARGET_TPS`, `LAT_REF_US`, `SUSTAIN` and `REF_LOAD` as they are by
default. -/
def Settings.standard : Settings := ⟨100000, 2000, 9 / 10, 10000, by norm_num, by norm_num⟩

end Telemetry
