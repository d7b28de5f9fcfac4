import HftArena.Fleet.RunLoad

/-!
# What telemetry makes of the samples

`RateBin`, `Agg` and `_apply` of `telemetry/metrics.py` and
`telemetry/ingester.py`: a sample is added to the counters of its run, and to
the point of its rate on one of the two curves. Counters are integers and times
are rational numbers.

The factors of the score that are quotients of counters are here too. What is
made of the points of the curves is in `Telemetry.Curve`, and the score in
`Telemetry.Score`.
-/

open Fleet

namespace Telemetry

/-- **A sample**: a record with the run it belongs to and the time it was
made. -/
structure Sample where
  runId : String
  ts : ℚ
  record : Record
deriving DecidableEq

/-- `RateBin`: a point of a curve, with what was sent and acknowledged at its
rate, the histogram of the latencies, and the first and the last time of a
sample. -/
structure RateBin where
  sent : ℤ
  acked : ℤ
  hist : Bucket → ℤ
  firstTs : Option ℚ
  lastTs : Option ℚ

/-- `RateBin.__init__`. -/
def RateBin.new : RateBin := ⟨0, 0, fun _ => 0, none, none⟩

/-- `RateBin.add`. A time of zero counts as none, as in the code, where it is
tested for its truth. -/
def RateBin.add (b : RateBin) (s : Sample) : RateBin where
  sent := b.sent + s.record.sent
  acked := b.acked + s.record.acked
  hist := s.record.hist.foldl (fun hist p => Function.update hist p.1 (hist p.1 + p.2)) b.hist
  firstTs := if s.ts = 0 then b.firstTs else some (b.firstTs.elim s.ts (min s.ts))
  lastTs := if s.ts = 0 then b.lastTs else some (b.lastTs.elim s.ts (max s.ts))

/-- `Agg`, with the points of the two curves: what telemetry knows of a run. -/
structure Agg where
  runId : String
  submission : String
  sent : ℤ
  acked : ℤ
  errors : ℤ
  corrPass : ℤ
  corrTotal : ℤ
  /-- offered rate → point of the steady sweep -/
  rates : Dict ℕ RateBin
  /-- average rate → point of the microburst sweep -/
  burstRates : Dict ℕ RateBin

/-- `Agg.__init__`. -/
def Agg.new (runId : String) (submission : String) : Agg :=
  ⟨runId, submission, 0, 0, 0, 0, 0, .empty, .empty⟩

/-- `bins.setdefault(rate, RateBin()).add(...)`. -/
def addToBin (bins : Dict ℕ RateBin) (s : Sample) : Dict ℕ RateBin :=
  bins.set s.record.tag.rate (((bins.get? s.record.tag.rate).getD .new).add s)

/-- `Agg.add`. All samples count for the run; only those of a rate above zero,
in one of the two sweeps, count for a point. -/
def Agg.add (a : Agg) (s : Sample) : Agg :=
  { a with
    sent := a.sent + s.record.sent
    acked := a.acked + s.record.acked
    errors := a.errors + s.record.errors
    corrPass := a.corrPass + s.record.corrPass
    corrTotal := a.corrTotal + s.record.corrTotal
    rates :=
      if 0 < s.record.tag.rate ∧ s.record.tag.phase = "open" then addToBin a.rates s else a.rates
    burstRates :=
      if 0 < s.record.tag.rate ∧ s.record.tag.phase = "burst" then addToBin a.burstRates s
      else a.burstRates }

/-- A sample adds to no point but that of its rate. -/
theorem Agg.get?_add_of_ne (a : Agg) {s : Sample} {rate : ℕ} (h : s.record.tag.rate ≠ rate) :
    (a.add s).rates.get? rate = a.rates.get? rate
      ∧ (a.add s).burstRates.get? rate = a.burstRates.get? rate := by
  have hbin : ∀ bins : Dict ℕ RateBin, (addToBin bins s).get? rate = bins.get? rate := by
    intro bins
    rw [addToBin, Dict.get?_set, if_neg (Ne.symm h)]
  unfold Agg.add
  dsimp only
  constructor
  · split_ifs
    · exact hbin _
    · rfl
  · split_ifs
    · exact hbin _
    · rfl

/-- The share of the probe's iterations that were passed, and one before there
are any. -/
def Agg.priority (a : Agg) : ℚ := if a.corrTotal ≠ 0 then a.corrPass / a.corrTotal else 1

/-- The share of the orders that were acknowledged, and one before there are
any. Nothing keeps it below one. -/
def Agg.reliability (a : Agg) : ℚ := if a.sent ≠ 0 then a.acked / a.sent else 1

/-- `Agg.correctness`. -/
def Agg.correctness (a : Agg) : ℚ := a.priority * a.reliability

/-- `RUNS`: what telemetry knows, run by run. -/
abbrev Runs := Dict String Agg

/-- `_apply`: a sample of a run that is not known makes it known, without a
name. -/
def Runs.apply (runs : Runs) (s : Sample) : Runs :=
  runs.set s.runId (((runs.get? s.runId).getD (.new s.runId "?")).add s)

/-! ## Folding samples -/

/-- The counters of the probe in a run. -/
def Runs.corr (runs : Runs) (run : String) : ℤ × ℤ :=
  (runs.get? run).elim (0, 0) (fun a => (a.corrPass, a.corrTotal))

/-- What a sample adds to them. -/
theorem Runs.corr_apply (runs : Runs) (s : Sample) (run : String) :
    (runs.apply s).corr run
      = if s.runId = run then runs.corr run + (s.record.corrPass, s.record.corrTotal)
        else runs.corr run := by
  unfold Runs.corr Runs.apply
  rw [Dict.get?_set]
  by_cases hrun : s.runId = run
  · subst hrun
    rw [if_pos rfl, if_pos rfl]
    cases runs.get? s.runId with
    | none => rfl
    | some a => rfl
  · rw [if_neg hrun, if_neg (Ne.symm hrun)]

end Telemetry
