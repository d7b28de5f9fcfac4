import Mathlib.Algebra.Order.Floor.Ring
import Mathlib.Data.List.Sort
import Mathlib.Data.Rat.Floor
import HftArena.Telemetry.Metrics

/-!
# The curves, and the order of the samples

`_percentiles`, `achieved_tps` and `_curve` of `telemetry/metrics.py` in exact
arithmetic, with the value of a bucket as a parameter.

An aggregate is a sum: `Totals` is what it holds with the order of its
dictionaries forgotten, and adding samples to it commutes (`Totals.add_comm`).
So neither the order in which samples of any workers arrive nor the samples of
other runs make a difference to what a run shows (`shown_of_perm`).

The times of a point are the one thing that is not added up. They are the
earliest and the latest, which can be taken in any order as well (`elim_comm`).
-/

open Fleet

namespace Telemetry

/-! ## Rounding

Python rounds halves to even, and the decimals of a rational are rounded
exactly. -/

/-- `round` to an integer: halves go to the even one. -/
def roundEven (q : ℚ) : ℤ :=
  if q - ⌊q⌋ < 1 / 2 then ⌊q⌋
  else if 1 / 2 < q - ⌊q⌋ then ⌊q⌋ + 1
  else if ⌊q⌋ % 2 = 0 then ⌊q⌋ else ⌊q⌋ + 1

/-- `round` to so many digits. -/
def roundTo (digits : ℕ) (q : ℚ) : ℚ := roundEven (q * 10 ^ digits) / 10 ^ digits

/-! ## The curves

A point is made of a bin, and a curve of the bins in the order of their rates. -/

/-- Where the loop of `_percentiles` is: the count so far, the percentiles that
are still to be reached with their thresholds, and those that were. -/
structure Scan where
  cum : ℤ
  targets : List (ℕ × ℚ)
  out : Dict ℕ ℚ

/-- One bucket: it is added to the count, and answers every percentile whose
threshold the count has now reached. -/
def Scan.turn (bucketUs : Bucket → ℚ) (hist : Bucket → ℤ) (st : Scan) (b : Bucket) : Scan :=
  let cum := st.cum + hist b
  { cum := cum
    targets := st.targets.filter (fun t => !decide (t.2 ≤ (cum : ℚ)))
    out := (st.targets.filter (fun t => decide (t.2 ≤ (cum : ℚ)))).foldl
      (fun out t => out.set t.1 (bucketUs b)) st.out }

/-- The loop, up to the bucket where no percentile is left. -/
def Scan.loop (bucketUs : Bucket → ℚ) (hist : Bucket → ℤ) : Scan → List Bucket → Scan
  | st, [] => st
  | st, b :: bs =>
    let st' := st.turn bucketUs hist b
    if st'.targets.isEmpty then st' else loop bucketUs hist st' bs

/-- `_percentiles`: the 50th, the 90th and the 99th. -/
def percentiles (bucketUs : Bucket → ℚ) (hist : Bucket → ℤ) : ℚ × ℚ × ℚ :=
  let total := ((List.finRange 256).map hist).sum
  if total = 0 then (0, 0, 0)
  else
    let st := Scan.loop bucketUs hist
      ⟨0, [(50, total * (1 / 2)), (90, total * (9 / 10)), (99, total * (99 / 100))], .empty⟩
      (List.finRange 256)
    ((st.out.get? 50).getD 0, (st.out.get? 90).getD 0, (st.out.get? 99).getD 0)

/-- `achieved_tps`. A time that is zero is none. -/
def RateBin.achievedTps (b : RateBin) : ℚ :=
  let span : ℚ :=
    match b.firstTs, b.lastTs with
    | some first, some last => if first ≠ 0 ∧ last ≠ 0 then last - first else 0
    | _, _ => 0
  if 1 / 2 < span then b.acked / span else 0

/-- A point of a curve. -/
structure Point where
  offered : ℕ
  achieved : ℤ
  p50Us : ℚ
  p90Us : ℚ
  p99Us : ℚ
deriving DecidableEq

/-- The point of a rate. -/
def RateBin.point (bucketUs : Bucket → ℚ) (offered : ℕ) (b : RateBin) : Point :=
  let p := percentiles bucketUs b.hist
  ⟨offered, roundEven b.achievedTps, roundTo 1 p.1, roundTo 1 p.2.1, roundTo 1 p.2.2⟩

/-- `_curve`: the points in the order of their rates. -/
def curveOf (bucketUs : Bucket → ℚ) (bins : Dict ℕ RateBin) : List Point :=
  (bins.keys.insertionSort (· ≤ ·)).filterMap
    (fun offered => (bins.get? offered).map (RateBin.point bucketUs offered))

/-- `curve`. -/
def Agg.curve (bucketUs : Bucket → ℚ) (a : Agg) : List Point := curveOf bucketUs a.rates

/-- `burst_curve`. -/
def Agg.burstCurve (bucketUs : Bucket → ℚ) (a : Agg) : List Point := curveOf bucketUs a.burstRates

/-- The rates of a curve depend on which were seen, and not on the order in
which they first were. -/
theorem sorted_keys_congr {bins bins' : Dict ℕ RateBin}
    (h : ∀ rate, rate ∈ bins.keys ↔ rate ∈ bins'.keys) :
    bins.keys.insertionSort (· ≤ ·) = bins'.keys.insertionSort (· ≤ ·) := by
  have hkeys : bins.keys.Perm bins'.keys :=
    (List.perm_ext_iff_of_nodup bins.nodup_keys bins'.nodup_keys).mpr h
  exact (((List.perm_insertionSort _ _).trans hkeys).trans
    (List.perm_insertionSort _ _).symm).eq_of_pairwise'
    (List.pairwise_insertionSort _ _) (List.pairwise_insertionSort _ _)

/-- **A curve depends on the points of its rates**, and not on the order in
which the rates were first seen. -/
theorem curveOf_congr (bucketUs : Bucket → ℚ) {bins bins' : Dict ℕ RateBin}
    (h : ∀ rate, bins.get? rate = bins'.get? rate) :
    curveOf bucketUs bins = curveOf bucketUs bins' := by
  have hsorted : bins.keys.insertionSort (· ≤ ·) = bins'.keys.insertionSort (· ≤ ·) :=
    sorted_keys_congr (fun rate => by rw [Dict.mem_keys_iff, Dict.mem_keys_iff, h])
  unfold curveOf
  rw [hsorted]
  exact List.filterMap_congr (fun rate _ => by rw [h])

/-- Every rate has its point. -/
theorem curveOf_eq_map (bucketUs : Bucket → ℚ) (bins : Dict ℕ RateBin) :
    curveOf bucketUs bins = (bins.keys.insertionSort (· ≤ ·)).map
      (fun offered => RateBin.point bucketUs offered ((bins.get? offered).getD .new)) := by
  rw [curveOf, ← List.filterMap_eq_map]
  refine List.filterMap_congr (fun offered hoffered => ?_)
  obtain ⟨b, hb⟩ := Dict.mem_keys_iff.mp ((List.perm_insertionSort _ _).subset hoffered)
  rw [hb, Function.comp_apply, hb]
  rfl

/-! ## Aggregates as sums

The one thing in an aggregate that depends on the order of samples is in which
order the dictionaries have their keys, and the curve sorts them. -/

/-- **What an aggregate holds**, with the order of its dictionaries
forgotten. -/
@[ext] structure Totals where
  runId : String
  submission : String
  sent : ℤ
  acked : ℤ
  errors : ℤ
  corrPass : ℤ
  corrTotal : ℤ
  rates : ℕ → Option RateBin
  burstRates : ℕ → Option RateBin

/-- What an aggregate holds. -/
def Agg.totals (a : Agg) : Totals :=
  ⟨a.runId, a.submission, a.sent, a.acked, a.errors, a.corrPass, a.corrTotal, a.rates.get?,
    a.burstRates.get?⟩

/-- A sample is added to the point of its rate. -/
def addToPoint (bins : ℕ → Option RateBin) (s : Sample) : ℕ → Option RateBin :=
  Function.update bins s.record.tag.rate (some (((bins s.record.tag.rate).getD .new).add s))

/-- Whether a sample belongs to the curve of a phase. -/
def Sample.OnCurve (s : Sample) (phase : String) : Prop :=
  0 < s.record.tag.rate ∧ s.record.tag.phase = phase

instance (s : Sample) (phase : String) : Decidable (s.OnCurve phase) :=
  inferInstanceAs (Decidable (_ ∧ _))

/-- A sample is added. -/
def Totals.add (t : Totals) (s : Sample) : Totals :=
  { t with
    sent := t.sent + s.record.sent
    acked := t.acked + s.record.acked
    errors := t.errors + s.record.errors
    corrPass := t.corrPass + s.record.corrPass
    corrTotal := t.corrTotal + s.record.corrTotal
    rates := if s.OnCurve "open" then addToPoint t.rates s else t.rates
    burstRates := if s.OnCurve "burst" then addToPoint t.burstRates s else t.burstRates }

/-- What the dictionary of the points holds after a sample. -/
theorem get?_addToBin (bins : Dict ℕ RateBin) (s : Sample) :
    (addToBin bins s).get? = addToPoint bins.get? s := by
  funext rate
  rw [addToBin, Dict.get?_set, addToPoint, Function.update_apply]

/-- **Adding to an aggregate is adding to what it holds.** -/
theorem Agg.totals_add (a : Agg) (s : Sample) : (a.add s).totals = a.totals.add s := by
  refine Totals.ext rfl rfl rfl rfl rfl rfl rfl ?_ ?_
  · show (if s.OnCurve "open" then addToBin a.rates s else a.rates).get? = _
    rw [apply_ite Dict.get?, get?_addToBin]
    rfl
  · show (if s.OnCurve "burst" then addToBin a.burstRates s else a.burstRates).get? = _
    rw [apply_ite Dict.get?, get?_addToBin]
    rfl

/-- What a histogram holds after the counts of a sample. -/
theorem foldl_hist (hist : Bucket → ℤ) (delta : List (Bucket × ℤ)) (b : Bucket) :
    delta.foldl (fun hist p => Function.update hist p.1 (hist p.1 + p.2)) hist b
      = hist b + (delta.map (fun p => if p.1 = b then p.2 else 0)).sum := by
  induction delta generalizing hist with
  | nil => exact (add_zero _).symm
  | cons p delta ih =>
    rw [List.foldl_cons, ih, List.map_cons, List.sum_cons, Function.update_apply, ← add_assoc]
    by_cases hb : b = p.1
    · rw [if_pos hb, if_pos hb.symm, hb]
    · rw [if_neg hb, if_neg (Ne.symm hb), add_zero]

/-- What a sample adds to a bucket. -/
theorem RateBin.hist_add (b : RateBin) (s : Sample) (i : Bucket) :
    (b.add s).hist i = b.hist i + (s.record.hist.map (fun p => if p.1 = i then p.2 else 0)).sum :=
  foldl_hist b.hist s.record.hist i

/-- The earlier and the later of two times, if there are any. -/
theorem elim_comm {f : ℚ → ℚ → ℚ} (hcomm : ∀ x y, f x y = f y x)
    (hassoc : ∀ x y z, f x (f y z) = f (f x y) z) (t : Option ℚ) (x y : ℚ) :
    (some (t.elim x (f x))).elim y (f y) = (some (t.elim y (f y))).elim x (f x) := by
  cases t with
  | none => exact hcomm y x
  | some t =>
    show f y (f x t) = f x (f y t)
    rw [hassoc, hassoc, hcomm y x]

/-- **Two samples of a rate can be added in either order.** -/
theorem RateBin.add_comm (b : RateBin) (s s' : Sample) : (b.add s).add s' = (b.add s').add s := by
  have hhist : ((b.add s).add s').hist = ((b.add s').add s).hist := by
    funext i
    rw [hist_add, hist_add, hist_add, hist_add]
    exact add_right_comm _ _ _
  have hfirst : ((b.add s).add s').firstTs = ((b.add s').add s).firstTs := by
    unfold RateBin.add
    dsimp only
    by_cases h : s.ts = 0 <;> by_cases h' : s'.ts = 0 <;> simp only [h, h', if_true, if_false]
    exact congrArg some
      (elim_comm min_comm (fun x y z => (min_assoc x y z).symm) b.firstTs s.ts s'.ts)
  have hlast : ((b.add s).add s').lastTs = ((b.add s').add s).lastTs := by
    unfold RateBin.add
    dsimp only
    by_cases h : s.ts = 0 <;> by_cases h' : s'.ts = 0 <;> simp only [h, h', if_true, if_false]
    exact congrArg some
      (elim_comm max_comm (fun x y z => (max_assoc x y z).symm) b.lastTs s.ts s'.ts)
  have hsent : ((b.add s).add s').sent = ((b.add s').add s).sent := add_right_comm _ _ _
  have hacked : ((b.add s).add s').acked = ((b.add s').add s).acked := add_right_comm _ _ _
  cases hb : (b.add s).add s'
  cases hb' : (b.add s').add s
  rw [hb, hb'] at hhist hfirst hlast hsent hacked
  dsimp only at hhist hfirst hlast hsent hacked
  rw [hhist, hfirst, hlast, hsent, hacked]

/-- Two samples can be added to the points of their rates in either order. -/
theorem addToPoint_comm (bins : ℕ → Option RateBin) (s s' : Sample) :
    addToPoint (addToPoint bins s) s' = addToPoint (addToPoint bins s') s := by
  unfold addToPoint
  by_cases h : s.record.tag.rate = s'.record.tag.rate
  · rw [h, Function.update_self, Function.update_self, Function.update_idem, Function.update_idem,
      Option.getD_some, Option.getD_some, RateBin.add_comm]
  · rw [Function.update_of_ne (Ne.symm h), Function.update_of_ne h, Function.update_comm h]

/-- **Samples can be added in any order.** -/
theorem Totals.add_comm (t : Totals) (s s' : Sample) : (t.add s).add s' = (t.add s').add s := by
  refine Totals.ext rfl rfl (add_right_comm _ _ _) (add_right_comm _ _ _) (add_right_comm _ _ _)
    (add_right_comm _ _ _) (add_right_comm _ _ _) ?_ ?_
  · unfold Totals.add
    dsimp only
    by_cases h : s.OnCurve "open" <;> by_cases h' : s'.OnCurve "open" <;>
      simp only [h, h', if_true, if_false]
    exact addToPoint_comm t.rates s s'
  · unfold Totals.add
    dsimp only
    by_cases h : s.OnCurve "burst" <;> by_cases h' : s'.OnCurve "burst" <;>
      simp only [h, h', if_true, if_false]
    exact addToPoint_comm t.burstRates s s'

/-! ## Runs

A sample changes its own run and makes it if need be. -/

/-- What a run holds after a sample of some run. -/
def addToRun (run : String) (t : Option Totals) (s : Sample) : Option Totals :=
  if run = s.runId then some ((t.getD (Agg.new run "?").totals).add s) else t

/-- Two samples can be added to a run in either order, whether they are its own
or not. -/
theorem addToRun_comm (run : String) (t : Option Totals) (s s' : Sample) :
    addToRun run (addToRun run t s) s' = addToRun run (addToRun run t s') s := by
  unfold addToRun
  split_ifs
  · rw [Option.getD_some, Option.getD_some, Totals.add_comm]
  · rfl
  · rfl
  · rfl

/-- What runs hold. -/
def Runs.totals (runs : Runs) (run : String) : Option Totals := (runs.get? run).map Agg.totals

/-- A sample is added to its own run, and to no other. -/
theorem Runs.totals_apply (runs : Runs) (s : Sample) (run : String) :
    (runs.apply s).totals run = addToRun run (runs.totals run) s := by
  unfold Runs.totals Runs.apply addToRun
  rw [Dict.get?_set]
  split_ifs with hrun
  · subst hrun
    rw [Option.map_some, Agg.totals_add]
    cases runs.get? s.runId <;> rfl
  · rfl

/-- **What a run holds after samples of any runs.** -/
theorem Runs.totals_foldl (runs : Runs) (samples : List Sample) (run : String) :
    (samples.foldl Runs.apply runs).totals run = samples.foldl (addToRun run) (runs.totals run) :=
  (List.foldl_hom (fun runs : Runs => runs.totals run)
    (fun runs s => (runs.totals_apply s run).symm)).symm

/-- The samples of other runs make no difference. -/
theorem foldl_addToRun_filter (run : String) (t : Option Totals) (samples : List Sample) :
    (samples.filter (fun s => decide (run = s.runId))).foldl (addToRun run) t
      = samples.foldl (addToRun run) t := by
  induction samples generalizing t with
  | nil => rfl
  | cons s samples ih =>
    by_cases hrun : run = s.runId
    · rw [List.filter_cons_of_pos (by simpa using hrun), List.foldl_cons, List.foldl_cons, ih]
    · have hskip : addToRun run t s = t := if_neg hrun
      rw [List.filter_cons_of_neg (by simpa using hrun), List.foldl_cons, hskip, ih]

/-- What is shown of a run. -/
structure Shown where
  sent : ℤ
  acked : ℤ
  errors : ℤ
  corrPass : ℤ
  corrTotal : ℤ
  curve : List Point
  burstCurve : List Point
deriving DecidableEq

/-- The counters of an aggregate and its curves. -/
def Agg.shown (bucketUs : Bucket → ℚ) (a : Agg) : Shown :=
  ⟨a.sent, a.acked, a.errors, a.corrPass, a.corrTotal, a.curve bucketUs, a.burstCurve bucketUs⟩

/-- What is shown of it depends on what it holds. -/
theorem Agg.shown_congr (bucketUs : Bucket → ℚ) {a a' : Agg} (h : a.totals = a'.totals) :
    a.shown bucketUs = a'.shown bucketUs := by
  unfold Agg.shown Agg.curve Agg.burstCurve
  rw [curveOf_congr bucketUs (congrFun (congrArg Totals.rates h)),
    curveOf_congr bucketUs (congrFun (congrArg Totals.burstRates h)),
    show a.sent = a'.sent from congrArg Totals.sent h,
    show a.acked = a'.acked from congrArg Totals.acked h,
    show a.errors = a'.errors from congrArg Totals.errors h,
    show a.corrPass = a'.corrPass from congrArg Totals.corrPass h,
    show a.corrTotal = a'.corrTotal from congrArg Totals.corrTotal h]

/-- What is shown of the runs' aggregate. -/
def Runs.shown (bucketUs : Bucket → ℚ) (runs : Runs) (run : String) : Option Shown :=
  (runs.get? run).map (Agg.shown bucketUs)

/-- What is shown of a run depends on what it holds. -/
theorem Runs.shown_congr (bucketUs : Bucket → ℚ) {runs runs' : Runs} {run : String}
    (h : runs.totals run = runs'.totals run) :
    runs.shown bucketUs run = runs'.shown bucketUs run := by
  unfold Runs.totals at h
  unfold Runs.shown
  cases ha : runs.get? run with
  | none =>
    rw [ha] at h
    rw [Option.map_eq_none_iff.mp h.symm]
  | some a =>
    rw [ha] at h
    obtain ⟨a', ha', hsame⟩ := Option.map_eq_some_iff.mp h.symm
    rw [ha', Option.map_some, Option.map_some, Agg.shown_congr bucketUs hsame.symm]

/-- **Aggregation is independent of the order of arrival and of other runs**:
after the samples of any workers and runs the counters and the two curves of a
run are the same as after the same samples in any other order, and the same as
after the samples of that run alone. -/
theorem shown_of_perm (bucketUs : Bucket → ℚ) (runs : Runs) (samples : List Sample) (run : String) :
    (∀ samples' : List Sample, samples.Perm samples' →
        (samples.foldl Runs.apply runs).shown bucketUs run
          = (samples'.foldl Runs.apply runs).shown bucketUs run)
      ∧ (samples.foldl Runs.apply runs).shown bucketUs run
        = ((samples.filter (fun s => decide (run = s.runId))).foldl Runs.apply runs).shown bucketUs
            run := by
  refine ⟨fun samples' hperm => Runs.shown_congr bucketUs ?_, Runs.shown_congr bucketUs ?_⟩
  · rw [Runs.totals_foldl, Runs.totals_foldl]
    exact hperm.foldl_eq' (fun s _ s' _ t => addToRun_comm run t s s') _
  · rw [Runs.totals_foldl, Runs.totals_foldl, foldl_addToRun_filter]

/-- Two workers' samples of one rate, in either order. -/
example :
    let s : Sample := ⟨"r", 3, ⟨⟨"open", 5⟩, 4, 4, 0, 0, 0, [(3, 4)]⟩⟩
    let s' : Sample := ⟨"r", 2, ⟨⟨"open", 5⟩, 2, 2, 0, 0, 0, [(7, 2)]⟩⟩
    ([s, s'].foldl Runs.apply .empty).shown (fun b => b.val) "r"
      = some ⟨6, 6, 0, 0, 0, [⟨5, 6, 3, 7, 7⟩], []⟩ := by
  decide +kernel

end Telemetry
