import HftArena.Fleet.Probe
import HftArena.Fleet.Reporting
import HftArena.Telemetry.Metrics

/-!
# What the probe's counts are worth

The leader transmits what the probe has counted in its warmup record, and no
other record carries a count of the probe (`Worker.corr_of_mem_records`), so
that a run's priority factor is the share of the iterations with a verdict that
were passed – and 1 where there is none.

An engine can have the full factor without passing every iteration in one way
only, which is to get out of the probe before an iteration that it would fail
(`priority_earned_iff`). Then no verdict is counted for this iteration and for
those after it, and the share is that of the ones before.
-/

open Wire

namespace Fleet

namespace Worker

/-- **The probe of the leader**, as steps of its run: the counters are those of
its verdicts, and so is the warmup record. -/
theorem exec_probed (c : Config) (hleader : c.isLeader = true) (verdicts : List Bool) :
    exec (step c) .new (verdicts.map .probed ++ [.warm])
      = some { Worker.new with
          stats := Stats.zero.probed verdicts
          records := [warmupRecord (Stats.zero.probed verdicts)]
          stage := .phases c.plan } := by
  have hprobed : ∀ w : Worker, w.stage = .warmup → exec (step c) w (verdicts.map .probed)
      = some { w with stats := w.stats.probed verdicts } := by
    induction verdicts with
    | nil => exact fun w _ => rfl
    | cons v vs ih =>
      intro w hw
      have hstep : w.step c (.probed v) = some { w with stats := w.stats.verdict v } := by
        rw [step, hw]
        exact if_pos hleader
      rw [List.map_cons, exec, hstep, Option.bind_some]
      exact ih _ hw
  rw [exec_append, hprobed .new rfl, Option.bind_some, exec, step]
  show Option.bind (some _) _ = _
  rw [if_pos hleader]
  rfl

/-- **No other record carries a count of the probe.** -/
theorem corr_of_mem_records {c : Config} {w : Worker} {es : List Event}
    (hexec : exec (step c) .new es = some w) :
    ∀ r ∈ w.records, r.tag.phase = "warmup" ∨ r.corrPass = 0 ∧ r.corrTotal = 0 := by
  have hflush : ∀ {tag : Tag} {last stats : Stats} {r : Record}, Grown last stats →
      r ∈ (flush tag last stats).2 → r.corrPass = 0 ∧ r.corrTotal = 0 := by
    intro tag last stats r hgrown hr
    unfold flush at hr
    dsimp only at hr
    split_ifs at hr with hnone
    · cases hr
    · cases hr
      exact ⟨by rw [hgrown.corrPass, sub_self], by rw [hgrown.corrTotal, sub_self]⟩
  have hreach : Reaches (step c) (fun _ _ => True) .new w :=
    .of_exec hexec (along_trivial _ _ _)
  refine (hreach.inv (fun w => Kept c w
    ∧ ∀ r ∈ w.records, r.tag.phase = "warmup" ∨ r.corrPass = 0 ∧ r.corrTotal = 0)
    (fun w e w' h _ hnext => ⟨(h.1.step hnext).1, ?_⟩) ⟨kept_new c, nofun⟩).2
  obtain ⟨hkept, hrecs⟩ := h
  cases steps_of_step hnext with
  | tick | probed | begins | main | bot | finish => exact hrecs
  | warm hstage =>
    show ∀ r ∈ (if c.isLeader then w.records ++ [warmupRecord w.stats] else w.records), _
    split_ifs
    · exact List.forall_mem_append.mpr ⟨hrecs, fun r hr => Or.inl (by
        rw [List.mem_singleton.mp hr]
        rfl)⟩
    · exact hrecs
  -- The reporter takes its baselines after the probe, so that nothing of the
  -- probe is left for it.
  | report todo ph ph' phs rec hstage hphs hrep =>
    refine List.forall_mem_append.mpr ⟨hrecs, fun r hr => Or.inr ?_⟩
    have hgrown : ∀ last ∈ ph.reporter.last, Grown last w.stats := by
      have hlast : w.last = ph.reporter.last := by
        unfold last
        rw [hphs]
        rfl
      exact hlast ▸ hkept.grown
    have hr : r ∈ rec := Option.mem_toList.mp hr
    cases Phase.steps_of_reporterStep hrep with
    | looks | sleeps => cases hr
    | ends last hlast => exact hflush (hgrown last (by rw [hlast]; rfl)) hr
    | flushes last t hlast => exact hflush (hgrown last (by rw [hlast]; rfl)) hr

end Worker

/-- Every verdict is counted, and those that are passes once more. -/
theorem Stats.corr_probed (s : Stats) (verdicts : List Bool) :
    (s.probed verdicts).corrPass = s.corrPass + verdicts.count true
      ∧ (s.probed verdicts).corrTotal = s.corrTotal + verdicts.length := by
  induction verdicts generalizing s with
  | nil => exact ⟨rfl, rfl⟩
  | cons v vs ih =>
    obtain ⟨hpass, htotal⟩ := ih (s.verdict v)
    refine ⟨hpass.trans ?_, htotal.trans ?_⟩
    · cases v with
      | true =>
        rw [List.count_cons_self]
        show s.corrPass + 1 + _ = _
        omega
      | false => rw [List.count_cons_of_ne Bool.false_ne_true]; rfl
    · rw [List.length_cons]
      show s.corrTotal + 1 + _ = _
      omega

end Fleet

namespace Telemetry

open Fleet

/-- Samples that carry no count of the probe leave a run's counts as they
are. -/
theorem Runs.corr_foldl {run : String} {samples : List Sample}
    (h : ∀ s ∈ samples, s.runId = run → s.record.corrPass = 0 ∧ s.record.corrTotal = 0)
    (runs : Runs) : (samples.foldl Runs.apply runs).corr run = runs.corr run := by
  induction samples generalizing runs with
  | nil => rfl
  | cons s samples ih =>
    rw [List.foldl_cons, ih (fun s hs => h s (List.mem_cons_of_mem _ hs)), Runs.corr_apply]
    split_ifs with hrun
    · obtain ⟨hpass, htotal⟩ := h s List.mem_cons_self hrun
      rw [hpass, htotal]
      exact add_zero _
    · rfl

/-- A run of which there is a sample has an aggregate. -/
theorem Runs.isSome_foldl (run : String) (samples : List Sample) (runs : Runs)
    (h : (runs.get? run).isSome ∨ ∃ s ∈ samples, s.runId = run) :
    ((samples.foldl Runs.apply runs).get? run).isSome := by
  induction samples generalizing runs with
  | nil => exact h.elim id (fun ⟨s, hs, _⟩ => absurd hs List.not_mem_nil)
  | cons s samples ih =>
    refine ih (runs.apply s) ?_
    rw [Runs.apply, Dict.get?_set]
    by_cases hrun : run = s.runId
    · exact Or.inl (by rw [if_pos hrun]; rfl)
    · rw [if_neg hrun]
      refine h.imp_right (fun ⟨s', hs', hrun'⟩ => ⟨s', ?_, hrun'⟩)
      rcases List.mem_cons.mp hs' with rfl | hs'
      · exact absurd hrun'.symm hrun
      · exact hs'

/-- **The full factor**: every verdict is a pass. -/
theorem Agg.priority_eq_one_iff {a : Agg} {verdicts : List Bool}
    (hpass : a.corrPass = verdicts.count true) (htotal : a.corrTotal = verdicts.length) :
    a.priority = 1 ↔ ∀ v ∈ verdicts, v = true := by
  have hcount : (∀ v ∈ verdicts, v = true) ↔ verdicts.count true = verdicts.length := by
    rw [List.count_eq_length]
    exact forall₂_congr (fun v _ => eq_comm)
  rw [hcount]
  unfold Agg.priority
  rw [hpass, htotal]
  split_ifs with hzero
  · have hne : ((verdicts.length : ℤ) : ℚ) ≠ 0 := by exact_mod_cast hzero
    rw [div_eq_one_iff_eq hne]
    exact_mod_cast Iff.rfl
  · have hnil : verdicts = [] := List.length_eq_zero_iff.mp (by omega)
    subst hnil
    exact ⟨fun _ => rfl, fun _ => rfl⟩

/-- The sample of the leader's warmup record. -/
def warmupSample (run : String) (ts : ℚ) (verdicts : List Bool) : Sample :=
  ⟨run, ts, Worker.warmupRecord (Stats.zero.probed verdicts)⟩

/-- **A record of the load**: a worker has transmitted it, and it is no warmup
record. -/
def OfLoad (r : Record) : Prop :=
  r.tag.phase ≠ "warmup" ∧ ∃ c es w, exec (Worker.step c) .new es = some w ∧ r ∈ w.records

/-- It carries no count of the probe. -/
theorem OfLoad.corr {r : Record} (h : OfLoad r) : r.corrPass = 0 ∧ r.corrTotal = 0 := by
  obtain ⟨hphase, c, es, w, hexec, hr⟩ := h
  exact (Worker.corr_of_mem_records hexec r hr).resolve_left hphase

/-- **A run's aggregate after the leader's warmup record**, whatever other
samples come before and after: it counts the verdicts. -/
theorem exists_agg_warmup {run : String} (ts : ℚ) (verdicts : List Bool)
    {before after : List Sample} (hothers : ∀ s ∈ before ++ after, s.runId = run →
      s.record.corrPass = 0 ∧ s.record.corrTotal = 0) :
    ∃ agg, ((before ++ warmupSample run ts verdicts :: after).foldl Runs.apply .empty).get? run
        = some agg
      ∧ agg.corrPass = verdicts.count true ∧ agg.corrTotal = verdicts.length := by
  obtain ⟨hbefore, hafter⟩ := List.forall_mem_append.mp hothers
  obtain ⟨agg, hagg⟩ := Option.isSome_iff_exists.mp (Runs.isSome_foldl run
    (before ++ warmupSample run ts verdicts :: after) .empty
    (Or.inr ⟨_, List.mem_append_right _ List.mem_cons_self, rfl⟩))
  have hcorr : ((before ++ warmupSample run ts verdicts :: after).foldl Runs.apply .empty).corr run
      = ((verdicts.count true : ℤ), (verdicts.length : ℤ)) := by
    rw [List.foldl_append, List.foldl_cons, Runs.corr_foldl hafter, Runs.corr_apply,
      if_pos (show (warmupSample run ts verdicts).runId = run from rfl), Runs.corr_foldl hbefore]
    obtain ⟨hpass, htotal⟩ := Stats.corr_probed .zero verdicts
    show (0 + ((Stats.zero.probed verdicts).corrPass : ℤ),
      0 + ((Stats.zero.probed verdicts).corrTotal : ℤ)) = _
    rw [hpass, htotal, zero_add, zero_add]
    show (((0 + verdicts.count true : ℕ) : ℤ), ((0 + verdicts.length : ℕ) : ℤ)) = _
    rw [zero_add, zero_add]
  rw [Runs.corr, hagg, Option.elim_some, Prod.mk.injEq] at hcorr
  exact ⟨agg, hagg, hcorr⟩

/-- **The full factor of an aggregate that counts the verdicts** is earned,
unless the engine dodges. -/
theorem Agg.earned_iff {wire : Wire.Mode} {n : ℕ} {heard : List (Heard Frame)} {a : Agg}
    (hpass : a.corrPass = (Probe.run wire n heard).1.count true)
    (htotal : a.corrTotal = (Probe.run wire n heard).1.length) :
    ((Probe.run wire n heard).2 ≠ .waiting → a.priority = 1 →
        (Probe.run wire n heard).1 = List.replicate n true)
      ↔ ¬ Probe.Dodges wire (List.range' 1 n) heard := by
  rw [← Probe.run_dodges_iff, Agg.priority_eq_one_iff hpass htotal]
  constructor
  · rintro h ⟨hends, hall, hlen⟩
    rw [h hends hall, List.length_replicate] at hlen
    exact lt_irrefl n hlen
  · intro hdodges hends hall
    have hlen : ¬ (Probe.run wire n heard).1.length < n := fun hlen => hdodges ⟨hends, hall, hlen⟩
    exact List.eq_replicate_iff.mpr
      ⟨le_antisymm (Probe.length_run_le n heard) (not_lt.mp hlen), hall⟩

/-- **When the full factor is earned**: whatever the engine does, if the probe
ends and the run has the full priority factor then every iteration came to a
verdict and was passed – unless the engine dodges, and then not.

The samples of the run besides the warmup record are any that carry no count of
the probe, and those of other runs are any at all. -/
theorem priority_earned_iff (wire : Wire.Mode) (n : ℕ) (heard : List (Heard Frame)) (run : String)
    (ts : ℚ) (before after : List Sample)
    (hothers : ∀ s ∈ before ++ after, s.runId = run →
      s.record.corrPass = 0 ∧ s.record.corrTotal = 0) :
    ((Probe.run wire n heard).2 ≠ .waiting →
        ∀ agg ∈ ((before ++ warmupSample run ts (Probe.run wire n heard).1 :: after).foldl
          Runs.apply .empty).get? run,
        agg.priority = 1 → (Probe.run wire n heard).1 = List.replicate n true)
      ↔ ¬ Probe.Dodges wire (List.range' 1 n) heard := by
  obtain ⟨agg, hagg, hpass, htotal⟩ := exists_agg_warmup ts (Probe.run wire n heard).1 hothers
  rw [hagg, ← Agg.earned_iff hpass htotal]
  exact forall_congr' (fun _ => ⟨fun h => h agg rfl, fun h _ ha => Option.some_inj.mp ha ▸ h⟩)

/-- So it is in a run: what its workers transmit beside the warmup record is of
the load. -/
theorem priority_earned_of_load (wire : Wire.Mode) (n : ℕ) (heard : List (Heard Frame))
    (run : String) (ts : ℚ) (before after : List Sample)
    (hload : ∀ s ∈ before ++ after, s.runId = run → OfLoad s.record) :
    ((Probe.run wire n heard).2 ≠ .waiting →
        ∀ agg ∈ ((before ++ warmupSample run ts (Probe.run wire n heard).1 :: after).foldl
          Runs.apply .empty).get? run,
        agg.priority = 1 → (Probe.run wire n heard).1 = List.replicate n true)
      ↔ ¬ Probe.Dodges wire (List.range' 1 n) heard := by
  obtain ⟨agg, hagg, hpass, htotal⟩ := exists_agg_warmup ts (Probe.run wire n heard).1
    (fun s hs hrun => (hload s hs hrun).corr)
  rw [hagg, ← Agg.earned_iff hpass htotal]
  exact forall_congr' (fun _ => ⟨fun h => h agg rfl, fun h _ ha => Option.some_inj.mp ha ▸ h⟩)

/-- A fill of the probe's taker in the binary format. -/
def fillFrame (taker px qty maker : ℤ) : Frame :=
  .binary ((pack fillFormat [2, taker, px, qty, maker]).getD [])

/-- What a correct engine lets the probe hear in its first iteration. -/
def correctReplies : List (Heard Frame) :=
  [.frame (.binary [1]), .frame (.binary [1]), .frame (.binary [1]),
    .frame (fillFrame (Probe.taker 1) (Probe.px 1) 5 (Probe.makerA 1)),
    .frame (fillFrame (Probe.taker 1) (Probe.px 1) 1 (Probe.makerB 1)), .frame (.binary [1])]

/-- A follower's sample of a run, and a count of another run. -/
def otherSamples : List Sample :=
  [⟨"r", 1, ⟨⟨"open", 0⟩, 3, 2, 0, 0, 0, [(bucketOf (fun _ => 4) 0, 2)]⟩⟩,
    ⟨"q", 1, ⟨⟨"warmup", 0⟩, 0, 0, 0, 0, 10, []⟩⟩]

/-- The engine passes the one iteration there is. -/
theorem priority_earned_by_correct_engine :
    (∃ agg ∈ ((otherSamples ++ warmupSample "r" 2 (Probe.run .binary 1 correctReplies).1 :: []).foldl
        Runs.apply .empty).get? "r", agg.priority = 1)
      ∧ (Probe.run .binary 1 correctReplies).1 = List.replicate 1 true := by
  have hagg : ∃ agg ∈ ((otherSamples
      ++ warmupSample "r" 2 (Probe.run .binary 1 correctReplies).1 :: []).foldl
        Runs.apply .empty).get? "r", agg.priority = 1 := by
    decide +kernel
  have hearned := (priority_earned_iff .binary 1 correctReplies "r" 2 otherSamples []
    (by decide)).mpr (by rw [← Probe.run_dodges_iff]; decide +kernel) (by decide +kernel)
  obtain ⟨agg, hmem, hpriority⟩ := hagg
  exact ⟨⟨agg, hmem, hpriority⟩, hearned agg hmem hpriority⟩

/-- **The engine drops the connection at once**: no iteration has a verdict,
and the run has the full factor. -/
theorem priority_earned_by_dropping :
    (Probe.run .binary 10 [.frame (.binary [1]), .closed]).2 ≠ .waiting
      ∧ (Probe.run .binary 10 [.frame (.binary [1]), .closed]).1 ≠ List.replicate 10 true
      ∧ ∃ agg ∈ (([] ++ warmupSample "r" 2
          (Probe.run .binary 10 [.frame (.binary [1]), .closed]).1 :: []).foldl
            Runs.apply .empty).get? "r",
        agg.priority = 1 := by
  decide +kernel

end Telemetry
