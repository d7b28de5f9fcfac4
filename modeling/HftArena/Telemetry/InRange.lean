import HftArena.Fleet.Balance
import HftArena.Telemetry.Pipeline

/-!
# Scores in range

Correctness is a share as long as the samples that were added up acknowledge no
more orders than they report sent. Of the records of a run that is true of all
that its workers have transmitted so far, at any time and however they
interleave, as long as every order is sent under the eyes of a reporter
(`Fleet.Worker.acked_records_le_sent`). Telemetry adds up a part of them only:
those from the end of the stream as it was when it began to read, and not those
before the start command.

What decides is what it has missed. Records that acknowledge as many orders as
they report sent are *settled*: they can be left out, and the rest still covers
itself. So the score stays in range if telemetry begins a run, or begins it
anew, where the records so far are settled (`Pipeline.in_range_of_settled`).
They are before the first record of the run, and whenever all that was sent is
acknowledged and reported. Where an order is out when telemetry is started, its
acknowledgement may be all that telemetry hears of it
(`out_of_range_when_started_late`).
-/

open Fleet

namespace Telemetry

/-- **Records that can be left out** of a run: they acknowledge as many orders
as they report sent. -/
def Settled (run : String) (samples : List Sample) : Prop :=
  columnSum .acked (ofRun run samples) = columnSum .sent (ofRun run samples)

instance (run : String) (samples : List Sample) : Decidable (Settled run samples) :=
  inferInstanceAs (Decidable (_ = _))

/-- **Records that acknowledge no more orders than they report sent.** -/
def Accounted (run : String) (samples : List Sample) : Prop :=
  columnSum .acked (ofRun run samples) ≤ columnSum .sent (ofRun run samples)

variable {run : String} {samples samples' : List Sample}

/-- So are no records at all. -/
theorem settled_nil (run : String) : Settled run [] := rfl

/-- **What is left covers itself.** -/
theorem Accounted.of_append (h : Accounted run (samples ++ samples'))
    (hsettled : Settled run samples) :
    Accounted run samples' := by
  unfold Settled at hsettled
  unfold Accounted at h ⊢
  rw [ofRun_append, columnSum_append, columnSum_append] at h
  omega

/-- Two parts that can be left out can be left out together. -/
theorem Settled.append (h : Settled run samples) (h' : Settled run samples') :
    Settled run (samples ++ samples') := by
  unfold Settled at h h' ⊢
  rw [ofRun_append, columnSum_append, columnSum_append, h, h']

namespace Pipeline

variable {c : ℕ → Config} {p p' : Pipeline} {e : PipelineEvent}

/-- **Telemetry begins where all is settled.** Every order is sent under the
eyes of a reporter; and the records of the run are settled that telemetry has
missed when its first call since it was started returns, and those that it has
applied when the start command of the run makes it forget them. -/
def FromSettled (run : String) (p : Pipeline) : PipelineEvent → Prop
  | .work i e _ => ∀ w ∈ p.workers[i]?, Worker.SendsReported w e
  | .read (.reply _) =>
    p.consumer.lastId = none → Settled run (p.consumer.stream.take p.consumer.position)
  | .control m => m.cmd = "start" ∧ m.runId = run → Settled run p.consumer.applied
  | .read _ | .other _ | .snapshot _ _ | .restart => True

instance (run : String) (p : Pipeline) : ∀ e, Decidable (FromSettled run p e)
  | .work _ _ _ => inferInstanceAs (Decidable (∀ w ∈ _, Worker.SendsReported w _))
  | .read (.reply _) => inferInstanceAs (Decidable (_ = none → Settled run _))
  | .control m => inferInstanceAs (Decidable (m.cmd = "start" ∧ m.runId = run → Settled run _))
  | .read (.append _) | .read .call | .read .timeout | .other _ | .snapshot _ _ | .restart =>
    isTrue trivial

/-! ### What is transmitted covers itself

Every beginning of the stream, and not the stream alone: it is beginnings that
are left out, and beginnings that are read. -/

/-- What a worker transmits with a step is a record, if anything. -/
theorem sent_eq {w w' : Worker} {i : ℕ} {e : Event} (h : w.step (c i) e = some w') (ts : ℚ) :
    sent run ts w w' = [] ∨ ∃ s, sent run ts w w' = [s] := by
  have hadded : w'.records = w.records ∨ ∃ r, w'.records = w.records ++ [r] := by
    cases Worker.steps_of_step h with
    | warm hstage =>
      show (if (c i).isLeader then w.records ++ [Worker.warmupRecord w.stats] else w.records)
          = w.records ∨ _
      split_ifs
      · exact .inr ⟨_, rfl⟩
      · exact .inl rfl
    | report todo ph ph' phs rec hstage hphs hrep =>
      cases rec with
      | none => exact .inl (List.append_nil _)
      | some r => exact .inr ⟨r, rfl⟩
    | _ => exact .inl rfl
  unfold sent
  rcases hadded with hsame | ⟨r, hr⟩
  · rw [hsame, List.drop_length]
    exact .inl rfl
  · rw [hr, List.drop_left]
    exact .inr ⟨_, rfl⟩

/-- **What holds of the workers and of the stream.** -/
structure Covered (c : ℕ → Config) (run : String) (p : Pipeline) : Prop where
  bounded : Bounded c run p
  worked : ∀ i w, p.workers[i]? = some w → ∃ es, exec (Worker.step (c i)) .new es = some w
    ∧ Along (Worker.step (c i)) Worker.SendsReported .new es
  /-- So far into the stream as may be. -/
  accounted : ∀ samples, samples <+: p.consumer.stream → Accounted run samples

/-- It holds before anything is done, of a stream with no record of the run. -/
theorem covered_new {n : ℕ} {stream : List Sample} (hfresh : ∀ s ∈ stream, s.runId ≠ run) :
    Covered c run (new n stream) := by
  refine ⟨bounded_new hfresh, fun i w hw => ?_, fun samples hsamples => ?_⟩
  · rw [List.eq_of_mem_replicate (List.mem_of_getElem? hw)]
    exact ⟨[], rfl, trivial⟩
  · have hnone : ofRun run samples = [] :=
      List.filter_eq_nil_iff.mpr (fun s hs => by simpa using hfresh s (hsamples.subset hs))
    unfold Accounted
    rw [hnone]
    exact le_rfl

/-- **All that is in the stream covers itself**, since what each worker has
transmitted does. -/
theorem accounted_stream (h : Bounded c run p)
    (hworked : ∀ i w, p.workers[i]? = some w → ∃ es, exec (Worker.step (c i)) .new es = some w
      ∧ Along (Worker.step (c i)) Worker.SendsReported .new es) :
    Accounted run p.consumer.stream := by
  unfold Accounted
  rw [h.sums, h.sums]
  refine List.sum_le_sum (fun w hw => ?_)
  obtain ⟨i, hi⟩ := List.mem_iff_getElem?.mp hw
  obtain ⟨es, hes, halong⟩ := hworked i w hi
  exact Worker.acked_records_le_sent hes halong

/-- A record more, and it is still so however far one goes. -/
theorem accounted_addAll {k : Consumer} {ss : List Sample}
    (h : ∀ samples, samples <+: k.stream → Accounted run samples)
    (hall : Accounted run (k.stream ++ ss))
    (hss : ss = [] ∨ ∃ s, ss = [s]) :
    ∀ samples, samples <+: (k.addAll ss).stream → Accounted run samples := by
  intro samples hsamples
  have hsamples : samples <+: k.stream ++ ss := hsamples
  rcases hss with rfl | ⟨s, rfl⟩
  · rw [List.append_nil] at hsamples
    exact h samples hsamples
  · rcases List.prefix_concat_iff.mp hsamples with rfl | hold
    · exact hall
    · exact h samples hold

/-- **Every step keeps it**, of the workers and of the stream. -/
theorem Covered.step (h : Covered c run p) (hsettled : FromSettled run p e)
    (hstep : p.step c run e = some p') : Covered c run p' := by
  have hb := h.bounded.step hstep
  cases steps_of_step hstep with
  | work i e ts w w' hw hnext =>
    obtain ⟨es, hes, halong⟩ := h.worked i w hw
    have hworked : ∀ j v, (p.workers.set i w')[j]? = some v →
        ∃ es, exec (Worker.step (c j)) .new es = some v
          ∧ Along (Worker.step (c j)) Worker.SendsReported .new es :=
      forall_getElem?_set (fun j v _ hv => h.worked j v hv)
        ⟨es ++ [e], exec_concat hes hnext, halong.concat hes (hsettled w hw)⟩
    exact ⟨hb, hworked, accounted_addAll h.accounted (accounted_stream hb hworked) (sent_eq hnext ts)⟩
  | other s hs =>
    exact ⟨hb, h.worked, accounted_addAll h.accounted (accounted_stream hb h.worked) (.inr ⟨s, rfl⟩)⟩
  | read e k he hk =>
    refine ⟨hb, h.worked, ?_⟩
    rw [(Consumer.known_step h.bounded.consumer hk he).2.1]
    exact h.accounted
  | control m => exact ⟨hb, h.worked, h.accounted⟩
  | snapshot run' now l hl => exact ⟨hb, h.worked, h.accounted⟩
  | restart => exact ⟨hb, h.worked, h.accounted⟩

/-! ### And so does what telemetry has added up

What was applied is the end of a beginning of the stream. What was left out
before it is settled, so that the difference covers itself. -/

/-- **What holds of telemetry.** -/
structure Begun (run : String) (p : Pipeline) : Prop where
  /-- It has applied nothing as long as no call has returned anything. -/
  unread : p.consumer.lastId = none → p.consumer.applied = []
  /-- What it has applied are the records since it began, and those before were
  settled. -/
  since : ∀ k ∈ p.consumer.lastId, ∃ missed, Settled run missed
    ∧ p.consumer.stream.take k = missed ++ p.consumer.applied
  /-- What it shows are the records since the run was started, and those before
  were settled. -/
  shown : ∃ forgotten added, p.consumer.applied = forgotten ++ added ∧ Settled run forgotten
    ∧ ∀ q ∈ counters, p.runs.count run q.2 = columnSum q.1 (ofRun run added)
  peaks : ∀ l ∈ p.runs.get? run, 0 ≤ l.peakTps

/-- Telemetry has begun nothing then. -/
theorem begun_new (n : ℕ) (stream : List Sample) : Begun run (new n stream) where
  unread := fun _ => rfl
  since := fun k hk => absurd hk (Option.not_mem_none k)
  shown := ⟨[], [], rfl, settled_nil run, fun _ _ => rfl⟩
  peaks := fun l hl => absurd hl (Option.not_mem_none l)

/-- A call has returned what is in the stream. -/
theorem last_le {k : Consumer} (h : k.WF) : ∀ n ∈ k.lastId, n ≤ k.stream.length := by
  intro n hn
  have hle := h.position_le
  cases hcall : k.call with
  | idle =>
    rw [Consumer.position_idle hcall, hn, Option.getD_some] at hle
    exact hle
  | blocked start =>
    rw [Consumer.position_blocked hcall] at hle
    rcases h.start start hcall with hlast | hlast
    · rw [hlast] at hn
      cases hn
      exact hle
    · rw [hlast] at hn
      cases hn

/-- What is added to the stream changes nothing of what was applied. -/
theorem Begun.addAll (h : Begun run p) (hwf : p.consumer.WF) (workers : List Worker)
    (ss : List Sample) :
    Begun run { p with workers := workers, consumer := p.consumer.addAll ss } := by
  refine ⟨h.unread, fun k hk => ?_, h.shown, h.peaks⟩
  obtain ⟨missed, hmissed, heq⟩ := h.since k hk
  refine ⟨missed, hmissed, ?_⟩
  show (p.consumer.stream ++ ss).take k = missed ++ p.consumer.applied
  rw [List.take_append_of_le_length (last_le hwf k hk), heq]

/-- Samples leave the peak. -/
theorem peaks_foldl {runs : LiveRuns} (h : ∀ l ∈ runs.get? run, 0 ≤ l.peakTps)
    (samples : List Sample) : ∀ l ∈ (samples.foldl LiveRuns.apply runs).get? run, 0 ≤ l.peakTps := by
  induction samples generalizing runs with
  | nil => exact h
  | cons s samples ih =>
    refine ih (fun l hl => ?_)
    rw [LiveRuns.apply, Dict.get?_set] at hl
    split_ifs at hl with hrun
    · cases hl
      subst hrun
      show 0 ≤ (runs.of s.runId).peakTps
      unfold LiveRuns.of
      cases hold : runs.get? s.runId with
      | none => exact le_rfl
      | some l => exact h l hold
    · exact h l hl

/-- **The entries that a call returns** follow on those that were applied, or
on settled ones if it is the first that returns any. -/
theorem since_reply {k : Consumer} {n start : ℕ} (hwf : k.WF) (hcall : k.call = .blocked start)
    (hunread : k.lastId = none → k.applied = [])
    (hsince : ∀ n ∈ k.lastId, ∃ missed, Settled run missed
      ∧ k.stream.take n = missed ++ k.applied)
    (hsettled : k.lastId = none → Settled run (k.stream.take k.position)) :
    ∃ missed, Settled run missed
      ∧ k.stream.take (start + n) = missed ++ (k.applied ++ (k.stream.drop start).take n) := by
  rw [List.take_add]
  rcases hwf.start start hcall with hlast | hlast
  · obtain ⟨missed, hmissed, heq⟩ := hsince start hlast
    exact ⟨missed, hmissed, by rw [heq, List.append_assoc]⟩
  · rw [Consumer.position_blocked hcall] at hsettled
    exact ⟨k.stream.take start, hsettled hlast, by rw [hunread hlast, List.nil_append]⟩

/-- **Every step keeps it**, as long as telemetry begins where all is
settled. -/
theorem Begun.step (h : Begun run p) (hb : Bounded c run p) (hsettled : FromSettled run p e)
    (hstep : p.step c run e = some p') : Begun run p' := by
  cases steps_of_step hstep with
  | work i e ts w w' hw hnext => exact h.addAll hb.consumer _ _
  | other s hs => exact h.addAll hb.consumer _ _
  | read e k he hk =>
    have happlied := (Consumer.known_step hb.consumer hk he).2.2
    obtain ⟨forgotten, added, heq, hforgotten, hcounts⟩ := h.shown
    have hshown : ∃ forgotten added, k.applied = forgotten ++ added ∧ Settled run forgotten
        ∧ ∀ q ∈ counters, ((k.applied.drop p.consumer.applied.length).foldl LiveRuns.apply
            p.runs).count run q.2 = columnSum q.1 (ofRun run added) := by
      refine ⟨forgotten, added ++ k.applied.drop p.consumer.applied.length, ?_, hforgotten,
        fun q hq => ?_⟩
      · rw [← List.append_assoc, ← heq, ← List.prefix_append_drop happlied]
      · rw [LiveRuns.count_foldl hq, hcounts q hq, ofRun_append, columnSum_append]
    cases Consumer.steps_of_step hk with
    | append s => exact absurd rfl (he s)
    | call hcall => exact ⟨h.unread, h.since, hshown, peaks_foldl h.peaks _⟩
    | reply n start hcall hpos hmax hlen =>
      refine ⟨fun hnone => absurd hnone (Option.some_ne_none _), fun k hk => ?_, hshown,
        peaks_foldl h.peaks _⟩
      cases hk
      exact since_reply hb.consumer hcall h.unread h.since hsettled
    | timeout start hcall hlen => exact ⟨h.unread, h.since, hshown, peaks_foldl h.peaks _⟩
  | control m =>
    refine ⟨h.unread, h.since, ?_, fun l hl => ?_⟩
    · by_cases hstart : m.cmd = "start" ∧ m.runId = run
      · -- what was added up is forgotten, and it was settled
        refine ⟨p.consumer.applied, [], (List.append_nil _).symm, hsettled hstart, fun q hq => ?_⟩
        show (p.runs.control m).count run q.2 = _
        rw [LiveRuns.count_control hq, if_pos hstart]
        rfl
      · obtain ⟨forgotten, added, heq, hforgotten, hcounts⟩ := h.shown
        refine ⟨forgotten, added, heq, hforgotten, fun q hq => ?_⟩
        show (p.runs.control m).count run q.2 = _
        rw [LiveRuns.count_control hq, if_neg hstart, hcounts q hq]
    · have hl : l ∈ (p.runs.control m).get? run := hl
      unfold LiveRuns.control at hl
      split_ifs at hl
      · rw [Dict.get?_set] at hl
        split_ifs at hl
        · cases hl
          exact le_rfl
        · exact h.peaks l hl
      · exact h.peaks l hl
  | snapshot run' now l hl =>
    refine ⟨h.unread, h.since, ?_, fun l' hl' => ?_⟩
    · obtain ⟨forgotten, added, heq, hforgotten, hcounts⟩ := h.shown
      refine ⟨forgotten, added, heq, hforgotten, fun q hq => ?_⟩
      show LiveRuns.count (p.runs.set run' (l.tps now).1) run q.2 = _
      rw [LiveRuns.count_snapshot hl, hcounts q hq]
    · have hl' : l' ∈ (p.runs.set run' (l.tps now).1).get? run := hl'
      rw [Dict.get?_set] at hl'
      split_ifs at hl' with hrun
      · cases hl'
        exact (h.peaks l (hrun ▸ hl)).trans (l.peakTps_le_tps now)
      · exact h.peaks l' hl'
  | restart =>
    exact ⟨fun _ => rfl, fun k hk => absurd hk (Option.not_mem_none k),
      ⟨[], [], rfl, settled_nil run, fun _ _ => rfl⟩,
      fun l hl => absurd hl (Option.not_mem_none l)⟩

/-- **What telemetry has added up covers itself.** -/
theorem agg_covered (h : Covered c run p) (hbegun : Begun run p) :
    ∀ l ∈ p.runs.get? run, l.agg.Covered := by
  intro l hl
  obtain ⟨forgotten, added, heq, hforgotten, hcounts⟩ := hbegun.shown
  -- the records before those that are added up are settled, wherever telemetry began
  obtain ⟨before, hbefore, hstream⟩ : ∃ before, Settled run before
      ∧ before ++ added <+: p.consumer.stream := by
    cases hlast : p.consumer.lastId with
    | none =>
      have hnone := hbegun.unread hlast
      rw [hnone] at heq
      obtain ⟨-, rfl⟩ := List.append_eq_nil_iff.mp heq.symm
      exact ⟨[], settled_nil run, List.nil_prefix⟩
    | some k =>
      obtain ⟨missed, hmissed, htake⟩ := hbegun.since k hlast
      refine ⟨missed ++ forgotten, hmissed.append hforgotten, ?_⟩
      rw [List.append_assoc, ← heq, ← htake]
      exact List.take_prefix k _
  have haccounted : Accounted run added := (h.accounted _ hstream).of_append hbefore
  have hrecords : ∀ s ∈ ofRun run added, s.record.WF := fun s hs => by
    have hsub : (ofRun run added).Sublist (ofRun run p.consumer.stream) :=
      ((List.sublist_append_right _ _).trans hstream.sublist).filter _
    exact h.bounded.records s (hsub.subset hs)
  have hcount : ∀ q ∈ counters, q.2 l.agg = columnSum q.1 (ofRun run added) := fun q hq => by
    have hq := hcounts q hq
    rw [LiveRuns.count, Option.mem_def.mp hl, Option.elim_some] at hq
    exact hq
  have hnonneg : ∀ q ∈ counters, 0 ≤ q.2 l.agg := fun q hq => by
    rw [hcount q hq]
    refine List.sum_nonneg (fun x hx => ?_)
    obtain ⟨s, hs, rfl⟩ := List.mem_map.mp hx
    exact (hrecords s hs).get_nonneg (column_of_mem_counters hq)
  have hacked : l.agg.acked = columnSum .acked (ofRun run added) :=
    hcount (.acked, Agg.acked) (by simp [counters])
  have hsent : l.agg.sent = columnSum .sent (ofRun run added) :=
    hcount (.sent, Agg.sent) (by simp [counters])
  have hpass : l.agg.corrPass = columnSum .corrPass (ofRun run added) :=
    hcount (.corrPass, Agg.corrPass) (by simp [counters])
  have htotal : l.agg.corrTotal = columnSum .corrTotal (ofRun run added) :=
    hcount (.corrTotal, Agg.corrTotal) (by simp [counters])
  refine ⟨hnonneg (.acked, Agg.acked) (by simp [counters]), ?_,
    hnonneg (.corrPass, Agg.corrPass) (by simp [counters]), ?_⟩
  · rw [hacked, hsent]
    exact haccounted
  · rw [hpass, htotal]
    exact List.sum_le_sum (fun s hs => (hrecords s hs).corrTotal)

/-- **Correctness and score stay in range where telemetry begins a run with its
records settled**: whatever the workers transmit and however that interleaves
with what other runs transmit, wherever telemetry begins and however often it
is started anew, at every moment of the run, and in every snapshot of it. -/
theorem in_range_of_settled (cfg : Settings) (bucketUs : Bucket → ℚ) {n : ℕ} {stream : List Sample}
    {es : List PipelineEvent} (hfresh : ∀ s ∈ stream, s.runId ≠ run)
    (hexec : exec (step c run) (new n stream) es = some p)
    (hsettled : Along (step c run) (FromSettled run) (new n stream) es) :
    ∀ l ∈ p.runs.get? run,
      (0 ≤ l.agg.correctness ∧ l.agg.correctness ≤ 1)
        ∧ ∀ now, 0 ≤ (l.snapshot cfg bucketUs now).2.score
          ∧ (l.snapshot cfg bucketUs now).2.score ≤ 1000 := by
  obtain ⟨hcovered, hbegun⟩ : Covered c run p ∧ Begun run p :=
    (Reaches.of_exec hexec hsettled).inv (fun p => Covered c run p ∧ Begun run p)
      (fun _ _ _ h hgood hstep => ⟨h.1.step hgood hstep, h.2.step h.1.bounded hgood hstep⟩)
      ⟨covered_new hfresh, begun_new n stream⟩
  intro l hl
  have hagg := agg_covered hcovered hbegun l hl
  exact ⟨hagg.correctness_range,
    fun now => Live.score_range cfg bucketUs hagg (hbegun.peaks l hl) now⟩

end Pipeline

/-- A closed phase whose bot sends two orders before its reporter looks, and a
third before it looks again, when all three are acknowledged. -/
def twoLooks : List Event :=
  Worker.toClosed ++ order ++ order ++ [.tick 1, .report, .report] ++ order ++ ack 233 ++ ack 234
    ++ ack 235 ++ [.tick 1, .report]
where
  order := [.bot 0 0 .test, .bot 0 0 (.fire 0), .bot 0 0 .sent]
  ack (id : UInt8) :=
    [.bot 0 0 (.arrive (.binary ([1, id, 3] ++ List.replicate 14 0))), .bot 0 0 (.recv 0)]

/-- Telemetry waits for what comes when the run starts, and shows it when all
is read. -/
def twoLooksRead : List PipelineEvent :=
  [.control ⟨"start", "r", some "fast"⟩, .read .call] ++ twoLooks.map (fun e => .work 0 e 1)
    ++ [.read (.reply 3), .snapshot "r" 2]

/-- So the score of this run is in range, and three acknowledgements are
counted. -/
theorem in_range_twoLooksRead :
    ∃ p, exec (Pipeline.step (fun _ => Worker.oneBot 32) "r") (.new 1 []) twoLooksRead = some p
      ∧ p.runs.count "r" Agg.acked = 3
      ∧ ∀ l ∈ p.runs.get? "r",
        (0 ≤ l.agg.correctness ∧ l.agg.correctness ≤ 1)
          ∧ ∀ now, 0 ≤ (l.snapshot .standard (fun b => b.val) now).2.score
            ∧ (l.snapshot .standard (fun b => b.val) now).2.score ≤ 1000 := by
  have hrun : ∃ p ∈ exec (Pipeline.step (fun _ => Worker.oneBot 32) "r") (.new 1 []) twoLooksRead,
      p.runs.count "r" Agg.acked = 3 := by decide +kernel
  obtain ⟨p, hp, hthree⟩ := hrun
  exact ⟨p, hp, hthree, Pipeline.in_range_of_settled .standard _ (List.forall_mem_nil _) hp
    (by decide +kernel)⟩

/-- What the worker transmits, in two parts. -/
def firstLook : List Record := [Worker.warmupRecord .zero, ⟨⟨"closed", 0⟩, 2, 0, 0, 0, 0, []⟩]

def secondLook : Record := ⟨⟨"closed", 0⟩, 1, 3, 0, 0, 0, [(bucketOf (fun _ => 0) 0, 3)]⟩

/-- The worker transmits these records and no others. -/
theorem exists_twoLooks : ∃ w, exec (Worker.step (Worker.oneBot 32)) .new twoLooks = some w
    ∧ w.records = firstLook ++ [secondLook] := by
  have hrun : ∃ w ∈ exec (Worker.step (Worker.oneBot 32)) .new twoLooks,
      w.records = firstLook ++ [secondLook] := by
    decide +kernel
  obtain ⟨w, hw, hrecords⟩ := hrun
  exact ⟨w, hw, hrecords⟩

/-- That a process handles a record of a run. -/
def Deed.consume (r : Record) : Deed := .handle (.sample ⟨"r", 1, r⟩)

/-- **Telemetry consumes the second part alone**: three orders are acknowledged
of the one that it knows of. -/
theorem out_of_range_when_started_late :
    ∃ w, exec (Worker.step (Worker.oneBot 32)) .new twoLooks = some w
      ∧ [secondLook] <:+ w.records
      ∧ ∃ runs, exec LiveRuns.step .empty ([secondLook].map Deed.consume) = some runs
      ∧ ∃ l ∈ runs.get? "r", 1 < l.agg.correctness := by
  obtain ⟨w, hw, hrecords⟩ := exists_twoLooks
  exact ⟨w, hw, ⟨firstLook, hrecords.symm⟩, _, rfl, _, rfl,
    Agg.one_lt_correctness (by decide) (by decide) rfl⟩

end Telemetry
