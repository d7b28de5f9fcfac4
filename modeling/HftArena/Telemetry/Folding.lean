import Mathlib.Algebra.Order.BigOperators.Group.List
import HftArena.Fleet.Ledger
import HftArena.Telemetry.Curve

/-!
# What telemetry folds

`control_listener` and `_apply` of `telemetry/ingester.py`, whose messages
arrive over two channels in any order. Both create the aggregate of a run:
`_apply` where there is none, and `control_listener` whether there is one or
not. So a start message keeps the samples that were applied before it exactly
if nothing was counted in them (`labelled_iff`).

Whatever is folded, every point of every curve has as many counts in its
histogram as acknowledgements (`hist_mass`). This holds of the records when
they are transmitted, and folding adds both sides alike.
-/

open Fleet

namespace Telemetry

/-- A message on the control channel. A start message may lack the name of the
submission. -/
structure Control where
  cmd : String
  runId : String
  submission : Option String
deriving DecidableEq

/-- `control_listener`, for one message: a run that is started begins anew,
even if it was known. -/
def Runs.control (runs : Runs) (m : Control) : Runs :=
  if m.cmd = "start" then runs.set m.runId (.new m.runId (m.submission.getD "?")) else runs

/-- **What telemetry handles**, in the order it happens to. -/
inductive Message where
  | control (m : Control)
  | sample (s : Sample)
deriving DecidableEq

/-- One message. -/
def Runs.handle (runs : Runs) : Message → Runs
  | .control m => runs.control m
  | .sample s => runs.apply s

/-- The message that starts a run. -/
def start (run submission : String) : Message := .control ⟨"start", run, some submission⟩

/-- Whether a message starts a run. -/
def Message.Starts (run : String) : Message → Prop
  | .control m => m.cmd = "start" ∧ m.runId = run
  | .sample _ => False

instance (run : String) : ∀ m : Message, Decidable (m.Starts run)
  | .control _ => inferInstanceAs (Decidable (_ ∧ _))
  | .sample _ => isFalse id

/-- The samples of a run among messages. -/
def samplesOf (run : String) (messages : List Message) : List Sample :=
  messages.filterMap (fun m =>
    match m with
    | .sample s => if s.runId = run then some s else none
    | .control _ => none)

/-- They are selected message by message. -/
theorem samplesOf_append (run : String) (messages messages' : List Message) :
    samplesOf run (messages ++ messages') = samplesOf run messages ++ samplesOf run messages' :=
  List.filterMap_append

/-! ## What a run holds

A start command makes the aggregate anew; so what counts is what comes after
the last one. -/

/-- A message that does not start a run adds to it what it has for it. -/
theorem Runs.totals_handle {runs : Runs} {m : Message} {run : String} {t : Totals}
    (h : runs.totals run = some t) (hm : ¬ m.Starts run) :
    (runs.handle m).totals run = some ((samplesOf run [m]).foldl Totals.add t) := by
  cases m with
  | control m =>
    show (runs.control m).totals run = some t
    unfold Runs.control
    split_ifs with hcmd
    · have hrun : run ≠ m.runId := fun heq => hm ⟨hcmd, heq.symm⟩
      unfold Runs.totals
      rw [Dict.get?_set, if_neg hrun]
      exact h
    · exact h
  | sample s =>
    show (runs.apply s).totals run = _
    rw [Runs.totals_apply, h, addToRun]
    unfold samplesOf
    by_cases hrun : s.runId = run
    · simp [hrun]
    · simp [hrun, Ne.symm hrun]

/-- **What a run holds that is not started again.** -/
theorem Runs.totals_foldl_handle {runs : Runs} {run : String} {t : Totals}
    (h : runs.totals run = some t) {messages : List Message}
    (hone : ∀ m ∈ messages, ¬ m.Starts run) :
    (messages.foldl Runs.handle runs).totals run
      = some ((samplesOf run messages).foldl Totals.add t) := by
  induction messages generalizing runs t with
  | nil => exact h
  | cons m messages ih =>
    obtain ⟨hm, hmessages⟩ := List.forall_mem_cons.mp hone
    rw [List.foldl_cons, ih (Runs.totals_handle h hm) hmessages, ← List.foldl_append,
      ← samplesOf_append]
    rfl

/-- What a counter comes to. -/
theorem foldl_totals {f : Totals → ℤ} {g : Sample → ℤ} (h : ∀ t s, f (Totals.add t s) = f t + g s)
    (t : Totals) (samples : List Sample) :
    f (samples.foldl Totals.add t) = f t + (samples.map g).sum := by
  induction samples generalizing t with
  | nil => exact (add_zero _).symm
  | cons s samples ih => rw [List.foldl_cons, ih, h, List.map_cons, List.sum_cons, add_assoc]

/-- Samples in which nothing is counted add nothing. -/
theorem foldl_blank {samples : List Sample} (hwf : ∀ s ∈ samples, s.record.WF)
    (hblank : ∀ s ∈ samples, s.record.Blank) (t : Totals) : samples.foldl Totals.add t = t := by
  induction samples generalizing t with
  | nil => rfl
  | cons s samples ih =>
    obtain ⟨hs, hsamples⟩ := List.forall_mem_cons.mp hwf
    obtain ⟨hsb, hsamplesb⟩ := List.forall_mem_cons.mp hblank
    have hcurve : ∀ phase, ¬ s.OnCurve phase := fun phase h => h.1.ne' (hs.blank hsb)
    obtain ⟨hsent, hacked, herrors, hpass, htotal⟩ := hsb
    have hsame : t.add s = t := by
      unfold Totals.add
      rw [hsent, hacked, herrors, hpass, htotal, if_neg (hcurve "open"), if_neg (hcurve "burst")]
      simp only [add_zero]
    rw [List.foldl_cons, hsame, ih hsamples hsamplesb]

/-- Where no counter moves, nothing was counted. -/
theorem blank_of_sums {samples : List Sample} (hwf : ∀ s ∈ samples, s.record.WF)
    (h : ∀ g ∈ [Record.sent, Record.acked, Record.errors, Record.corrPass, Record.corrTotal],
      (samples.map (fun s => g s.record)).sum = 0) : ∀ s ∈ samples, s.record.Blank := by
  have hzero : ∀ g : Record → ℤ, (∀ s ∈ samples, 0 ≤ g s.record) →
      (samples.map (fun s => g s.record)).sum = 0 → ∀ s ∈ samples, g s.record = 0 := by
    intro g hpos hsum s hs
    exact List.all_zero_of_le_zero_le_of_sum_eq_zero (List.forall_mem_map.mpr hpos) hsum
      (List.mem_map_of_mem hs)
  simp only [List.forall_mem_cons] at h
  obtain ⟨hsent, hacked, herrors, hpass, htotal, -⟩ := h
  exact fun s hs => ⟨hzero _ (fun s hs => (hwf s hs).sent) hsent s hs,
    hzero _ (fun s hs => (hwf s hs).acked) hacked s hs,
    hzero _ (fun s hs => (hwf s hs).errors) herrors s hs,
    hzero _ (fun s hs => (hwf s hs).corrPass) hpass s hs,
    hzero _ (fun s hs => (hwf s hs).corrPass.trans (hwf s hs).corrTotal) htotal s hs⟩

/-! ## Labels

A label is lost where samples come before the start command and where that
command is handled once more. -/

/-- **Labelling a run keeps its samples exactly if it comes first**: after one
start message of a run and its samples, in any order and among messages of
other runs, the run has the name of the submission and holds all of its
samples, if and only if nothing was counted in those that came before the
message. -/
theorem labelled_iff (runs : Runs) (run submission : String) (before after : List Message)
    (hone : ∀ m ∈ before ++ after, ¬ m.Starts run)
    (hsent : ∀ s ∈ samplesOf run (before ++ after), s.record.Transmitted) :
    ((before ++ start run submission :: after).foldl Runs.handle runs).totals run
        = some ((samplesOf run (before ++ after)).foldl Agg.add (.new run submission)).totals
      ↔ ∀ s ∈ samplesOf run before, s.record.Blank := by
  have hwf : ∀ s ∈ samplesOf run before, s.record.WF := fun s hs => (hsent s (by
    rw [samplesOf_append]
    exact List.mem_append_left _ hs)).wf
  have hall : ((samplesOf run (before ++ after)).foldl Agg.add (.new run submission)).totals
      = (samplesOf run (before ++ after)).foldl Totals.add (Agg.new run submission).totals :=
    (List.foldl_hom Agg.totals (fun a s => (a.totals_add s).symm)).symm
  -- the message leaves a new aggregate, whatever there was before it
  have hstart : ((before.foldl Runs.handle runs).handle (start run submission)).totals run
      = some (Agg.new run submission).totals := by
    show ((before.foldl Runs.handle runs).control _).totals run = _
    rw [Runs.control, if_pos rfl, Runs.totals, Dict.get?_set, if_pos rfl]
    rfl
  rw [hall, List.foldl_append, List.foldl_cons, Runs.totals_foldl_handle hstart
    (fun m hm => hone m (List.mem_append_right _ hm)), samplesOf_append, Option.some_inj,
    List.foldl_append]
  constructor
  · intro heq
    refine blank_of_sums hwf ?_
    have hsum : ∀ {f : Totals → ℤ} {g : Record → ℤ}
        (_ : ∀ t s, f (Totals.add t s) = f t + g s.record),
        ((samplesOf run before).map (fun s => g s.record)).sum = 0 := fun {f g} h => by
      have hf := congrArg f heq
      rw [foldl_totals h, foldl_totals h, foldl_totals h] at hf
      omega
    simp only [List.forall_mem_cons]
    exact ⟨hsum (f := Totals.sent) (fun _ _ => rfl), hsum (f := Totals.acked) (fun _ _ => rfl),
      hsum (f := Totals.errors) (fun _ _ => rfl), hsum (f := Totals.corrPass) (fun _ _ => rfl),
      hsum (f := Totals.corrTotal) (fun _ _ => rfl), List.forall_mem_nil _⟩
  · intro hblank
    rw [foldl_blank hwf hblank]

/-- A start message, and then a sample of the run. -/
theorem labelled_when_first :
    ((([] : List Message) ++ start "r" "fast" :: [.sample ⟨"r", 1, Worker.warmupRecord ⟨0, 0, 0, 3, 4,
        fun _ => 0⟩⟩]).foldl Runs.handle .empty).totals "r"
      = some ((samplesOf "r" ([] ++ [.sample ⟨"r", 1, Worker.warmupRecord ⟨0, 0, 0, 3, 4,
        fun _ => 0⟩⟩])).foldl Agg.add (.new "r" "fast")).totals := by
  refine (labelled_iff .empty "r" "fast" [] _ (by decide) ?_).mpr (List.forall_mem_nil _)
  intro s hs
  cases List.mem_singleton.mp hs
  refine ⟨[.verdict true, .verdict true, .verdict true, .verdict false, .warmup], _, rfl, ?_⟩
  exact List.mem_singleton.mpr rfl

/-- **The leader's warmup record is applied before the start message**: the run
has its name, and nothing of the probe. -/
theorem warmup_lost_to_label :
    (Worker.warmupRecord ⟨0, 0, 0, 1, 1, fun _ => 0⟩).Transmitted
      ∧ (([Message.sample ⟨"r", 1, Worker.warmupRecord ⟨0, 0, 0, 1, 1, fun _ => 0⟩⟩]
        ++ start "r" "fast" :: []).foldl Runs.handle .empty).totals "r"
      ≠ some ((samplesOf "r" ([Message.sample ⟨"r", 1, Worker.warmupRecord ⟨0, 0, 0, 1, 1,
        fun _ => 0⟩⟩] ++ [])).foldl Agg.add (.new "r" "fast")).totals := by
  refine ⟨⟨[.verdict true, .warmup], _, rfl, List.mem_singleton.mpr rfl⟩, fun h => ?_⟩
  have hpass : some (0 : ℤ) = some 1 := congrArg (Option.map Totals.corrPass) h
  exact absurd hpass (by decide)

/-! ## The histograms

Every record has as many latencies as acknowledgements, and so has every sum of
records. -/

/-- A point with as many counts in its histogram as acknowledgements. -/
def RateBin.Balanced (b : RateBin) : Prop := ∑ i, b.hist i = b.acked

/-- A sample adds as many counts as acknowledgements. -/
theorem RateBin.Balanced.add {b : RateBin} (h : b.Balanced) {s : Sample}
    (hs : (s.record.hist.map Prod.snd).sum = s.record.acked) : (b.add s).Balanced := by
  show ∑ i, (b.add s).hist i = b.acked + s.record.acked
  simp only [RateBin.hist_add, Finset.sum_add_distrib]
  rw [← sum_map_snd, hs]
  exact congrArg (· + s.record.acked) h

/-- Every point of every curve of every run is. -/
def Runs.Balanced (runs : Runs) : Prop :=
  ∀ run, ∀ t ∈ runs.totals run, ∀ rate,
    (∀ b ∈ t.rates rate, b.Balanced) ∧ ∀ b ∈ t.burstRates rate, b.Balanced

/-- It adds them to one point. -/
theorem balanced_addToPoint {bins : ℕ → Option RateBin} (h : ∀ rate, ∀ b ∈ bins rate, b.Balanced)
    {s : Sample} (hs : (s.record.hist.map Prod.snd).sum = s.record.acked) :
    ∀ rate, ∀ b ∈ addToPoint bins s rate, b.Balanced := by
  intro rate b hb
  unfold addToPoint at hb
  rw [Function.update_apply] at hb
  split_ifs at hb with hrate
  · cases hb
    refine RateBin.Balanced.add ?_ hs
    cases hbin : bins s.record.tag.rate with
    | none => exact Finset.sum_eq_zero (fun _ _ => rfl)
    | some b => exact h _ b hbin
  · exact h rate b hb

/-- **Every message keeps it so.** -/
theorem Runs.Balanced.handle {runs : Runs} (h : runs.Balanced) {m : Message}
    (hm : ∀ s, m = .sample s → (s.record.hist.map Prod.snd).sum = s.record.acked) :
    (runs.handle m).Balanced := by
  have hnew : ∀ run submission rate, (∀ b ∈ (Agg.new run submission).totals.rates rate, b.Balanced)
      ∧ ∀ b ∈ (Agg.new run submission).totals.burstRates rate, b.Balanced :=
    fun run submission rate => ⟨nofun, nofun⟩
  intro run t ht
  cases m with
  | control m =>
    have hcontrol : t ∈ (runs.control m).totals run := ht
    unfold Runs.control at hcontrol
    split_ifs at hcontrol with hcmd
    · unfold Runs.totals at hcontrol
      rw [Dict.get?_set] at hcontrol
      split_ifs at hcontrol with hrun
      · cases hcontrol
        exact hnew m.runId (m.submission.getD "?")
      · exact h run t hcontrol
    · exact h run t hcontrol
  | sample s =>
    have happly : t ∈ (runs.apply s).totals run := ht
    rw [Runs.totals_apply, addToRun] at happly
    split_ifs at happly with hrun
    · -- what the run held, or a new aggregate if it held nothing
      have hold : ∀ rate, (∀ b ∈ ((runs.totals run).getD (Agg.new run "?").totals).rates rate,
          b.Balanced) ∧ ∀ b ∈ ((runs.totals run).getD (Agg.new run "?").totals).burstRates rate,
          b.Balanced := by
        cases hrun : runs.totals run with
        | none => exact hnew run "?"
        | some t => exact h run t hrun
      cases happly
      intro rate
      unfold Totals.add
      dsimp only
      constructor
      · split_ifs
        · exact balanced_addToPoint (fun rate => (hold rate).1) (hm s rfl) rate
        · exact (hold rate).1
      · split_ifs
        · exact balanced_addToPoint (fun rate => (hold rate).2) (hm s rfl) rate
        · exact (hold rate).2
    · exact h run t happly

/-- **Histogram mass is acknowledgements.** Whatever bots, the probe and any
number of reporters of a worker do, every record it transmits has as many
counts in its histogram as acknowledgements; and whichever of the records of
any workers telemetry folds, in any order and among control messages, so has
every point of every curve of every run. -/
theorem hist_mass :
    (∀ es l, exec Ledger.step .new es = some l →
        ∀ r ∈ l.records, (r.hist.map Prod.snd).sum = r.acked)
      ∧ ∀ messages : List Message, (∀ s, .sample s ∈ messages → s.record.Transmitted) →
        ∀ run, ∀ a ∈ (messages.foldl Runs.handle .empty).get? run,
          ∀ b ∈ a.rates.values ++ a.burstRates.values, ∑ i, b.hist i = b.acked := by
  refine ⟨fun es l hexec r hr => ((Ledger.wf_of_exec hexec).records r hr).mass,
    fun messages hsent run a ha b hb => ?_⟩
  have hbalanced : (messages.foldl Runs.handle .empty).Balanced := by
    refine List.foldlRecOn messages Runs.handle (motive := Runs.Balanced)
      (fun run t ht => by cases ht) (fun runs hruns m hm => hruns.handle (fun s heq => ?_))
    exact (hsent s (heq ▸ hm)).wf.mass
  have hmem := hbalanced run a.totals (Option.mem_map_of_mem Agg.totals ha)
  rcases List.mem_append.mp hb with hb | hb
  · obtain ⟨rate, hrate⟩ := Dict.mem_values_iff.mp hb
    exact (hmem rate).1 b hrate
  · obtain ⟨rate, hrate⟩ := Dict.mem_values_iff.mp hb
    exact (hmem rate).2 b hrate

/-- A record of one acknowledgement, and the point that it is folded into. -/
theorem hist_mass_oneAck :
    ∃ l r a b, exec Ledger.step .new (Ledger.oneAck 100) = some l ∧ l.records = [r]
      ∧ ([start "a" "fast", .sample ⟨"a", 1, r⟩].foldl Runs.handle .empty).get? "a" = some a
      ∧ a.rates.values = [b]
      ∧ (r.hist.map Prod.snd).sum = r.acked ∧ ∑ i, b.hist i = b.acked := by
  obtain ⟨l, r, a, b, hl, hr, ha, hb⟩ : ∃ l r a b,
      exec Ledger.step .new (Ledger.oneAck 100) = some l ∧ l.records = [r]
      ∧ ([start "a" "fast", .sample ⟨"a", 1, r⟩].foldl Runs.handle .empty).get? "a" = some a
      ∧ a.rates.values = [b] := ⟨_, _, _, _, rfl, rfl, rfl, rfl⟩
  have hmem : r ∈ l.records := hr ▸ List.mem_cons_self
  refine ⟨l, r, a, b, hl, hr, ha, hb, hist_mass.1 (Ledger.oneAck 100) l hl r hmem,
    hist_mass.2 _ (fun s hs => ?_) "a" a ha b (List.mem_append_left _ (hb ▸ List.mem_cons_self))⟩
  simp only [start, List.mem_cons, reduceCtorEq, List.not_mem_nil, or_false, false_or,
    Message.sample.injEq] at hs
  rw [hs]
  exact ⟨Ledger.oneAck 100, l, hl, hmem⟩

end Telemetry
