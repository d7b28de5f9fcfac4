import HftArena.Adversarial.CheatBook
import HftArena.Fleet.Peers
import HftArena.Telemetry.Score

/-!
# The cheat is found out

The probe and the engine of `cheater.py`, as one system: whatever else is on
the book, the engine fills the two makers of an iteration the wrong way round
and comes out of it with the first of them still resting, so that it fails
every iteration there is (`verdicts_false`).

Its run has no priority factor then, and the score is zero however fast the
engine is (`score_eq_zero`): in every snapshot after the leader's warmup
record, whatever the other samples of the run count.
-/

open PriceTime PyEngine Wire Fleet

namespace Cheater

variable {ι : Type} [PyId ι]

/-- A parser that reads flat objects as JSON says; of other frames it may make
what it likes. -/
def ReadsFlat (loads : Frame → Except Unit (Option (PyMessage ι))) : Prop :=
  ∀ s fs, FlatJson.read s = some fs → ∃ m, loads (.text s) = .ok (some m) ∧ m.Has fs

variable [DecidableEq ι]

/-- The engine gets a frame: what `handle` sends is what there is to hear, and
where it raises the connection is closed after that. Once it is closed, nothing
is heard any more. -/
def answer (loads : Frame → Except Unit (Option (PyMessage ι))) (nothing : ι)
    (clock : ℕ → Instant) (f : Frame) (s : Probe.Server ι) :
    List (Heard Frame) × Probe.Server ι :=
  if s.serving then
    let o := CheatBook.onFrame loads nothing s.book (clock s.handled) f
    (o.sent.map .frame ++ (if o.goesOn then [] else [.closed]), ⟨o.book, s.handled + 1, o.goesOn⟩)
  else ([], s)

section answer

variable {loads : Frame → Except Unit (Option (PyMessage ι))} (nothing : ι) (clock : ℕ → Instant)
  (parse : Frame → Option Json)

/-- As long as the handler goes on, there is to hear what it sends. -/
theorem answer_of_goesOn {b b' : CheatBook ι} {k : ℕ} {f : Frame} {sent : List Frame}
    (h : CheatBook.onFrame loads nothing b (clock k) f = ⟨b', sent, true⟩) :
    answer loads nothing clock f ⟨b, k, true⟩ = (sent.map .frame, ⟨b', k + 1, true⟩) := by
  rw [answer, if_pos rfl]
  dsimp only
  rw [h]
  exact congrArg (Prod.mk · _) (List.append_nil _)

/-- **A limit order of the probe** is acknowledged, and its fills are sent. -/
theorem answer_limit (hloads : ReadsFlat loads) {b b' : CheatBook ι} (k : ℕ) (oid : ℤ) (buy : Bool)
    (px qty : ℤ) {fills : List (PriceTime.Fill ι)}
    (hlimit : b.limit (PyId.int oid) (if buy then "buy" else "sell") px qty = .ok (b', fills)) :
    answer loads nothing clock ((Probe.Msg.limit oid buy px qty).frame (.json parse)) ⟨b, k, true⟩
      = (.frame (.text (ackText (PyId.int oid : ι) (clock k)))
          :: fills.map (fun f => .frame (.text (fillText (PyId.int oid) f))), ⟨b', k + 1, true⟩) := by
  obtain ⟨m, hm, hhas⟩ := hloads _ _ (Probe.read_fields (.limit oid buy px qty))
  have honFrame : CheatBook.onFrame loads nothing b (clock k)
      ((Probe.Msg.limit oid buy px qty).frame (.json parse))
      = ⟨b', .text (ackText (PyId.int oid : ι) (clock k))
          :: fills.map (fun f => .text (fillText (PyId.int oid) f)), true⟩ := by
    unfold CheatBook.onFrame Probe.Msg.frame
    dsimp only
    rw [hm]
    dsimp only
    rw [hhas.t _ rfl, hhas.id _ rfl]
    dsimp only
    rw [if_pos rfl, hhas.side _ rfl, hhas.px _ rfl, hhas.qty _ rfl]
    dsimp only
    rw [hlimit]
  rw [answer_of_goesOn nothing clock honFrame, List.map_cons, List.map_map]
  rfl

/-- **A cancel of the probe** is acknowledged. -/
theorem answer_cancel (hloads : ReadsFlat loads) (b : CheatBook ι) (k : ℕ) (oid target : ℤ) :
    answer loads nothing clock ((Probe.Msg.cancel oid target).frame (.json parse)) ⟨b, k, true⟩
      = ([.frame (.text (ackText (PyId.int oid : ι) (clock k)))],
        ⟨b.cancel (PyId.int target), k + 1, true⟩) := by
  obtain ⟨m, hm, hhas⟩ := hloads _ _ (Probe.read_fields (.cancel oid target))
  have honFrame : CheatBook.onFrame loads nothing b (clock k)
      ((Probe.Msg.cancel oid target).frame (.json parse))
      = ⟨b.cancel (PyId.int target), [.text (ackText (PyId.int oid : ι) (clock k))], true⟩ := by
    unfold CheatBook.onFrame Probe.Msg.frame
    dsimp only
    rw [hm]
    dsimp only
    rw [hhas.t _ rfl, hhas.id _ rfl]
    dsimp only
    rw [if_neg (by decide), if_neg (by decide), hhas.target _ rfl]
    rfl
  exact answer_of_goesOn nothing clock honFrame

end answer

/-! ## An iteration

It ends with a verdict, since the cheat acknowledges and fills like any engine.
The verdict is a fail, since the makers come in the wrong order. -/

/-- **The books on which an iteration goes wrong**: its price is on top of the
bids and below the asks, and its makers' ids are not in use, nor are those of
the iterations that follow. Each iteration leaves its first maker on the book,
and the next one is a price higher. -/
structure Open (top : ℤ) (b : CheatBook ι) (it : ℕ) : Prop where
  bids : ∀ p ∈ b.bidPrices, p < Probe.px it
  levels : ∀ p ∈ b.bidLevels.keys, p < Probe.px it
  asks : ∀ p ∈ b.askPrices, top < p
  makers : ∀ it', it ≤ it' → PyId.int (Probe.makerA it') ∉ b.resting.keys
    ∧ PyId.int (Probe.makerB it') ∉ b.resting.keys

/-- The fills of an iteration, the second maker first: five of it, and then one
of the first. -/
def wrongWay (it : ℕ) : Fleet.Fill × Fleet.Fill :=
  ((.num (Probe.makerB it), .num 5), (.num (Probe.makerA it), .num 1))

/-- **An iteration is answered the wrong way round**, and leaves the first
maker where it was. -/
theorem Open.answers {top : ℤ} {loads : Frame → Except Unit (Option (PyMessage ι))} {nothing : ι}
    {clock : ℕ → Instant} {parse : Frame → Option Json} (hloads : ReadsFlat loads)
    (hparse : Probe.ReadsFlat (.json parse)) {b : CheatBook ι} {it : ℕ} (h : Open top b it)
    (htop : Probe.px it ≤ top) (k : ℕ) :
    ∃ b', Probe.Answers (.json parse) (answer loads nothing clock) it ⟨b, k, true⟩
        ⟨b', k + 4, true⟩ (wrongWay it).1 (wrongWay it).2
      ∧ Open top b' (it + 1) := by
  set px := Probe.px it with hpx
  set a : ι := PyId.int (Probe.makerA it)
  set m : ι := PyId.int (Probe.makerB it)
  have hne : a ≠ m := fun heq => by
    have heq := int_injective heq
    simp only [Probe.makerA, Probe.makerB] at heq
    omega
  have hasks : ∀ p ∈ b.askPrices, px < p := fun p hp => htop.trans_lt (h.asks p hp)
  have hentries : ((Dict.empty.set a (5 : ℤ)).set m 5).entries = [(a, 5), (m, 5)] :=
    Dict.entries_set_of_notMem (by
      rw [Dict.mem_keys_set, Dict.keys_empty]
      exact fun hmem => hmem.elim (fun heq => hne heq.symm)
        (fun hnil => absurd hnil List.not_mem_nil))
  -- the two makers rest, as they do on any book
  have hA : CheatBook.limit b a "buy" px 5
      = .ok (b.withTop px (Dict.empty.set a 5) (b.resting.set a ("buy", px)), []) :=
    (limit_eq_of_lt hasks a 5).trans (limit_buy_new (by decide) hasks h.bids
      (fun hmem => lt_irrefl _ (h.levels _ hmem)))
  have hnotA : m ∉ (Dict.empty.set a (5 : ℤ)).keys := by
    rw [Dict.mem_keys_set, Dict.keys_empty]
    exact fun hmem => hmem.elim (fun heq => hne heq.symm) (fun hnil => absurd hnil List.not_mem_nil)
  have hasksA : ∀ p ∈ OrderBook.askPrices (b.withTop px (Dict.empty.set a 5)
      (b.resting.set a ("buy", px))), px < p := hasks
  have hB : CheatBook.limit (b.withTop px (Dict.empty.set a 5) (b.resting.set a ("buy", px))) m
      "buy" px 5 = .ok (b.withTop px ((Dict.empty.set a 5).set m 5)
        ((b.resting.set a ("buy", px)).set m ("buy", px)), []) :=
    (limit_eq_of_lt hasksA m 5).trans (limit_buy_top (by decide) hasks hnotA)
  -- the second is taken first, and nothing of it is left to cancel
  obtain ⟨level, hlevel, hC⟩ := limit_sell_top b px
    ((b.resting.set a ("buy", px)).set m ("buy", px)) (PyId.int (Probe.taker it)) hentries
    (show (0 : ℤ) < 5 by decide) (show (5 : ℤ) < 6 by decide) (show (6 : ℤ) < 5 + 5 by decide)
  set resting := ((b.resting.set a ("buy", px)).set m ("buy", px)).erase m with hresting
  have hX : CheatBook.cancel (b.withTop px level resting) m = b.withTop px level resting := by
    have hnone : (b.withTop px level resting).resting.get? m = none := by
      rw [show (b.withTop px level resting).resting = resting from rfl, hresting, Dict.get?_erase,
        if_pos rfl]
    rw [CheatBook.cancel, hnone]
  have hanswerA := answer_limit nothing clock parse hloads k (Probe.makerA it) true px 5 hA
  have hanswerB := answer_limit nothing clock parse hloads (k + 1) (Probe.makerB it) true px 5 hB
  have hanswerC := answer_limit nothing clock parse hloads (k + 1 + 1) (Probe.taker it) false px 6 hC
  have hanswerX := answer_cancel nothing clock parse hloads (b.withTop px level resting)
    (k + 1 + 1 + 1) (Probe.taker it + 1) (Probe.makerB it)
  rw [hX] at hanswerX
  refine ⟨b.withTop px level resting, ⟨?_⟩, ?_⟩
  · have hreadB := Probe.readFill_json (ι := ι) hparse (Probe.taker it) px 5 (Probe.makerB it)
    have hreadA := Probe.readFill_json (ι := ι) hparse (Probe.taker it) px (6 - 5)
      (Probe.makerA it)
    exact ⟨_, _, _, _, _, _, _, _, hanswerA, hanswerB, hanswerC, hreadB, hreadA, _, hanswerX⟩
  · have hnext : Probe.px (it + 1) = px + 1 := by
      rw [hpx, Probe.px, Probe.px, Nat.cast_add, Nat.cast_one, add_assoc]
    refine ⟨fun p hp => ?_, fun p hp => ?_, h.asks, fun it' hit' => ?_⟩
    · rw [hnext]
      rcases List.mem_append.mp hp with hp | hp
      · exact (h.bids p hp).trans (lt_add_one _)
      · rw [List.mem_singleton.mp hp]
        exact lt_add_one _
    · rw [hnext]
      rcases Dict.mem_keys_set.mp hp with rfl | hp
      · exact lt_add_one _
      · exact (h.levels p hp).trans (lt_add_one _)
    · obtain ⟨hmakerA, hmakerB⟩ := h.makers it' (Nat.le_of_succ_le hit')
      have hnot : ∀ i : ι, i ≠ a → i ∉ b.resting.keys → i ∉ resting.keys := by
        intro i hi hib hmem
        rw [hresting, Dict.mem_keys_erase, Dict.mem_keys_set, Dict.mem_keys_set] at hmem
        obtain ⟨him, rfl | rfl | hmem⟩ := hmem
        · exact him rfl
        · exact hi rfl
        · exact hib hmem
      refine ⟨hnot _ (fun heq => ?_) hmakerA, hnot _ (fun heq => ?_) hmakerB⟩
      · have heq := int_injective heq
        simp only [Probe.makerA] at heq
        omega
      · have heq := int_injective heq
        simp only [Probe.makerA, Probe.makerB] at heq
        omega

/-! ## The run

What is left on the book by an iteration is out of the way of the next, whose
price is higher. -/

/-- **Every iteration is failed**, from any open book and for any number of
iterations: the fills name the makers in the wrong order, and the probe
compares them with the order that it expects. -/
theorem verdicts_false {loads : Frame → Except Unit (Option (PyMessage ι))} (nothing : ι)
    (clock : ℕ → Instant) {parse : Frame → Option Json} (hloads : ReadsFlat loads)
    (hparse : Probe.ReadsFlat (.json parse)) (n : ℕ) {b : CheatBook ι}
    (hopen : Open (50000 + n) b 1) :
    ∃ st, Probe.runWith (.json parse) (answer loads nothing clock) n [] ⟨b, 0, true⟩
      = ((List.replicate n false, .completed), st) := by
  -- one iteration: the book stays open for the next
  have hpeer : ∀ it (st : Probe.Server ι), it < 1 + n →
      (∃ b k, st = ⟨b, k, true⟩ ∧ Open (50000 + n) b it) → Probe.Sendable (.json parse) it →
      ∃ st', Probe.Answers (.json parse) (answer loads nothing clock) it st st' (wrongWay it).1
          (wrongWay it).2
        ∧ ∃ b k, st' = ⟨b, k, true⟩ ∧ Open (50000 + n) b (it + 1) := by
    rintro it _ hit ⟨b, k, rfl, h⟩ -
    have htop : Probe.px it ≤ 50000 + n := by
      rw [Probe.px]
      omega
    obtain ⟨b', hanswers, h'⟩ := h.answers hloads hparse htop k
    exact ⟨_, hanswers, b', k + 4, rfl, h'⟩
  obtain ⟨st, hrounds, -⟩ := Probe.roundsWith_peer _ wrongWay hpeer n rfl ⟨b, 0, rfl, hopen⟩
    (fun _ _ => trivial)
  -- no iteration has the fills that are expected
  have hverdicts : (List.range' 1 n).map
      (fun it => decide ([(wrongWay it).1, (wrongWay it).2] = Probe.expected it))
      = List.replicate n false := by
    refine List.eq_replicate_iff.mpr ⟨by rw [List.length_map, List.length_range'], ?_⟩
    intro v hv
    obtain ⟨it, -, rfl⟩ := List.mem_map.mp hv
    refine decide_eq_false (fun heq => ?_)
    have hmaker : Value.num (Probe.makerB it) = .num (Probe.makerA it) :=
      congrArg Prod.fst (List.cons.inj heq).1
    have hids : Probe.makerB it = Probe.makerA it := Int.cast_injective (Value.num.inj hmaker)
    simp only [Probe.makerA, Probe.makerB] at hids
    omega
  rw [hverdicts] at hrounds
  exact ⟨st, hrounds⟩

open Telemetry in
/-- What the leader's record makes of the run: it counts iterations, and no
pass. -/
theorem exists_agg_failed {n : ℕ} (hn : 0 < n) {run : String} (ts : ℚ) {before after : List Sample}
    (hothers : ∀ s ∈ before ++ after, s.runId = run →
      s.record.corrPass = 0 ∧ s.record.corrTotal = 0) :
    ∃ agg, ((before ++ warmupSample run ts (List.replicate n false) :: after).foldl Runs.apply
        .empty).get? run = some agg
      ∧ agg.corrPass = 0 ∧ 0 < agg.corrTotal := by
  obtain ⟨agg, hagg, hpass, htotal⟩ := exists_agg_warmup ts (List.replicate n false) hothers
  rw [List.count_replicate, if_neg (by decide)] at hpass
  rw [List.length_replicate] at htotal
  exact ⟨agg, hagg, hpass, by omega⟩

open Telemetry in
/-- **The score of the cheat is zero**, if its leader's record is the only one
that counts iterations.

It is zero whatever the cheat's throughput and latency are, as correctness is a
factor of the score. The iterations must be more than none, or there would be
nothing to be found incorrect in. -/
theorem score_eq_zero (loads : Frame → Except Unit (Option (PyMessage ι))) (nothing : ι)
    (clock : ℕ → Instant) (parse : Frame → Option Json) {n : ℕ} (b : CheatBook ι) (run : String)
    (ts : ℚ) (before after : List Sample) (hloads : ReadsFlat loads)
    (hparse : Probe.ReadsFlat (.json parse)) (hn : 0 < n) (hopen : Open (50000 + n) b 1)
    (hothers : ∀ s ∈ before ++ after, s.runId = run →
      s.record.corrPass = 0 ∧ s.record.corrTotal = 0) :
    let played := (Probe.runWith (.json parse) (answer loads nothing clock) n [] ⟨b, 0, true⟩).1
    played.2 = .completed ∧
      ∀ agg ∈ ((before ++ warmupSample run ts played.1 :: after).foldl Runs.apply .empty).get? run,
        ∀ (cfg : Settings) (bucketUs : Bucket → ℚ) (l : Telemetry.Live) (now : ℚ), l.agg = agg →
          (l.snapshot cfg bucketUs now).2.correctness = 0
            ∧ (l.snapshot cfg bucketUs now).2.score = 0 := by
  obtain ⟨st, hrun⟩ := verdicts_false nothing clock hloads hparse n hopen
  simp only [hrun]
  refine ⟨trivial, ?_⟩
  rintro _ hagg cfg bucketUs l now rfl
  obtain ⟨agg, hagg', hpass, htotal⟩ := exists_agg_failed hn ts hothers
  cases hagg'.symm.trans hagg
  exact l.score_eq_zero_of_failed cfg bucketUs hpass htotal now

open Telemetry in
/-- So it is in a run: what its workers transmit beside the warmup record is of
the load. -/
theorem score_eq_zero_of_load (loads : Frame → Except Unit (Option (PyMessage ι))) (nothing : ι)
    (clock : ℕ → Instant) (parse : Frame → Option Json) {n : ℕ} (b : CheatBook ι) (run : String)
    (ts : ℚ) (before after : List Sample) (hloads : ReadsFlat loads)
    (hparse : Probe.ReadsFlat (.json parse)) (hn : 0 < n) (hopen : Open (50000 + n) b 1)
    (hload : ∀ s ∈ before ++ after, s.runId = run → OfLoad s.record) {agg : Agg}
    (hagg : agg ∈ ((before ++ warmupSample run ts (Probe.runWith (.json parse)
        (answer loads nothing clock) n [] ⟨b, 0, true⟩).1.1 :: after).foldl Runs.apply .empty).get?
      run) (cfg : Settings) (bucketUs : Bucket → ℚ) (peakTps : ℚ) (win : List (ℚ × ℤ)) (now : ℚ) :
    (Telemetry.Live.snapshot cfg bucketUs ⟨agg, peakTps, win⟩ now).2.score = 0 := by
  obtain ⟨st, hrun⟩ := verdicts_false nothing clock hloads hparse n hopen
  rw [hrun] at hagg
  obtain ⟨agg', hagg', hpass, htotal⟩ := exists_agg_failed hn ts
    (fun s hs hr => (hload s hs hr).corr)
  cases hagg'.symm.trans hagg
  exact (Telemetry.Live.score_eq_zero_of_failed cfg bucketUs hpass htotal now).2

/-- What the engine reads of flat objects. -/
def flatLoads : Frame → Except Unit (Option (PyMessage ℤ))
  | .text s => .ok (Probe.flatMessage s)
  | .binary _ => .ok none

theorem readsFlat_flatLoads : ReadsFlat flatLoads := by
  intro s fs h
  obtain ⟨m, hm, hhas⟩ := Probe.readsFlat_flatMessage s fs h
  exact ⟨m, congrArg Except.ok hm, hhas⟩

/-- Two iterations, beside two orders. -/
theorem score_eq_zero_quietBook :
    let played := (Probe.runWith (.json Probe.flatJson) (answer flatLoads 0 (fun _ => 0)) 2 []
      ⟨Probe.quietBook, 0, true⟩).1
    played.2 = .completed ∧
      ∀ agg ∈ ((Telemetry.otherSamples ++ Telemetry.warmupSample "r" 2 played.1 :: []).foldl
          Telemetry.Runs.apply .empty).get? "r",
        ∀ (cfg : Telemetry.Settings) (bucketUs : Bucket → ℚ) (l : Telemetry.Live) (now : ℚ),
          l.agg = agg → (l.snapshot cfg bucketUs now).2.correctness = 0
            ∧ (l.snapshot cfg bucketUs now).2.score = 0 :=
  score_eq_zero flatLoads 0 (fun _ => 0) Probe.flatJson Probe.quietBook "r" 2
    Telemetry.otherSamples [] readsFlat_flatLoads Probe.readsFlat_flatJson Nat.two_pos
    ⟨by decide, by decide, by decide, fun it' _ => by
      show Probe.makerA it' ∉ [(7 : ℤ), 8] ∧ Probe.makerB it' ∉ [(7 : ℤ), 8]
      simp only [List.mem_cons, List.not_mem_nil, or_false, Probe.makerA, Probe.makerB,
        Probe.scenIdBase]
      omega⟩
    (by decide)

end Cheater
