import HftArena.Lib.Quantile
import HftArena.Telemetry.Percentiles
import HftArena.Telemetry.Score

/-!
# The percentiles as quantiles

`_percentiles` gives the values of the cells that are the quantiles of the
histogram for the shares of a half, nine tenths and 99 hundredths
(`percentiles_of_isQuantile`), for whatever histogram has no negative counts.
The histograms of telemetry are of this kind: what the fleet transmits only
ever adds counts (`Record.Transmitted.hist_pos`).
-/

open Fleet

namespace Telemetry

/-- The counts of some buckets, as a sum over all. -/
theorem sum_filter_map (hist : Bucket → ℤ) (p : Bucket → Prop) [DecidablePred p]
    (bs : List Bucket) :
    ((bs.filter (fun c => decide (p c))).map hist).sum
      = (bs.map (fun c => if p c then hist c else 0)).sum := by
  induction bs with
  | nil => rfl
  | cons b bs ih =>
    rw [List.filter_cons, List.map_cons, List.sum_cons]
    by_cases hb : p b
    · rw [if_pos (decide_eq_true hb), if_pos hb, List.map_cons, List.sum_cons, ih]
    · rw [if_neg (by simpa using hb), if_neg hb, ih, zero_add]

/-- The counts of all buckets. -/
theorem sum_finRange (hist : Bucket → ℤ) : ((List.finRange 256).map hist).sum = ∑ b, hist b :=
  (Fin.sum_univ_def hist).symm

/-- The counts up to a bucket. -/
theorem sum_filter_le (hist : Bucket → ℤ) (b : Bucket) :
    (((List.finRange 256).filter (· ≤ b)).map hist).sum = weightUpTo hist b := by
  rw [sum_filter_map, weightUpTo, Finset.sum_filter, Fin.sum_univ_def]

/-- The loop first reaches a threshold at the quantile. -/
theorem firstReaching_of_isQuantile {hist : Bucket → ℤ} {q : ℚ} {b : Bucket}
    (h : IsQuantile q hist b) :
    firstReaching hist ((∑ c, hist c : ℤ) * q) 0 (List.finRange 256) = some b := by
  refine firstReaching_eq_some (List.sortedLT_finRange 256).pairwise (List.mem_finRange b) ?_ ?_
  · rw [sum_filter_le, zero_add, mul_comm]
    exact h.reached
  · intro c _ hc
    rw [sum_filter_le, zero_add, mul_comm]
    exact h.first c hc

/-- **The percentiles are the values of the quantiles.** -/
theorem percentiles_of_isQuantile (bucketUs : Bucket → ℚ) {hist : Bucket → ℤ}
    (htotal : ∑ b, hist b ≠ 0) {b₅₀ b₉₀ b₉₉ : Bucket} (h₅₀ : IsQuantile (1 / 2) hist b₅₀)
    (h₉₀ : IsQuantile (9 / 10) hist b₉₀) (h₉₉ : IsQuantile (99 / 100) hist b₉₉) :
    percentiles bucketUs hist = (bucketUs b₅₀, bucketUs b₉₀, bucketUs b₉₉) := by
  have hout : ∀ p q b, IsQuantile q hist b →
      (p, ((∑ c, hist c : ℤ) * q : ℚ)) ∈ (Scan.start (∑ c, hist c)).targets →
      (Scan.loop bucketUs hist (.start (∑ c, hist c)) (List.finRange 256)).out.get? p
        = some (bucketUs b) := fun p q b hb hp =>
    Scan.get?_loop (Scan.nodup_start _) hp (firstReaching_of_isQuantile hb)
  rw [percentiles_eq bucketUs (sum_finRange hist) htotal,
    hout 50 _ _ h₅₀ List.mem_cons_self,
    hout 90 _ _ h₉₀ (List.mem_cons_of_mem _ List.mem_cons_self),
    hout 99 _ _ h₉₉ (List.mem_cons_of_mem _ (List.mem_cons_of_mem _ List.mem_cons_self))]
  rfl

/-- An empty histogram has nothing to scan. -/
theorem percentiles_of_empty (bucketUs : Bucket → ℚ) {hist : Bucket → ℤ}
    (htotal : ∑ b, hist b = 0) : percentiles bucketUs hist = (0, 0, 0) := by
  rw [percentiles, sum_finRange]
  exact if_pos htotal

/-- A histogram without negative counts has them. -/
theorem exists_percentiles (bucketUs : Bucket → ℚ) {hist : Bucket → ℤ} (hpos : 0 ≤ hist)
    (htotal : ∑ b, hist b ≠ 0) : ∃ b₅₀ b₉₀ b₉₉, IsQuantile (1 / 2) hist b₅₀
      ∧ IsQuantile (9 / 10) hist b₉₀ ∧ IsQuantile (99 / 100) hist b₉₉
      ∧ percentiles bucketUs hist = (bucketUs b₅₀, bucketUs b₉₀, bucketUs b₉₉) := by
  obtain ⟨b₅₀, h₅₀⟩ := exists_isQuantile hpos (q := 1 / 2) (by norm_num)
  obtain ⟨b₉₀, h₉₀⟩ := exists_isQuantile hpos (q := 9 / 10) (by norm_num)
  obtain ⟨b₉₉, h₉₉⟩ := exists_isQuantile hpos (q := 99 / 100) (by norm_num)
  exact ⟨b₅₀, b₉₀, b₉₉, h₅₀, h₉₀, h₉₉, percentiles_of_isQuantile bucketUs htotal h₅₀ h₉₀ h₉₉⟩

end Telemetry

/-! ## What the fleet transmits -/

namespace Fleet

namespace Ledger

/-- **Counts are only added**: the baselines are behind the counters bucket by
bucket, and what was transmitted is what they were behind. -/
structure Counts (l : Ledger) : Prop where
  behind : ∀ last ∈ l.baselines, ∀ b, last.hist b ≤ l.stats.hist b
  records : ∀ r ∈ l.records, ∀ p ∈ r.hist, 0 < p.2

/-- At the start nothing was counted. -/
theorem counts_new : new.Counts := ⟨List.forall_mem_nil _, List.forall_mem_nil _⟩

/-- A tally takes no count away. -/
theorem hist_le_add (s : Stats) (t : Tally) (b : Bucket) : s.hist b ≤ (s.add t).hist b := by
  cases t with
  | nothing | sent | error => exact le_rfl
  | acked c =>
    show s.hist b ≤ Function.update s.hist c (s.hist c + 1) b
    by_cases hbc : b = c
    · rw [hbc, Function.update_self]
      exact Nat.le_succ _
    · rw [Function.update_of_ne hbc]

/-- A flush transmits what has come since the baselines, and leaves none
behind. -/
theorem counts_flush (tag : Tag) {last stats : Stats} (h : ∀ b, last.hist b ≤ stats.hist b) :
    (flush tag last stats).1.hist = stats.hist
      ∧ ∀ r ∈ (flush tag last stats).2, ∀ p ∈ r.hist, 0 < p.2 := by
  unfold flush
  dsimp only
  split_ifs
  · exact ⟨rfl, nofun⟩
  · refine ⟨rfl, fun r hr p hp => ?_⟩
    cases hr
    obtain ⟨b, -, hb⟩ := List.mem_filterMap.mp hp
    obtain ⟨hne, hp⟩ := Option.ite_none_right_eq_some.mp hb
    obtain rfl := Option.some_inj.mp hp
    have hle := h b
    dsimp only
    omega

/-- **Every step keeps it.** -/
theorem Counts.step {l l' : Ledger} {e : LedgerEvent} (h : l.Counts) (hstep : l.step e = some l') :
    l'.Counts := by
  cases e with
  | tally t =>
    cases hstep
    exact ⟨fun last hlast b => (h.behind last hlast b).trans (hist_le_add l.stats t b), h.records⟩
  | verdict passed =>
    cases hstep
    exact ⟨h.behind, h.records⟩
  | warmup =>
    cases hstep
    exact ⟨h.behind, List.forall_mem_append.mpr ⟨h.records, fun r hr =>
      List.mem_singleton.mp hr ▸ List.forall_mem_nil _⟩⟩
  | create =>
    cases hstep
    exact ⟨List.forall_mem_append.mpr ⟨h.behind, fun last hlast b =>
      (List.mem_singleton.mp hlast ▸ le_rfl)⟩, h.records⟩
  | flush i tag =>
    obtain ⟨last, hlast, rfl⟩ := Option.map_eq_some_iff.mp hstep
    obtain ⟨hsame, hrecord⟩ := counts_flush tag (h.behind last (List.mem_of_getElem? hlast))
    exact ⟨forall_mem_set h.behind (fun b => hsame ▸ le_rfl), List.forall_mem_append.mpr
      ⟨h.records, fun r hr => hrecord r (Option.mem_toList.mp hr)⟩⟩

end Ledger

/-- **A record adds counts** to the buckets it names. -/
theorem Record.Transmitted.hist_pos {r : Record} (h : r.Transmitted) : ∀ p ∈ r.hist, 0 < p.2 := by
  obtain ⟨es, l, hexec, hr⟩ := h
  exact (inv_of_exec Ledger.Counts hexec (fun _ _ _ hl hstep => hl.step hstep)
    Ledger.counts_new).records r hr

end Fleet
