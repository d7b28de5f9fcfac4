import Mathlib.Analysis.SpecialFunctions.Log.Basic
import HftArena.Lib.OrderStatistic
import HftArena.Telemetry.Curve

/-!
# Percentiles are order statistics

What `_percentiles` reads off the histogram that the bots of a fleet fill is
the value of the bucket of an order statistic of their latencies
(`percentiles_eq_kthSmallest`): of `n` latencies the `k`-th smallest, with `k`
the least integer not below the percentage of `n`.

The loop passes over the buckets once and takes every percentile out of its
dictionary where the count first reaches its threshold (`Scan.get?_loop`); a
bucket may answer several at once. That place is the bucket of the `k`-th
smallest latency because the bucket ascends with the latency.

So there are two parts, which meet in `firstReaching`: what the loop does with
any histogram, and where a threshold is first reached in the histogram of some
latencies.
-/

open Fleet

namespace Telemetry

/-! ## Buckets

A list of latencies makes a histogram, bucket by bucket. -/

variable {K : Type} [Field K] [LinearOrder K] [FloorRing K]

/-- `int`, which cuts off towards zero. -/
def truncate (x : K) : ℤ := if 0 ≤ x then ⌊x⌋ else ⌈x⌉

/-- `int(math.log1p(us) * SCALE)`. -/
def scaledBy (log1p : ℚ → K) (us : ℚ) : ℤ := truncate (log1p us * 16)

/-- `bucket_us`. -/
def bucketUs (expm1 : ℚ → ℚ) (b : Bucket) : ℚ := expm1 ((b.val + 1 / 2) / 16)

/-- It ascends. -/
theorem truncate_mono [IsStrictOrderedRing K] : Monotone (truncate : K → ℤ) := by
  intro x y hxy
  unfold truncate
  split_ifs with hx hy hy
  · exact Int.floor_le_floor hxy
  · exact absurd (hx.trans hxy) hy
  · exact (Int.ceil_le.mpr (by exact_mod_cast (not_le.mp hx).le)).trans (Int.floor_nonneg.mpr hy)
  · exact Int.ceil_le_ceil hxy

/-- **The bucket ascends with the latency.** -/
theorem bucketOf_mono {scaled : ℚ → ℤ} (h : MonotoneOn scaled (Set.Ici 0)) :
    Monotone (bucketOf scaled) := by
  intro us us' hus
  have hscaled : scaled (max us 0) ≤ scaled (max us' 0) :=
    h (le_max_right us 0) (le_max_right us' 0) (max_le_max_right 0 hus)
  unfold bucketOf
  dsimp only
  split_ifs with h₁ h₂ h₃ h₄ h₅ h₆
  · exact le_rfl
  · omega
  · omega
  · exact Fin.zero_le _
  · exact le_rfl
  · exact Fin.zero_le _
  · exact Fin.le_last _
  · omega
  · rw [Fin.le_def, Fin.val_ofNat, Fin.val_ofNat, Nat.mod_eq_of_lt (by omega),
      Nat.mod_eq_of_lt (by omega)]
    omega

/-- The histogram of a fleet's counters after some latencies. -/
def latencyHist (scaled : ℚ → ℤ) (latencies : List ℚ) : Bucket → ℤ := fun b =>
  (latencies.foldl (fun s us => s.add (.acked (bucketOf scaled us))) Stats.zero).hist b

/-- It has as many counts in a bucket as there are latencies of it. -/
theorem latencyHist_eq (scaled : ℚ → ℤ) (latencies : List ℚ) (b : Bucket) :
    latencyHist scaled latencies b = latencies.countP (fun us => bucketOf scaled us = b) := by
  have hfold : ∀ s : Stats,
      (latencies.foldl (fun s us => s.add (.acked (bucketOf scaled us))) s).hist b
      = s.hist b + latencies.countP (fun us => bucketOf scaled us = b) := by
    induction latencies with
    | nil => exact fun s => rfl
    | cons us latencies ih =>
      intro s
      rw [List.foldl_cons, ih, List.countP_cons]
      show Function.update s.hist _ _ b + _ = _
      rw [Function.update_apply]
      by_cases hb : b = bucketOf scaled us
      · rw [if_pos hb, if_pos (by simpa using hb.symm), ← hb]
        omega
      · rw [if_neg hb, if_neg (by simpa using Ne.symm hb)]
        rfl
  rw [latencyHist, hfold]
  exact congrArg Nat.cast (Nat.zero_add _)

/-- What buckets hold together. -/
theorem sum_latencyHist (scaled : ℚ → ℤ) (latencies : List ℚ) {buckets : List Bucket}
    (h : buckets.Nodup) : (buckets.map (latencyHist scaled latencies)).sum
      = latencies.countP (fun us => bucketOf scaled us ∈ buckets) := by
  rw [← sum_countP_cell (bucketOf scaled) latencies h]
  have hmap : buckets.map (latencyHist scaled latencies)
      = (buckets.map (fun b => latencies.countP (fun us => bucketOf scaled us = b))).map
          Nat.cast := by
    rw [List.map_map]
    exact List.map_congr_left (fun b _ => latencyHist_eq scaled latencies b)
  rw [hmap]
  exact (map_list_sum (Nat.castAddMonoidHom ℤ) _).symm

/-! ## The scan

What the loop finds of a percentile is independent of the other two, which are
only taken out of its way. -/

/-- The bucket where the count first reaches a threshold. -/
def firstReaching (hist : Bucket → ℤ) (threshold : ℚ) : ℤ → List Bucket → Option Bucket
  | _, [] => none
  | cum, b :: bs =>
    if threshold ≤ ((cum + hist b : ℤ) : ℚ) then some b
    else firstReaching hist threshold (cum + hist b) bs

section

variable {bucketUs : Bucket → ℚ} {hist : Bucket → ℤ}

/-- What a bucket answers: the percentiles whose thresholds are reached. -/
theorem Scan.get?_turn (st : Scan) (b : Bucket) (p : ℕ) :
    (st.turn bucketUs hist b).out.get? p
      = if ∃ t ∈ st.targets, t.1 = p ∧ t.2 ≤ ((st.cum + hist b : ℤ) : ℚ) then some (bucketUs b)
        else st.out.get? p := by
  refine (Dict.get?_foldl_set_const Prod.fst (bucketUs b) st.out _ p).trans (if_congr ?_ rfl rfl)
  rw [List.mem_map]
  refine exists_congr (fun t => ?_)
  rw [List.mem_filter, decide_eq_true_eq]
  exact ⟨fun h => ⟨h.1.1, h.2, h.1.2⟩, fun h => ⟨⟨h.1, h.2.2⟩, h.2.1⟩⟩

/-- A percentile that is not looked for keeps what it has. -/
theorem Scan.get?_loop_of_notMem {st : Scan} {p : ℕ} (hp : p ∉ st.targets.map Prod.fst)
    (bs : List Bucket) : (Scan.loop bucketUs hist st bs).out.get? p = st.out.get? p := by
  induction bs generalizing st with
  | nil => rfl
  | cons b bs ih =>
    have hturn : (st.turn bucketUs hist b).out.get? p = st.out.get? p := by
      rw [Scan.get?_turn, if_neg]
      rintro ⟨t, ht, rfl, -⟩
      exact hp (List.mem_map_of_mem ht)
    rw [Scan.loop]
    split_ifs
    · exact hturn
    · rw [ih (fun hmem => hp ((List.filter_sublist.map Prod.fst).subset hmem)), hturn]

/-- **The loop answers every percentile with the bucket where its threshold is
first reached**, however many a bucket answers. -/
theorem Scan.get?_loop {st : Scan} (hnodup : (st.targets.map Prod.fst).Nodup) {p : ℕ}
    {threshold : ℚ} (hp : (p, threshold) ∈ st.targets) {bs : List Bucket} {b : Bucket}
    (hfirst : firstReaching hist threshold st.cum bs = some b) :
    (Scan.loop bucketUs hist st bs).out.get? p = some (bucketUs b) := by
  have hunique : ∀ t ∈ st.targets, t.1 = p → t = (p, threshold) := fun t ht htp =>
    List.inj_on_of_nodup_map hnodup ht hp htp
  induction bs generalizing st with
  | nil => cases hfirst
  | cons c bs ih =>
    rw [firstReaching] at hfirst
    rw [Scan.loop]
    by_cases hreached : threshold ≤ ((st.cum + hist c : ℤ) : ℚ)
    · rw [if_pos hreached] at hfirst
      cases hfirst
      have hturn : (st.turn bucketUs hist b).out.get? p = some (bucketUs b) := by
        rw [Scan.get?_turn, if_pos ⟨_, hp, rfl, hreached⟩]
      split_ifs
      · exact hturn
      · rw [Scan.get?_loop_of_notMem, hturn]
        -- no other target has the percentile
        intro hmem
        obtain ⟨t, ht, htp⟩ := List.mem_map.mp hmem
        obtain ⟨ht, hleft⟩ := List.mem_filter.mp ht
        rw [hunique t ht htp, Bool.not_eq_true', decide_eq_false_iff_not] at hleft
        exact hleft hreached
    · rw [if_neg hreached] at hfirst
      have hstays : (p, threshold) ∈ (st.turn bucketUs hist c).targets :=
        List.mem_filter.mpr ⟨hp, by
          rw [Bool.not_eq_true', decide_eq_false_iff_not]
          exact hreached⟩
      rw [if_neg (fun hempty => List.ne_nil_of_mem hstays (List.isEmpty_iff.mp hempty))]
      exact ih ((List.filter_sublist.map Prod.fst).nodup hnodup) hstays hfirst
        (fun t ht => hunique t (List.mem_of_mem_filter ht))

/-- **Where a threshold is first reached** in an ascending list of buckets: at
the one with which there is enough, and before which there is not. -/
theorem firstReaching_eq_some {threshold : ℚ} {cum : ℤ} {bs : List Bucket}
    (hbs : bs.Pairwise (· < ·)) {b : Bucket} (hb : b ∈ bs)
    (henough : threshold ≤ ((cum + ((bs.filter (· ≤ b)).map hist).sum : ℤ) : ℚ))
    (hbefore : ∀ c ∈ bs, c < b →
      ((cum + ((bs.filter (· ≤ c)).map hist).sum : ℤ) : ℚ) < threshold) :
    firstReaching hist threshold cum bs = some b := by
  induction bs generalizing cum with
  | nil => cases hb
  | cons c bs ih =>
    obtain ⟨hc, hbs⟩ := List.pairwise_cons.mp hbs
    -- what is up to a later bucket starts with the first
    have hfilter : ∀ d, c ≤ d → (cum + (((c :: bs).filter (· ≤ d)).map hist).sum : ℤ)
        = cum + hist c + ((bs.filter (· ≤ d)).map hist).sum := fun d hd => by
      rw [List.filter_cons_of_pos (by simpa using hd), List.map_cons, List.sum_cons, add_assoc]
    have hnone : bs.filter (· ≤ c) = [] :=
      List.filter_eq_nil_iff.mpr (fun d hd => by simpa using hc d hd)
    have hself : (cum + (((c :: bs).filter (· ≤ c)).map hist).sum : ℤ) = cum + hist c := by
      rw [hfilter c le_rfl, hnone, List.map_nil, List.sum_nil, add_zero]
    rw [firstReaching]
    rcases List.mem_cons.mp hb with rfl | hb
    · rw [hself] at henough
      rw [if_pos henough]
    · have hlt := hc b hb
      have hnot := hbefore c List.mem_cons_self hlt
      rw [hself] at hnot
      rw [if_neg (not_le.mpr hnot)]
      refine ih hbs hb ?_ (fun d hd hdb => ?_)
      · rw [← hfilter b hlt.le]
        exact henough
      · rw [← hfilter d (hc d hd).le]
        exact hbefore d (List.mem_cons_of_mem c hd) hdb

/-- Where the loop starts. -/
def Scan.start (total : ℤ) : Scan :=
  ⟨0, [(50, total * (1 / 2)), (90, total * (9 / 10)), (99, total * (99 / 100))], .empty⟩

/-- The three percentiles are different keys. -/
theorem Scan.nodup_start (total : ℤ) : ((Scan.start total).targets.map Prod.fst).Nodup := by
  show ([50, 90, 99] : List ℕ).Nodup
  decide

end

/-- **What `_percentiles` returns** where there is anything to scan: the
answers of the loop, and 0 for one that has none. -/
theorem percentiles_eq (bucketUs : Bucket → ℚ) {hist : Bucket → ℤ} {total : ℤ}
    (htotal : ((List.finRange 256).map hist).sum = total) (hne : total ≠ 0) :
    percentiles bucketUs hist
      = (((Scan.loop bucketUs hist (.start total) (List.finRange 256)).out.get? 50).getD 0,
        ((Scan.loop bucketUs hist (.start total) (List.finRange 256)).out.get? 90).getD 0,
        ((Scan.loop bucketUs hist (.start total) (List.finRange 256)).out.get? 99).getD 0) := by
  unfold percentiles
  dsimp only
  rw [htotal, if_neg hne]
  rfl

/-! ## Ranks

A threshold that is a share of the number of latencies is reached by as many as
its rank. -/

/-- The least integer not below a percentage of so many. -/
def rank (p n : ℕ) : ℕ := ⌈(p / 100 : ℚ) * n⌉₊

/-- There is a first latency. -/
theorem rank_pos {p n : ℕ} (hp : 0 < p) (hn : 0 < n) : 0 < rank p n := by
  unfold rank
  positivity

/-- No rank is beyond the last. -/
theorem rank_le {p n : ℕ} (hp : p ≤ 100) : rank p n ≤ n := by
  have hp' : (p : ℚ) / 100 ≤ 1 := by
    rw [div_le_one (by norm_num)]
    exact_mod_cast hp
  refine Nat.ceil_le.mpr ?_
  exact (mul_le_mul_of_nonneg_right hp' (Nat.cast_nonneg n)).trans_eq (one_mul _)

/-- A larger percentage has no smaller rank. -/
theorem rank_mono {p p' : ℕ} (h : p ≤ p') (n : ℕ) : rank p n ≤ rank p' n := by
  unfold rank
  gcongr

/-- **The threshold of a percentage is first reached in the bucket of the order
statistic of its rank.** -/
theorem firstReaching_latencyHist {scaled : ℚ → ℤ} (hmono : Monotone (bucketOf scaled))
    {latencies : List ℚ} {p : ℕ} (hrank : 0 < rank p latencies.length) {x : ℚ}
    (hx : kthSmallest latencies (rank p latencies.length) = some x) :
    firstReaching (latencyHist scaled latencies) ((p / 100 : ℚ) * latencies.length) 0
      (List.finRange 256) = some (bucketOf scaled x) := by
  -- up to a bucket there are as many counts as latencies whose buckets are up to it
  have hcount : ∀ b : Bucket, (0 + (((List.finRange 256).filter (· ≤ b)).map
      (latencyHist scaled latencies)).sum : ℤ)
        = latencies.countP (fun us => bucketOf scaled us ≤ b) := by
    intro b
    rw [zero_add, sum_latencyHist scaled latencies ((List.nodup_finRange 256).filter _)]
    refine congrArg Nat.cast (List.countP_congr (fun us _ => ?_))
    simp
  have hle : ∀ b : Bucket, (p / 100 : ℚ) * latencies.length
        ≤ ((latencies.countP (fun us => bucketOf scaled us ≤ b) : ℤ) : ℚ)
      ↔ bucketOf scaled x ≤ b := by
    intro b
    rw [Int.cast_natCast, ← Nat.ceil_le]
    refine (le_countP_iff (fun us us' hus hb => ?_) hrank hx).trans decide_eq_true_iff
    exact decide_eq_true ((hmono hus).trans (of_decide_eq_true hb))
  refine firstReaching_eq_some (List.pairwise_lt_finRange 256) (List.mem_finRange _) ?_
    (fun c _ hc => ?_)
  · rw [hcount, hle]
  · rw [hcount, ← not_le, hle]
    exact not_le.mpr hc

/-- **Every latency is in a bucket.** -/
theorem sum_finRange_latencyHist (scaled : ℚ → ℤ) (latencies : List ℚ) :
    ((List.finRange 256).map (latencyHist scaled latencies)).sum = latencies.length := by
  rw [sum_latencyHist _ _ (List.nodup_finRange 256)]
  refine congrArg Nat.cast (List.countP_eq_length.mpr (fun us _ => ?_))
  exact decide_eq_true (List.mem_finRange _)

/-- **What `_percentiles` returns** for some latencies, given their order
statistics. -/
theorem percentiles_latencyHist (bucketUs : Bucket → ℚ) {scaled : ℚ → ℤ}
    (hmono : Monotone (bucketOf scaled)) {latencies : List ℚ} (hne : latencies ≠ [])
    {x₅₀ x₉₀ x₉₉ : ℚ} (h₅₀ : kthSmallest latencies (rank 50 latencies.length) = some x₅₀)
    (h₉₀ : kthSmallest latencies (rank 90 latencies.length) = some x₉₀)
    (h₉₉ : kthSmallest latencies (rank 99 latencies.length) = some x₉₉) :
    percentiles bucketUs (latencyHist scaled latencies)
      = (bucketUs (bucketOf scaled x₅₀), bucketUs (bucketOf scaled x₉₀),
        bucketUs (bucketOf scaled x₉₉)) := by
  have hlength : 0 < latencies.length := List.length_pos_iff.mpr hne
  have hget : ∀ {p : ℕ} {x threshold : ℚ}, 0 < p →
      kthSmallest latencies (rank p latencies.length) = some x →
      (p, threshold) ∈ (Scan.start latencies.length).targets →
      threshold = (p / 100 : ℚ) * latencies.length →
      (Scan.loop bucketUs (latencyHist scaled latencies) (Scan.start latencies.length)
        (List.finRange 256)).out.get? p = some (bucketUs (bucketOf scaled x)) :=
    fun hp hx hmem hthreshold => Scan.get?_loop (Scan.nodup_start _) hmem
      (hthreshold ▸ firstReaching_latencyHist hmono (rank_pos hp hlength) hx)
  rw [percentiles_eq bucketUs (sum_finRange_latencyHist scaled latencies)
      (by exact_mod_cast hlength.ne'),
    hget (by norm_num) h₅₀ (.head _) (by push_cast; ring),
    hget (by norm_num) h₉₀ (.tail _ (.head _)) (by push_cast; ring),
    hget (by norm_num) h₉₉ (.tail _ (.tail _ (.head _))) (by push_cast; ring)]
  rfl

/-- Some latencies have an order statistic for every percentage. -/
theorem exists_kthSmallest_rank {latencies : List ℚ} (hne : latencies ≠ []) {p : ℕ} (hp : 0 < p)
    (hp' : p ≤ 100) : ∃ x, kthSmallest latencies (rank p latencies.length) = some x :=
  exists_kthSmallest (rank_pos hp (List.length_pos_iff.mpr hne)) (rank_le hp')

/-- The logarithm, scaled and cut off, ascends. -/
theorem scaledBy_mono [IsStrictOrderedRing K] {log1p : ℚ → K}
    (hlog1p : MonotoneOn log1p (Set.Ici 0)) : MonotoneOn (scaledBy log1p) (Set.Ici 0) :=
  fun _ hus _ hus' hle =>
    truncate_mono (mul_le_mul_of_nonneg_right (hlog1p hus hus' hle) (by norm_num))

/-- The value of a bucket ascends with it. -/
theorem bucketUs_mono {expm1 : ℚ → ℚ} (hexpm1 : MonotoneOn expm1 (Set.Ici 0)) :
    Monotone (bucketUs expm1) := by
  intro b b' hle
  have hpos : ∀ b : Bucket, ((b.val + 1 / 2) / 16 : ℚ) ∈ Set.Ici (0 : ℚ) := fun b =>
    Set.mem_Ici.mpr (by positivity)
  refine hexpm1 (hpos _) (hpos _) ?_
  have hval : (b.val : ℚ) ≤ b'.val := by exact_mod_cast Fin.le_def.mp hle
  gcongr

/-- **Reported percentiles are order statistics.** Of any latencies, in any
order, that are counted into the histogram: each of the three values that
`_percentiles` returns is that of the bucket of the latency whose rank is the
percentage, rounded up, of their number. The values ascend, and the buckets are
not empty. -/
theorem percentiles_eq_kthSmallest [IsStrictOrderedRing K] {log1p : ℚ → K}
    (hlog1p : MonotoneOn log1p (Set.Ici 0)) {expm1 : ℚ → ℚ} (hexpm1 : MonotoneOn expm1 (Set.Ici 0))
    {latencies : List ℚ} (hne : latencies ≠ []) :
    ∃ x₅₀ x₉₀ x₉₉, kthSmallest latencies (rank 50 latencies.length) = some x₅₀
      ∧ kthSmallest latencies (rank 90 latencies.length) = some x₉₀
      ∧ kthSmallest latencies (rank 99 latencies.length) = some x₉₉
      ∧ percentiles (bucketUs expm1) (latencyHist (scaledBy log1p) latencies)
        = (bucketUs expm1 (bucketOf (scaledBy log1p) x₅₀),
          bucketUs expm1 (bucketOf (scaledBy log1p) x₉₀),
          bucketUs expm1 (bucketOf (scaledBy log1p) x₉₉))
      ∧ bucketUs expm1 (bucketOf (scaledBy log1p) x₅₀)
        ≤ bucketUs expm1 (bucketOf (scaledBy log1p) x₉₀)
      ∧ bucketUs expm1 (bucketOf (scaledBy log1p) x₉₀)
        ≤ bucketUs expm1 (bucketOf (scaledBy log1p) x₉₉)
      ∧ ∀ x ∈ [x₅₀, x₉₀, x₉₉], 0 < latencyHist (scaledBy log1p) latencies
          (bucketOf (scaledBy log1p) x) := by
  have hmono : Monotone (bucketOf (scaledBy log1p)) := bucketOf_mono (scaledBy_mono hlog1p)
  have hvalue : Monotone (fun us => bucketUs expm1 (bucketOf (scaledBy log1p) us)) :=
    (bucketUs_mono hexpm1).comp hmono
  obtain ⟨x₅₀, h₅₀⟩ := exists_kthSmallest_rank hne (show 0 < 50 by norm_num) (by norm_num)
  obtain ⟨x₉₀, h₉₀⟩ := exists_kthSmallest_rank hne (show 0 < 90 by norm_num) (by norm_num)
  obtain ⟨x₉₉, h₉₉⟩ := exists_kthSmallest_rank hne (show 0 < 99 by norm_num) (by norm_num)
  refine ⟨x₅₀, x₉₀, x₉₉, h₅₀, h₉₀, h₉₉,
    percentiles_latencyHist (bucketUs expm1) hmono hne h₅₀ h₉₀ h₉₉,
    hvalue (kthSmallest_le (rank_mono (by norm_num) _) h₅₀ h₉₀),
    hvalue (kthSmallest_le (rank_mono (by norm_num) _) h₉₀ h₉₉), fun x hx => ?_⟩
  rw [latencyHist_eq]
  -- Each of the three latencies is one of the list, so its bucket has a count.
  have hmem : x ∈ latencies := by
    simp only [List.mem_cons, List.not_mem_nil, or_false] at hx
    rcases hx with rfl | rfl | rfl
    · exact mem_of_kthSmallest h₅₀
    · exact mem_of_kthSmallest h₉₀
    · exact mem_of_kthSmallest h₉₉
  exact_mod_cast List.countP_pos_iff.mpr ⟨x, hmem, decide_eq_true rfl⟩

/-- **Where latencies become smaller, no percentile becomes larger.** -/
theorem percentiles_le_of_forall₂ [IsStrictOrderedRing K] {log1p : ℚ → K}
    (hlog1p : MonotoneOn log1p (Set.Ici 0)) {expm1 : ℚ → ℚ} (hexpm1 : MonotoneOn expm1 (Set.Ici 0))
    {latencies latencies' : List ℚ} (h : List.Forall₂ (· ≤ ·) latencies' latencies) :
    percentiles (bucketUs expm1) (latencyHist (scaledBy log1p) latencies')
      ≤ percentiles (bucketUs expm1) (latencyHist (scaledBy log1p) latencies) := by
  have hlength := h.length_eq
  by_cases hne : latencies = []
  · rw [hne, List.length_nil, List.length_eq_zero_iff] at hlength
    rw [hne, hlength]
  have hne' : latencies' ≠ [] := by
    rintro rfl
    exact hne (List.length_eq_zero_iff.mp hlength.symm)
  have hmono : Monotone (bucketOf (scaledBy log1p)) := bucketOf_mono (scaledBy_mono hlog1p)
  have hvalue : Monotone (fun us => bucketUs expm1 (bucketOf (scaledBy log1p) us)) :=
    (bucketUs_mono hexpm1).comp hmono
  have hexists : ∀ p : ℕ, 0 < p → p ≤ 100 → ∃ x x',
      kthSmallest latencies (rank p latencies.length) = some x
        ∧ kthSmallest latencies' (rank p latencies'.length) = some x' ∧ x' ≤ x := by
    intro p hp hp'
    obtain ⟨x, hx⟩ := exists_kthSmallest_rank hne hp hp'
    obtain ⟨x', hx'⟩ := exists_kthSmallest_rank hne' hp hp'
    have hrank := rank_pos hp (List.length_pos_iff.mpr hne)
    exact ⟨x, x', hx, hx', kthSmallest_le_of_forall₂ h hrank hx (hlength ▸ hx')⟩
  obtain ⟨x₅₀, x₅₀', h₅₀, h₅₀', hle₅₀⟩ := hexists 50 (by norm_num) (by norm_num)
  obtain ⟨x₉₀, x₉₀', h₉₀, h₉₀', hle₉₀⟩ := hexists 90 (by norm_num) (by norm_num)
  obtain ⟨x₉₉, x₉₉', h₉₉, h₉₉', hle₉₉⟩ := hexists 99 (by norm_num) (by norm_num)
  rw [percentiles_latencyHist (bucketUs expm1) hmono hne h₅₀ h₉₀ h₉₉,
    percentiles_latencyHist (bucketUs expm1) hmono hne' h₅₀' h₉₀' h₉₉']
  exact ⟨hvalue hle₅₀, hvalue hle₉₀, hvalue hle₉₉⟩

/-! ### With the logarithm, and the first terms of the exponential -/

/-- The logarithm ascends. -/
theorem monotoneOn_log : MonotoneOn (fun us : ℚ => Real.log (1 + us)) (Set.Ici 0) := by
  intro us hus us' _ hle
  have hpos : (0 : ℝ) ≤ us := by exact_mod_cast hus
  have hle' : (us : ℝ) ≤ us' := by exact_mod_cast hle
  exact Real.log_le_log (by linarith) (by linarith)

/-- So do the first terms of the exponential. -/
theorem monotoneOn_taylor : MonotoneOn (fun x : ℚ =>
    x + x ^ 2 / 2 + x ^ 3 / 6 + x ^ 4 / 24 + x ^ 5 / 120 + x ^ 6 / 720) (Set.Ici 0) := by
  intro x hx y _ hle
  have hpos : 0 ≤ x := hx
  dsimp only
  gcongr

/-- Three latencies, with the logarithm and the first terms of the exponential:
the second is the median, and the third the rest. -/
theorem percentiles_of_three :
    let log1p : ℚ → ℝ := fun us => Real.log (1 + us)
    let expm1 : ℚ → ℚ := fun x => x + x ^ 2 / 2 + x ^ 3 / 6 + x ^ 4 / 24 + x ^ 5 / 120 + x ^ 6 / 720
    percentiles (bucketUs expm1) (latencyHist (scaledBy log1p) [3, 1, 2])
      = (bucketUs expm1 (bucketOf (scaledBy log1p) 2), bucketUs expm1 (bucketOf (scaledBy log1p) 3),
        bucketUs expm1 (bucketOf (scaledBy log1p) 3)) := by
  intro log1p expm1
  obtain ⟨x₅₀, x₉₀, x₉₉, h₅₀, h₉₀, h₉₉, heq, -⟩ :=
    percentiles_eq_kthSmallest monotoneOn_log monotoneOn_taylor (List.cons_ne_nil 3 [1, 2])
  have hmedian : kthSmallest ([3, 1, 2] : List ℚ) (rank 50 3) = some 2 := by decide +kernel
  have hthird : kthSmallest ([3, 1, 2] : List ℚ) (rank 90 3) = some 3 := by decide +kernel
  have hthird' : kthSmallest ([3, 1, 2] : List ℚ) (rank 99 3) = some 3 := by decide +kernel
  cases hmedian.symm.trans h₅₀
  cases hthird.symm.trans h₉₀
  cases hthird'.symm.trans h₉₉
  exact heq

end Telemetry
