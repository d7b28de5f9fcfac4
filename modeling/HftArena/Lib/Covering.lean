import Mathlib.Algebra.BigOperators.Group.List.Basic
import Mathlib.Algebra.Order.BigOperators.Group.Finset
import Mathlib.Algebra.Ring.Nat
import Mathlib.Data.Fintype.BigOperators
import Mathlib.Order.Interval.Finset.Nat
import Mathlib.Order.Interval.Set.Basic
import Mathlib.Order.Lattice.Nat

/-!
# What counters count in covered intervals

A counter is a monotone function of time, and what it counts in an interval
`(a, b]` is the difference of its values. Here are several counters, and for
each some intervals of its own that do not overlap.

What they count there together is no more than what all of them count in
intervals that cover these (`sum_counted_le`): each step of a counter falls
into one of its intervals, hence into one of the others. The covering intervals
may overlap, reach further and be cut in other places.

If there is a bound on what all count together in each interval of a set, the
least of the bounds' sums over a covering is therefore a bound on the count,
and it is the best there is (`exists_counters`): steps that are put where the
least covering up to a time becomes dearer keep every bound and use the least
covering up.
-/

open Finset

variable {ι τ : Type}

/-- What a counter counts in an interval. -/
def countedIn (f : τ → ℕ) (i : τ × τ) : ℕ := f i.2 - f i.1

variable [LinearOrder τ]

/-- **Intervals that cover some times**, each without its beginning and with
its end. -/
def Covers (js : Finset (τ × τ)) (S : Set τ) : Prop :=
  ∀ x ∈ S, ∃ j ∈ js, x ∈ Set.Ioc j.1 j.2

/-- The times that some intervals hold. -/
def spanned (is : List (ι × (τ × τ))) : Set τ :=
  {x | ∃ i ∈ is, x ∈ Set.Ioc i.2.1 i.2.2}

/-- Fewer times are covered by the same intervals. -/
theorem Covers.mono {js : Finset (τ × τ)} {S S' : Set τ} (h : Covers js S') (hS : S ⊆ S') :
    Covers js S :=
  fun x hx => h x (hS hx)

/-! ## A covering bounds the count

What is counted in some intervals is a number of steps, and a step is one step
however many of the covering intervals it falls into. -/

section bound

variable [DecidableEq ι] {f : ι → τ → ℕ} {is : List (ι × (τ × τ))} {js : Finset (τ × τ)}

/-- The steps of the counters that fall into intervals of theirs. -/
def stepsIn (f : ι → τ → ℕ) : List (ι × (τ × τ)) → Finset (ι × ℕ)
  | [] => ∅
  | i :: is => {i.1} ×ˢ Ico (f i.1 i.2.1) (f i.1 i.2.2) ∪ stepsIn f is

omit [LinearOrder τ] in
/-- A step is among them if it falls into one of the intervals of its own
counter. -/
theorem mem_stepsIn {s : ι × ℕ} :
    s ∈ stepsIn f is ↔ ∃ i ∈ is, s.1 = i.1 ∧ s.2 ∈ Ico (f i.1 i.2.1) (f i.1 i.2.2) := by
  induction is with
  | nil => exact iff_of_false (notMem_empty s) (fun ⟨i, hi, _⟩ => by cases hi)
  | cons i is ih =>
    rw [stepsIn, mem_union, ih, mem_product, mem_singleton, List.exists_mem_cons_iff]

/-- There are as many as is counted, where the intervals of a counter do not
overlap. -/
theorem card_stepsIn (hf : ∀ k, Monotone (f k))
    (his : is.Pairwise (fun i j => i.1 = j.1 → i.2.2 ≤ j.2.1 ∨ j.2.2 ≤ i.2.1)) :
    #(stepsIn f is) = (is.map (fun i => countedIn (f i.1) i.2)).sum := by
  induction is with
  | nil => rfl
  | cons i is ih =>
    obtain ⟨hi, his⟩ := List.pairwise_cons.mp his
    have hdisjoint : Disjoint ({i.1} ×ˢ Ico (f i.1 i.2.1) (f i.1 i.2.2)) (stepsIn f is) := by
      refine disjoint_left.mpr (fun s hs hs' => ?_)
      obtain ⟨hk, hs⟩ := mem_product.mp hs
      obtain ⟨j, hj, hk', hs'⟩ := mem_stepsIn.mp hs'
      have hij : i.1 = j.1 := (mem_singleton.mp hk).symm.trans hk'
      rw [mem_Ico] at hs hs'
      rw [← hij] at hs'
      rcases hi j hj hij with hle | hle
      · exact absurd (hs.2.trans_le ((hf _ hle).trans hs'.1)) (lt_irrefl _)
      · exact absurd (hs'.2.trans_le ((hf _ hle).trans hs.1)) (lt_irrefl _)
    rw [stepsIn, card_union_of_disjoint hdisjoint, ih his, card_product, card_singleton, one_mul,
      Nat.card_Ico, List.map_cons, List.sum_cons]
    rfl

/-- **A step that falls into covered intervals falls into one that covers
them.** -/
theorem Covers.exists_step {g : τ → ℕ} (hg : Monotone g) {a b : τ} (h : Covers js (Set.Ioc a b))
    {n : ℕ} (hn : n ∈ Ico (g a) (g b)) : ∃ j ∈ js, n ∈ Ico (g j.1) (g j.2) := by
  obtain ⟨hle, hlt⟩ := mem_Ico.mp hn
  -- the step is taken by `y`, the first of all beginnings and ends by which it is
  let after := (insert b (js.image Prod.fst)).filter (fun x => n < g x)
  have hend : b ∈ after := mem_filter.mpr ⟨mem_insert_self _ _, hlt⟩
  have hy := mem_filter.mp (after.min'_mem ⟨b, hend⟩)
  obtain ⟨j, hj, hjy, hyj⟩ := h (after.min' ⟨b, hend⟩)
    ⟨hg.reflect_lt (hle.trans_lt hy.2), after.min'_le b hend⟩
  refine ⟨j, hj, mem_Ico.mpr ⟨not_lt.mp (fun hlt' => ?_), hy.2.trans_le (hg hyj)⟩⟩
  have hj' : j.1 ∈ after :=
    mem_filter.mpr ⟨mem_insert_of_mem (mem_image_of_mem _ hj), hlt'⟩
  exact absurd (after.min'_le j.1 hj') (not_le.mpr hjy)

/-- **In intervals of their own that do not overlap the counters count no more
than all of them count in intervals that cover these.** -/
theorem sum_counted_le [Fintype ι] (hf : ∀ k, Monotone (f k))
    (his : is.Pairwise (fun i j => i.1 = j.1 → i.2.2 ≤ j.2.1 ∨ j.2.2 ≤ i.2.1))
    (h : Covers js (spanned is)) :
    (is.map (fun i => countedIn (f i.1) i.2)).sum ≤ ∑ j ∈ js, ∑ k, countedIn (f k) j := by
  have hsub : stepsIn f is
      ⊆ js.biUnion (fun j => univ.biUnion (fun k => {k} ×ˢ Ico (f k j.1) (f k j.2))) := by
    intro s hs
    obtain ⟨i, hi, hk, hn⟩ := mem_stepsIn.mp hs
    obtain ⟨j, hj, hn'⟩ := (h.mono (fun x hx => ⟨i, hi, hx⟩)).exists_step (hf i.1) hn
    refine mem_biUnion.mpr ⟨j, hj, mem_biUnion.mpr ⟨i.1, mem_univ _, ?_⟩⟩
    exact mem_product.mpr ⟨mem_singleton.mpr hk, hn'⟩
  calc (is.map (fun i => countedIn (f i.1) i.2)).sum = #(stepsIn f is) := (card_stepsIn hf his).symm
    _ ≤ _ := card_le_card hsub
    _ ≤ ∑ j ∈ js, #(univ.biUnion (fun k => {k} ×ˢ Ico (f k j.1) (f k j.2))) := card_biUnion_le
    _ ≤ ∑ j ∈ js, ∑ k, countedIn (f k) j := by
      refine sum_le_sum (fun j _ => card_biUnion_le.trans (sum_le_sum (fun k _ => ?_)))
      rw [card_product, card_singleton, one_mul, Nat.card_Ico]
      exact le_rfl

end bound

/-! ## The least covering is reached

The least weight of a covering of what lies before a time ascends with the
time. At each integer below the whole there is a first time at which it is
exceeded, and there a counter takes a step. -/

section reach

variable (w : τ × τ → ℕ) (A : Finset (τ × τ)) {S S' : Set τ} {n : ℕ}

/-- **The least weight of a covering** by intervals of a set. -/
noncomputable def coverCost (S : Set τ) : ℕ :=
  sInf {n | ∃ js ⊆ A, Covers js S ∧ ∑ j ∈ js, w j = n}

variable {w A}

/-- No covering weighs less than the least. -/
theorem coverCost_le {js : Finset (τ × τ)} (hjs : js ⊆ A) (h : Covers js S) :
    coverCost w A S ≤ ∑ j ∈ js, w j :=
  Nat.sInf_le ⟨js, hjs, h, rfl⟩

/-- The least weight is that of some covering, if there is any covering at
all. -/
theorem exists_coverCost (w : τ × τ → ℕ) (h : Covers A S) :
    ∃ js ⊆ A, Covers js S ∧ ∑ j ∈ js, w j = coverCost w A S :=
  Nat.sInf_mem (s := {n | ∃ js ⊆ A, Covers js S ∧ ∑ j ∈ js, w j = n})
    ⟨_, A, Subset.refl A, h, rfl⟩

/-- Nothing has to be covered, and it costs nothing. -/
theorem coverCost_empty : coverCost w A ∅ = 0 :=
  Nat.le_zero.mp (coverCost_le (empty_subset A) (fun _ hx => hx.elim))

/-- Fewer times cost no more to cover. -/
theorem coverCost_mono (h : Covers A S') (hS : S ⊆ S') : coverCost w A S ≤ coverCost w A S' := by
  obtain ⟨js, hjs, hcovers, hsum⟩ := exists_coverCost w h
  exact hsum ▸ coverCost_le hjs (hcovers.mono hS)

/-- **An interval more** covers the times up to its end. -/
theorem coverCost_extend {a : τ × τ} (ha : a ∈ A) (h : Covers A S) :
    coverCost w A (S ∩ Set.Iic a.2) ≤ coverCost w A (S ∩ Set.Iic a.1) + w a := by
  obtain ⟨js, hjs, hcovers, hsum⟩ :=
    exists_coverCost w (h.mono (S := S ∩ Set.Iic a.1) Set.inter_subset_left)
  refine (coverCost_le (insert_subset ha hjs) (fun x hx => ?_)).trans ?_
  · by_cases hxa : x ≤ a.1
    · obtain ⟨j, hj, hxj⟩ := hcovers x ⟨hx.1, hxa⟩
      exact ⟨j, mem_insert_of_mem hj, hxj⟩
    · exact ⟨a, mem_insert_self a js, not_le.mp hxa, hx.2⟩
  · by_cases hmem : a ∈ js
    · rw [insert_eq_of_mem hmem, hsum]
      exact Nat.le_add_right _ _
    · rw [sum_insert hmem, hsum, add_comm]

/-- What a covering costs grows at the times that are to be covered: at each
cost below the whole there is a first time up to which it does not suffice. -/
theorem exists_first {T : Finset τ} (hT : Covers A T) (hn : n < coverCost w A T) :
    ∃ p ∈ T, ∀ x, n < coverCost w A (↑T ∩ Set.Iic x) ↔ p ≤ x := by
  -- up to the last time the whole is to be covered
  have hne : (T.filter (fun p => n < coverCost w A (↑T ∩ Set.Iic p))).Nonempty := by
    rcases T.eq_empty_or_nonempty with rfl | hne
    · rw [coe_empty, coverCost_empty] at hn
      exact absurd hn (Nat.not_lt_zero n)
    · refine ⟨T.max' hne, mem_filter.mpr ⟨T.max'_mem hne, ?_⟩⟩
      rwa [Set.inter_eq_left.mpr (fun x hx => T.le_max' x hx)]
  obtain ⟨hp, hcost⟩ := mem_filter.mp (min'_mem _ hne)
  refine ⟨_, hp, fun x => ⟨fun hx => ?_, fun hx => hcost.trans_le (coverCost_mono
    (hT.mono Set.inter_subset_left) (Set.inter_subset_inter_right _ (Set.Iic_subset_Iic.mpr hx)))⟩⟩
  -- the cost up to `x` is that up to the last time to be covered before it
  rcases (T.filter (· ≤ x)).eq_empty_or_nonempty with hnone | hsome
  · have hempty : (↑T ∩ Set.Iic x : Set τ) = ∅ :=
      Set.eq_empty_of_forall_notMem (fun y hy => notMem_empty y
        (hnone ▸ mem_filter.mpr ⟨hy.1, hy.2⟩))
    rw [hempty, coverCost_empty] at hx
    exact absurd hx (Nat.not_lt_zero n)
  · obtain ⟨hq, hqx⟩ := mem_filter.mp (max'_mem _ hsome)
    have hsame : (↑T ∩ Set.Iic x : Set τ) = ↑T ∩ Set.Iic ((T.filter (· ≤ x)).max' hsome) := by
      refine Set.Subset.antisymm (fun y hy => ⟨hy.1, le_max' _ _ (mem_filter.mpr hy)⟩)
        (Set.inter_subset_inter_right _ (Set.Iic_subset_Iic.mpr hqx))
    rw [hsame] at hx
    exact (min'_le _ _ (mem_filter.mpr ⟨hq, hx⟩)).trans hqx

/-- **Intervals that cover the ends cover everything**: between two
neighbouring beginnings or ends nothing changes. -/
theorem Covers.of_ends {is : List (ι × (τ × τ))} {js : Finset (τ × τ)} {P : Finset τ}
    (hjs : ∀ j ∈ js, j.1 ∈ P) (his : ∀ i ∈ is, i.2.2 ∈ P) (h : Covers js (spanned is ∩ ↑P)) :
    Covers js (spanned is) := by
  rintro x ⟨i, hi, hx⟩
  have hend : i.2.2 ∈ P.filter (fun p => x ≤ p) := mem_filter.mpr ⟨his i hi, hx.2⟩
  obtain ⟨hP, hxp⟩ := mem_filter.mp (min'_mem _ ⟨_, hend⟩)
  obtain ⟨j, hj, hjp, hpj⟩ := h _ ⟨⟨i, hi, hx.1.trans_le hxp, min'_le _ _ hend⟩, hP⟩
  refine ⟨j, hj, not_le.mp (fun hle => ?_), hxp.trans hpj⟩
  exact absurd (min'_le _ _ (mem_filter.mpr ⟨hjs j hj, hle⟩)) (not_le.mpr hjp)

/-- What a counter counts in an interval, if it counts the steps of its own. -/
theorem countedIn_card_filter {σ : Type} [Fintype σ] [DecidableEq ι] (time : σ → τ) (owner : σ → ι)
    (k : ι) (a : τ × τ) :
    countedIn (fun x => #{n | time n ≤ x ∧ owner n = k}) a
      = #{n | time n ∈ Set.Ioc a.1 a.2 ∧ owner n = k} := by
  classical
  unfold countedIn
  rcases le_total a.1 a.2 with hle | hle
  · have hsub : univ.filter (fun n => time n ≤ a.1 ∧ owner n = k)
        ⊆ univ.filter (fun n => time n ≤ a.2 ∧ owner n = k) := fun n hn =>
      mem_filter.mpr ⟨mem_univ n, (mem_filter.mp hn).2.1.trans hle, (mem_filter.mp hn).2.2⟩
    rw [← card_sdiff_of_subset hsub]
    congr 1
    ext n
    simp only [mem_sdiff, mem_filter, mem_univ, true_and, Set.mem_Ioc, not_and]
    exact ⟨fun h => ⟨⟨not_le.mp (fun hn => h.2 hn h.1.2), h.1.1⟩, h.1.2⟩,
      fun h => ⟨⟨h.1.2, h.2⟩, fun hn => absurd hn (not_le.mpr h.1.1)⟩⟩
  · have hsub : univ.filter (fun n => time n ≤ a.2 ∧ owner n = k)
        ⊆ univ.filter (fun n => time n ≤ a.1 ∧ owner n = k) := fun n hn =>
      mem_filter.mpr ⟨mem_univ n, (mem_filter.mp hn).2.1.trans hle, (mem_filter.mp hn).2.2⟩
    rw [Nat.sub_eq_zero_of_le (card_le_card hsub), eq_comm, card_eq_zero, filter_eq_empty_iff]
    exact fun n _ hn => absurd (hn.1.1.trans_le (hn.1.2.trans hle)) (lt_irrefl _)

/-- What is summed over a list is at least what is summed over its members. -/
theorem sum_toFinset_le_sum_map {α : Type} [DecidableEq α] (g : α → ℕ) (l : List α) :
    ∑ a ∈ l.toFinset, g a ≤ (l.map g).sum := by
  induction l with
  | nil => exact le_rfl
  | cons a l ih =>
    rw [List.toFinset_cons, List.map_cons, List.sum_cons]
    by_cases ha : a ∈ l.toFinset
    · rw [insert_eq_of_mem ha]
      exact ih.trans (Nat.le_add_left _ _)
    · rw [sum_insert ha]
      exact Nat.add_le_add_left ih _

/-- **There are counters that keep the bounds and count as much as the least
covering costs**, in intervals each of which is among those with a bound. -/
theorem exists_counters [Fintype ι] [DecidableEq ι] (w : τ × τ → ℕ) {A : Finset (τ × τ)}
    {is : List (ι × (τ × τ))} (his : ∀ i ∈ is, i.2 ∈ A) {least : ℕ}
    (hleast : ∀ js ⊆ A, Covers js (spanned is) → least < ∑ j ∈ js, w j) :
    ∃ f : ι → τ → ℕ, (∀ k, Monotone (f k)) ∧ (∀ a ∈ A, ∑ k, countedIn (f k) a ≤ w a)
      ∧ least < (is.map (fun i => countedIn (f i.1) i.2)).sum := by
  classical
  -- the times to be covered, of those at which anything begins or ends
  let P : Finset τ := A.image Prod.fst ∪ A.image Prod.snd
  let T : Finset τ := P.filter (fun x => x ∈ spanned is)
  have hT : (T : Set τ) = spanned is ∩ ↑P := by
    ext x
    rw [mem_coe, mem_filter]
    exact and_comm
  have hA : Covers A (spanned is) := fun x ⟨i, hi, hx⟩ => ⟨i.2, his i hi, hx⟩
  have hAT : Covers A T := hA.mono (hT ▸ Set.inter_subset_left)
  have hcost : least < coverCost w A T := by
    obtain ⟨js, hjs, hcovers, hsum⟩ := exists_coverCost w hAT
    rw [← hsum]
    refine hleast js hjs (Covers.of_ends (P := P) (fun j hj => ?_) (fun i hi => ?_) (hT ▸ hcovers))
    · exact mem_union_left _ (mem_image_of_mem _ (hjs hj))
    · exact mem_union_right _ (mem_image_of_mem _ (his i hi))
  -- the `n`-th step is taken at the first time up to which `n` does not suffice, by a counter
  -- that has it in an interval of its own
  have hstep : ∀ n : Fin (coverCost w A T), ∃ (p : τ) (k : ι),
      (∀ x, n < coverCost w A (↑T ∩ Set.Iic x) ↔ p ≤ x)
        ∧ ∃ i ∈ is, i.1 = k ∧ p ∈ Set.Ioc i.2.1 i.2.2 := by
    intro n
    obtain ⟨p, hp, hfirst⟩ := exists_first hAT n.isLt
    obtain ⟨i, hi, hpi⟩ := (mem_filter.mp hp).2
    exact ⟨p, i.1, hfirst, i, hi, rfl, hpi⟩
  choose time owner hfirst hlands using hstep
  let f : ι → τ → ℕ := fun k x => #{n | time n ≤ x ∧ owner n = k}
  have hcount : ∀ k a, countedIn (f k) a = #{n | time n ∈ Set.Ioc a.1 a.2 ∧ owner n = k} :=
    fun k a => countedIn_card_filter time owner k a
  refine ⟨f, fun k x y hxy => card_le_card (fun n hn => ?_), fun a ha => ?_, hcost.trans_le ?_⟩
  · obtain ⟨-, hx, hk⟩ := mem_filter.mp hn
    exact mem_filter.mpr ⟨mem_univ n, hx.trans hxy, hk⟩
  · -- the steps in an interval are those between the costs up to its beginning and its end
    have hsteps :
        ({n | time n ∈ Set.Ioc a.1 a.2} : Finset (Fin (coverCost w A T))).map Fin.valEmbedding
        ⊆ Ico (coverCost w A (↑T ∩ Set.Iic a.1)) (coverCost w A (↑T ∩ Set.Iic a.2)) := by
      intro m hm
      obtain ⟨n, hn, rfl⟩ := mem_map.mp hm
      obtain ⟨-, hn⟩ := mem_filter.mp hn
      refine mem_Ico.mpr ⟨not_lt.mp (fun hlt => ?_), (hfirst n a.2).mpr hn.2⟩
      exact absurd ((hfirst n a.1).mp hlt) (not_le.mpr hn.1)
    calc ∑ k, countedIn (f k) a
        = ∑ k, #{n | time n ∈ Set.Ioc a.1 a.2 ∧ owner n = k} := sum_congr rfl (fun k _ => hcount k a)
      _ = #{n | time n ∈ Set.Ioc a.1 a.2} := by
        rw [card_eq_sum_card_fiberwise (f := owner) (t := univ) (fun n _ => mem_univ _)]
        simp only [filter_filter]
      _ ≤ #(Ico (coverCost w A (↑T ∩ Set.Iic a.1)) (coverCost w A (↑T ∩ Set.Iic a.2))) := by
        rw [← card_map Fin.valEmbedding]
        exact card_le_card hsteps
      _ ≤ w a := by
        rw [Nat.card_Ico]
        exact Nat.sub_le_iff_le_add'.mpr (coverCost_extend ha hAT)
  · -- every step is in an interval of its counter
    have hall : (univ : Finset (Fin (coverCost w A T)))
        ⊆ is.toFinset.biUnion (fun i => {n | time n ∈ Set.Ioc i.2.1 i.2.2 ∧ owner n = i.1}) := by
      intro n _
      obtain ⟨i, hi, hk, hp⟩ := hlands n
      exact mem_biUnion.mpr ⟨i, List.mem_toFinset.mpr hi, mem_filter.mpr ⟨mem_univ n, hp, hk.symm⟩⟩
    calc coverCost w A T = #(univ : Finset (Fin (coverCost w A T))) := (Finset.card_fin _).symm
      _ ≤ _ := card_le_card hall
      _ ≤ ∑ i ∈ is.toFinset, #{n | time n ∈ Set.Ioc i.2.1 i.2.2 ∧ owner n = i.1} := card_biUnion_le
      _ = ∑ i ∈ is.toFinset, countedIn (f i.1) i.2 := sum_congr rfl (fun i _ => (hcount _ _).symm)
      _ ≤ (is.map (fun i => countedIn (f i.1) i.2)).sum :=
        sum_toFinset_le_sum_map _ _

end reach
