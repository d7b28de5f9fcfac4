import Mathlib.Algebra.BigOperators.Ring.Finset
import Mathlib.Algebra.BigOperators.Ring.List
import Mathlib.Algebra.Order.BigOperators.Group.Finset
import Mathlib.Algebra.Order.BigOperators.Group.List
import Mathlib.Data.Finset.Max
import Mathlib.Data.Int.ConditionallyCompleteOrder
import Mathlib.Data.Rat.Cast.Order
import Mathlib.Tactic.Linarith

/-!
# Quantiles of a histogram

A histogram gives a weight to each of finitely many cells in a linear order.
Its quantile for a share `q` is the first cell up to which there is that share
of all the weight. If no weight is negative, a quantile is below a cell if and
only if the share is reached there (`IsQuantile.le_iff`), and so the quantiles
of one histogram are in the order of their shares.

That of a sum of histograms is between those of its parts
(`IsQuantile.exists_part_le`, `IsQuantile.exists_part_ge`): if every part with
any weight had its quantile above a cell, the share would not be reached at
that cell in any part, hence not in the sum; and if every part had it below,
the share would be reached already before. A quantile of merged measurements is
therefore never outside what the measurements say one by one, although it is no
average of them.
-/

variable {β : Type} [Fintype β] [LinearOrder β]

/-- The weight of the cells up to one, that cell included. -/
def weightUpTo (w : β → ℤ) (b : β) : ℤ := ∑ c with c ≤ b, w c

/-- **The quantile for a share**: the first cell up to which there is that
much. -/
structure IsQuantile (q : ℚ) (w : β → ℤ) (b : β) : Prop where
  /-- The share is reached at the cell. -/
  reached : q * (∑ c, w c : ℤ) ≤ weightUpTo w b
  /-- It is not reached before. -/
  first : ∀ c < b, (weightUpTo w c : ℚ) < q * (∑ c, w c : ℤ)

section

variable {w : β → ℤ} {q q' : ℚ} {b b' : β}

theorem weightUpTo_mono (hw : 0 ≤ w) : Monotone (weightUpTo w) := fun _ _ h =>
  Finset.sum_le_sum_of_subset_of_nonneg
    (Finset.monotone_filter_right _ (fun _ _ hc => hc.trans h)) (fun c _ _ => hw c)

/-- **What a quantile is below**: exactly the cells at which the share is
reached. Everything else about quantiles is read off this equivalence. -/
theorem IsQuantile.le_iff (h : IsQuantile q w b) (hw : 0 ≤ w) (c : β) :
    b ≤ c ↔ q * (∑ c, w c : ℤ) ≤ weightUpTo w c := by
  constructor
  · intro hle
    exact h.reached.trans (Int.cast_le.mpr (weightUpTo_mono hw hle))
  · intro hreached
    by_contra hlt
    exact absurd hreached (not_le.mpr (h.first c (not_le.mp hlt)))

/-- A greater share is reached later. -/
theorem IsQuantile.le_of_le (h : IsQuantile q w b) (h' : IsQuantile q' w b') (hw : 0 ≤ w)
    (hq : q ≤ q') : b ≤ b' := by
  have htotal : (0 : ℚ) ≤ (∑ c, w c : ℤ) := Int.cast_nonneg (Finset.sum_nonneg (fun c _ => hw c))
  exact (h.le_iff hw b').mpr ((mul_le_mul_of_nonneg_right hq htotal).trans h'.reached)

/-- There is only one quantile for a share. -/
theorem IsQuantile.eq (h : IsQuantile q w b) (h' : IsQuantile q w b') (hw : 0 ≤ w) : b = b' :=
  le_antisymm (h.le_of_le h' hw le_rfl) (h'.le_of_le h hw le_rfl)

/-- There is one for every share that is not more than all. -/
theorem exists_isQuantile [Nonempty β] (hw : 0 ≤ w) (hq : q ≤ 1) : ∃ b, IsQuantile q w b := by
  have htotal : (0 : ℚ) ≤ (∑ c, w c : ℤ) := Int.cast_nonneg (Finset.sum_nonneg (fun c _ => hw c))
  obtain ⟨top, -, htop⟩ := Finset.exists_max_image Finset.univ (id : β → β) Finset.univ_nonempty
  have hall : weightUpTo w top = ∑ c, w c :=
    Finset.sum_congr (Finset.filter_true_of_mem htop) (fun _ _ => rfl)
  have hlast : top ∈ Finset.univ.filter
      (fun c => q * (∑ c, w c : ℤ) ≤ ((weightUpTo w c : ℤ) : ℚ)) := by
    rw [Finset.mem_filter, hall]
    exact ⟨Finset.mem_univ _, mul_le_of_le_one_left htotal hq⟩
  obtain ⟨b, hb, hmin⟩ := Finset.exists_min_image _ (id : β → β) ⟨top, hlast⟩
  refine ⟨b, (Finset.mem_filter.mp hb).2, fun c hc => not_le.mp (fun hreached => ?_)⟩
  exact absurd hc (not_lt.mpr (hmin c (Finset.mem_filter.mpr ⟨Finset.mem_univ c, hreached⟩)))

end

/-! ## Sums of histograms

If at some cell no part had reached its share, the sum would not have, and if
all had before it, the sum would have as well. -/

section

variable {parts : List (β → ℤ)} {w : β → ℤ} {q : ℚ} {b : β}

omit [Fintype β] [LinearOrder β] in
/-- What a sum of histograms has in some cells is the sum of what its parts
have there. -/
theorem sum_parts (hparts : ∀ c, w c = (parts.map (fun v => v c)).sum) (s : Finset β) :
    ∑ c ∈ s, w c = (parts.map (fun v => ∑ c ∈ s, v c)).sum := by
  induction parts generalizing w with
  | nil => exact Finset.sum_eq_zero (fun c _ => hparts c)
  | cons v parts ih =>
    have hrest := ih (w := fun c => (parts.map (fun v => v c)).sum) (fun _ => rfl)
    simp only [hparts, List.map_cons, List.sum_cons, Finset.sum_add_distrib, hrest]

omit [Fintype β] [LinearOrder β] in
theorem cast_sum_parts (hparts : ∀ c, w c = (parts.map (fun v => v c)).sum) (s : Finset β) :
    ((∑ c ∈ s, w c : ℤ) : ℚ) = (parts.map (fun v => ((∑ c ∈ s, v c : ℤ) : ℚ))).sum := by
  rw [sum_parts hparts, Int.cast_list_sum, List.map_map]
  rfl

omit [LinearOrder β] in
theorem mul_sum_parts (hparts : ∀ c, w c = (parts.map (fun v => v c)).sum) :
    q * (∑ c, w c : ℤ) = (parts.map (fun v => q * ((∑ c, v c : ℤ) : ℚ))).sum := by
  rw [cast_sum_parts hparts, List.sum_map_mul_left]

/-- The weight up to a cell is part of all of it. -/
theorem weightUpTo_le (hw : 0 ≤ w) (b : β) : weightUpTo w b ≤ ∑ c, w c :=
  Finset.sum_le_sum_of_subset_of_nonneg (Finset.filter_subset _ _) (fun c _ _ => hw c)

theorem weightUpTo_nonneg (hw : 0 ≤ w) (b : β) : 0 ≤ weightUpTo w b :=
  Finset.sum_nonneg (fun c _ => hw c)

/-- **A part has its quantile below** that of the sum, or at it. -/
theorem IsQuantile.exists_part_le (h : IsQuantile q w b) (hpos : ∀ v ∈ parts, 0 ≤ v)
    (hparts : ∀ c, w c = (parts.map (fun v => v c)).sum) (htotal : 0 < ∑ c, w c) (hq : q ≤ 1) :
    ∃ v ∈ parts, 0 < ∑ c, v c ∧ ∃ b', IsQuantile q v b' ∧ b' ≤ b := by
  have hne : Nonempty β := ⟨b⟩
  by_contra hnot
  -- where there is weight the share is reached after the cell
  have hlater : ∀ v ∈ parts, 0 < ∑ c, v c → (weightUpTo v b : ℚ) < q * (∑ c, v c : ℤ) := by
    intro v hv hweight
    obtain ⟨b', hb'⟩ := exists_isQuantile (hpos v hv) hq
    exact hb'.first b (not_le.mp (fun hle => hnot ⟨v, hv, hweight, b', hb', hle⟩))
  refine absurd h.reached (not_le.mpr ?_)
  rw [mul_sum_parts hparts, weightUpTo, cast_sum_parts hparts]
  refine List.sum_lt_sum _ _ (fun v hv => ?_) ?_
  · rcases (Finset.sum_nonneg (fun c _ => hpos v hv c) : 0 ≤ ∑ c, v c).eq_or_lt with hzero | hweight
    · have hnone := weightUpTo_le (hpos v hv) b
      rw [← hzero] at hnone ⊢
      rw [Int.cast_zero, mul_zero]
      exact_mod_cast hnone
    · exact (hlater v hv hweight).le
  · rw [sum_parts hparts] at htotal
    obtain ⟨v, hv, hweight⟩ : ∃ v ∈ parts, 0 < ∑ c, v c :=
      List.exists_lt_of_sum_lt (fun _ => 0) _ (by simpa using htotal)
    exact ⟨v, hv, hlater v hv hweight⟩

/-- **A part has its quantile above** that of the sum, or at it. -/
theorem IsQuantile.exists_part_ge (h : IsQuantile q w b) (hpos : ∀ v ∈ parts, 0 ≤ v)
    (hparts : ∀ c, w c = (parts.map (fun v => v c)).sum) (htotal : 0 < ∑ c, w c) (hq : q ≤ 1) :
    ∃ v ∈ parts, 0 < ∑ c, v c ∧ ∃ b', IsQuantile q v b' ∧ b ≤ b' := by
  have hne : Nonempty β := ⟨b⟩
  by_cases hlast : ∃ c, c < b
  · obtain ⟨c, hc, hmax⟩ := Finset.exists_max_image (Finset.univ.filter (· < b)) (id : β → β)
      (hlast.imp (fun c hc => Finset.mem_filter.mpr ⟨Finset.mem_univ c, hc⟩))
    have hbefore := h.first c (Finset.mem_filter.mp hc).2
    rw [mul_sum_parts hparts, weightUpTo, cast_sum_parts hparts] at hbefore
    obtain ⟨v, hv, hlt⟩ := List.exists_lt_of_sum_lt _ _ hbefore
    obtain ⟨b', hb'⟩ := exists_isQuantile (hpos v hv) hq
    have hafter : c < b' := by
      by_contra hle
      exact absurd hlt (not_lt.mpr ((hb'.le_iff (hpos v hv) c).mp (not_lt.mp hle)))
    refine ⟨v, hv, ?_, b', hb', not_lt.mp (fun hb => ?_)⟩
    · refine (Finset.sum_nonneg (fun c _ => hpos v hv c)).lt_of_ne (fun hzero => ?_)
      rw [← hzero, Int.cast_zero, mul_zero] at hlt
      exact absurd (weightUpTo_nonneg (hpos v hv) c) (not_le.mpr (by exact_mod_cast hlt))
    · exact absurd hafter (not_lt.mpr (hmax b' (Finset.mem_filter.mpr ⟨Finset.mem_univ b', hb⟩)))
  · obtain ⟨v, hv, hweight, b', hb', -⟩ := h.exists_part_le hpos hparts htotal hq
    exact ⟨v, hv, hweight, b', hb', not_lt.mp (fun hb => hlast ⟨b', hb⟩)⟩

end
