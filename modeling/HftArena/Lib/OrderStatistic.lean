import Mathlib.Algebra.BigOperators.Group.List.Basic
import Mathlib.Algebra.Order.Ring.Nat
import Mathlib.Data.List.Sort

/-!
# Order statistics and counts

The `k`-th smallest element of a list is found by counting: whatever holds of
the smaller of two elements where it holds of the larger holds of the `k`-th
smallest exactly if it holds of at least `k` elements (`le_countP_iff`). So the
cell of the `k`-th smallest, where cells ascend with the elements, can be read
off how many elements each cell has; cells that are laid side by side have what
each of them has (`sum_countP_cell`). And where elements become smaller, none
of their order statistics becomes larger (`kthSmallest_le_of_forall₂`).
-/

variable {α β : Type}

/-- In a list where what holds later holds earlier, it holds of as many as
there are. -/
theorem lt_countP_iff {P : α → Bool} {l : List α}
    (h : l.Pairwise (fun a b => P b = true → P a = true)) {i : ℕ} {a : α} (ha : l[i]? = some a) :
    i < l.countP P ↔ P a = true := by
  induction l generalizing i with
  | nil => cases ha
  | cons b l ih =>
    obtain ⟨hb, hl⟩ := List.pairwise_cons.mp h
    by_cases hP : P b = true
    · rw [List.countP_cons_of_pos hP]
      cases i with
      | zero =>
        cases ha
        exact ⟨fun _ => hP, fun _ => Nat.succ_pos _⟩
      | succ i => exact Nat.succ_lt_succ_iff.trans (ih hl ha)
    · -- it does not hold of the first, so it holds of none
      have hnone : l.countP P = 0 := List.countP_eq_zero.mpr (fun c hc hPc => hP (hb c hc hPc))
      rw [List.countP_cons_of_neg hP, hnone]
      refine ⟨fun hi => absurd hi (Nat.not_lt_zero i), fun hPa => ?_⟩
      rcases List.mem_cons.mp (List.mem_of_getElem? ha) with rfl | hmem
      · exact absurd hPa hP
      · exact absurd (hb a hmem hPa) hP

/-- **The `k`-th smallest element**, counted from one: the element at that
place when the list is sorted, if the list is as long. -/
def kthSmallest [LinearOrder α] (l : List α) (k : ℕ) : Option α :=
  (l.insertionSort (· ≤ ·))[k - 1]?

section

variable [LinearOrder α] {l : List α} {k : ℕ} {x : α}

/-- There is one for each rank of the list. -/
theorem exists_kthSmallest (hk : 0 < k) (hkl : k ≤ l.length) : ∃ x, kthSmallest l k = some x := by
  have hlt : k - 1 < (l.insertionSort (· ≤ ·)).length := by
    rw [List.length_insertionSort]
    omega
  exact ⟨_, List.getElem?_eq_getElem hlt⟩

/-- It is an element of the list. -/
theorem mem_of_kthSmallest (h : kthSmallest l k = some x) : x ∈ l :=
  (List.perm_insertionSort _ l).mem_iff.mp (List.mem_of_getElem? h)

/-- **It is found by counting**: what holds of the smaller of two elements
where it holds of the larger holds of the `k`-th smallest if and only if it
holds of at least `k` elements. No element needs to be named, and none needs to
be sorted. -/
theorem le_countP_iff {P : α → Bool} (hP : ∀ a b, a ≤ b → P b = true → P a = true) (hk : 0 < k)
    (h : kthSmallest l k = some x) : k ≤ l.countP P ↔ P x = true := by
  have hsorted : (l.insertionSort (· ≤ ·)).Pairwise (fun a b => P b = true → P a = true) :=
    (List.pairwise_insertionSort (· ≤ ·) l).imp (fun hab => hP _ _ hab)
  rw [← lt_countP_iff hsorted h, (List.perm_insertionSort _ l).countP_eq]
  omega

/-- The larger the rank, the larger the element. -/
theorem kthSmallest_le {k' : ℕ} {x' : α} (hkk' : k ≤ k') (h : kthSmallest l k = some x)
    (h' : kthSmallest l k' = some x') : x ≤ x' := by
  obtain ⟨hi, rfl⟩ := List.getElem?_eq_some_iff.mp h
  obtain ⟨hi', rfl⟩ := List.getElem?_eq_some_iff.mp h'
  rcases (Nat.sub_le_sub_right hkk' 1).lt_or_eq with hlt | heq
  · exact List.pairwise_iff_getElem.mp (List.pairwise_insertionSort (· ≤ ·) l) _ _ hi hi' hlt
  · simp only [heq, le_refl]

/-- What holds of all below it holds of no fewer where elements become
smaller. -/
theorem countP_le_of_forall₂ {P : α → Bool} (hP : ∀ a b, a ≤ b → P b = true → P a = true)
    {l' : List α} (h : List.Forall₂ (· ≤ ·) l' l) : l.countP P ≤ l'.countP P := by
  induction h with
  | nil => exact le_rfl
  | @cons a b l' l hab _ ih =>
    rw [List.countP_cons, List.countP_cons]
    refine Nat.add_le_add ih ?_
    by_cases hb : P b = true
    · rw [if_pos hb, if_pos (hP a b hab hb)]
    · rw [if_neg hb]
      exact Nat.zero_le _

/-- **The `k`-th smallest element becomes no larger** where elements become
smaller. -/
theorem kthSmallest_le_of_forall₂ {l' : List α} {x' : α} (h : List.Forall₂ (· ≤ ·) l' l)
    (hk : 0 < k) (hx : kthSmallest l k = some x) (hx' : kthSmallest l' k = some x') : x' ≤ x := by
  have hP : ∀ a b, a ≤ b → decide (b ≤ x) = true → decide (a ≤ x) = true := fun a b hab hb =>
    decide_eq_true (hab.trans (of_decide_eq_true hb))
  have hcount := (le_countP_iff hP hk hx).mpr (decide_eq_true le_rfl)
  exact of_decide_eq_true ((le_countP_iff hP hk hx').mp (hcount.trans (countP_le_of_forall₂ hP h)))

end

/-- One of several different cells is that of an element, or none is. -/
theorem sum_ite_cell [DecidableEq β] (c : β) {cells : List β} (h : cells.Nodup) :
    (cells.map (fun b => if c = b then 1 else 0)).sum = if c ∈ cells then 1 else 0 := by
  induction cells with
  | nil => rfl
  | cons b cells ih =>
    obtain ⟨hb, hcells⟩ := List.nodup_cons.mp h
    rw [List.map_cons, List.sum_cons, ih hcells]
    by_cases hc : c = b
    · subst hc
      simp [hb]
    · simp [hc]

/-- **What cells have together** that are all different: the elements whose
cell is one of them. -/
theorem sum_countP_cell [DecidableEq β] (cell : α → β) (l : List α) {cells : List β}
    (h : cells.Nodup) : (cells.map (fun b => l.countP (fun x => cell x = b))).sum
      = l.countP (fun x => cell x ∈ cells) := by
  induction l with
  | nil => simp
  | cons x l ih =>
    simp only [List.countP_cons, decide_eq_true_eq, List.sum_map_add, ih, sum_ite_cell _ h]
