import Mathlib.Algebra.BigOperators.Group.List.Lemmas
import Mathlib.Algebra.BigOperators.Ring.List
import Mathlib.Algebra.Order.BigOperators.Group.List
import Mathlib.Data.List.Dedup
import Mathlib.Data.Rat.Cast.Order
import Mathlib.Tactic.Ring

/-!
# The groups of a table

What `GROUP BY` makes of a table: for each key that occurs, the rows that have
it. The groups share out the table (`sum_length_groupBy`), and none is empty,
so that there is always something to aggregate: averages keep the order and the
differences of columns, and are between the least and the greatest value.

A table may be grouped part by part, if no key occurs in two parts
(`groupBy_append`). That is what lets groups be kept that were made earlier,
and the groups of newer rows be added to them.

The order of the groups is that of the keys' first occurrences, though a query
that does not ask for an order promises none; what is said here of groups does
not depend on it.
-/

variable {α κ : Type}

section Groups

variable [DecidableEq κ] {key : α → κ} {l : List α} {g : κ × List α}

/-- **`GROUP BY` a key**: the groups, each with its key and with its rows in
the order of the table. -/
def groupBy (key : α → κ) (l : List α) : List (κ × List α) :=
  (l.map key).dedup.map (fun k => (k, l.filter (fun a => decide (key a = k))))

/-- A group is that of a key that occurs, with all rows that have the key. -/
theorem mem_groupBy : g ∈ groupBy key l
    ↔ g.1 ∈ l.map key ∧ g.2 = l.filter (fun a => decide (key a = g.1)) := by
  constructor
  · intro hg
    obtain ⟨k, hk, rfl⟩ := List.mem_map.mp hg
    exact ⟨List.mem_dedup.mp hk, rfl⟩
  · rintro ⟨hk, hrows⟩
    exact List.mem_map.mpr ⟨g.1, List.mem_dedup.mpr hk, Prod.ext rfl hrows.symm⟩

/-- There is one group for a key. -/
theorem nodup_keys_groupBy (key : α → κ) (l : List α) : ((groupBy key l).map Prod.fst).Nodup := by
  have hkeys : (groupBy key l).map Prod.fst = (l.map key).dedup := by
    rw [groupBy, List.map_map]
    exact List.map_id _
  rw [hkeys]
  exact List.nodup_dedup _

/-- No group is empty. -/
theorem ne_nil_of_mem_groupBy (hg : g ∈ groupBy key l) : g.2 ≠ [] := by
  obtain ⟨hk, hrows⟩ := mem_groupBy.mp hg
  obtain ⟨a, ha, hkey⟩ := List.mem_map.mp hk
  rw [hrows]
  exact List.ne_nil_of_mem (List.mem_filter.mpr ⟨ha, decide_eq_true hkey⟩)

/-- The rows of a group are rows of the table. -/
theorem subset_of_mem_groupBy (hg : g ∈ groupBy key l) : g.2 ⊆ l := by
  rw [(mem_groupBy.mp hg).2]
  exact List.filter_subset_self l

/-- A group has as many rows as the table has with its key. -/
theorem length_of_mem_groupBy (hg : g ∈ groupBy key l) :
    g.2.length = l.countP (fun a => decide (key a = g.1)) := by
  rw [(mem_groupBy.mp hg).2, List.countP_eq_length_filter]

/-- **Rows with other keys make other groups.** -/
theorem groupBy_append {l' : List α} (h : (l.map key).Disjoint (l'.map key)) :
    groupBy key (l ++ l') = groupBy key l ++ groupBy key l' := by
  have hleft : ∀ k ∈ (l.map key).dedup, (l ++ l').filter (fun a => decide (key a = k))
      = l.filter (fun a => decide (key a = k)) := by
    intro k hk
    have hnone : l'.filter (fun a => decide (key a = k)) = [] :=
      List.filter_eq_nil_iff.mpr (fun a ha hkey =>
        h (List.mem_dedup.mp hk) (of_decide_eq_true hkey ▸ List.mem_map_of_mem ha))
    rw [List.filter_append, hnone, List.append_nil]
  have hright : ∀ k ∈ (l'.map key).dedup, (l ++ l').filter (fun a => decide (key a = k))
      = l'.filter (fun a => decide (key a = k)) := by
    intro k hk
    have hnone : l.filter (fun a => decide (key a = k)) = [] :=
      List.filter_eq_nil_iff.mpr (fun a ha hkey =>
        h (of_decide_eq_true hkey ▸ List.mem_map_of_mem ha) (List.mem_dedup.mp hk))
    rw [List.filter_append, hnone, List.nil_append]
  rw [groupBy, List.map_append, h.dedup_append, List.map_append]
  congr 1
  · exact List.map_congr_left (fun k hk => by rw [hleft k hk])
  · exact List.map_congr_left (fun k hk => by rw [hright k hk])

/-- **Each row is in one group.** -/
theorem sum_length_groupBy (key : α → κ) (l : List α) :
    ((groupBy key l).map (fun g => g.2.length)).sum = l.length := by
  have hcount : (groupBy key l).map (fun g => g.2.length)
      = (l.map key).dedup.map (fun k => (l.map key).count k) := by
    rw [groupBy, List.map_map]
    refine List.map_congr_left (fun k _ => ?_)
    show (l.filter _).length = (l.map key).count k
    rw [List.count, List.countP_map, List.countP_eq_length_filter]
    rfl
  rw [hcount, List.sum_map_count_dedup_eq_length, List.length_map]

end Groups

/-! ## Aggregates

What a query says of a group: of no group without members, so that there is
something to divide by. -/

section Aggregates

variable {f f' : α → ℚ} {l : List α}

/-- `avg` -/
def average (f : α → ℚ) (l : List α) : ℚ := (l.map f).sum / l.length

/-- `max`, of a group that is not empty. -/
def greatest (f : α → ℚ) : List α → ℚ
  | [] => 0
  | a :: l => l.foldl (fun m b => max m (f b)) (f a)

/-- `stddev_samp`, with what takes the root: there is none of a single row. -/
def deviation (sqrt : ℚ → ℚ) (f : α → ℚ) (l : List α) : Option ℚ :=
  if l.length ≤ 1 then none
  else some (sqrt ((l.map (fun a => (f a - average f l) ^ 2)).sum / (l.length - 1)))

/-- A column that is greater in each row is greater on average. -/
theorem average_le_average (h : ∀ a ∈ l, f a ≤ f' a) : average f l ≤ average f' l :=
  div_le_div_of_nonneg_right (List.sum_le_sum h) (Nat.cast_nonneg _)

/-- A column that is nowhere negative is not negative on average. -/
theorem average_nonneg (h : ∀ a ∈ l, 0 ≤ f a) : 0 ≤ average f l := by
  refine div_nonneg (List.sum_nonneg (fun x hx => ?_)) (Nat.cast_nonneg _)
  obtain ⟨a, ha, rfl⟩ := List.mem_map.mp hx
  exact h a ha

/-- The average of a difference is the difference of the averages, also over no
rows at all. -/
theorem average_sub (f f' : α → ℚ) (l : List α) :
    average (fun a => f a - f' a) l = average f l - average f' l := by
  have hsum : (l.map (fun a => f a - f' a)).sum = (l.map f).sum - (l.map f').sum := by
    induction l with
    | nil => exact (sub_self _).symm
    | cons a l ih =>
      rw [List.map_cons, List.map_cons, List.map_cons, List.sum_cons, List.sum_cons, List.sum_cons,
        ih]
      ring
  rw [average, hsum, sub_div]
  rfl

/-- No value of the column is greater than the greatest. -/
theorem le_greatest {a : α} (ha : a ∈ l) : f a ≤ greatest f l := by
  have hfold : ∀ (l : List α) (m : ℚ), m ≤ l.foldl (fun m b => max m (f b)) m
      ∧ ∀ b ∈ l, f b ≤ l.foldl (fun m b => max m (f b)) m := by
    intro l
    induction l with
    | nil => exact fun m => ⟨le_rfl, List.forall_mem_nil _⟩
    | cons b l ih =>
      intro m
      obtain ⟨hm, hall⟩ := ih (max m (f b))
      exact ⟨(le_max_left _ _).trans hm,
        List.forall_mem_cons.mpr ⟨(le_max_right _ _).trans hm, hall⟩⟩
  cases l with
  | nil => exact absurd ha List.not_mem_nil
  | cons b l =>
    rcases List.mem_cons.mp ha with rfl | ha
    · exact (hfold l (f a)).1
    · exact (hfold l (f b)).2 a ha

/-- Nor is the average, of a group that is not empty. -/
theorem average_le_greatest (hl : l ≠ []) : average f l ≤ greatest f l := by
  have hpos : (0 : ℚ) < l.length := Nat.cast_pos.mpr (List.length_pos_iff.mpr hl)
  have hsum : (l.map f).sum ≤ l.length * greatest f l := by
    have hle := List.sum_le_card_nsmul (l.map f) (greatest f l) (fun x hx => by
      obtain ⟨a, ha, rfl⟩ := List.mem_map.mp hx
      exact le_greatest ha)
    rwa [List.length_map, nsmul_eq_mul] at hle
  exact (div_le_iff₀ hpos).mpr (by rwa [mul_comm] at hsum)

end Aggregates
