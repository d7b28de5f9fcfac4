import Mathlib.Data.List.Sort

/-!
# Sorting and the order within a key

A list sorted by a key is two things: an order of the keys, and for every key
the order of its elements. The second is what a stable sort keeps
(`filter_insertionSort`), and together they determine the list
(`eq_of_sortedBy`). So a list that is built key by key – a list of queues laid
end to end – is a stable sort as soon as it is sorted and its queues are right.
-/

variable {α κ : Type} [LinearOrder κ]

/-- Sorted by a key: no key precedes a smaller one. -/
def SortedBy (key : α → κ) (l : List α) : Prop := l.Pairwise (fun a b => key a ≤ key b)

/-- The elements of a key. -/
def ofKey (key : α → κ) (k : κ) (l : List α) : List α := l.filter (fun a => key a = k)

@[simp] theorem ofKey_nil (key : α → κ) (k : κ) : ofKey key k [] = [] := rfl

/-- The first element is among those of its own key. -/
theorem ofKey_cons_self (key : α → κ) (a : α) (l : List α) :
    ofKey key (key a) (a :: l) = a :: ofKey key (key a) l := by
  rw [ofKey, List.filter_cons_of_pos (by simp)]
  rfl

/-- It is not among those of another. -/
theorem ofKey_cons_of_ne {key : α → κ} {k : κ} {a : α} (h : key a ≠ k) (l : List α) :
    ofKey key k (a :: l) = ofKey key k l := by
  rw [ofKey, List.filter_cons_of_neg (by simpa using h)]
  rfl

/-- The elements of a key are those of the list that have it. -/
theorem mem_ofKey {key : α → κ} {k : κ} {l : List α} {a : α} :
    a ∈ ofKey key k l ↔ a ∈ l ∧ key a = k := by
  simp [ofKey]

/-- The first key of a sorted list is its least. -/
theorem SortedBy.le_of_mem {key : α → κ} {a b : α} {l : List α} (h : SortedBy key (a :: l))
    (hb : b ∈ a :: l) : key a ≤ key b := by
  rcases List.mem_cons.mp hb with rfl | hb
  · exact le_rfl
  · exact (List.pairwise_cons.mp h).1 b hb

/-- **A sorted list is determined by the order within each key**: the least key
comes first on both sides, and its first element is the same. -/
theorem eq_of_sortedBy {key : α → κ} {l l' : List α} (h : SortedBy key l)
    (h' : SortedBy key l') (heq : ∀ k, ofKey key k l = ofKey key k l') : l = l' := by
  induction l generalizing l' with
  | nil =>
    cases l' with
    | nil => rfl
    | cons b l' =>
      have := heq (key b)
      rw [ofKey_cons_self] at this
      exact absurd this (by simp)
  | cons a l ih =>
    cases l' with
    | nil =>
      have := heq (key a)
      rw [ofKey_cons_self] at this
      exact absurd this (by simp)
    | cons b l' =>
      -- each head occurs in the other list, so both have the least key
      have ha : a ∈ b :: l' := by
        have hmem : a ∈ ofKey key (key a) (a :: l) := mem_ofKey.mpr ⟨List.mem_cons_self, rfl⟩
        rw [heq] at hmem
        exact (mem_ofKey.mp hmem).1
      have hb : b ∈ a :: l := by
        have hmem : b ∈ ofKey key (key b) (b :: l') := mem_ofKey.mpr ⟨List.mem_cons_self, rfl⟩
        rw [← heq] at hmem
        exact (mem_ofKey.mp hmem).1
      have hkey : key a = key b := le_antisymm (h.le_of_mem hb) (h'.le_of_mem ha)
      have hhead := heq (key a)
      rw [ofKey_cons_self, hkey, ofKey_cons_self] at hhead
      obtain ⟨rfl, htail⟩ := List.cons.inj hhead
      refine congrArg (a :: ·) (ih (List.pairwise_cons.mp h).2 (List.pairwise_cons.mp h').2
        (fun k => ?_))
      by_cases hk : key a = k
      · exact hk ▸ htail
      · have := heq k
        rwa [ofKey_cons_of_ne hk, ofKey_cons_of_ne hk] at this

/-- The stable sort by a key: insertion sort puts an element before those with
a greater key, so elements with the same key stay as they stand. -/
def sortBy (key : α → κ) (l : List α) : List α :=
  l.insertionSort (fun a b => key a ≤ key b)

/-- It sorts. -/
theorem sortedBy_sortBy (key : α → κ) (l : List α) : SortedBy key (sortBy key l) := by
  have : Std.Total (fun a b : α => key a ≤ key b) := ⟨fun a b => le_total _ _⟩
  have : IsTrans α (fun a b : α => key a ≤ key b) := ⟨fun _ _ _ => le_trans⟩
  exact List.pairwise_insertionSort _ l

/-- It loses and doubles nothing. -/
theorem perm_sortBy (key : α → κ) (l : List α) : (sortBy key l).Perm l :=
  List.perm_insertionSort _ l

/-- **A stable sort keeps the order within each key.** -/
theorem ofKey_sortBy (key : α → κ) (k : κ) (l : List α) :
    ofKey key k (sortBy key l) = ofKey key k l := by
  have : Std.Total (fun a b : α => key a ≤ key b) := ⟨fun a b => le_total _ _⟩
  have : IsTrans α (fun a b : α => key a ≤ key b) := ⟨fun _ _ _ => le_trans⟩
  -- the elements of one key are sorted as they stand, so they stay a sublist
  have htied : (ofKey key k l).Pairwise (fun a b => key a ≤ key b) := by
    refine List.pairwise_of_forall_mem_list (fun a ha b hb => ?_)
    rw [(mem_ofKey.mp ha).2, (mem_ofKey.mp hb).2]
  have hsub : (ofKey key k l).Sublist (sortBy key l) :=
    List.sublist_insertionSort htied List.filter_sublist
  have hsub' : (ofKey key k l).Sublist (ofKey key k (sortBy key l)) := by
    have := hsub.filter (fun a => key a = k)
    rwa [List.filter_eq_self.mpr (fun a ha => by simpa using (mem_ofKey.mp ha).2)] at this
  exact (hsub'.eq_of_length (((perm_sortBy key l).filter _).length_eq).symm).symm
