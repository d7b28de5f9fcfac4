import HftArena.Lib.StableSort

/-!
# The first of each key

Of a list that is sorted, the first element of every key: what a query selects
with `DISTINCT ON`. Where elements are told apart by their places in the order,
it selects of every key the one that leads, and nothing else
(`mem_distinctOn_iff`).
-/

variable {α κ ω : Type} [DecidableEq κ] [LinearOrder ω]

/-- The first element of each key, in the order of the list: after an element
is taken, those that come later with its key are left out. -/
def firstOfEach (key : α → κ) : List α → List α
  | [] => []
  | a :: l => a :: (firstOfEach key l).filter (fun b => key b ≠ key a)

/-- **`SELECT DISTINCT ON`** of a key, with the order in which elements
come. -/
def distinctOn (key : α → κ) (order : α → ω) (l : List α) : List α :=
  firstOfEach key (sortBy order l)

/-- No key is taken twice. -/
theorem nodup_firstOfEach (key : α → κ) (l : List α) : ((firstOfEach key l).map key).Nodup := by
  induction l with
  | nil => exact List.nodup_nil
  | cons a l ih =>
    rw [firstOfEach, List.map_cons, List.nodup_cons]
    refine ⟨fun hmem => ?_, (List.filter_sublist.map key).nodup ih⟩
    obtain ⟨b, hb, hkey⟩ := List.mem_map.mp hmem
    exact absurd hkey (by simpa using (List.mem_filter.mp hb).2)

/-- **In a sorted list the first of a key leads it.** -/
theorem mem_firstOfEach_iff {key : α → κ} {order : α → ω} {l : List α}
    (hinj : ∀ a ∈ l, ∀ b ∈ l, order a = order b → a = b) (hl : SortedBy order l) {a : α} :
    a ∈ firstOfEach key l ↔ a ∈ l ∧ ∀ b ∈ l, key b = key a → order a ≤ order b := by
  induction l with
  | nil =>
    refine ⟨fun h => ?_, fun h => ?_⟩
    · cases h
    · cases h.1
  | cons c l ih =>
    have hrest := ih (fun a ha b hb => hinj a (List.mem_cons_of_mem c ha) b
      (List.mem_cons_of_mem c hb)) (List.pairwise_cons.mp hl).2
    rw [firstOfEach, List.mem_cons, List.mem_filter, hrest]
    constructor
    · rintro (rfl | ⟨⟨ha, hle⟩, hkey⟩)
      · exact ⟨List.mem_cons_self, fun b hb _ => hl.le_of_mem hb⟩
      · have hne : key a ≠ key c := by simpa using hkey
        refine ⟨List.mem_cons_of_mem c ha, fun b hb hba => ?_⟩
        rcases List.mem_cons.mp hb with rfl | hb
        · exact absurd hba.symm hne
        · exact hle b hb hba
    · rintro ⟨ha, hle⟩
      by_cases hac : a = c
      · exact .inl hac
      · have hmem : a ∈ l := (List.mem_cons.mp ha).resolve_left hac
        refine .inr ⟨⟨hmem, fun b hb => hle b (List.mem_cons_of_mem c hb)⟩, ?_⟩
        -- the head comes no later, so it would be the one that leads
        have hne : key a ≠ key c := fun hkey => hac (hinj a ha c List.mem_cons_self
          (le_antisymm (hle c List.mem_cons_self hkey.symm) (hl.le_of_mem ha)))
        simpa using hne

/-- **What the query selects**: of every key the element that comes before all
others with that key. -/
theorem mem_distinctOn_iff {key : α → κ} {order : α → ω} {l : List α}
    (hinj : ∀ a ∈ l, ∀ b ∈ l, order a = order b → a = b) {a : α} :
    a ∈ distinctOn key order l ↔ a ∈ l ∧ ∀ b ∈ l, key b = key a → order a ≤ order b := by
  have hmem : ∀ b, b ∈ sortBy order l ↔ b ∈ l := fun b => (perm_sortBy order l).mem_iff
  rw [distinctOn, mem_firstOfEach_iff (fun a ha b hb => hinj a ((hmem a).mp ha) b ((hmem b).mp hb))
    (sortedBy_sortBy order l)]
  simp only [hmem]
