import Mathlib.Order.Lattice
import Mathlib.Tactic.Tauto
import HftArena.Lib.Dict

/-!
# Ordered maps

The ordered map of C++ (`std::map`) and Rust (`BTreeMap`): entries kept in
strictly ascending order of their keys, which is a field of the structure. As
with any map, two operations are all that is needed to say what it holds –
`get?` and `keys` – and the order of the keys is what makes the first and the
last of them the least and the greatest.

A lookup is defined and reasoned about as in a dictionary (`Entries`), since it
depends on there being no key twice and not on the order; only writing has to
find the place of a new key. No balanced tree is modelled: the structure is the
sequence that an iterator of the map goes through.
-/

/-- **An ordered map**: the entries in strictly ascending order of their
keys. -/
structure SortedMap (κ ν : Type) [LinearOrder κ] where
  /-- The entries, least key first. -/
  entries : List (κ × ν)
  /-- The keys strictly ascend. -/
  sorted : (entries.map Prod.fst).Pairwise (· < ·)

namespace SortedMap

variable {κ ν : Type} [LinearOrder κ]

@[ext] theorem ext {m m' : SortedMap κ ν} (h : m.entries = m'.entries) : m = m' := by
  cases m; cases m'; cases h; rfl

instance [DecidableEq ν] : DecidableEq (SortedMap κ ν) :=
  fun m m' => decidable_of_iff (m.entries = m'.entries) ⟨ext, congrArg entries⟩

/-- The map with no entry. -/
def empty : SortedMap κ ν := ⟨[], List.Pairwise.nil⟩

/-- The keys, least first. -/
def keys (m : SortedMap κ ν) : List κ := m.entries.map Prod.fst

@[simp] theorem entries_empty : (empty : SortedMap κ ν).entries = [] := rfl

@[simp] theorem keys_empty : (empty : SortedMap κ ν).keys = [] := rfl

/-- The keys strictly ascend, which the structure says. -/
theorem sorted_keys (m : SortedMap κ ν) : m.keys.Pairwise (· < ·) := m.sorted

/-- The keys strictly ascend, so none occurs twice. -/
theorem nodup (m : SortedMap κ ν) : (m.entries.map Prod.fst).Nodup :=
  m.sorted.imp ne_of_lt

/-- The value of a key, if it has one. -/
def get? (m : SortedMap κ ν) (k : κ) : Option ν := Entries.lookup m.entries k

/-- **A lookup is a membership.** -/
theorem get?_eq_some_iff {m : SortedMap κ ν} {k : κ} {v : ν} :
    m.get? k = some v ↔ (k, v) ∈ m.entries :=
  Entries.lookup_eq_some_iff m.nodup

/-- The keys are those that have a value. -/
theorem mem_keys_iff {m : SortedMap κ ν} {k : κ} :
    k ∈ m.keys ↔ ∃ v, m.get? k = some v :=
  Entries.mem_map_fst_iff m.nodup

@[simp] theorem get?_empty (k : κ) : (empty : SortedMap κ ν).get? k = none := rfl

/-! ## Writing -/

/-- Writing to a key of an ordered entry list: before the first key that is
greater, in place where the key stands, or at the end. -/
def setEntries (k : κ) (v : ν) : List (κ × ν) → List (κ × ν)
  | [] => [(k, v)]
  | e :: l =>
    if k < e.1 then (k, v) :: e :: l
    else if e.1 = k then (k, v) :: l
    else e :: setEntries k v l

/-- The keys after a write. -/
theorem mem_map_fst_setEntries {k : κ} {v : ν} {l : List (κ × ν)} {k' : κ} :
    k' ∈ (setEntries k v l).map Prod.fst ↔ k' = k ∨ k' ∈ l.map Prod.fst := by
  induction l with
  | nil => simp [setEntries]
  | cons e l ih =>
    rw [setEntries]
    split_ifs with hlt heq
    · simp
    · simp [heq]
    · rw [List.map_cons, List.mem_cons, ih, List.map_cons, List.mem_cons]
      tauto

/-- A write keeps the keys in order. -/
theorem sorted_setEntries (k : κ) (v : ν) {l : List (κ × ν)}
    (h : (l.map Prod.fst).Pairwise (· < ·)) :
    ((setEntries k v l).map Prod.fst).Pairwise (· < ·) := by
  induction l with
  | nil => exact List.pairwise_singleton _ _
  | cons e l ih =>
    rw [List.map_cons, List.pairwise_cons] at h
    rw [setEntries]
    split_ifs with hlt heq
    · refine List.pairwise_cons.mpr ⟨?_, List.pairwise_cons.mpr h⟩
      intro k' hk'
      rcases List.mem_cons.mp hk' with rfl | hk'
      · exact hlt
      · exact hlt.trans (h.1 k' hk')
    · subst heq
      exact List.pairwise_cons.mpr h
    · refine List.pairwise_cons.mpr ⟨?_, ih h.2⟩
      intro k' hk'
      rcases mem_map_fst_setEntries.mp hk' with rfl | hk'
      · exact lt_of_le_of_ne (not_lt.mp hlt) heq
      · exact h.1 k' hk'

/-- What is found after a write. -/
theorem find?_setEntries (k : κ) (v : ν) (l : List (κ × ν)) (k' : κ) :
    (setEntries k v l).find? (fun e => e.1 = k')
      = if k' = k then some (k, v) else l.find? (fun e => e.1 = k') := by
  induction l with
  | nil =>
    by_cases h : k' = k
    · simp [setEntries, h]
    · simp [setEntries, h, Ne.symm h]
  | cons e l ih =>
    rw [setEntries]
    by_cases h : k' = k
    · subst h
      rw [if_pos rfl] at ih ⊢
      by_cases hlt : k' < e.1
      · rw [if_pos hlt, List.find?_cons_of_pos (by simp)]
      · rw [if_neg hlt]
        by_cases heq : e.1 = k'
        · rw [if_pos heq, List.find?_cons_of_pos (by simp)]
        · rw [if_neg heq, List.find?_cons_of_neg (by simpa using heq), ih]
    · have hne : ¬ k = k' := Ne.symm h
      rw [if_neg h] at ih ⊢
      by_cases hlt : k < e.1
      · rw [if_pos hlt, List.find?_cons_of_neg (by simpa using hne)]
      · rw [if_neg hlt]
        by_cases heq : e.1 = k
        · rw [if_pos heq, List.find?_cons_of_neg (by simpa using hne),
            List.find?_cons_of_neg (by simpa [heq] using hne)]
        · rw [if_neg heq, List.find?_cons, List.find?_cons, ih]

/-- **Writing to a key**: its value is replaced, or the key takes its place in
the order. -/
def set (m : SortedMap κ ν) (k : κ) (v : ν) : SortedMap κ ν :=
  ⟨setEntries k v m.entries, sorted_setEntries k v m.sorted⟩

/-- **What a lookup finds after a write.** -/
@[simp] theorem get?_set (m : SortedMap κ ν) (k : κ) (v : ν) (k' : κ) :
    (m.set k v).get? k' = if k' = k then some v else m.get? k' := by
  show Entries.lookup (setEntries k v m.entries) k' = _
  rw [Entries.lookup, find?_setEntries]
  split <;> rfl

@[simp] theorem mem_keys_set {m : SortedMap κ ν} {k : κ} {v : ν} {k' : κ} :
    k' ∈ (m.set k v).keys ↔ k' = k ∨ k' ∈ m.keys :=
  mem_map_fst_setEntries

/-! ## Deleting -/

/-- **Deleting a key.** A key that is absent changes nothing. -/
def erase (m : SortedMap κ ν) (k : κ) : SortedMap κ ν :=
  ⟨m.entries.filter (fun e => e.1 ≠ k),
    m.sorted.sublist (List.filter_sublist.map Prod.fst)⟩

/-- **What a lookup finds after a deletion.** -/
@[simp] theorem get?_erase (m : SortedMap κ ν) (k k' : κ) :
    (m.erase k).get? k' = if k' = k then none else m.get? k' :=
  Entries.lookup_filter m.nodup k k'

@[simp] theorem mem_keys_erase {m : SortedMap κ ν} {k k' : κ} :
    k' ∈ (m.erase k).keys ↔ k' ≠ k ∧ k' ∈ m.keys := by
  rw [mem_keys_iff, get?_erase, mem_keys_iff]
  by_cases h : k' = k <;> simp [h]

end SortedMap
