import Mathlib.Data.List.Induction
import Mathlib.Data.List.Nodup

/-!
# Insertion-ordered dictionaries

A dictionary that remembers the order in which its keys arrived: writing to a
key that is present changes the value where it stands, writing to a new key
appends it, and deleting a key closes the gap it leaves. This is the dictionary
of Python, and – with the order forgotten – any hash map.

The entries carry no key twice, and the structure says so in a field, so a
lookup is determined by membership (`get?_eq_some_iff`) and nothing below has
to re-establish it. What only depends on that – and not on the order – is
stated for lists of entries (`Entries`), where an ordered map finds it too.

The laws come in two kinds. What a lookup finds after a write or a deletion is
all that most users of a dictionary need, and these lemmas are simp lemmas
(`get?_set`, `get?_erase`). Where the order of the keys matters – the oldest
entry is the one that a queue gives first – there are lemmas about the entries
themselves (`entries_set_of_notMem`, `entries_set_head`, `entries_erase_head`),
and equations between dictionaries (`set_set`, `erase_set`, `erase_set_of_ne`).
-/

namespace Entries

variable {κ ν : Type} [DecidableEq κ]

/-- The value of a key in a list of entries: that of the first entry that has
the key. -/
def lookup (l : List (κ × ν)) (k : κ) : Option ν :=
  (l.find? (fun e => e.1 = k)).map Prod.snd

/-- **A lookup is a membership** where no key occurs twice: the first entry of
a key is its only one. -/
theorem lookup_eq_some_iff {l : List (κ × ν)} (hl : (l.map Prod.fst).Nodup)
    {k : κ} {v : ν} : lookup l k = some v ↔ (k, v) ∈ l := by
  unfold lookup
  rw [Option.map_eq_some_iff]
  constructor
  · rintro ⟨⟨k', v'⟩, hfind, rfl⟩
    have hk : k' = k := by simpa using List.find?_some hfind
    subst hk
    exact List.mem_of_find?_eq_some hfind
  · intro hmem
    cases hfind : l.find? (fun e => e.1 = k) with
    | none =>
      have hne := List.find?_eq_none.mp hfind (k, v) hmem
      simp at hne
    | some e =>
      have hk : e.1 = k := by simpa using List.find?_some hfind
      have he : e ∈ l := List.mem_of_find?_eq_some hfind
      exact ⟨e, rfl, congrArg Prod.snd (List.inj_on_of_nodup_map hl he hmem hk)⟩

/-- A key is one of the list if and only if it is found. -/
theorem mem_map_fst_iff {l : List (κ × ν)} (hl : (l.map Prod.fst).Nodup) {k : κ} :
    k ∈ l.map Prod.fst ↔ ∃ v, lookup l k = some v := by
  rw [List.mem_map]
  constructor
  · rintro ⟨e, he, rfl⟩
    exact ⟨e.2, (lookup_eq_some_iff hl).mpr he⟩
  · rintro ⟨v, hv⟩
    exact ⟨(k, v), (lookup_eq_some_iff hl).mp hv, rfl⟩

/-- Dropping a key's entries makes its lookup fail and disturbs no other. -/
theorem lookup_filter {l : List (κ × ν)} (hl : (l.map Prod.fst).Nodup) (k k' : κ) :
    lookup (l.filter (fun e => e.1 ≠ k)) k' = if k' = k then none else lookup l k' := by
  have hfil : ((l.filter (fun e => e.1 ≠ k)).map Prod.fst).Nodup :=
    (List.filter_sublist.map Prod.fst).nodup hl
  apply Option.ext
  intro v
  rw [lookup_eq_some_iff hfil]
  by_cases h : k' = k
  · simp [h]
  · simp [h, lookup_eq_some_iff hl]

end Entries

/-- **An insertion-ordered dictionary**: the entries in the order in which
their keys arrived, no key twice. -/
structure Dict (κ ν : Type) where
  /-- The entries, oldest key first. -/
  entries : List (κ × ν)
  /-- No key occurs twice. -/
  nodup : (entries.map Prod.fst).Nodup

namespace Dict

variable {κ ν : Type}

@[ext] theorem ext {d e : Dict κ ν} (h : d.entries = e.entries) : d = e := by
  cases d; cases e; cases h; rfl

instance [DecidableEq κ] [DecidableEq ν] : DecidableEq (Dict κ ν) :=
  fun d e => decidable_of_iff (d.entries = e.entries) ⟨ext, congrArg entries⟩

/-- The dictionary with no entry. -/
def empty : Dict κ ν := ⟨[], List.nodup_nil⟩

/-- The keys, oldest first. -/
def keys (d : Dict κ ν) : List κ := d.entries.map Prod.fst

/-- The values, in the order of their keys. -/
def values (d : Dict κ ν) : List ν := d.entries.map Prod.snd

@[simp] theorem entries_empty : (empty : Dict κ ν).entries = [] := rfl

@[simp] theorem keys_empty : (empty : Dict κ ν).keys = [] := rfl

@[simp] theorem values_empty : (empty : Dict κ ν).values = [] := rfl

theorem nodup_keys (d : Dict κ ν) : d.keys.Nodup := d.nodup

variable [DecidableEq κ]

/-- The value of a key, if it has one. -/
def get? (d : Dict κ ν) (k : κ) : Option ν := Entries.lookup d.entries k

/-- **A lookup is a membership**: the structure has no key twice. -/
theorem get?_eq_some_iff {d : Dict κ ν} {k : κ} {v : ν} :
    d.get? k = some v ↔ (k, v) ∈ d.entries :=
  Entries.lookup_eq_some_iff d.nodup

/-- The keys are those that have a value. -/
theorem mem_keys_iff {d : Dict κ ν} {k : κ} :
    k ∈ d.keys ↔ ∃ v, d.get? k = some v :=
  Entries.mem_map_fst_iff d.nodup

theorem get?_eq_none_iff {d : Dict κ ν} {k : κ} :
    d.get? k = none ↔ k ∉ d.keys := by
  rw [mem_keys_iff, Option.eq_none_iff_forall_ne_some, not_exists]

theorem mem_keys_of_get? {d : Dict κ ν} {k : κ} {v : ν} (h : d.get? k = some v) :
    k ∈ d.keys :=
  mem_keys_iff.mpr ⟨v, h⟩

@[simp] theorem get?_empty (k : κ) : (empty : Dict κ ν).get? k = none := rfl

/-- The values are those that some key has. -/
theorem mem_values_iff {d : Dict κ ν} {v : ν} :
    v ∈ d.values ↔ ∃ k, d.get? k = some v := by
  unfold values
  rw [List.mem_map]
  constructor
  · rintro ⟨e, he, rfl⟩
    exact ⟨e.1, get?_eq_some_iff.mpr he⟩
  · rintro ⟨k, hk⟩
    exact ⟨(k, v), get?_eq_some_iff.mp hk, rfl⟩

/-! ## Writing

A write keeps the place of a key that is there. So what comes of several writes
depends on the last one to each key, and the order of the keys on the first. -/

/-- Writing to a key of an entry list: where the key stands if it is present,
at the end otherwise. -/
def setEntries (k : κ) (v : ν) : List (κ × ν) → List (κ × ν)
  | [] => [(k, v)]
  | e :: l => if e.1 = k then (k, v) :: l else e :: setEntries k v l

/-- The keys after a write: the same if the key was there, and otherwise one
more at the end. -/
theorem map_fst_setEntries (k : κ) (v : ν) (l : List (κ × ν)) :
    (setEntries k v l).map Prod.fst
      = if k ∈ l.map Prod.fst then l.map Prod.fst else l.map Prod.fst ++ [k] := by
  induction l with
  | nil => rfl
  | cons e l ih =>
    by_cases he : e.1 = k
    · simp [setEntries, he]
    · have hk : k ∈ (e :: l).map Prod.fst ↔ k ∈ l.map Prod.fst := by
        simp [Ne.symm he]
      rw [setEntries, if_neg he, List.map_cons, ih]
      by_cases hmem : k ∈ l.map Prod.fst
      · rw [if_pos hmem, if_pos (hk.mpr hmem), List.map_cons]
      · rw [if_neg hmem, if_neg (fun h => hmem (hk.mp h)), List.map_cons,
          List.cons_append]

/-- A write makes no key occur twice. -/
theorem nodup_setEntries (k : κ) (v : ν) {l : List (κ × ν)}
    (h : (l.map Prod.fst).Nodup) : ((setEntries k v l).map Prod.fst).Nodup := by
  rw [map_fst_setEntries]
  split
  · exact h
  · next hk =>
    refine List.nodup_append.mpr ⟨h, List.nodup_singleton k, ?_⟩
    rintro a ha b hb rfl
    exact hk (List.mem_singleton.mp hb ▸ ha)

theorem setEntries_of_notMem {k : κ} {v : ν} {l : List (κ × ν)}
    (h : k ∉ l.map Prod.fst) : setEntries k v l = l ++ [(k, v)] := by
  induction l with
  | nil => rfl
  | cons e l ih =>
    rw [List.map_cons, List.mem_cons, not_or] at h
    rw [setEntries, if_neg (Ne.symm h.1), ih h.2, List.cons_append]

/-- What is found after a write. -/
theorem find?_setEntries (k : κ) (v : ν) (l : List (κ × ν)) (k' : κ) :
    (setEntries k v l).find? (fun e => e.1 = k')
      = if k' = k then some (k, v) else l.find? (fun e => e.1 = k') := by
  induction l with
  | nil =>
    by_cases h : k' = k
    · simp [setEntries, h]
    · simp [setEntries, h, Ne.symm h]
  | cons e l ih =>
    by_cases he : e.1 = k
    · by_cases h : k' = k
      · simp [setEntries, he, h]
      · have hne : ¬ k = k' := Ne.symm h
        simp [setEntries, he, h, hne]
    · rw [setEntries, if_neg he]
      by_cases h : e.1 = k'
      · have hne : ¬ k' = k := fun hk => he (h.trans hk)
        simp [h, hne]
      · simp only [List.find?_cons, h, decide_false]
        exact ih

/-- **Writing to a key**, `d[k] = v`: in place if the key is present, appended
otherwise. -/
def set (d : Dict κ ν) (k : κ) (v : ν) : Dict κ ν :=
  ⟨setEntries k v d.entries, nodup_setEntries k v d.nodup⟩

/-- **What a lookup finds after a write**: what was written, or what it would
have found before. -/
@[simp] theorem get?_set (d : Dict κ ν) (k : κ) (v : ν) (k' : κ) :
    (d.set k v).get? k' = if k' = k then some v else d.get? k' := by
  show Entries.lookup (setEntries k v d.entries) k' = _
  rw [Entries.lookup, find?_setEntries]
  split <;> rfl

@[simp] theorem mem_keys_set {d : Dict κ ν} {k : κ} {v : ν} {k' : κ} :
    k' ∈ (d.set k v).keys ↔ k' = k ∨ k' ∈ d.keys := by
  rw [mem_keys_iff, get?_set, mem_keys_iff]
  by_cases h : k' = k <;> simp [h]

/-- A new key goes to the end. -/
theorem entries_set_of_notMem {d : Dict κ ν} {k : κ} {v : ν} (h : k ∉ d.keys) :
    (d.set k v).entries = d.entries ++ [(k, v)] :=
  setEntries_of_notMem h

/-- So does it among the keys. -/
theorem keys_set_of_notMem {d : Dict κ ν} {k : κ} {v : ν} (h : k ∉ d.keys) :
    (d.set k v).keys = d.keys ++ [k] := by
  rw [keys, entries_set_of_notMem h, List.map_append]
  rfl

/-- A key that is present keeps its place. -/
theorem entries_set_head {d : Dict κ ν} {k : κ} {v w : ν} {l : List (κ × ν)}
    (h : d.entries = (k, v) :: l) : (d.set k w).entries = (k, w) :: l := by
  show setEntries k w d.entries = _
  rw [h, setEntries, if_pos rfl]

/-- What is written to a key that is present replaces what was there. -/
theorem set_set (d : Dict κ ν) (k : κ) (v w : ν) : (d.set k v).set k w = d.set k w := by
  have hlist : ∀ l : List (κ × ν), setEntries k w (setEntries k v l) = setEntries k w l := by
    intro l
    induction l with
    | nil => rw [setEntries, setEntries, setEntries, if_pos rfl]
    | cons e l ih =>
      rw [setEntries, setEntries]
      split_ifs with he
      · rw [setEntries, if_pos rfl]
      · rw [setEntries, if_neg he, ih]
  exact ext (hlist d.entries)

/-- Writing what a key has already changes nothing. -/
theorem set_of_get? {d : Dict κ ν} {k : κ} {v : ν} (h : d.get? k = some v) : d.set k v = d := by
  have hlist : ∀ l : List (κ × ν), Entries.lookup l k = some v → setEntries k v l = l := by
    intro l hl
    induction l with
    | nil => cases hl
    | cons e l ih =>
      rw [Entries.lookup, List.find?_cons] at hl
      rw [setEntries]
      by_cases he : e.1 = k
      · simp only [he, decide_true, Option.map_some, Option.some_inj] at hl
        rw [if_pos he, ← he, ← hl]
      · simp only [he, decide_false] at hl
        rw [if_neg he, ih hl]
  exact ext (hlist d.entries h)

/-- **Of several writes to a key the last one stays**, and a key to which
nothing is written keeps what it had. -/
theorem get?_foldl_set {α : Type} (key : α → κ) (val : α → ν) (d : Dict κ ν) (l : List α) (k : κ) :
    (l.foldl (fun d a => d.set (key a) (val a)) d).get? k
      = (l.filter (fun a => key a = k)).getLast?.elim (d.get? k) (fun a => some (val a)) := by
  induction l using List.reverseRecOn with
  | nil => rfl
  | append_singleton l a ih =>
    rw [List.foldl_append, List.foldl_cons, List.foldl_nil, get?_set, ih, List.filter_append]
    by_cases h : key a = k
    · simp [h]
    · simp [h, Ne.symm h]

/-- One value is written to several keys. -/
theorem get?_foldl_set_const {α : Type} (key : α → κ) (v : ν) (d : Dict κ ν) (l : List α) (k : κ) :
    (l.foldl (fun d a => d.set (key a) v) d).get? k
      = if k ∈ l.map key then some v else d.get? k := by
  induction l generalizing d with
  | nil => rfl
  | cons a l ih =>
    rw [List.foldl_cons, ih, get?_set, List.map_cons]
    by_cases h : k ∈ l.map key
    · rw [if_pos h, if_pos (List.mem_cons_of_mem _ h)]
    · simp only [List.mem_cons, h, or_false, if_false]

/-- Where no key is written twice each has the value that is written to it. -/
theorem get?_foldl_set_empty_iff {α : Type} {key : α → κ} {val : α → ν} {l : List α}
    (hl : (l.map key).Nodup) {k : κ} {v : ν} :
    (l.foldl (fun d a => d.set (key a) (val a)) empty).get? k = some v
      ↔ ∃ a ∈ l, key a = k ∧ val a = v := by
  rw [get?_foldl_set, get?_empty]
  cases hlast : (l.filter (fun a => key a = k)).getLast? with
  | none =>
    have hnone : ∀ a ∈ l, key a ≠ k := by
      simpa using List.getLast?_eq_none_iff.mp hlast
    refine ⟨fun h => ?_, fun ⟨a, ha, hk, _⟩ => absurd hk (hnone a ha)⟩
    cases h
  | some b =>
    obtain ⟨hb, hkey⟩ := List.mem_filter.mp (List.mem_of_getLast? hlast)
    have hkey : key b = k := by simpa using hkey
    constructor
    · intro h
      exact ⟨b, hb, hkey, Option.some_inj.mp h⟩
    · rintro ⟨a, ha, hk, rfl⟩
      rw [List.inj_on_of_nodup_map hl ha hb (hk.trans hkey.symm)]
      rfl

/-- Writing to every key a value made of its own. -/
def mapValues (d : Dict κ ν) (f : κ → ν → ν) : Dict κ ν :=
  ⟨d.entries.map (fun e => (e.1, f e.1 e.2)), by
    rw [List.map_map]
    exact d.nodup⟩

/-- A lookup finds what was made of the value that was there. -/
theorem get?_mapValues (d : Dict κ ν) (f : κ → ν → ν) (k : κ) :
    (d.mapValues f).get? k = (d.get? k).map (f k) := by
  refine Option.ext (fun w => ?_)
  rw [get?_eq_some_iff, Option.map_eq_some_iff]
  constructor
  · intro hmem
    obtain ⟨e, he, heq⟩ := List.mem_map.mp hmem
    cases heq
    exact ⟨e.2, get?_eq_some_iff.mpr he, rfl⟩
  · rintro ⟨v, hv, rfl⟩
    exact List.mem_map.mpr ⟨(k, v), get?_eq_some_iff.mp hv, rfl⟩

/-! ## Deleting

A key that was deleted and is written again goes to the end, like a new one. -/

/-- **Deleting a key**, `d.pop(k, None)`: the entry goes and the others keep
their order. A key that is absent changes nothing. -/
def erase (d : Dict κ ν) (k : κ) : Dict κ ν :=
  ⟨d.entries.filter (fun e => e.1 ≠ k),
    (List.filter_sublist.map Prod.fst).nodup d.nodup⟩

/-- **What a lookup finds after a deletion**: nothing under the key, and what
it would have found before under any other. -/
@[simp] theorem get?_erase (d : Dict κ ν) (k k' : κ) :
    (d.erase k).get? k' = if k' = k then none else d.get? k' :=
  Entries.lookup_filter d.nodup k k'

@[simp] theorem mem_keys_erase {d : Dict κ ν} {k k' : κ} :
    k' ∈ (d.erase k).keys ↔ k' ≠ k ∧ k' ∈ d.keys := by
  rw [mem_keys_iff, get?_erase, mem_keys_iff]
  by_cases h : k' = k <;> simp [h]

theorem entries_erase (d : Dict κ ν) (k : κ) :
    (d.erase k).entries = d.entries.filter (fun e => e.1 ≠ k) := rfl

/-- The other keys keep their order. -/
theorem keys_erase (d : Dict κ ν) (k : κ) : (d.erase k).keys = d.keys.erase k := by
  rw [d.nodup_keys.erase_eq_filter, keys, keys, entries_erase, List.filter_map]
  refine congrArg (List.map Prod.fst) (List.filter_congr (fun e _ => ?_))
  simp only [ne_eq, decide_not, Function.comp_apply]
  rfl

/-- Deleting the oldest key leaves the rest. -/
theorem entries_erase_head {d : Dict κ ν} {k : κ} {v : ν} {l : List (κ × ν)}
    (h : d.entries = (k, v) :: l) : (d.erase k).entries = l := by
  have hnot : k ∉ l.map Prod.fst := by
    have := d.nodup
    rw [h, List.map_cons, List.nodup_cons] at this
    exact this.1
  rw [entries_erase, h, List.filter_cons_of_neg (by simp), List.filter_eq_self]
  intro e he
  have hne : e.1 ≠ k := fun hk => hnot (hk ▸ List.mem_map_of_mem he)
  simpa using hne

/-- A new key that is deleted again leaves nothing behind. -/
theorem erase_set {d : Dict κ ν} {k : κ} (hk : k ∉ d.keys) (v : ν) : (d.set k v).erase k = d := by
  refine ext ?_
  rw [entries_erase, entries_set_of_notMem hk, List.filter_append, List.filter_cons_of_neg (by simp),
    List.filter_nil, List.append_nil, List.filter_eq_self]
  intro e he
  have hne : e.1 ≠ k := fun heq => hk (heq ▸ List.mem_map_of_mem he)
  simpa using hne

/-- Of two new keys the first is deleted, and the second stays. -/
theorem erase_set_set {d : Dict κ ν} {k k' : κ} (hne : k ≠ k') (hk : k ∉ d.keys) (hk' : k' ∉ d.keys)
    (v v' : ν) : ((d.set k v).set k' v').erase k = d.set k' v' := by
  have hnot : k' ∉ (d.set k v).keys := by
    rw [mem_keys_set, not_or]
    exact ⟨hne.symm, hk'⟩
  have hold : (d.set k v).entries.filter (fun e => e.1 ≠ k) = d.entries :=
    congrArg entries (erase_set hk v)
  refine ext ?_
  rw [entries_erase, entries_set_of_notMem hnot, List.filter_append, hold,
    List.filter_cons_of_pos (by simpa using hne.symm), List.filter_nil, entries_set_of_notMem hk']

/-- Writing to one key and deleting another do not see each other. -/
theorem erase_set_of_ne {k k' : κ} (hne : k ≠ k') (d : Dict κ ν) (v : ν) :
    (d.set k v).erase k' = (d.erase k').set k v := by
  have hlist : ∀ l : List (κ × ν), (setEntries k v l).filter (fun e => e.1 ≠ k')
      = setEntries k v (l.filter (fun e => e.1 ≠ k')) := by
    intro l
    induction l with
    | nil => exact List.filter_cons_of_pos (by simpa using hne)
    | cons e l ih =>
      rw [setEntries]
      by_cases he : e.1 = k
      · rw [if_pos he, List.filter_cons_of_pos (by simpa using hne),
          List.filter_cons_of_pos (by simpa [he] using hne), setEntries, if_pos he]
      · rw [if_neg he]
        by_cases he' : e.1 = k'
        · rw [List.filter_cons_of_neg (by simpa using he'), ih,
            List.filter_cons_of_neg (by simpa using he')]
        · rw [List.filter_cons_of_pos (by simpa using he'), ih,
            List.filter_cons_of_pos (by simpa using he'), setEntries, if_neg he]
  exact ext (hlist d.entries)

/-- Deleting several keys, one after the other. -/
def eraseAll (d : Dict κ ν) (ks : List κ) : Dict κ ν := ks.foldl erase d

@[simp] theorem eraseAll_nil (d : Dict κ ν) : d.eraseAll [] = d := rfl

@[simp] theorem eraseAll_cons (d : Dict κ ν) (k : κ) (ks : List κ) :
    d.eraseAll (k :: ks) = (d.erase k).eraseAll ks := rfl

theorem eraseAll_append (d : Dict κ ν) (ks ks' : List κ) :
    d.eraseAll (ks ++ ks') = (d.eraseAll ks).eraseAll ks' :=
  List.foldl_append

/-- A lookup after several deletions. -/
theorem get?_eraseAll (d : Dict κ ν) (ks : List κ) (k : κ) :
    (d.eraseAll ks).get? k = if k ∈ ks then none else d.get? k := by
  induction ks generalizing d with
  | nil => simp
  | cons k' ks ih =>
    rw [eraseAll_cons, ih, get?_erase]
    by_cases h : k ∈ ks <;> by_cases h' : k = k' <;> simp [h, h']

end Dict
