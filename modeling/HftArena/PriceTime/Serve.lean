import Mathlib.Algebra.BigOperators.Group.List.Basic
import Mathlib.Algebra.Order.Ring.Int
import Mathlib.Data.List.Nodup

/-!
# Serving a quantity from a queue

The arithmetic of matching, with nothing of a matching engine in it. A queue
holds amounts under keys; a request is served from its front, each amount
giving `min want amount`, until nothing is wanted or nothing is left. What the
trades took, what stays in the queue and what stays unfilled account for each
other exactly (`total_trades_add_unfilled`, `amountOf_serve`), and a request
served from two queues in a row is a request served from their concatenation
(`serve_append`) – which is what lets a loop over levels be read as a walk
along one queue.

The amounts are integers and are required positive only where it matters: a
request of nothing, or of less, is served nothing. Keys may occur several
times; where they do not, the trades alone determine what is left
(`left_eq_filterMap_settle`), and this is where a queue and a list of all
orders come together.

Every proof about `serve` is by `serve_induction`, whose four cases are those
of the definition with `min` out of the way.
-/

namespace PriceTime

variable {κ : Type}

/-- **What serving a request leaves.** -/
structure Served (κ : Type) where
  /-- The trades made, first served first: whose amount, and how much of it. -/
  trades : List (κ × ℤ)
  /-- What stays in the queue. -/
  left : List (κ × ℤ)
  /-- What of the request stays unfilled. -/
  unfilled : ℤ
  /-- The keys whose whole amount went. -/
  gone : List κ

/-- **Serving a request from the front of a queue.** Each amount gives the
smaller of what is wanted and what it holds; an amount that is used up leaves
the queue, and one that is not keeps its place with what is left of it. -/
def serve (want : ℤ) : List (κ × ℤ) → Served κ
  | [] => ⟨[], [], want, []⟩
  | (k, a) :: q =>
    if want ≤ 0 then ⟨[], (k, a) :: q, want, []⟩
    else if a ≤ min want a then
      let r := serve (want - min want a) q
      ⟨(k, min want a) :: r.trades, r.left, r.unfilled, k :: r.gone⟩
    else ⟨[(k, min want a)], (k, a - min want a) :: q, want - min want a, []⟩

/-- The amounts of a queue are positive. -/
def Positive (q : List (κ × ℤ)) : Prop := ∀ e ∈ q, 0 < e.2

/-- The sum of the amounts of a queue. -/
def total (q : List (κ × ℤ)) : ℤ := (q.map Prod.snd).sum

/-- The sum of the amounts a queue holds under one key. -/
def amountOf [DecidableEq κ] (k : κ) (q : List (κ × ℤ)) : ℤ :=
  total (q.filter (fun e => e.1 = k))

@[simp] theorem total_nil : total ([] : List (κ × ℤ)) = 0 := rfl

@[simp] theorem total_cons (e : κ × ℤ) (q : List (κ × ℤ)) :
    total (e :: q) = e.2 + total q := by
  simp [total]

@[simp] theorem total_append (q q' : List (κ × ℤ)) :
    total (q ++ q') = total q + total q' := by
  simp [total]

section AmountOf

variable [DecidableEq κ]

@[simp] theorem amountOf_nil (k : κ) : amountOf k [] = 0 := rfl

@[simp] theorem amountOf_cons (k : κ) (e : κ × ℤ) (q : List (κ × ℤ)) :
    amountOf k (e :: q) = (if e.1 = k then e.2 else 0) + amountOf k q := by
  unfold amountOf
  by_cases h : e.1 = k <;> simp [h]

@[simp] theorem amountOf_append (k : κ) (q q' : List (κ × ℤ)) :
    amountOf k (q ++ q') = amountOf k q + amountOf k q' := by
  simp [amountOf]

/-- Nothing is held under a key that does not occur. -/
theorem amountOf_eq_zero {k : κ} {q : List (κ × ℤ)} (h : k ∉ q.map Prod.fst) :
    amountOf k q = 0 := by
  unfold amountOf
  rw [List.filter_eq_nil_iff.mpr, total_nil]
  intro e he hek
  have hk : e.1 = k := by simpa using hek
  exact h (hk ▸ List.mem_map_of_mem he)

end AmountOf

/-! ## The three cases of a walk

Nothing is wanted any more, an order is used up, or it is the last one and has
something left. -/

@[simp] theorem serve_nil (want : ℤ) : serve want ([] : List (κ × ℤ)) = ⟨[], [], want, []⟩ :=
  rfl

/-- Nothing wanted, nothing served. -/
theorem serve_of_nonpos {want : ℤ} (h : want ≤ 0) (q : List (κ × ℤ)) :
    serve want q = ⟨[], q, want, []⟩ := by
  cases q with
  | nil => rfl
  | cons e q => rw [serve, if_pos h]

/-- An amount that does not exceed what is wanted is used up. -/
theorem serve_cons_of_le {want a : ℤ} (hw : 0 < want) (h : a ≤ want) (k : κ)
    (q : List (κ × ℤ)) :
    serve want ((k, a) :: q)
      = ⟨(k, a) :: (serve (want - a) q).trades, (serve (want - a) q).left,
          (serve (want - a) q).unfilled, k :: (serve (want - a) q).gone⟩ := by
  rw [serve, if_neg (not_le.mpr hw), min_eq_right h, if_pos le_rfl]

/-- An amount that exceeds what is wanted keeps its place. -/
theorem serve_cons_of_lt {want a : ℤ} (hw : 0 < want) (h : want < a) (k : κ)
    (q : List (κ × ℤ)) :
    serve want ((k, a) :: q) = ⟨[(k, want)], (k, a - want) :: q, 0, []⟩ := by
  rw [serve, if_neg (not_le.mpr hw), min_eq_left h.le, if_neg (not_le.mpr h), sub_self]

/-- **Induction along a walk**: the queue is used up, nothing is wanted, or the
front amount is used up or not. In the third case the walk goes on with what is
still wanted. -/
theorem serve_induction {P : ℤ → List (κ × ℤ) → Prop}
    (nil : ∀ want, P want [])
    (stop : ∀ want e q, want ≤ 0 → P want (e :: q))
    (whole : ∀ want k a q, 0 < want → a ≤ want → P (want - a) q → P want ((k, a) :: q))
    (part : ∀ want k a q, 0 < want → want < a → P want ((k, a) :: q)) :
    ∀ want q, P want q := by
  intro want q
  induction q generalizing want with
  | nil => exact nil want
  | cons e q ih =>
    rcases le_or_gt want 0 with hw | hw
    · exact stop want e q hw
    · rcases le_or_gt e.2 want with ha | ha
      · exact whole want e.1 e.2 q hw ha (ih (want - e.2))
      · exact part want e.1 e.2 q hw ha

/-! ## What the walk conserves

The balance of the request is over all orders, and that of the orders is for
each key: under it there is what the trades have not taken. -/

/-- **What is wanted is traded or unfilled.** -/
theorem total_trades_add_unfilled (want : ℤ) (q : List (κ × ℤ)) :
    total (serve want q).trades + (serve want q).unfilled = want := by
  induction want, q using serve_induction with
  | nil want => simp
  | stop want e q hw => rw [serve_of_nonpos hw]; simp
  | whole want k a q hw ha ih => rw [serve_cons_of_le hw ha, total_cons]; dsimp only; omega
  | part want k a q hw ha => rw [serve_cons_of_lt hw ha]; simp

/-- **What a key held is traded or left**, in sum if the key occurs several
times. -/
theorem amountOf_serve [DecidableEq κ] (k : κ) (want : ℤ) (q : List (κ × ℤ)) :
    amountOf k (serve want q).trades + amountOf k (serve want q).left = amountOf k q := by
  induction want, q using serve_induction with
  | nil want => simp
  | stop want e q hw => rw [serve_of_nonpos hw]; simp
  | whole want k' a q hw ha ih =>
    rw [serve_cons_of_le hw ha, amountOf_cons, amountOf_cons]
    dsimp only
    omega
  | part want k' a q hw ha =>
    rw [serve_cons_of_lt hw ha, amountOf_cons, amountOf_cons, amountOf_cons, amountOf_nil]
    dsimp only
    split_ifs <;> omega

/-- A request is not overfilled. -/
theorem unfilled_nonneg {want : ℤ} (h : 0 ≤ want) (q : List (κ × ℤ)) :
    0 ≤ (serve want q).unfilled := by
  induction want, q using serve_induction with
  | nil want => exact h
  | stop want e q hw => rw [serve_of_nonpos hw]; exact h
  | whole want k a q hw ha ih => rw [serve_cons_of_le hw ha]; exact ih (by omega)
  | part want k a q hw ha => rw [serve_cons_of_lt hw ha]

/-- **Something unfilled, nothing left**: the walk stops early only when
nothing more is wanted. -/
theorem left_eq_nil_of_unfilled_pos {want : ℤ} {q : List (κ × ℤ)}
    (h : 0 < (serve want q).unfilled) : (serve want q).left = [] := by
  induction want, q using serve_induction with
  | nil want => rfl
  | stop want e q hw => rw [serve_of_nonpos hw] at h; exact absurd h (not_lt.mpr hw)
  | whole want k a q hw ha ih => rw [serve_cons_of_le hw ha] at h ⊢; exact ih h
  | part want k a q hw ha => rw [serve_cons_of_lt hw ha] at h; exact absurd h (lt_irrefl _)

/-- Each trade is of at least one and of no more than what was wanted. -/
theorem trades_bounds {want : ℤ} {q : List (κ × ℤ)} (hq : Positive q) :
    ∀ t ∈ (serve want q).trades, 0 < t.2 ∧ t.2 ≤ want := by
  induction want, q using serve_induction with
  | nil want => simp
  | stop want e q hw => rw [serve_of_nonpos hw]; simp
  | whole want k a q hw ha ih =>
    have ha0 : 0 < a := hq (k, a) List.mem_cons_self
    rw [serve_cons_of_le hw ha]
    intro t ht
    rcases List.mem_cons.mp ht with rfl | ht
    · exact ⟨ha0, ha⟩
    · have := ih (fun e he => hq e (List.mem_cons_of_mem _ he)) t ht
      omega
  | part want k a q hw ha =>
    rw [serve_cons_of_lt hw ha]
    intro t ht
    rw [List.mem_singleton.mp ht]
    exact ⟨hw, le_rfl⟩

/-- What stays in the queue is positive. -/
theorem positive_left {want : ℤ} {q : List (κ × ℤ)} (hq : Positive q) :
    Positive (serve want q).left := by
  induction want, q using serve_induction with
  | nil want => exact hq
  | stop want e q hw => rw [serve_of_nonpos hw]; exact hq
  | whole want k a q hw ha ih =>
    rw [serve_cons_of_le hw ha]
    exact ih (fun e he => hq e (List.mem_cons_of_mem _ he))
  | part want k a q hw ha =>
    rw [serve_cons_of_lt hw ha]
    intro e he
    rcases List.mem_cons.mp he with rfl | he
    · exact Int.sub_pos_of_lt ha
    · exact hq e (List.mem_cons_of_mem _ he)

/-- **The keys that go are the front of the queue**, and the others stay in
their order. -/
theorem gone_append_left (want : ℤ) (q : List (κ × ℤ)) :
    (serve want q).gone ++ (serve want q).left.map Prod.fst = q.map Prod.fst := by
  induction want, q using serve_induction with
  | nil want => rfl
  | stop want e q hw => rw [serve_of_nonpos hw]; rfl
  | whole want k a q hw ha ih =>
    rw [serve_cons_of_le hw ha, List.cons_append, ih]
    rfl
  | part want k a q hw ha => rw [serve_cons_of_lt hw ha]; rfl

/-- Only keys of the queue are traded. -/
theorem map_fst_trades_subset (want : ℤ) (q : List (κ × ℤ)) :
    (serve want q).trades.map Prod.fst ⊆ q.map Prod.fst := by
  induction want, q using serve_induction with
  | nil want => simp
  | stop want e q hw => rw [serve_of_nonpos hw]; simp
  | whole want k a q hw ha ih =>
    rw [serve_cons_of_le hw ha, List.map_cons, List.map_cons]
    exact List.cons_subset_cons k ih
  | part want k a q hw ha => rw [serve_cons_of_lt hw ha]; simp

/-! ## Queues in a row

What the first queue leaves unfilled is the request to the second. -/

/-- **Two queues in a row are one queue.** The second is reached exactly when
the first is used up. -/
theorem serve_append (want : ℤ) (q q' : List (κ × ℤ)) :
    serve want (q ++ q')
      = if (serve want q).left = [] then
          ⟨(serve want q).trades ++ (serve (serve want q).unfilled q').trades,
            (serve (serve want q).unfilled q').left,
            (serve (serve want q).unfilled q').unfilled,
            (serve want q).gone ++ (serve (serve want q).unfilled q').gone⟩
        else
          ⟨(serve want q).trades, (serve want q).left ++ q', (serve want q).unfilled,
            (serve want q).gone⟩ := by
  induction want, q using serve_induction with
  | nil want => rw [List.nil_append, serve_nil, if_pos rfl]; rfl
  | stop want e q hw => rw [serve_of_nonpos hw, serve_of_nonpos hw, if_neg (by simp)]
  | whole want k a q hw ha ih =>
    rw [List.cons_append, serve_cons_of_le hw ha, serve_cons_of_le hw ha, ih]
    dsimp only
    split_ifs <;> rfl
  | part want k a q hw ha =>
    rw [List.cons_append, serve_cons_of_lt hw ha, serve_cons_of_lt hw ha, if_neg (by simp)]
    rfl

/-- Renaming the keys of a queue renames them in everything that is served: a
walk looks at amounts only. -/
theorem serve_map {κ' : Type} (f : κ → κ') (want : ℤ) (q : List (κ × ℤ)) :
    serve want (q.map (Prod.map f id))
      = ⟨(serve want q).trades.map (Prod.map f id), (serve want q).left.map (Prod.map f id),
          (serve want q).unfilled, (serve want q).gone.map f⟩ := by
  induction want, q using serve_induction with
  | nil want => rfl
  | stop want e q hw => rw [serve_of_nonpos hw, serve_of_nonpos hw]; rfl
  | whole want k a q hw ha ih =>
    rw [List.map_cons, Prod.map_apply, id, serve_cons_of_le hw ha, serve_cons_of_le hw ha, ih]
    rfl
  | part want k a q hw ha =>
    rw [List.map_cons, Prod.map_apply, id, serve_cons_of_lt hw ha, serve_cons_of_lt hw ha]
    rfl

/-! ## The queue that is left, from the trades

Where no key occurs twice the trades alone say what became of each amount: it
holds what the trades did not take, and leaves the queue when that is nothing. -/

section Settle

variable [DecidableEq κ]

/-- **What the trades leave of an entry**: nothing if they took it all. -/
def settle (trades : List (κ × ℤ)) (e : κ × ℤ) : Option (κ × ℤ) :=
  if e.2 - amountOf e.1 trades ≤ 0 then none
  else some (e.1, e.2 - amountOf e.1 trades)

/-- An entry that is not traded stays as it is. -/
theorem settle_of_notMem {trades : List (κ × ℤ)} {e : κ × ℤ} (he : 0 < e.2)
    (h : e.1 ∉ trades.map Prod.fst) : settle trades e = some e := by
  unfold settle
  rw [amountOf_eq_zero h, sub_zero, if_neg (not_le.mpr he)]

/-- A queue none of whose keys is traded stays as it is. -/
theorem filterMap_settle_of_disjoint {trades q : List (κ × ℤ)} (hq : Positive q)
    (h : ∀ e ∈ q, e.1 ∉ trades.map Prod.fst) : q.filterMap (settle trades) = q := by
  rw [List.filterMap_congr (g := some), List.filterMap_some]
  exact fun e he => settle_of_notMem (hq e he) (h e he)

/-- A trade under a key that an entry does not have leaves the entry to the
other trades. -/
theorem settle_cons_of_ne {t : κ × ℤ} {trades : List (κ × ℤ)} {e : κ × ℤ}
    (h : t.1 ≠ e.1) : settle (t :: trades) e = settle trades e := by
  unfold settle
  rw [amountOf_cons, if_neg h, zero_add]

/-- **What is left is what the trades leave**, entry by entry and in place. -/
theorem left_eq_filterMap_settle {want : ℤ} {q : List (κ × ℤ)} (hq : Positive q)
    (hnodup : (q.map Prod.fst).Nodup) :
    (serve want q).left = q.filterMap (settle (serve want q).trades) := by
  induction want, q using serve_induction with
  | nil want => rfl
  | stop want e q hw =>
    rw [serve_of_nonpos hw]
    exact (filterMap_settle_of_disjoint hq (by simp)).symm
  | whole want k a q hw ha ih =>
    rw [List.map_cons, List.nodup_cons] at hnodup
    have hk : k ∉ (serve (want - a) q).trades.map Prod.fst :=
      fun h => hnodup.1 (map_fst_trades_subset _ _ h)
    rw [serve_cons_of_le hw ha]
    dsimp only
    have hself : settle ((k, a) :: (serve (want - a) q).trades) (k, a) = none := by
      unfold settle
      rw [amountOf_cons, if_pos rfl, amountOf_eq_zero hk]
      simp
    rw [List.filterMap_cons, hself,
      ih (fun e he => hq e (List.mem_cons_of_mem _ he)) hnodup.2]
    refine List.filterMap_congr (fun e he => (settle_cons_of_ne ?_).symm)
    exact fun h => hnodup.1 (h ▸ List.mem_map_of_mem he)
  | part want k a q hw ha =>
    rw [List.map_cons, List.nodup_cons] at hnodup
    rw [serve_cons_of_lt hw ha]
    have hself : settle [(k, want)] (k, a) = some (k, a - want) := by
      unfold settle
      rw [amountOf_cons, if_pos rfl, amountOf_nil, add_zero,
        if_neg (not_le.mpr (Int.sub_pos_of_lt ha))]
    rw [List.filterMap_cons, hself, filterMap_settle_of_disjoint]
    · exact fun e he => hq e (List.mem_cons_of_mem _ he)
    · intro e he h
      rw [List.map_cons, List.map_nil, List.mem_singleton] at h
      exact hnodup.1 (h ▸ List.mem_map_of_mem he)

end Settle

end PriceTime
