import HftArena.Lib.StableSort
import HftArena.PriceTime.Book

/-!
# Price-time priority, from the order of arrival

What price-time priority means, without a book: a list of the orders that rest,
in the order in which they came to rest, and nothing else. An aggressive order
is executed greedily along the *priority list* of the other side – the orders
of that side sorted by price, best first, by a sort that is stable, so that
orders of one price keep the order in which they came (`priority`) – and what
its fills leave of each resting order stays where it was in the list
(`settle`). An order that comes to rest goes to the back of the list.

This is the specification in the words of an exchange's rule book. It names no
level and no queue, and no order is moved by what happens to another.

`Book.Arrived` says that a book shows such a list, level by level, and
`Book.Arrived.step` that every call keeps it so, with the same fills. The two
have nothing in common but the walk along a queue (`serve`): ladders and levels
here, one list there. That they agree rests on one equation
(`Book.Arrived.flat_eq`): a ladder laid end to end is sorted by price and keeps
the order of arrival within a price, and so does a stable sort of the list,
which is determined by that.
-/

namespace PriceTime

variable {ι : Type}

/-- **An order that rests**, with what is left of its quantity. -/
structure Order (ι : Type) where
  id : ι
  side : Side
  px : ℤ
  qty : ℤ
deriving DecidableEq, Repr

namespace Side

/-- The rank of a price on a side: the better, the lower. -/
def rank : Side → ℤ → ℤ
  | bid, p => -p
  | ask, p => p

/-- Better is lower in rank. -/
theorem better_iff_rank_lt {s : Side} {p p' : ℤ} : s.better p p' ↔ s.rank p < s.rank p' := by
  cases s
  · exact Int.neg_lt_neg_iff.symm
  · exact Iff.rfl

/-- Different prices have different ranks. -/
theorem rank_inj {s : Side} {p p' : ℤ} : s.rank p = s.rank p' ↔ p = p' := by
  cases s
  · exact neg_inj
  · exact Iff.rfl

theorem rank_rank (s : Side) (k : ℤ) : s.rank (s.rank k) = k := by
  cases s
  · exact neg_neg k
  · rfl

end Side

namespace Arrival

/-- **The priority list of a side**: its orders, best price first, and within
one price in the order in which they came to rest. -/
def priority (s : Side) (orders : List (Order ι)) : List (Order ι) :=
  sortBy (fun o => s.rank o.px) (orders.filter (fun o => o.side = s))

/-- What an order offers, under its price and its identifier. -/
def entry (o : Order ι) : (ℤ × ι) × ℤ := ((o.px, o.id), o.qty)

/-- **Greedy execution**: along the other side's priority list, up to the first
price beyond the limit. Each order in turn gives what it has or what is still
wanted, whichever is less. -/
def execute (orders : List (Order ι)) (side : Side) (limit : Option ℤ) (qty : ℤ) :
    Served (ℤ × ι) :=
  serve qty
    (((priority side.opp orders).takeWhile (fun o => side.opp.reaches limit o.px)).map entry)

/-- The fills of an execution: at the maker's price, from the maker. -/
def fills (orders : List (Order ι)) (side : Side) (limit : Option ℤ) (qty : ℤ) :
    List (Fill ι) :=
  (execute orders side limit qty).trades.map Ladder.fillOf

variable [DecidableEq ι]

/-- **What fills leave of an order**: its unfilled part, in its place, or
nothing. The fills are looked up by the maker they name. -/
def settle (fills : List (Fill ι)) (o : Order ι) : Option (Order ι) :=
  if o.qty - Ladder.taken o.id fills ≤ 0 then none
  else some { o with qty := o.qty - Ladder.taken o.id fills }

/-- One call, on the list of the orders that rest. The list after it is made
from the fills, and the fills from the list before it. -/
def step (orders : List (Order ι)) : Call ι → List (Order ι) × List (Fill ι)
  | .limit oid side px qty =>
    let left := orders.filterMap (settle (fills orders side (some px) qty))
    let unfilled := (execute orders side (some px) qty).unfilled
    (if 0 < unfilled then left ++ [⟨oid, side, px, unfilled⟩] else left,
      fills orders side (some px) qty)
  | .market _ side qty =>
    (orders.filterMap (settle (fills orders side none qty)), fills orders side none qty)
  | .cancel target => (orders.filter (fun o => o.id ≠ target), [])

end Arrival

/-! ## The queues of a list of orders

The orders of a side and a price, in the order of the list, are what a book has
in its queue there. -/

/-- The orders of a list that rest at a price, as a queue. -/
def queueOf (orders : List (Order ι)) (s : Side) (p : ℤ) : List (ι × ℤ) :=
  (orders.filter (fun o => o.side = s ∧ o.px = p)).map (fun o => (o.id, o.qty))

/-- The queue of a price is read off part by part. -/
theorem queueOf_append (orders orders' : List (Order ι)) (s : Side) (p : ℤ) :
    queueOf (orders ++ orders') s p = queueOf orders s p ++ queueOf orders' s p := by
  simp [queueOf]

theorem queueOf_cons (o : Order ι) (orders : List (Order ι)) (s : Side) (p : ℤ) :
    queueOf (o :: orders) s p
      = if o.side = s ∧ o.px = p then (o.id, o.qty) :: queueOf orders s p
        else queueOf orders s p := by
  unfold queueOf
  by_cases h : o.side = s ∧ o.px = p
  · rw [if_pos h, List.filter_cons_of_pos (by simpa using h), List.map_cons]
  · rw [if_neg h, List.filter_cons_of_neg (by simpa using h)]

namespace Ladder

/-- A well-formed ladder laid end to end is sorted by rank: its levels are in
the order of their prices. -/
theorem WF.sortedBy_flat {s : Side} {L : Ladder ι} (h : WF s L) :
    SortedBy (fun e : (ℤ × ι) × ℤ => s.rank e.1.1) (flat L) := by
  induction L with
  | nil => exact List.Pairwise.nil
  | cons l L ih =>
    refine List.pairwise_append.mpr ⟨?_, ih h.tail, ?_⟩
    · refine List.pairwise_map.mpr (List.pairwise_of_forall fun _ _ => le_rfl)
    · rintro e he ⟨⟨p, i⟩, a⟩ he'
      obtain ⟨e', -, rfl⟩ := List.mem_map.mp he
      have hp : p ∈ prices L := by
        rw [h.tail.mem_prices_iff]
        exact List.ne_nil_of_mem (mem_flat_iff.mp he')
      exact (Side.better_iff_rank_lt.mp (h.better_of_mem p hp)).le

/-- What it has at a price is the queue there. -/
theorem filter_flat (L : Ladder ι) (p : ℤ) :
    (flat L).filter (fun e => e.1.1 = p) = (queueAt L p).map (Prod.map (p, ·) id) := by
  induction L with
  | nil => rfl
  | cons l L ih =>
    rw [flat_cons, queueAt_cons, List.filter_append, ih, List.map_append, List.filter_map]
    refine congrArg (· ++ _) ?_
    by_cases hp : l.1 = p
    · rw [if_pos hp, List.filter_eq_self.mpr (fun e _ => by simpa using hp), hp]
    · rw [if_neg hp, List.filter_eq_nil_iff.mpr (fun e _ => by simpa using hp)]
      rfl

/-- Within reach, level by level or order by order. -/
theorem WF.flat_takeWhile {s : Side} {L : Ladder ι} (h : WF s L) (reach : ℤ → Bool) :
    flat (L.takeWhile (fun l => reach l.1)) = (flat L).takeWhile (fun e => reach e.1.1) := by
  induction L with
  | nil => rfl
  | cons l L ih =>
    obtain ⟨p, q⟩ := l
    by_cases hp : reach p = true
    · rw [List.takeWhile_cons_of_pos (by simpa using hp), flat_cons, flat_cons,
        List.takeWhile_append_of_pos, ih h.tail]
      intro e he
      obtain ⟨e', -, rfl⟩ := List.mem_map.mp he
      exact hp
    · obtain ⟨e, q', hq⟩ := List.exists_cons_of_ne_nil (h.nonempty _ List.mem_cons_self)
      dsimp only at hq
      rw [List.takeWhile_cons_of_neg (by simpa using hp), flat_cons, hq, List.map_cons,
        List.cons_append, List.takeWhile_cons_of_neg (by simpa using hp)]
      rfl

/-! ### What fills leave of a queue

To settle the fills order by order, or queue by queue, is the same, since a
fill names the order that it takes from. -/

variable [DecidableEq ι]

/-- What fills leave of an entry of a queue, as `settle` has it of an order. -/
def settleEntry (fills : List (Fill ι)) (e : ι × ℤ) : Option (ι × ℤ) :=
  if e.2 - taken e.1 fills ≤ 0 then none else some (e.1, e.2 - taken e.1 fills)

/-- Nothing is taken of an order that no fill names. -/
theorem taken_eq_zero {i : ι} {fills : List (Fill ι)} (h : ∀ f ∈ fills, f.maker ≠ i) :
    taken i fills = 0 := by
  unfold taken
  rw [List.filter_eq_nil_iff.mpr (fun f hf => by simpa using h f hf)]
  rfl

/-- Fills that name none of its orders leave a queue as it is. -/
theorem filterMap_settleEntry_of_disjoint {fills : List (Fill ι)} {q : List (ι × ℤ)}
    (hq : Positive q) (h : ∀ f ∈ fills, f.maker ∉ q.map Prod.fst) :
    q.filterMap (settleEntry fills) = q := by
  rw [List.filterMap_congr (g := some), List.filterMap_some]
  intro e he
  have htaken : taken e.1 fills = 0 :=
    taken_eq_zero (fun f hf heq => h f hf (heq ▸ List.mem_map_of_mem he))
  unfold settleEntry
  rw [htaken, sub_zero, if_neg (not_le.mpr (hq e he))]

/-- At one level, the fills leave what the walk leaves. Identifiers have to be
told apart for this: fills that name two orders at once would be taken from
both. -/
theorem filterMap_settleEntry_level {want p : ℤ} {q : List (ι × ℤ)} (hq : Positive q)
    (hnodup : (q.map Prod.fst).Nodup) {fs : List (Fill ι)}
    (h : ∀ f ∈ fs, f.maker ∉ q.map Prod.fst) :
    q.filterMap (settleEntry (fillsAt p (serve want q).trades ++ fs)) = (serve want q).left := by
  rw [left_eq_filterMap_settle hq hnodup]
  refine List.filterMap_congr (fun e he => ?_)
  have hfs : taken e.1 fs = 0 :=
    taken_eq_zero (fun f hf heq => h f hf (heq ▸ List.mem_map_of_mem he))
  unfold settleEntry PriceTime.settle
  rw [taken_append, taken_fillsAt, hfs, add_zero]

/-- **A sweep leaves of each level what its fills leave.** -/
theorem WF.queueAt_sweep {s : Side} {L : Ladder ι} (h : WF s L) (hnodup : (ids L).Nodup)
    (reach : ℤ → Bool) (want p : ℤ) :
    queueAt (Ladder.sweep reach want L).left p
      = (queueAt L p).filterMap (settleEntry (Ladder.sweep reach want L).fills) := by
  have hids : ∀ (M : Ladder ι) (p : ℤ), ∀ i ∈ (queueAt M p).map Prod.fst, i ∈ ids M :=
    fun M p i hi => mem_ids_iff.mpr ⟨p, hi⟩
  have hmakers : ∀ p' want (q : List (ι × ℤ)), ∀ f ∈ fillsAt p' (serve want q).trades,
      f.maker ∈ q.map Prod.fst := by
    intro p' want q f hf
    obtain ⟨t, ht, rfl⟩ := List.mem_map.mp hf
    exact map_fst_trades_subset _ _ (List.mem_map_of_mem ht)
  induction want, L using sweep_induction reach with
  | nil want => rfl
  | stop want p' q L hstop =>
    rw [sweep_of_stop hstop]
    exact (filterMap_settleEntry_of_disjoint (h.positive_queueAt p) (by simp)).symm
  | whole want p' q L hw hp hq ih =>
    rw [ids_cons, List.nodup_append] at hnodup
    obtain ⟨hnodup_q, hnodup_L, hdisj⟩ := hnodup
    have hpos : Positive q := h.positive _ List.mem_cons_self
    -- later fills are from orders of later levels
    have hlater : ∀ f ∈ (Ladder.sweep reach (serve want q).unfilled L).fills,
        f.maker ∉ q.map Prod.fst := fun f hf hmem =>
      hdisj f.maker hmem f.maker (fill_bounds h.tail reach _ f hf).2.1 rfl
    rw [sweep_of_nil hw hp hq, queueAt_cons, List.filterMap_append, ih h.tail hnodup_L]
    have hfirst : (if p' = p then q else []).filterMap (settleEntry
        (fillsAt p' (serve want q).trades
          ++ (Ladder.sweep reach (serve want q).unfilled L).fills)) = [] := by
      split_ifs
      · rw [filterMap_settleEntry_level hpos hnodup_q hlater, hq]
      · rfl
    rw [hfirst, List.nil_append]
    refine List.filterMap_congr (fun e he => ?_)
    have htaken : taken e.1 (fillsAt p' (serve want q).trades) = 0 := by
      refine taken_eq_zero (fun f hf heq => ?_)
      exact hdisj f.maker (hmakers _ _ _ f hf) e.1 (hids L p _ (List.mem_map_of_mem he)) heq
    unfold settleEntry
    rw [taken_append, htaken, zero_add]
  | part want p' q L hw hp hq =>
    rw [ids_cons, List.nodup_append] at hnodup
    obtain ⟨hnodup_q, -, hdisj⟩ := hnodup
    have hpos : Positive q := h.positive _ List.mem_cons_self
    rw [sweep_of_ne_nil hw hp hq, queueAt_cons, queueAt_cons, List.filterMap_append]
    have hfirst : (if p' = p then q else []).filterMap
        (settleEntry (fillsAt p' (serve want q).trades))
        = if p' = p then (serve want q).left else [] := by
      split_ifs
      · have hlevel : q.filterMap (settleEntry (fillsAt p' (serve want q).trades ++ []))
            = (serve want q).left := filterMap_settleEntry_level hpos hnodup_q (by simp)
        rwa [List.append_nil] at hlevel
      · rfl
    rw [hfirst, filterMap_settleEntry_of_disjoint (h.tail.positive_queueAt p)]
    intro f hf hmem
    exact hdisj f.maker (hmakers _ _ _ f hf) f.maker (hids L p _ hmem) rfl

/-- The queues of what is left are what is left of the queues. -/
theorem queueOf_filterMap_settle (fills : List (Fill ι)) (orders : List (Order ι)) (s : Side)
    (p : ℤ) : queueOf (orders.filterMap (Arrival.settle fills)) s p
      = (queueOf orders s p).filterMap (settleEntry fills) := by
  induction orders with
  | nil => rfl
  | cons o orders ih =>
    by_cases hgone : o.qty - taken o.id fills ≤ 0
    · have hsettle : Arrival.settle fills o = none := if_pos hgone
      rw [List.filterMap_cons, hsettle, queueOf_cons, ih]
      split_ifs
      · rw [List.filterMap_cons, settleEntry, if_pos hgone]
      · rfl
    · have hsettle : Arrival.settle fills o
          = some { o with qty := o.qty - taken o.id fills } := if_neg hgone
      rw [List.filterMap_cons, hsettle, queueOf_cons, queueOf_cons, ih]
      split_ifs
      · rw [List.filterMap_cons, settleEntry, if_neg hgone]
      · rfl

end Ladder

/-! ## Books and lists of orders

A step of the book and a step of the list give the same fills, and the book
shows the list again. By induction this holds of every history. -/

namespace Book

open Ladder

/-- **A book shows a list of orders**: every level holds the orders of its
price, in the order in which they came to rest. A price without orders has no
queue. -/
def Arrived (b : Book ι) (orders : List (Order ι)) : Prop :=
  ∀ s p, queueAt (b.ladder s) p = queueOf orders s p

theorem arrived_empty : (empty : Book ι).Arrived [] := fun _ _ => rfl

/-- **The ladder laid end to end is the priority list**: both are sorted by
price, and both keep the order of arrival within a price. -/
theorem Arrived.flat_eq {b : Book ι} (hwf : b.WF) {orders : List (Order ι)}
    (h : b.Arrived orders) (s : Side) :
    flat (b.ladder s) = (Arrival.priority s orders).map Arrival.entry := by
  have hsorted : SortedBy (fun e : (ℤ × ι) × ℤ => s.rank e.1.1)
      ((Arrival.priority s orders).map Arrival.entry) :=
    List.pairwise_map.mpr (sortedBy_sortBy (fun o : Order ι => s.rank o.px) _)
  refine eq_of_sortedBy (hwf.side s).sortedBy_flat hsorted (fun k => ?_)
  obtain ⟨p, rfl⟩ : ∃ p, s.rank p = k := ⟨s.rank k, s.rank_rank k⟩
  have hladder : ofKey (fun e : (ℤ × ι) × ℤ => s.rank e.1.1) (s.rank p) (flat (b.ladder s))
      = (queueAt (b.ladder s) p).map (Prod.map (p, ·) id) := by
    rw [← filter_flat]
    exact List.filter_congr (fun e _ => by simp only [Side.rank_inj])
  have hsort : ofKey (fun e : (ℤ × ι) × ℤ => s.rank e.1.1) (s.rank p)
      ((Arrival.priority s orders).map Arrival.entry)
      = (ofKey (fun o : Order ι => s.rank o.px) (s.rank p)
          (orders.filter (fun o => o.side = s))).map Arrival.entry := by
    rw [← ofKey_sortBy (fun o : Order ι => s.rank o.px), ofKey, List.filter_map]
    rfl
  rw [hladder, hsort, h s p, queueOf, List.map_map, ofKey, List.filter_filter]
  have hfilter : orders.filter (fun o => o.side = s ∧ o.px = p)
      = orders.filter (fun o => decide (s.rank o.px = s.rank p) && decide (o.side = s)) := by
    refine List.filter_congr (fun o _ => ?_)
    simp only [Side.rank_inj, Bool.decide_and, Bool.and_comm]
  rw [← hfilter]
  refine List.map_congr_left (fun o ho => ?_)
  have hpx : o.px = p := by
    have := (List.mem_filter.mp ho).2
    simp only [decide_eq_true_eq] at this
    exact this.2
  rw [Arrival.entry, hpx]
  rfl

/-- **A sweep is a greedy execution along the priority list.** -/
theorem Arrived.sweep_eq {b : Book ι} (hwf : b.WF) {orders : List (Order ι)}
    (h : b.Arrived orders) (side : Side) (limit : Option ℤ) (qty : ℤ) :
    (b.sweep side limit qty).fills = Arrival.fills orders side limit qty
      ∧ (b.sweep side limit qty).unfilled = (Arrival.execute orders side limit qty).unfilled := by
  have hwalk : flat ((b.ladder side.opp).takeWhile (fun l => side.opp.reaches limit l.1))
      = ((Arrival.priority side.opp orders).takeWhile
          (fun o => side.opp.reaches limit o.px)).map Arrival.entry := by
    rw [(hwf.side _).flat_takeWhile (side.opp.reaches limit), h.flat_eq hwf, List.takeWhile_map]
    rfl
  obtain ⟨hfills, -, hunfilled, -⟩ :=
    sweep_eq_serve (side.opp.reaches limit) qty (b.ladder side.opp)
  rw [hwalk] at hfills hunfilled
  exact ⟨hfills, hunfilled⟩

variable [DecidableEq ι]

/-- **Trading leaves the list what its fills leave.** -/
theorem Arrived.put_sweep {b : Book ι} (hwf : b.WF) {orders : List (Order ι)}
    (h : b.Arrived orders) (side : Side) (limit : Option ℤ) (qty : ℤ) :
    (b.put side.opp (b.sweep side limit qty).left).Arrived
      (orders.filterMap (Arrival.settle (Arrival.fills orders side limit qty))) := by
  intro s p
  rw [queueOf_filterMap_settle, ← h s p, ← (h.sweep_eq hwf side limit qty).1]
  by_cases hs : s = side.opp
  · subst hs
    rw [ladder_put_self]
    exact (hwf.side _).queueAt_sweep (hwf.nodup _) _ _ p
  · -- on the taker's side no order is a maker
    have hside : s = side := by
      cases s <;> cases side <;> first | rfl | exact absurd rfl hs
    subst hside
    rw [ladder_put_opp,
      filterMap_settleEntry_of_disjoint ((hwf.side s).positive_queueAt p)]
    intro f hf hmem
    exact hwf.notMem_opp (mem_ids_iff.mpr ⟨p, hmem⟩)
      (fill_bounds (hwf.side s.opp) _ _ f hf).2.1

/-- **Every call keeps the list**, and gives the fills of the list: the book
refines the specification, call by call. -/
theorem Arrived.step {b : Book ι} (hwf : b.WF) {orders : List (Order ι)}
    (h : b.Arrived orders) (c : Call ι) :
    (b.step c).1.Arrived (Arrival.step orders c).1
      ∧ (b.step c).2 = (Arrival.step orders c).2 := by
  cases c with
  | limit oid side px qty =>
    obtain ⟨hfills, hunfilled⟩ := h.sweep_eq hwf side (some px) qty
    have hswept := h.put_sweep hwf side (some px) qty
    refine ⟨?_, hfills⟩
    show (if 0 < (b.sweep side (some px) qty).unfilled then _ else _ : Book ι).Arrived
      (if 0 < (Arrival.execute orders side (some px) qty).unfilled then _ else _)
    rw [hunfilled]
    split_ifs with hun
    · intro s p
      rw [queueOf_append, ← hswept s p, queueOf_cons]
      by_cases hs : s = side
      · subst hs
        rw [ladder_put_self, (hwf.side s).queueAt_rest, ladder_put_opp]
        by_cases hp : p = px
        · rw [if_pos hp, if_pos ⟨rfl, hp.symm⟩]
          rfl
        · rw [if_neg hp, if_neg (fun h => hp h.2.symm)]
          exact (List.append_nil _).symm
      · rw [ladder_put_of_ne hs, if_neg (fun h => hs h.1.symm)]
        exact (List.append_nil _).symm
    · exact hswept
  | market oid side qty =>
    exact ⟨h.put_sweep hwf side none qty, (h.sweep_eq hwf side none qty).1⟩
  | cancel target =>
    refine ⟨fun s p => ?_, rfl⟩
    show queueAt (remove target (b.ladder s)) p = _
    rw [queueAt_remove, h s p]
    unfold queueOf
    rw [List.filter_map]
    show List.map _ _ = List.map _ ((orders.filter _).filter _)
    rw [List.filter_filter, List.filter_filter]
    exact congrArg _ (List.filter_congr (fun o _ => Bool.and_comm _ _))

end Book

end PriceTime
