import HftArena.Lib.Run
import HftArena.PriceTime.Handles
import HftArena.PriceTime.Levels

/-!
# The C++ reference engine: `OrderBook`

The order book of `reference_engine_cpp/engine.cpp`, method by method: two
ordered maps from prices to linked lists, and an index from ids to list
iterators. A list node is modelled with its address, which is what an iterator
to it is; a new node gets an address that no node had before. Reaching through
an iterator whose node is not in the list is undefined behaviour, and an error
here.

Prices and quantities are `long`s, read as integers: the one operation on them
is to take the smaller of two positive quantities from both, which stays within
them.

The book is a book of nodes (`OrderBook.Shows`), for ids of any kind: no call
reaches through an iterator that is not valid, and the loops end. Each method
has one lemma, which says that it does to the book what the operation of the
nodes does to them; the loops have theirs by the rules of `PriceTime.Levels`.
Where ids are kept apart the book of nodes is the price-time-priority book, and
there is nothing more to prove of this engine.
-/

open PriceTime

namespace CppEngine

/-- What can go wrong in a method of the book. -/
inductive CppError where
  /-- An iterator whose node is not in the list. -/
  | invalidIterator
  /-- A loop has not ended. -/
  | diverges
deriving DecidableEq, Repr

/-- A resting order in its list node. -/
structure Resting (ι : Type) where
  /-- The address of the node, which is what an iterator to it holds. -/
  it : ℕ
  id : ι
  qty : ℤ
deriving DecidableEq, Repr

/-- Where the index says an order is. -/
structure Loc where
  /-- `'b'` or `'a'`. -/
  side : Char
  price : ℤ
  it : ℕ
deriving DecidableEq, Repr

/-- **The order book.** Each price level is a list whose order is time
priority. The maps are ordered by price on both sides, so the best bid is
reached from the end. -/
structure OrderBook (ι : Type) where
  /-- Ascending; the best bid is the last. -/
  bids : SortedMap ℤ (List (Resting ι))
  /-- Ascending; the best ask is the first. -/
  asks : SortedMap ℤ (List (Resting ι))
  index : Dict ι Loc
  /-- The address of the next node that is made. -/
  nextNode : ℕ

variable {ι : Type}

/-- The book that a program starts with. -/
def OrderBook.init : OrderBook ι := ⟨.empty, .empty, .empty, 0⟩

/-- `buy ? bids : asks`. -/
def OrderBook.own (b : OrderBook ι) (buy : Bool) : SortedMap ℤ (List (Resting ι)) :=
  if buy then b.bids else b.asks

/-- The book after the map of a side was mutated. -/
def OrderBook.putOwn (b : OrderBook ι) (buy : Bool) (m : SortedMap ℤ (List (Resting ι))) :
    OrderBook ι :=
  if buy then { b with bids := m } else { b with asks := m }

/-- What the loop over the orders of a level mutates. -/
structure LevelState (ι : Type) where
  lvl : List (Resting ι)
  index : Dict ι Loc
  fills : List (Fill ι)
  qty : ℤ

/-- What the loop over the levels mutates. -/
structure MatchState (ι : Type) where
  opp : SortedMap ℤ (List (Resting ι))
  index : Dict ι Loc
  fills : List (Fill ι)
  qty : ℤ

variable [DecidableEq ι]

/-- `rest`: `book[px]` makes the level if there is none, the order goes to its
back, and the index is given an iterator to it. What the index had for the id
is overwritten. -/
def OrderBook.rest (b : OrderBook ι) (id : ι) (buy : Bool) (px qty : ℤ) : OrderBook ι :=
  let book := b.own buy
  let lvl := (book.get? px).getD []
  { b.putOwn buy (book.set px (lvl ++ [⟨b.nextNode, id, qty⟩])) with
    index := b.index.set id ⟨if buy then 'b' else 'a', px, b.nextNode⟩
    nextNode := b.nextNode + 1 }

/-- One turn of `while (qty > 0 && !lvl.empty())`: a trade with the front
order, which is popped and taken out of the index if it is filled. -/
def levelTurn (best : ℤ) (st : LevelState ι) :
    Except CppError (Turn (LevelState ι) (LevelState ι)) :=
  match st.lvl with
  | [] => .ok (.done st)
  | m :: lvl =>
    if 0 < st.qty then
      let trade := if st.qty < m.qty then st.qty else m.qty
      let fills := st.fills ++ [⟨best, trade, m.id⟩]
      let qty := st.qty - trade
      let mqty := m.qty - trade
      if mqty = 0 then .ok (.again ⟨lvl, st.index.erase m.id, fills, qty⟩)
      else .ok (.again ⟨{ m with qty := mqty } :: lvl, st.index, fills, qty⟩)
    else .ok (.done st)

/-- One turn of `while (qty > 0 && !opp.empty())`: the best level, unless it is
beyond the limit, and its removal if it is empty after it was served. -/
def matchTurn (buy : Bool) (limitPx : ℤ) (hasLimit : Bool) (st : MatchState ι) :
    Except CppError (Turn (MatchState ι) (MatchState ι)) :=
  if 0 < st.qty then
    match if buy then st.opp.entries.head? else st.opp.entries.getLast? with
    | none => .ok (.done st)
    | some (best, lvl) =>
      if hasLimit ∧ (if buy then limitPx < best else best < limitPx) then .ok (.done st)
      else do
        let r ← loop .diverges (levelTurn best) (lvl.length + 1) ⟨lvl, st.index, st.fills, st.qty⟩
        let opp := st.opp.set best r.lvl
        .ok (.again ⟨if r.lvl.isEmpty then opp.erase best else opp, r.index, r.fills, r.qty⟩)
  else .ok (.done st)

/-- `match`: the fills, what is left of `qty`, and the book after. -/
def OrderBook.match (b : OrderBook ι) (buy : Bool) (limitPx qty : ℤ) (hasLimit : Bool) :
    Except CppError (List (Fill ι) × ℤ × OrderBook ι) := do
  let opp := b.own !buy
  let st ← loop .diverges (matchTurn buy limitPx hasLimit) (opp.keys.length + 1)
    ⟨opp, b.index, [], qty⟩
  .ok (st.fills, st.qty, { b.putOwn (!buy) st.opp with index := st.index })

/-- `limit`: what is not filled rests. -/
def OrderBook.limit (b : OrderBook ι) (id : ι) (buy : Bool) (px qty : ℤ) :
    Except CppError (OrderBook ι × List (Fill ι)) := do
  let (fills, qty, b') ← b.match buy px qty true
  .ok (if 0 < qty then b'.rest id buy px qty else b', fills)

/-- `market`: what is not filled is dropped. The limit that is passed does not
count. -/
def OrderBook.market (b : OrderBook ι) (buy : Bool) (qty : ℤ) :
    Except CppError (OrderBook ι × List (Fill ι)) := do
  let (fills, _, b') ← b.match buy 0 qty false
  .ok (b', fills)

/-- `lvl.erase(it)`: the iterator must be one of this list. -/
def eraseNode (lvl : List (Resting ι)) (it : ℕ) : Except CppError (List (Resting ι)) :=
  if it ∈ lvl.map Resting.it then .ok (lvl.filter (fun m => m.it ≠ it))
  else .error .invalidIterator

/-- The order at an iterator is erased from the level of its price, if there is
one, and the level with its last order. -/
def eraseAt (book : SortedMap ℤ (List (Resting ι))) (price : ℤ) (it : ℕ) :
    Except CppError (SortedMap ℤ (List (Resting ι))) :=
  match book.get? price with
  | some lvl => do
    let lvl' ← eraseNode lvl it
    let book' := book.set price lvl'
    .ok (if lvl'.isEmpty then book'.erase price else book')
  | none => .ok book

/-- `cancel`: the node that the index names is erased, and the entry with it.
An id that the index does not have changes nothing. -/
def OrderBook.cancel (b : OrderBook ι) (target : ι) : Except CppError (OrderBook ι × Bool) :=
  match b.index.get? target with
  | none => .ok (b, false)
  | some loc => do
    let buy := loc.side == 'b'
    let book ← eraseAt (b.own buy) loc.price loc.it
    .ok ({ b.putOwn buy book with index := b.index.erase target }, true)

/-- One call, with the fills it returns; a cancel returns none. -/
def OrderBook.call (b : OrderBook ι) : Call ι → Except CppError (OrderBook ι × List (Fill ι))
  | .limit oid side px qty => b.limit oid (side == .bid) px qty
  | .market _ side qty => b.market (side == .bid) qty
  | .cancel target => do
    let (b', _) ← b.cancel target
    .ok (b', [])

/-! ## The book of nodes

What a map of lists holds as a ladder of nodes, and the index as one of places.
With it every method becomes an operation of `PriceTime.Handles`. -/

section Reading

omit [DecidableEq ι]

/-- An order of a list, under its address and its id. -/
def Resting.entry (m : Resting ι) : (ℕ × ι) × ℤ := ((m.it, m.id), m.qty)

/-- The place that an entry of the index names. -/
def Loc.place (l : Loc) : Side × ℤ × ℕ := (if l.side = 'b' then .bid else .ask, l.price, l.it)

/-- The flag of a side. -/
def buys (s : Side) : Bool := s == .bid

/-- The place of an entry that `rest` makes. -/
theorem place_mk (s : Side) (px : ℤ) (it : ℕ) :
    Loc.place ⟨if buys s then 'b' else 'a', px, it⟩ = (s, px, it) := by
  cases s <;> rfl

/-- The map of one side is replaced, and that of the other is not. -/
theorem OrderBook.own_putOwn (b : OrderBook ι) (buy buy' : Bool)
    (m : SortedMap ℤ (List (Resting ι))) :
    (b.putOwn buy m).own buy' = if buy' = buy then m else b.own buy' := by
  cases buy <;> cases buy' <;> rfl

/-- No node is made by it. -/
theorem OrderBook.nextNode_putOwn (b : OrderBook ι) (buy : Bool)
    (m : SortedMap ℤ (List (Resting ι))) : (b.putOwn buy m).nextNode = b.nextNode := by
  cases buy <;> rfl

@[simp] theorem buys_opp (s : Side) : buys s.opp = !buys s := by
  cases s <;> rfl

/-- The flag tells the sides apart. -/
theorem buys_inj {s s' : Side} : buys s = buys s' ↔ s = s' := by
  cases s <;> cases s' <;> decide

/-- The best entry of a map, as the engine reaches for it. -/
theorem bestEntry_eq (side : Side) (m : SortedMap ℤ (List (Resting ι))) :
    (if buys side then m.entries.head? else m.entries.getLast?)
      = Ladder.bestEntry side.opp m := by
  cases side <;> rfl

/-- **The book shows a book of nodes**: its maps are levels in order and have
the ladders of the nodes, and the index and the next address are theirs. -/
structure OrderBook.Shows (b : OrderBook ι) (H : Handles ι) [DecidableEq ι] : Prop where
  levels : ∀ s, Ladder.MapLevels Resting.entry (b.own (buys s))
  ladder : ∀ s, Ladder.ofMap s Resting.entry (b.own (buys s)) = H.book.ladder s
  index : ∀ i, (b.index.get? i).map Loc.place = H.index i
  next : b.nextNode = H.next

end Reading

/-- The book that a program starts with shows no nodes. -/
theorem shows_init : (OrderBook.init : OrderBook ι).Shows .empty := by
  refine ⟨fun s => ?_, fun s => ?_, fun i => rfl, rfl⟩
  · cases s <;> exact Ladder.mapLevels_empty
  · cases s <;> rfl

/-- **The loop over the orders of a level serves it**, and takes the makers
that are gone out of the index. -/
theorem levelLoop_eq_serve (best : ℤ) (lvl : List (Resting ι)) (index : Dict ι Loc)
    (fills : List (Fill ι)) (qty : ℤ) :
    ∃ r, loop .diverges (levelTurn best) (lvl.length + 1) ⟨lvl, index, fills, qty⟩ = .ok r
      ∧ r.lvl.map Resting.entry = (serve qty (lvl.map Resting.entry)).left
      ∧ r.index = index.eraseAll ((serve qty (lvl.map Resting.entry)).gone.map Prod.snd)
      ∧ r.fills = fills ++ (Ladder.fillsAt best (serve qty (lvl.map Resting.entry)).trades).map
          (Fill.rename Prod.snd)
      ∧ r.qty = (serve qty (lvl.map Resting.entry)).unfilled := by
  refine loop_serve _ (levelTurn best)
    (fun st t => st.lvl.map Resting.entry = t.left
      ∧ st.index = index.eraseAll (t.gone.map Prod.snd)
      ∧ st.fills = fills ++ (Ladder.fillsAt best t.trades).map (Fill.rename Prod.snd)
      ∧ st.qty = t.unfilled)
    (fun st t hat hstop => ?_) (fun st t k a q hat hL hw => ?_)
    (t := ⟨[], lvl.map Resting.entry, qty, []⟩) ⟨rfl, rfl, (List.append_nil _).symm, rfl⟩ (by simp)
  · obtain ⟨hlvl, -, -, hqty⟩ := hat
    unfold levelTurn
    cases hcase : st.lvl with
    | nil => rfl
    | cons m lvl' =>
      dsimp only
      rw [if_neg]
      rcases hstop with hstop | hstop
      · exact not_lt.mpr (hqty ▸ hstop)
      · rw [hcase, hstop] at hlvl
        exact absurd hlvl (by simp)
  · obtain ⟨hlvl, hindex, hfills, hqty⟩ := hat
    rw [hL] at hlvl
    obtain ⟨m, lvl', hm, hk, hq⟩ := List.map_eq_cons_iff.mp hlvl
    obtain ⟨rfl, rfl⟩ : (m.it, m.id) = k ∧ m.qty = a := Prod.mk.inj hk
    unfold levelTurn Served.trade
    rw [hm]
    dsimp only
    rw [if_pos (hqty ▸ hw), hqty]
    rcases le_or_gt m.qty t.unfilled with hle | hlt
    · rw [if_neg (not_lt.mpr hle), if_pos hle, sub_self, if_pos rfl]
      refine ⟨_, rfl, hq, ?_, ?_, rfl⟩
      · rw [hindex, List.map_append, Dict.eraseAll_append]
        rfl
      · rw [Ladder.fillsAt_concat_rename, hfills, List.append_assoc]
    · have hrest : m.qty - t.unfilled ≠ 0 := ne_of_gt (Int.sub_pos_of_lt hlt)
      rw [if_pos hlt, if_neg (not_le.mpr hlt), if_neg hrest, sub_self]
      refine ⟨_, rfl, by rw [List.map_cons, hq]; rfl, hindex, ?_, rfl⟩
      rw [Ladder.fillsAt_concat_rename, hfills, List.append_assoc]

/-- A limit and a flag as a limit that need not be there. -/
def limitOf (limitPx : ℤ) (hasLimit : Bool) : Option ℤ := if hasLimit then some limitPx else none

omit [DecidableEq ι] in
/-- What the code asks before it serves a level is whether the best price is
out of reach. -/
theorem beyond_iff (side : Side) (limitPx best : ℤ) (hasLimit : Bool) :
    (hasLimit ∧ (if buys side then limitPx < best else best < limitPx))
      ↔ side.opp.reaches (limitOf limitPx hasLimit) best = false := by
  cases hasLimit <;> cases side <;> simp [limitOf, buys, Side.opp, Side.reaches]

/-- **The loop over the levels sweeps the other side.** -/
theorem matchLoop_eq_sweep (side : Side) (limitPx : ℤ) (hasLimit : Bool)
    {opp : SortedMap ℤ (List (Resting ι))} (hopp : Ladder.MapLevels Resting.entry opp)
    (index : Dict ι Loc) (qty : ℤ) :
    ∃ r, loop .diverges (matchTurn (buys side) limitPx hasLimit) (opp.keys.length + 1)
        ⟨opp, index, [], qty⟩ = .ok r
      ∧ Ladder.MapLevels Resting.entry r.opp
      ∧ Ladder.ofMap side.opp Resting.entry r.opp
        = (Ladder.sweep (side.opp.reaches (limitOf limitPx hasLimit)) qty
            (Ladder.ofMap side.opp Resting.entry opp)).left
      ∧ r.index = index.eraseAll ((Ladder.sweep (side.opp.reaches (limitOf limitPx hasLimit)) qty
          (Ladder.ofMap side.opp Resting.entry opp)).gone.map Prod.snd)
      ∧ r.fills = (Ladder.sweep (side.opp.reaches (limitOf limitPx hasLimit)) qty
          (Ladder.ofMap side.opp Resting.entry opp)).fills.map (Fill.rename Prod.snd)
      ∧ r.qty = (Ladder.sweep (side.opp.reaches (limitOf limitPx hasLimit)) qty
          (Ladder.ofMap side.opp Resting.entry opp)).unfilled := by
  refine Ladder.loop_sweep _ (matchTurn (buys side) limitPx hasLimit)
    (side.opp.reaches (limitOf limitPx hasLimit))
    (fun st t => Ladder.MapLevels Resting.entry st.opp
      ∧ Ladder.ofMap side.opp Resting.entry st.opp = t.left
      ∧ st.index = index.eraseAll (t.gone.map Prod.snd)
      ∧ st.fills = t.fills.map (Fill.rename Prod.snd) ∧ st.qty = t.unfilled)
    (fun st t hat hstop => ?_) (fun st t p q L hat hL hw hp => ?_)
    (t := ⟨[], Ladder.ofMap side.opp Resting.entry opp, qty, []⟩) ⟨hopp, rfl, rfl, rfl, rfl⟩ ?_
  · obtain ⟨-, hleft, -, -, hqty⟩ := hat
    have hbest := Ladder.head?_ofMap Resting.entry st.opp side.opp
    rw [hleft] at hbest
    unfold matchTurn
    rw [bestEntry_eq]
    by_cases hpos : 0 < st.qty
    · have hstop := hstop.resolve_left (not_le.mpr (hqty ▸ hpos))
      rw [if_pos hpos]
      cases hentry : Ladder.bestEntry side.opp st.opp with
      | none => rfl
      | some l =>
        rw [hentry] at hbest
        dsimp only
        rw [if_pos ((beyond_iff side limitPx l.1 hasLimit).mpr (hstop _ hbest))]
    · rw [if_neg hpos]
  · obtain ⟨hlevels, hleft, hindex, hfills, hqty⟩ := hat
    have hbest := Ladder.head?_ofMap Resting.entry st.opp side.opp
    rw [hleft, hL, List.head?_cons, eq_comm, Option.map_eq_some_iff] at hbest
    obtain ⟨⟨best, lvl⟩, hentry, heq⟩ := hbest
    obtain ⟨rfl, rfl⟩ : best = p ∧ lvl.map Resting.entry = q := Prod.mk.inj heq
    have hladder := hlevels.wf_ofMap side.opp
    rw [hleft, hL] at hladder
    have hposq : Positive (lvl.map Resting.entry) := hladder.positive _ List.mem_cons_self
    obtain ⟨r, hr, hrlvl, hrindex, hrfills, hrqty⟩ :=
      levelLoop_eq_serve best lvl st.index st.fills st.qty
    rw [hqty] at hrlvl hrindex hrfills hrqty
    have hposleft : Positive (r.lvl.map Resting.entry) := hrlvl ▸ positive_left hposq
    obtain ⟨hlevels', hqueue'⟩ := hlevels.write best r.lvl hposleft
    refine ⟨⟨if r.lvl.isEmpty then (st.opp.set best r.lvl).erase best else st.opp.set best r.lvl,
      r.index, r.fills, r.qty⟩, ?_, hlevels', ?_, ?_, ?_, hrqty⟩
    · unfold matchTurn
      rw [if_pos (hqty ▸ hw), bestEntry_eq, hentry]
      dsimp only
      rw [if_neg (fun h => by
        rw [(beyond_iff side limitPx best hasLimit).mp h] at hp
        exact absurd hp (by decide))]
      simp only [hr, bind, Except.bind]
    · refine hladder.eq_turn (hlevels'.wf_ofMap side.opp) (positive_left hposq) (fun p' => ?_)
      rw [hlevels'.queueAt_ofMap, hqueue', hrlvl, ← hL, ← hleft, hlevels.queueAt_ofMap]
    · rw [hrindex, hindex, ← Dict.eraseAll_append, ← List.map_append]
      rfl
    · rw [hrfills, hfills, ← List.map_append]
      rfl
  · rw [Ladder.ofMap, Ladder.length_ofPrices]
    omega

/-- **`match` is a trade of the nodes**: it returns the fills of the sweep,
under the makers' ids, and what stays unfilled, and the makers that are gone
are out of the index. -/
theorem OrderBook.Shows.match {b : OrderBook ι} {H : Handles ι} (h : b.Shows H) (side : Side)
    (limitPx qty : ℤ) (hasLimit : Bool) :
    ∃ b', b.match (buys side) limitPx qty hasLimit
        = .ok ((H.book.sweep side (limitOf limitPx hasLimit) qty).fills.map (Fill.rename Prod.snd),
            (H.book.sweep side (limitOf limitPx hasLimit) qty).unfilled, b')
      ∧ b'.Shows (H.trade side (limitOf limitPx hasLimit) qty) := by
  obtain ⟨r, hr, hlevels, hladder, hindex, hfills, hqty⟩ :=
    matchLoop_eq_sweep side limitPx hasLimit (h.levels side.opp) b.index qty
  rw [h.ladder] at hladder hindex hfills hqty
  have hown : b.own (!buys side) = b.own (buys side.opp) := by rw [buys_opp]
  refine ⟨{ b.putOwn (!buys side) r.opp with index := r.index }, ?_, ?_⟩
  · unfold OrderBook.match
    simp only [hown, hr, bind, Except.bind]
    rw [hfills, hqty]
    rfl
  · have hside : ∀ s, (b.putOwn (!buys side) r.opp).own (buys s)
        = if s = side.opp then r.opp else b.own (buys s) := by
      intro s
      rw [OrderBook.own_putOwn, ← buys_opp]
      exact if_congr buys_inj rfl rfl
    refine ⟨fun s => ?_, fun s => ?_, fun i => ?_, ?_⟩
    · show Ladder.MapLevels _ ((b.putOwn (!buys side) r.opp).own (buys s))
      rw [hside]
      split_ifs
      · exact hlevels
      · exact h.levels s
    · show Ladder.ofMap s _ ((b.putOwn (!buys side) r.opp).own (buys s))
        = (H.book.put side.opp _).ladder s
      rw [hside]
      split_ifs with hs
      · rw [hs, Book.ladder_put_self]
        exact hladder
      · rw [Book.ladder_put_of_ne hs]
        exact h.ladder s
    · show (r.index.get? i).map Loc.place = if _ then none else H.index i
      rw [hindex, Dict.get?_eraseAll, ← h.index]
      unfold Book.sweep
      split_ifs
      · rfl
      · rfl
    · show (b.putOwn (!buys side) r.opp).nextNode = H.next
      rw [OrderBook.nextNode_putOwn]
      exact h.next

/-- **`rest` puts a new node at the back of its level.** The quantity is
positive and the price does not cross, since it is called after `match` with
what that left. -/
theorem OrderBook.Shows.rest {b : OrderBook ι} {H : Handles ι} (h : b.Shows H) (side : Side)
    (px : ℤ) (oid : ι) {qty : ℤ} (hqty : 0 < qty)
    (hcross : ∀ p ∈ (H.book.ladder side.opp).prices, side.opp.reaches (some px) p = false) :
    (b.rest oid (buys side) px qty).Shows (H.rest side px oid qty hqty hcross) := by
  obtain ⟨hlevels, hqueue⟩ := (h.levels side).push px (n := ⟨b.nextNode, oid, qty⟩) hqty
  have hside : ∀ s, (b.rest oid (buys side) px qty).own (buys s)
      = if s = side then (b.own (buys side)).set px (((b.own (buys side)).get? px).getD []
          ++ [⟨b.nextNode, oid, qty⟩]) else b.own (buys s) := by
    intro s
    show ((b.putOwn (buys side) _).own (buys s)) = _
    rw [OrderBook.own_putOwn]
    exact if_congr buys_inj rfl rfl
  have hwf := (H.rest side px oid qty hqty hcross).wf
  refine ⟨fun s => ?_, fun s => ?_, fun i => ?_, ?_⟩
  · rw [hside]
    split_ifs
    · exact hlevels
    · exact h.levels s
  · show _ = (H.book.put side _).ladder s
    rw [hside]
    split_ifs with hs
    · subst hs
      rw [Book.ladder_put_self]
      refine Ladder.WF.ext (hlevels.wf_ofMap s) ((H.wf.side s).rest px hqty) (fun p => ?_)
      rw [hlevels.queueAt_ofMap, hqueue, (H.wf.side s).queueAt_rest, ← h.ladder,
        (h.levels s).queueAt_ofMap, ← h.next]
      rfl
    · rw [Book.ladder_put_of_ne hs]
      exact h.ladder s
  · show ((b.index.set oid _).get? i).map Loc.place
      = if i = oid then some (side, px, H.next) else H.index i
    rw [Dict.get?_set, ← h.index, ← h.next]
    by_cases hi : i = oid
    · rw [if_pos hi, if_pos hi, Option.map_some, place_mk]
    · rw [if_neg hi, if_neg hi]
  · show b.nextNode + 1 = H.next + 1
    rw [h.next]

omit [DecidableEq ι] in
/-- **Erasing at an iterator that is valid** takes its node off the level, and
the level out of the map if it was the last. -/
theorem eraseAt_spec {m : SortedMap ℤ (List (Resting ι))}
    (hm : Ladder.MapLevels Resting.entry m) {price : ℤ} {it : ℕ} {id : ι}
    (hlive : (it, id) ∈ (Ladder.mapQueue Resting.entry m price).map Prod.fst) :
    ∃ m', eraseAt m price it = .ok m' ∧ Ladder.MapLevels Resting.entry m'
      ∧ ∀ p, Ladder.mapQueue Resting.entry m' p
        = if p = price then (Ladder.mapQueue Resting.entry m p).filter (fun e => e.1.1 ≠ it)
          else Ladder.mapQueue Resting.entry m p := by
  unfold eraseAt
  cases hlvl : m.get? price with
  | none => rw [Ladder.mapQueue, hlvl] at hlive; simp at hlive
  | some lvl =>
    rw [Ladder.mapQueue_of_get? hlvl] at hlive
    obtain ⟨n, hn, hkey⟩ : ∃ n ∈ lvl, n.it = it ∧ n.id = id := by
      simpa [Resting.entry] using hlive
    have herase : eraseNode lvl it = .ok (lvl.filter (fun n => n.it ≠ it)) :=
      if_pos (hkey.1 ▸ List.mem_map_of_mem hn)
    have hfilter : (lvl.filter (fun n => n.it ≠ it)).map Resting.entry
        = (Ladder.mapQueue Resting.entry m price).filter (fun e => e.1.1 ≠ it) := by
      rw [Ladder.mapQueue_of_get? hlvl, List.filter_map]
      rfl
    have hpos : Positive ((lvl.filter (fun n => n.it ≠ it)).map Resting.entry) := by
      rw [hfilter]
      exact fun e he => hm.positive price e (List.mem_of_mem_filter he)
    obtain ⟨hlevels, hqueue⟩ := hm.write price _ hpos
    refine ⟨_, ?_, hlevels, fun p => ?_⟩
    · simp only [herase, bind, Except.bind]
    · rw [hqueue, hfilter]
      split_ifs with hp
      · rw [hp]
      · rfl

/-- **`cancel` erases a node that is there**: the iterator that the index holds
is valid, and the node it names is the one that goes. -/
theorem OrderBook.Shows.cancel {b : OrderBook ι} {H : Handles ι} (h : b.Shows H) (target : ι) :
    ∃ b' found, b.cancel target = .ok (b', found) ∧ b'.Shows (H.cancel target) := by
  have hindex := h.index target
  unfold OrderBook.cancel Handles.cancel
  cases hloc : b.index.get? target with
  | none =>
    rw [hloc] at hindex
    rw [← hindex]
    exact ⟨b, false, rfl, h⟩
  | some loc =>
    rw [hloc, Option.map_some] at hindex
    obtain ⟨side, hside⟩ : ∃ s : Side, s = loc.place.1 := ⟨_, rfl⟩
    have hbuy : (loc.side == 'b') = buys side := by
      rw [hside]
      by_cases hc : loc.side = 'b' <;> simp [Loc.place, buys, hc]
    have hplace : H.index target = some (side, loc.price, loc.it) := by
      rw [← hindex, hside]
      rfl
    have hlive := H.live target side loc.price loc.it hplace
    rw [← h.ladder, (h.levels side).queueAt_ofMap] at hlive
    obtain ⟨m', hm', hlevels, hqueue⟩ := eraseAt_spec (h.levels side) hlive
    have hside' : ∀ s, (b.putOwn (buys side) m').own (buys s)
        = if s = side then m' else b.own (buys s) := by
      intro s
      rw [OrderBook.own_putOwn]
      exact if_congr buys_inj rfl rfl
    have hwf := (H.remove target loc.it).wf
    rw [hplace]
    refine ⟨{ b.putOwn (buys side) m' with index := b.index.erase target }, true, ?_,
      fun s => ?_, fun s => ?_, fun i => ?_, ?_⟩
    · simp only [hbuy, hm', bind, Except.bind]
    · show Ladder.MapLevels _ ((b.putOwn (buys side) m').own (buys s))
      rw [hside']
      split_ifs
      · exact hlevels
      · exact h.levels s
    · show Ladder.ofMap s _ ((b.putOwn (buys side) m').own (buys s)) = _
      rw [hside']
      by_cases hs : s = side
      · subst hs
        rw [if_pos rfl]
        refine Ladder.WF.ext (hlevels.wf_ofMap s) (hwf.side s) (fun p => ?_)
        rw [H.queueAt_remove hplace, hlevels.queueAt_ofMap, hqueue, ← h.ladder,
          (h.levels s).queueAt_ofMap]
        exact if_congr (by simp) rfl rfl
      · rw [if_neg hs, h.ladder]
        refine Ladder.WF.ext (H.wf.side s) (hwf.side s) (fun p => ?_)
        rw [H.queueAt_remove hplace, if_neg (fun h => hs h.1)]
    · show ((b.index.erase target).get? i).map Loc.place = if i = target then none else H.index i
      rw [Dict.get?_erase, ← h.index]
      split_ifs <;> rfl
    · show (b.putOwn (buys side) m').nextNode = H.next
      rw [OrderBook.nextNode_putOwn]
      exact h.next

/-- **Every call is a call of the book of nodes**, for ids of any kind: it
returns, and no iterator it reaches through is invalid. -/
theorem OrderBook.Shows.call {b : OrderBook ι} {H : Handles ι} (h : b.Shows H) (c : Call ι) :
    ∃ b', b.call c = .ok (b', (H.step c).2) ∧ b'.Shows (H.step c).1 := by
  cases c with
  | limit oid side px qty =>
    obtain ⟨b₁, hb₁, h₁⟩ := h.match side px qty true
    have hcall : b.call (.limit oid side px qty)
        = .ok (if 0 < (H.book.sweep side (some px) qty).unfilled then
              b₁.rest oid (buys side) px (H.book.sweep side (some px) qty).unfilled else b₁,
            (H.step (.limit oid side px qty)).2) := by
      show b.limit oid (buys side) px qty = _
      unfold OrderBook.limit
      rw [hb₁]
      rfl
    refine ⟨_, hcall, ?_⟩
    show (if _ then _ else _ : OrderBook ι).Shows (H.limit oid side px qty)
    unfold Handles.limit
    split_ifs with hun
    · exact h₁.rest side px oid hun _
    · exact h₁
  | market oid side qty =>
    obtain ⟨b₁, hb₁, h₁⟩ := h.match side 0 qty false
    refine ⟨b₁, ?_, h₁⟩
    show b.market (buys side) qty = _
    unfold OrderBook.market
    rw [hb₁]
    rfl
  | cancel target =>
    obtain ⟨b', found, hb', h'⟩ := h.cancel target
    refine ⟨b', ?_, h'⟩
    show (do let (b', _) ← b.cancel target; .ok (b', []) : Except CppError _) = _
    rw [hb']
    rfl

end CppEngine
