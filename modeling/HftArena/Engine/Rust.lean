import HftArena.Lib.Run
import HftArena.PriceTime.Levels

/-!
# The Rust reference engine: `Book`

The order book of `reference_engine_rust/main.rs`, method by method: two
ordered maps from prices to queues of `(id, qty)`, and an index from ids to
sides and prices. The ids of makers that are gone are collected while a match
runs and taken out of the index when it ends. An `unwrap` of `None` is a panic,
and an error here.

A cancel retains every order but those with its id, so the book needs no
identity of orders beyond their ids. It is the price-time-priority book
(`Book.Refines`) where no limit order reuses an id that is resting; the sides
stay in order, and no `unwrap` fails, whatever the ids (`Book.Shows`).

The two are kept apart: `Shows` is about the ladders alone and is kept by every
call, and `Refines` adds that the index is right, which takes ids that are kept
apart. Where they are not, an order may rest that the index does not know, or
knows at another price; what a cancel does then is `Book.Shows.cancel_spec`.
-/

open PriceTime

namespace RustEngine

/-- What can go wrong in a method of the book. -/
inductive RustError where
  /-- `unwrap` of `None`. -/
  | unwrapNone
  /-- A loop has not ended. -/
  | diverges
deriving DecidableEq, Repr

/-- **The order book.** Each price level is a queue whose order is time
priority, and the index gives the side and the price of an id, not its place in
the queue. -/
structure Book (ι : Type) where
  /-- Ascending; the best bid is the last. -/
  bids : SortedMap ℤ (List (ι × ℤ))
  /-- Ascending; the best ask is the first. -/
  asks : SortedMap ℤ (List (ι × ℤ))
  /-- id → (0 = bid, 1 = ask; price) -/
  index : Dict ι (ℕ × ℤ)

variable {ι : Type}

/-- `Book::new`. -/
def Book.new : Book ι := ⟨.empty, .empty, .empty⟩

/-- `if buy { &mut self.bids } else { &mut self.asks }`. -/
def Book.own (b : Book ι) (buy : Bool) : SortedMap ℤ (List (ι × ℤ)) :=
  if buy then b.bids else b.asks

/-- The book after the map of a side was mutated. -/
def Book.putOwn (b : Book ι) (buy : Bool) (m : SortedMap ℤ (List (ι × ℤ))) : Book ι :=
  if buy then { b with bids := m } else { b with asks := m }

/-- What the loop over the orders of a level mutates. -/
structure LevelState (ι : Type) where
  dq : List (ι × ℤ)
  filledIds : List ι
  fills : List (Fill ι)
  qty : ℤ

/-- What the loop over the levels mutates. -/
structure MatchState (ι : Type) where
  levels : SortedMap ℤ (List (ι × ℤ))
  filledIds : List ι
  fills : List (Fill ι)
  qty : ℤ

/-- One turn of `while qty > 0` over a level: a trade with the front order,
whose id is collected if it is filled. -/
def levelTurn (best : ℤ) (st : LevelState ι) :
    Except RustError (Turn (LevelState ι) (LevelState ι)) :=
  if 0 < st.qty then
    match st.dq with
    | (id, frontQty) :: dq =>
      let trade := min st.qty frontQty
      let fills := st.fills ++ [⟨best, trade, id⟩]
      let qty := st.qty - trade
      let frontQty := frontQty - trade
      if frontQty = 0 then .ok (.again ⟨dq, st.filledIds ++ [id], fills, qty⟩)
      else .ok (.again ⟨(id, frontQty) :: dq, st.filledIds, fills, qty⟩)
    | [] => .ok (.done st)
  else .ok (.done st)

/-- One turn of `loop`: the best price, unless it is beyond the limit; its
queue, which is there; and the removal of the level if it is empty after it was
served. -/
def matchTurn (buy : Bool) (limitPx : ℤ) (hasLimit : Bool) (st : MatchState ι) :
    Except RustError (Turn (MatchState ι) (MatchState ι)) :=
  if st.qty ≤ 0 then .ok (.done st)
  else
    match if buy then st.levels.keys.head? else st.levels.keys.getLast? with
    | none => .ok (.done st)
    | some best =>
      if hasLimit ∧ (buy ∧ limitPx < best ∨ ¬ buy ∧ best < limitPx) then .ok (.done st)
      else
        match st.levels.get? best with
        | none => .error .unwrapNone
        | some dq => do
          let r ← loop .diverges (levelTurn best) (dq.length + 1)
            ⟨dq, st.filledIds, st.fills, st.qty⟩
          let levels := st.levels.set best r.dq
          .ok (.again ⟨if r.dq.isEmpty then levels.erase best else levels, r.filledIds, r.fills,
            r.qty⟩)

variable [DecidableEq ι]

/-- `rest`: to the back of the queue of its price, which is made if there is
none; the index is told of the side and the price. -/
def Book.rest (b : Book ι) (id : ι) (buy : Bool) (px qty : ℤ) : Book ι :=
  let levels := b.own buy
  { b.putOwn buy (levels.set px ((levels.get? px).getD [] ++ [(id, qty)])) with
    index := b.index.set id (if buy then 0 else 1, px) }

/-- `match_order`: the fills, what is left of `qty`, and the book after. -/
def Book.matchOrder (b : Book ι) (buy : Bool) (limitPx qty : ℤ) (hasLimit : Bool) :
    Except RustError (List (Fill ι) × ℤ × Book ι) := do
  let levels := b.own !buy
  let st ← loop .diverges (matchTurn buy limitPx hasLimit) (levels.keys.length + 1)
    ⟨levels, [], [], qty⟩
  .ok (st.fills, st.qty,
    { b.putOwn (!buy) st.levels with index := b.index.eraseAll st.filledIds })

/-- `limit`: what is not filled rests. -/
def Book.limit (b : Book ι) (id : ι) (buy : Bool) (px qty : ℤ) :
    Except RustError (Book ι × List (Fill ι)) := do
  let (fills, rem, b') ← b.matchOrder buy px qty true
  .ok (if 0 < rem then b'.rest id buy px rem else b', fills)

/-- `market`: what is not filled is dropped. -/
def Book.market (b : Book ι) (buy : Bool) (qty : ℤ) :
    Except RustError (Book ι × List (Fill ι)) := do
  let (fills, _, b') ← b.matchOrder buy 0 qty false
  .ok (b', fills)

/-- `cancel`: the level of the price that the index names retains every other
id. -/
def Book.cancel (b : Book ι) (target : ι) : Book ι :=
  match b.index.get? target with
  | none => b
  | some (side, px) =>
    let buy := side == 0
    let levels := b.own buy
    let levels' := match levels.get? px with
      | some dq =>
        let dq' := dq.filter (fun e => e.1 ≠ target)
        let levels' := levels.set px dq'
        if dq'.isEmpty then levels'.erase px else levels'
      | none => levels
    { b.putOwn buy levels' with index := b.index.erase target }

/-- One call, with the fills it returns; a cancel returns none. -/
def Book.call (b : Book ι) : Call ι → Except RustError (Book ι × List (Fill ι))
  | .limit oid side px qty => b.limit oid (side == .bid) px qty
  | .market _ side qty => b.market (side == .bid) qty
  | .cancel target => .ok (b.cancel target, [])

/-! ## The ladders of the book

What holds whatever the ids: the sides are ladders in order, and each method
does to them what the operation of the abstract book does. -/

section Reading

omit [DecidableEq ι]

/-- The flag of a side. -/
def buys (s : Side) : Bool := s == .bid

@[simp] theorem buys_opp (s : Side) : buys s.opp = !buys s := by
  cases s <;> rfl

/-- One side is replaced, and the other is not. -/
theorem Book.own_putOwn (b : Book ι) (s s' : Side) (m : SortedMap ℤ (List (ι × ℤ))) :
    (b.putOwn (buys s) m).own (buys s') = if s' = s then m else b.own (buys s') := by
  cases s <;> cases s' <;> rfl

/-- The book's entries are the ladder's: no address, no renaming. -/
abbrev entry (e : ι × ℤ) : ι × ℤ := e

/-- There is nothing to forget of an entry. -/
theorem map_entry (q : List (ι × ℤ)) : q.map entry = q := List.map_id _

/-- **The book shows these ladders**: its maps are levels in order, and read
price by price they are the ladders of the abstract book. Nothing is said of
the index. -/
structure Book.Shows (b : Book ι) (B : PriceTime.Book ι) : Prop where
  levels : ∀ s, Ladder.MapLevels entry (b.own (buys s))
  ladder : ∀ s, Ladder.ofMap s entry (b.own (buys s)) = B.ladder s

/-- Such ladders are well formed. -/
theorem Book.Shows.wf {b : Book ι} {B : PriceTime.Book ι} (h : b.Shows B) (s : Side) :
    Ladder.WF s (B.ladder s) := by
  rw [← h.ladder]
  exact (h.levels s).wf_ofMap s

/-- A new book shows empty ladders. -/
theorem shows_new : (Book.new : Book ι).Shows .empty := by
  refine ⟨fun s => ?_, fun s => ?_⟩
  · cases s <;> exact Ladder.mapLevels_empty
  · cases s <;> rfl

/-- Replacing the map of one side replaces its ladder. -/
theorem Book.Shows.putOwn {b : Book ι} {B : PriceTime.Book ι} (h : b.Shows B) (s : Side)
    {m : SortedMap ℤ (List (ι × ℤ))} (hm : Ladder.MapLevels entry m) (index : Dict ι (ℕ × ℤ)) :
    ({ b.putOwn (buys s) m with index := index } : Book ι).Shows
      (B.put s (Ladder.ofMap s entry m)) := by
  have hown : ∀ s', ({ b.putOwn (buys s) m with index := index } : Book ι).own (buys s')
      = if s' = s then m else b.own (buys s') := fun s' => Book.own_putOwn b s s' m
  refine ⟨fun s' => ?_, fun s' => ?_⟩
  · rw [hown]
    split_ifs
    · exact hm
    · exact h.levels s'
  · rw [hown]
    split_ifs with hs
    · rw [hs, PriceTime.Book.ladder_put_self]
    · rw [PriceTime.Book.ladder_put_of_ne hs]
      exact h.ladder s'

/-- **The loop over the orders of a level serves it**, and collects the makers
that are gone. -/
theorem levelLoop_eq_serve (best : ℤ) (dq : List (ι × ℤ)) (filledIds : List ι)
    (fills : List (Fill ι)) (qty : ℤ) :
    ∃ r, loop .diverges (levelTurn best) (dq.length + 1) ⟨dq, filledIds, fills, qty⟩ = .ok r
      ∧ r.dq = (serve qty dq).left ∧ r.filledIds = filledIds ++ (serve qty dq).gone
      ∧ r.fills = fills ++ Ladder.fillsAt best (serve qty dq).trades
      ∧ r.qty = (serve qty dq).unfilled := by
  refine loop_serve _ (levelTurn best)
    (fun st t => st.dq = t.left ∧ st.filledIds = filledIds ++ t.gone
      ∧ st.fills = fills ++ Ladder.fillsAt best t.trades ∧ st.qty = t.unfilled)
    (fun st t hat hstop => ?_) (fun st t k a q hat hL hw => ?_)
    (t := ⟨[], dq, qty, []⟩)
    ⟨rfl, (List.append_nil _).symm, (List.append_nil _).symm, rfl⟩ (Nat.lt_succ_self _)
  · obtain ⟨hdq, -, -, hqty⟩ := hat
    unfold levelTurn
    rcases hstop with hstop | hstop
    · rw [if_neg (not_lt.mpr (hqty ▸ hstop))]
    · rw [hdq, hstop]
      split_ifs <;> rfl
  · obtain ⟨hdq, hfilled, hfills, hqty⟩ := hat
    unfold levelTurn Served.trade
    rw [hdq, hL, hqty, if_pos hw]
    dsimp only
    rcases le_or_gt a t.unfilled with hle | hlt
    · rw [min_eq_right hle, sub_self, if_pos rfl, if_pos hle]
      refine ⟨_, rfl, rfl, ?_, ?_, rfl⟩
      · rw [hfilled, List.append_assoc]
      · rw [hfills, Ladder.fillsAt, Ladder.fillsAt, List.map_append, List.append_assoc]
        rfl
    · have hrest : a - t.unfilled ≠ 0 := ne_of_gt (Int.sub_pos_of_lt hlt)
      rw [min_eq_left hlt.le, sub_self, if_neg hrest, if_neg (not_le.mpr hlt)]
      refine ⟨_, rfl, rfl, hfilled, ?_, rfl⟩
      rw [hfills, Ladder.fillsAt, Ladder.fillsAt, List.map_append, List.append_assoc]
      rfl

/-- A limit and a flag as a limit that need not be there. -/
def limitOf (limitPx : ℤ) (hasLimit : Bool) : Option ℤ := if hasLimit then some limitPx else none

/-- What the code asks before it serves a level is whether the best price is
out of reach. -/
theorem beyond_iff (side : Side) (limitPx best : ℤ) (hasLimit : Bool) :
    (hasLimit ∧ (buys side ∧ limitPx < best ∨ ¬ buys side ∧ best < limitPx))
      ↔ side.opp.reaches (limitOf limitPx hasLimit) best = false := by
  cases hasLimit <;> cases side <;> simp [limitOf, buys, Side.opp, Side.reaches]

/-- The best price of a map, as the engine asks for it. -/
theorem bestKey_eq (side : Side) (m : SortedMap ℤ (List (ι × ℤ))) :
    (if buys side then m.keys.head? else m.keys.getLast?)
      = (Ladder.bestEntry side.opp m).map Prod.fst := by
  cases side
  · exact List.head?_map
  · exact List.getLast?_map

/-- **The loop over the levels sweeps the other side**, and no `unwrap`
fails. -/
theorem matchLoop_eq_sweep (side : Side) (limitPx : ℤ) (hasLimit : Bool)
    {levels : SortedMap ℤ (List (ι × ℤ))} (hlevels : Ladder.MapLevels entry levels) (qty : ℤ) :
    ∃ r, loop .diverges (matchTurn (buys side) limitPx hasLimit) (levels.keys.length + 1)
        ⟨levels, [], [], qty⟩ = .ok r
      ∧ Ladder.MapLevels entry r.levels
      ∧ Ladder.ofMap side.opp entry r.levels
        = (Ladder.sweep (side.opp.reaches (limitOf limitPx hasLimit)) qty
            (Ladder.ofMap side.opp entry levels)).left
      ∧ r.filledIds = (Ladder.sweep (side.opp.reaches (limitOf limitPx hasLimit)) qty
          (Ladder.ofMap side.opp entry levels)).gone
      ∧ r.fills = (Ladder.sweep (side.opp.reaches (limitOf limitPx hasLimit)) qty
          (Ladder.ofMap side.opp entry levels)).fills
      ∧ r.qty = (Ladder.sweep (side.opp.reaches (limitOf limitPx hasLimit)) qty
          (Ladder.ofMap side.opp entry levels)).unfilled := by
  refine Ladder.loop_sweep _ (matchTurn (buys side) limitPx hasLimit)
    (side.opp.reaches (limitOf limitPx hasLimit))
    (fun st t => Ladder.MapLevels entry st.levels
      ∧ Ladder.ofMap side.opp entry st.levels = t.left
      ∧ st.filledIds = t.gone ∧ st.fills = t.fills ∧ st.qty = t.unfilled)
    (fun st t hat hstop => ?_) (fun st t p q L hat hL hw hp => ?_)
    (t := ⟨[], Ladder.ofMap side.opp entry levels, qty, []⟩) ⟨hlevels, rfl, rfl, rfl, rfl⟩ ?_
  · obtain ⟨-, hleft, -, -, hqty⟩ := hat
    have hbest := Ladder.head?_ofMap entry st.levels side.opp
    rw [hleft] at hbest
    unfold matchTurn
    rw [bestKey_eq]
    by_cases hpos : st.qty ≤ 0
    · rw [if_pos hpos]
    · have hstop := hstop.resolve_left (fun h => hpos (hqty ▸ h))
      rw [if_neg hpos]
      cases hentry : Ladder.bestEntry side.opp st.levels with
      | none => rfl
      | some l =>
        rw [hentry] at hbest
        dsimp only [Option.map_some]
        rw [if_pos ((beyond_iff side limitPx l.1 hasLimit).mpr
          (hstop (l.1, l.2.map entry) hbest))]
  · obtain ⟨hmap, hleft, hfilled, hfills, hqty⟩ := hat
    have hbest := Ladder.head?_ofMap entry st.levels side.opp
    rw [hleft, hL, List.head?_cons, eq_comm, Option.map_eq_some_iff] at hbest
    obtain ⟨⟨best, dq⟩, hentry, heq⟩ := hbest
    rw [map_entry] at heq
    obtain ⟨rfl, rfl⟩ : best = p ∧ dq = q := Prod.mk.inj heq
    have hladder := hmap.wf_ofMap side.opp
    rw [hleft, hL] at hladder
    have hget : st.levels.get? best = some dq := by
      rw [SortedMap.get?_eq_some_iff]
      cases hs : side.opp <;> rw [hs] at hentry
      · exact List.mem_of_getLast? hentry
      · exact List.mem_of_head? hentry
    have hposq : Positive dq := hladder.positive _ List.mem_cons_self
    obtain ⟨r, hr, hrdq, hrfilled, hrfills, hrqty⟩ :=
      levelLoop_eq_serve best dq st.filledIds st.fills st.qty
    rw [hqty] at hrdq hrfilled hrfills hrqty
    have hposleft : Positive (r.dq.map entry) := by
      rw [map_entry, hrdq]
      exact positive_left hposq
    obtain ⟨hmap', hqueue'⟩ := hmap.write best r.dq hposleft
    refine ⟨⟨if r.dq.isEmpty then (st.levels.set best r.dq).erase best
      else st.levels.set best r.dq, r.filledIds, r.fills, r.qty⟩, ?_, hmap', ?_, ?_, ?_, hrqty⟩
    · unfold matchTurn
      rw [if_neg (not_le.mpr (hqty ▸ hw)), bestKey_eq, hentry]
      dsimp only [Option.map_some]
      rw [if_neg (fun h => by
        rw [(beyond_iff side limitPx best hasLimit).mp h] at hp
        exact absurd hp (by decide)), hget]
      simp only [hr, bind, Except.bind]
    · refine hladder.eq_turn (hmap'.wf_ofMap side.opp) (positive_left hposq) (fun p' => ?_)
      rw [hmap'.queueAt_ofMap, hqueue', map_entry, hrdq, ← hL, ← hleft, hmap.queueAt_ofMap]
    · rw [hrfilled, hfilled]
      rfl
    · rw [hrfills, hfills]
      rfl
  · rw [Ladder.ofMap, Ladder.length_ofPrices]
    omega

end Reading

/-- **`match_order` sweeps the other side**, whatever the ids. -/
theorem Book.Shows.matchOrder {b : Book ι} {B : PriceTime.Book ι} (h : b.Shows B) (side : Side)
    (limitPx qty : ℤ) (hasLimit : Bool) :
    ∃ b', b.matchOrder (buys side) limitPx qty hasLimit
        = .ok ((B.sweep side (limitOf limitPx hasLimit) qty).fills,
            (B.sweep side (limitOf limitPx hasLimit) qty).unfilled, b')
      ∧ b'.Shows (B.put side.opp (B.sweep side (limitOf limitPx hasLimit) qty).left)
      ∧ b'.index = b.index.eraseAll (B.sweep side (limitOf limitPx hasLimit) qty).gone := by
  obtain ⟨r, hr, hlevels, hladder, hfilled, hfills, hqty⟩ :=
    matchLoop_eq_sweep side limitPx hasLimit (h.levels side.opp) qty
  rw [h.ladder] at hladder hfilled hfills hqty
  rw [buys_opp] at hr
  refine ⟨{ b.putOwn (!buys side) r.levels with index := b.index.eraseAll r.filledIds }, ?_, ?_, ?_⟩
  · unfold Book.matchOrder
    simp only [hr, bind, Except.bind]
    rw [hfills, hqty]
    rfl
  · rw [← buys_opp]
    have := h.putOwn side.opp hlevels (b.index.eraseAll r.filledIds)
    rwa [hladder] at this
  · exact congrArg _ hfilled

/-- **`rest` appends to one level**, whatever the ids. -/
theorem Book.Shows.rest {b : Book ι} {B : PriceTime.Book ι} (h : b.Shows B) (side : Side) (px : ℤ)
    (oid : ι) {qty : ℤ} (hqty : 0 < qty) :
    (b.rest oid (buys side) px qty).Shows
      (B.put side (Ladder.rest side px (oid, qty) (B.ladder side))) := by
  obtain ⟨hlevels, hqueue⟩ := (h.levels side).push px (n := (oid, qty)) hqty
  have hput := h.putOwn side hlevels (b.index.set oid (if buys side then 0 else 1, px))
  have hladder : Ladder.ofMap side entry ((b.own (buys side)).set px
      (((b.own (buys side)).get? px).getD [] ++ [(oid, qty)]))
      = Ladder.rest side px (oid, qty) (B.ladder side) := by
    refine Ladder.WF.ext (hlevels.wf_ofMap side) ((h.wf side).rest px hqty) (fun p => ?_)
    rw [hlevels.queueAt_ofMap, hqueue, (h.wf side).queueAt_rest, ← h.ladder,
      (h.levels side).queueAt_ofMap]
  rw [hladder] at hput
  exact hput

/-- **A limit order is one of the abstract book**, whatever the ids. -/
theorem Book.Shows.limit {b : Book ι} {B : PriceTime.Book ι} (h : b.Shows B) (oid : ι) (side : Side)
    (px qty : ℤ) : ∃ b', b.call (.limit oid side px qty) = .ok (b', (B.limit oid side px qty).2)
      ∧ b'.Shows (B.limit oid side px qty).1 := by
  obtain ⟨b₁, hb₁, h₁, -⟩ := h.matchOrder side px qty true
  have hcall : b.call (.limit oid side px qty)
      = .ok (if 0 < (B.sweep side (some px) qty).unfilled then
            b₁.rest oid (buys side) px (B.sweep side (some px) qty).unfilled else b₁,
          (B.limit oid side px qty).2) := by
    show b.limit oid (buys side) px qty = _
    unfold Book.limit
    rw [hb₁]
    rfl
  refine ⟨_, hcall, ?_⟩
  show (if _ then _ else _ : Book ι).Shows
    (if 0 < (B.sweep side (some px) qty).unfilled then _ else _)
  split_ifs with hun
  · have hrest := h₁.rest side px oid hun
    rwa [PriceTime.Book.ladder_put_opp] at hrest
  · exact h₁

/-- So is a market order. -/
theorem Book.Shows.market {b : Book ι} {B : PriceTime.Book ι} (h : b.Shows B) (oid : ι) (side : Side)
    (qty : ℤ) : ∃ b', b.call (.market oid side qty) = .ok (b', (B.market side qty).2)
      ∧ b'.Shows (B.market side qty).1 := by
  obtain ⟨b₁, hb₁, h₁, -⟩ := h.matchOrder side 0 qty false
  refine ⟨b₁, ?_, h₁⟩
  show b.market (buys side) qty = _
  unfold Book.market
  rw [hb₁]
  rfl

/-- **`cancel` changes the level that the index names**, whatever the ids. -/
theorem Book.Shows.cancel_spec {b : Book ι} {B : PriceTime.Book ι} (h : b.Shows B) {target : ι}
    {s : ℕ} {px : ℤ} (hloc : b.index.get? target = some (s, px)) :
    ∃ L, (b.cancel target).Shows (B.put (if s = 0 then .bid else .ask) L)
      ∧ Ladder.WF (if s = 0 then .bid else .ask) L
      ∧ (b.cancel target).index = b.index.erase target
      ∧ ∀ p, Ladder.queueAt L p
        = if p = px then
            (Ladder.queueAt (B.ladder (if s = 0 then .bid else .ask)) p).filter
              (fun e => e.1 ≠ target)
          else Ladder.queueAt (B.ladder (if s = 0 then .bid else .ask)) p := by
  obtain ⟨side, hside⟩ : ∃ side : Side, side = if s = 0 then .bid else .ask := ⟨_, rfl⟩
  have hbuy : (s == 0) = buys side := by
    rw [hside]
    by_cases hs : s = 0 <;> simp [hs, buys]
  rw [← hside]
  unfold Book.cancel
  rw [hloc]
  dsimp only
  rw [hbuy]
  cases hget : (b.own (buys side)).get? px with
  | none =>
    dsimp only
    refine ⟨_, h.putOwn side (h.levels side) _, (h.levels side).wf_ofMap side, rfl, fun p => ?_⟩
    rw [h.ladder]
    split_ifs with hp
    · subst hp
      have hnil : Ladder.queueAt (B.ladder side) p = [] := by
        rw [← h.ladder, (h.levels side).queueAt_ofMap, Ladder.mapQueue, hget]
        rfl
      rw [hnil]
      rfl
    · rfl
  | some dq =>
    have hqueue : Ladder.queueAt (B.ladder side) px = dq := by
      rw [← h.ladder, (h.levels side).queueAt_ofMap, Ladder.mapQueue_of_get? hget, map_entry]
    have hpos : Positive ((dq.filter (fun e => e.1 ≠ target)).map entry) := by
      rw [map_entry, ← hqueue]
      exact fun e he => (h.wf side).positive_queueAt px e (List.mem_of_mem_filter he)
    obtain ⟨hlevels, hqueue'⟩ := (h.levels side).write px _ hpos
    refine ⟨_, h.putOwn side hlevels _, hlevels.wf_ofMap side, rfl, fun p => ?_⟩
    rw [hlevels.queueAt_ofMap, hqueue', map_entry, ← h.ladder, (h.levels side).queueAt_ofMap]
    split_ifs with hp
    · rw [hp, Ladder.mapQueue_of_get? hget, map_entry]
    · rfl

/-- An id that the index does not have changes nothing. -/
theorem Book.cancel_of_none {b : Book ι} {target : ι} (h : b.index.get? target = none) :
    b.cancel target = b := by
  unfold Book.cancel
  rw [h]

/-- **Every call keeps the book in order**, with the fills of the abstract one,
and no `unwrap` fails. -/
theorem Book.Shows.call {b : Book ι} {B : PriceTime.Book ι} (h : b.Shows B) (c : Call ι) :
    ∃ b' B', b.call c = .ok (b', (B.step c).2) ∧ b'.Shows B' := by
  cases c with
  | limit oid side px qty =>
    obtain ⟨b', hcall, h'⟩ := h.limit oid side px qty
    exact ⟨b', _, hcall, h'⟩
  | market oid side qty =>
    obtain ⟨b', hcall, h'⟩ := h.market oid side qty
    exact ⟨b', _, hcall, h'⟩
  | cancel target =>
    cases hloc : b.index.get? target with
    | none => exact ⟨_, B, rfl, (Book.cancel_of_none hloc).symm ▸ h⟩
    | some loc =>
      obtain ⟨L, h', -⟩ := h.cancel_spec hloc
      exact ⟨_, _, rfl, h'⟩

/-! ## The price-time-priority book

What holds besides if ids are kept apart: the index knows where each order
rests. -/

/-- Where the index says an order rests. -/
def Book.loc (b : Book ι) (i : ι) : Option (Side × ℤ) :=
  (b.index.get? i).map (fun l => (if l.1 = 0 then .bid else .ask, l.2))

/-- **The Rust book is the abstract one**: it shows its ladders, and its index
is right. -/
structure Book.Refines (b : Book ι) (B : PriceTime.Book ι) : Prop where
  shows' : b.Shows B
  wf : B.WF
  located : B.Located b.loc

/-- A new book is the abstract one with no order. -/
theorem refines_new : (Book.new : Book ι).Refines .empty :=
  ⟨shows_new, PriceTime.Book.wf_empty, PriceTime.Book.located_empty⟩

/-- **`match_order` is a sweep**, and the makers that are gone are out of the
index. -/
theorem Book.Refines.matchOrder {b : Book ι} {B : PriceTime.Book ι} (h : b.Refines B) (side : Side)
    (limitPx qty : ℤ) (hasLimit : Bool) :
    ∃ b', b.matchOrder (buys side) limitPx qty hasLimit
        = .ok ((B.sweep side (limitOf limitPx hasLimit) qty).fills,
            (B.sweep side (limitOf limitPx hasLimit) qty).unfilled, b')
      ∧ b'.Refines (B.put side.opp (B.sweep side (limitOf limitPx hasLimit) qty).left) := by
  obtain ⟨b', hb', hshows, hindex⟩ := h.shows'.matchOrder side limitPx qty hasLimit
  refine ⟨b', hb', hshows, h.wf.put_sweep _ _ _, ?_⟩
  have hloc : b'.loc = fun i =>
      if i ∈ (B.sweep side (limitOf limitPx hasLimit) qty).gone then none else b.loc i := by
    funext i
    rw [Book.loc, hindex, Dict.get?_eraseAll]
    split_ifs <;> rfl
  rw [hloc]
  exact h.located.put_sweep h.wf _ _ _

/-- **`rest` brings an order to rest**, under an id that is not resting. -/
theorem Book.Refines.rest {b : Book ι} {B : PriceTime.Book ι} (h : b.Refines B) (side : Side)
    (px : ℤ) {oid : ι} {qty : ℤ} (hfresh : ¬ B.Resting oid) (hqty : 0 < qty)
    (hcross : ∀ p ∈ (B.ladder side.opp).prices, side.opp.reaches (some px) p = false) :
    (b.rest oid (buys side) px qty).Refines
      (B.put side (Ladder.rest side px (oid, qty) (B.ladder side))) := by
  refine ⟨h.shows'.rest side px oid hqty, h.wf.put_rest side px hfresh hqty hcross, ?_⟩
  have hloc : (b.rest oid (buys side) px qty).loc
      = fun i => if i = oid then some (side, px) else b.loc i := by
    funext i
    show ((b.index.set oid _).get? i).map _ = _
    rw [Dict.get?_set]
    by_cases hi : i = oid
    · rw [if_pos hi, if_pos hi]
      cases side <;> rfl
    · rw [if_neg hi, if_neg hi]
      rfl
  rw [hloc]
  exact h.located.put_rest h.wf hfresh _ _ _

/-- **`cancel` takes out the order** that the index knows, which is the only
one with its id. -/
theorem Book.Refines.cancel {b : Book ι} {B : PriceTime.Book ι} (h : b.Refines B) (target : ι) :
    (b.cancel target).Refines (B.cancel target) := by
  have hwf : (B.cancel target).WF := h.wf.step (c := .cancel target) trivial
  cases hloc : b.index.get? target with
  | none =>
    have hnone : b.loc target = none := by rw [Book.loc, hloc]; rfl
    rw [Book.cancel_of_none hloc, h.located.cancel_eq_self hnone h.wf]
    exact h
  | some l =>
    obtain ⟨s, px⟩ := l
    have hsome : b.loc target = some (if s = 0 then .bid else .ask, px) := by
      rw [Book.loc, hloc]
      rfl
    obtain ⟨L, hshows, hL, hindex, hqueue⟩ := h.shows'.cancel_spec hloc
    have hbook : B.put (if s = 0 then .bid else .ask) L = B.cancel target := by
      refine PriceTime.Book.ext (fun s' => ?_)
      by_cases hs : s' = if s = 0 then .bid else .ask
      · subst hs
        rw [PriceTime.Book.ladder_put_self]
        refine Ladder.WF.ext hL (hwf.side _) (fun p => ?_)
        rw [hqueue, h.located.queueAt_cancel hsome]
        exact if_congr (by simp) rfl rfl
      · rw [PriceTime.Book.ladder_put_of_ne hs]
        refine Ladder.WF.ext (h.wf.side s') (hwf.side s') (fun p => ?_)
        rw [h.located.queueAt_cancel hsome, if_neg (fun h => hs h.1)]
    rw [hbook] at hshows
    refine ⟨hshows, hwf, ?_⟩
    have hloc' : (b.cancel target).loc = fun i => if i = target then none else b.loc i := by
      funext i
      rw [Book.loc, hindex, Dict.get?_erase]
      split_ifs <;> rfl
    rw [hloc']
    exact h.located.cancel target

/-- **Every call that keeps ids apart is the call of the abstract book**, with
the same fills. -/
theorem Book.Refines.call_of_settles {b : Book ι} {B : PriceTime.Book ι} (h : b.Refines B)
    {c : Call ι} (hsettles : B.Settles c) :
    ∃ b', b.call c = .ok (b', (B.step c).2) ∧ b'.Refines (B.step c).1 := by
  cases c with
  | limit oid side px qty =>
    obtain ⟨b₁, hb₁, h₁⟩ := h.matchOrder side px qty true
    have hcall : b.call (.limit oid side px qty)
        = .ok (if 0 < (B.sweep side (some px) qty).unfilled then
              b₁.rest oid (buys side) px (B.sweep side (some px) qty).unfilled else b₁,
            (B.step (.limit oid side px qty)).2) := by
      show b.limit oid (buys side) px qty = _
      unfold Book.limit
      rw [hb₁]
      rfl
    refine ⟨_, hcall, ?_⟩
    show (if _ then _ else _ : Book ι).Refines
      (if 0 < (B.sweep side (some px) qty).unfilled then _ else _)
    split_ifs with hun
    · have hrest := h₁.rest side px (hsettles hun) hun (by
        rw [PriceTime.Book.ladder_put_self]
        exact Ladder.not_reaches_of_unfilled_pos (h.wf.side _) hun)
      rwa [PriceTime.Book.ladder_put_opp] at hrest
    · exact h₁
  | market oid side qty =>
    obtain ⟨b₁, hb₁, h₁⟩ := h.matchOrder side 0 qty false
    refine ⟨b₁, ?_, h₁⟩
    show b.market (buys side) qty = _
    unfold Book.market
    rw [hb₁]
    rfl
  | cancel target => exact ⟨_, rfl, h.cancel target⟩

/-- The same, as long as no limit order reuses an id that is resting. -/
theorem Book.Refines.call {b : Book ι} {B : PriceTime.Book ι} (h : b.Refines B) {c : Call ι}
    (hfresh : B.Fresh c) :
    ∃ b', b.call c = .ok (b', (B.step c).2) ∧ b'.Refines (B.step c).1 :=
  h.call_of_settles hfresh.settles

end RustEngine
