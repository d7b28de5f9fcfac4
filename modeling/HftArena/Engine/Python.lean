import Mathlib.Data.List.Sort
import HftArena.Lib.Dict
import HftArena.Lib.Run
import HftArena.PriceTime.Levels

/-!
# The Python reference engine: `OrderBook`

The order book of `reference_engine_py/engine.py`, method by method. Prices and
quantities are Python's unbounded integers; an order id is anything hashable,
so the book is generic in it; a side is a string, and every method takes any
string that is not `"buy"` for a sell.

Python's exceptions are a return value. Three subscriptions can raise a
`KeyError` – `opp_levels[best]` and `level[maker_id]` in `_match`, and the
`del` after them – and the model reads each of them where the code does. The
outer `while` of `_match` is a `loop` with as many turns as there are prices
and one to stop; that these are enough, and that no subscription raises, is
proved in `Engine.PythonMatch`.

What Python mutates in place is returned: a level that a method has changed is
written back to its dictionary, where the key keeps its place, and a method
that binds the levels and the prices of a side under local names works on a
`Half`. Nothing else of the methods' order is changed, so that a book that an
exception leaves half done can be read off too (`limitUnhashed`).
-/

open PriceTime

namespace PyEngine

/-- What can go wrong in a method of the book. -/
inductive PyError where
  /-- A subscription of a dictionary without the key. -/
  | keyError
  /-- The matching loop has not ended. -/
  | diverges
deriving DecidableEq, Repr

/-- A subscription, `d[k]`: a `KeyError` if the key is missing. -/
def index {κ ν : Type} [DecidableEq κ] (d : Dict κ ν) (k : κ) : Except PyError ν :=
  match d.get? k with
  | some v => .ok v
  | none => .error .keyError

/-- `bisect.insort`: to the right of the entries that do not exceed it. -/
def insort (prices : List ℤ) (price : ℤ) : List ℤ :=
  prices.orderedInsert (· < ·) price

/-- The levels and the prices of one side, which the methods bind together as
`levels, prices`. -/
structure Half (ι : Type) where
  /-- price → {order id: qty} -/
  levels : Dict ℤ (Dict ι ℤ)
  /-- The prices, ascending. -/
  prices : List ℤ

/-- **The order book.** Each price level is a dictionary from order id to
quantity, whose insertion order is time priority. The prices are kept apart, in
sorted lists, and `_resting` says of an id on which level its order is. -/
structure OrderBook (ι : Type) where
  bidLevels : Dict ℤ (Dict ι ℤ)
  askLevels : Dict ℤ (Dict ι ℤ)
  /-- Ascending; the best bid is the last. -/
  bidPrices : List ℤ
  /-- Ascending; the best ask is the first. -/
  askPrices : List ℤ
  /-- order id → (side, price) -/
  resting : Dict ι (String × ℤ)

variable {ι : Type}

/-- `__init__`: no levels, no prices, nothing resting. -/
def OrderBook.init : OrderBook ι := ⟨.empty, .empty, [], [], .empty⟩

/-- The levels and prices a method binds for a side. -/
def OrderBook.half (b : OrderBook ι) (side : String) : Half ι :=
  if side = "buy" then ⟨b.bidLevels, b.bidPrices⟩ else ⟨b.askLevels, b.askPrices⟩

/-- The book after the levels and prices of a side were mutated. -/
def OrderBook.putHalf (b : OrderBook ι) (side : String) (h : Half ι) : OrderBook ι :=
  if side = "buy" then { b with bidLevels := h.levels, bidPrices := h.prices }
  else { b with askLevels := h.levels, askPrices := h.prices }

variable [DecidableEq ι]

/-- A level was mutated in place: its price keeps its place among the
levels. -/
def Half.write (h : Half ι) (price : ℤ) (level : Dict ι ℤ) : Half ι :=
  ⟨h.levels.set price level, h.prices⟩

/-- The level of a price and, if there was none, a new one with its price. -/
def Half.openLevel (h : Half ι) (price : ℤ) : Half ι × Dict ι ℤ :=
  match h.levels.get? price with
  | some level => (h, level)
  | none => (⟨h.levels.set price .empty, insort h.prices price⟩, .empty)

/-- `_rest`: into the level of its price, made if there is none, under its id,
on top of what that id has there already. The index is told of the side and the
price, and of nothing that it had for the id before. -/
def OrderBook.rest (b : OrderBook ι) (side : String) (price : ℤ) (oid : ι) (qty : ℤ) :
    OrderBook ι :=
  let (h, level) := (b.half side).openLevel price
  let level' := level.set oid ((level.get? oid).getD 0 + qty)
  { b.putHalf side (h.write price level') with
    resting := b.resting.set oid (side, price) }

/-- `_remove_level_if_empty`: a level that is missing or empty goes, and its
price with it. -/
def Half.removeLevelIfEmpty (h : Half ι) (price : ℤ) : Half ι :=
  if ((h.levels.get? price).getD .empty).entries.isEmpty then
    ⟨h.levels.erase price, h.prices.erase price⟩
  else h

/-- What the loop over the makers of a level mutates. -/
structure LevelState (ι : Type) where
  level : Dict ι ℤ
  resting : Dict ι (String × ℤ)
  fills : List (Fill ι)
  qty : ℤ

/-- `for maker_id in list(level)`: the makers of a level, in the order of a
snapshot of its keys. A maker that is filled leaves the level and the index;
one that is not keeps its place with what is left. The loop ends when nothing
of the taker is left. -/
def matchMakers (best : ℤ) : List ι → LevelState ι → Except PyError (LevelState ι)
  | [], st => .ok st
  | makerId :: makerIds, st => do
    let makerQty ← index st.level makerId
    let trade := if st.qty < makerQty then st.qty else makerQty
    let fills := st.fills ++ [⟨best, trade, makerId⟩]
    let qty := st.qty - trade
    let makerQty := makerQty - trade
    let st' : LevelState ι :=
      if makerQty = 0 then ⟨st.level.erase makerId, st.resting.erase makerId, fills, qty⟩
      else ⟨st.level.set makerId makerQty, st.resting, fills, qty⟩
    if qty = 0 then .ok st' else matchMakers best makerIds st'

/-- What the matching loop mutates. -/
structure MatchState (ι : Type) where
  /-- `opp_levels` and `opp_prices`. -/
  half : Half ι
  resting : Dict ι (String × ℤ)
  fills : List (Fill ι)
  qty : ℤ

/-- One turn of `while qty > 0`: the best price of the other side, if there is
one and it crosses, its makers, and the level if it is empty after them. -/
def matchTurn (crosses : ℤ → Bool) (bestOf : List ℤ → Option ℤ) (st : MatchState ι) :
    Except PyError (Turn (MatchState ι) (MatchState ι)) :=
  if 0 < st.qty then
    match bestOf st.half.prices with
    | none => .ok (.done st)
    | some best =>
      if crosses best then do
        let level ← index st.half.levels best
        let r ← matchMakers best level.keys ⟨level, st.resting, st.fills, st.qty⟩
        .ok (.again ⟨(st.half.write best r.level).removeLevelIfEmpty best, r.resting, r.fills,
          r.qty⟩)
      else .ok (.done st)
  else .ok (.done st)

/-- `maker_side`: the side a taker trades against. -/
def makerSide (takerSide : String) : String := if takerSide = "buy" then "sell" else "buy"

/-- `crosses`: whether a taker may trade at a price. -/
def crosses (takerSide : String) (limitPx : Option ℤ) (best : ℤ) : Bool :=
  match limitPx with
  | none => true
  | some px => if takerSide = "buy" then decide (best ≤ px) else decide (px ≤ best)

/-- `best_of`: the best price of the side a taker trades against. -/
def bestOf (takerSide : String) (prices : List ℤ) : Option ℤ :=
  if takerSide = "buy" then prices.head? else prices.getLast?

/-- `_match`: the fills, what is left of the quantity, and the book after. It
takes a limit or none, and does not rest anything. -/
def OrderBook.match (b : OrderBook ι) (takerSide : String) (limitPx : Option ℤ) (qty : ℤ) :
    Except PyError (List (Fill ι) × ℤ × OrderBook ι) := do
  let h := b.half (makerSide takerSide)
  let st ← loop .diverges (matchTurn (crosses takerSide limitPx) (bestOf takerSide))
    (h.prices.length + 1) ⟨h, b.resting, [], qty⟩
  .ok (st.fills, st.qty,
    { b.putHalf (makerSide takerSide) st.half with resting := st.resting })

/-- `limit`: what is not filled rests. -/
def OrderBook.limit (b : OrderBook ι) (oid : ι) (side : String) (px qty : ℤ) :
    Except PyError (OrderBook ι × List (Fill ι)) := do
  let (fills, remaining, b') ← b.match side (some px) qty
  .ok (if 0 < remaining then b'.rest side px oid remaining else b', fills)

/-- `limit` of an id that has no hash: it trades like any other, and where
something is left `_rest` raises a `TypeError` when it looks the id up, after
it has made the level. -/
def OrderBook.limitUnhashed (b : OrderBook ι) (side : String) (px qty : ℤ) :
    Except PyError (OrderBook ι) := do
  let (_, remaining, b') ← b.match side (some px) qty
  .ok (if 0 < remaining then b'.putHalf side ((b'.half side).openLevel px).1 else b')

/-- `market`: what is not filled is dropped. -/
def OrderBook.market (b : OrderBook ι) (side : String) (qty : ℤ) :
    Except PyError (OrderBook ι × List (Fill ι)) := do
  let (fills, _, b') ← b.match side none qty
  .ok (b', fills)

/-- `cancel`: the order is taken off the level its id is indexed at; whether
the id was indexed is returned. The entry is popped before the level is looked
at, so it is gone even where the level does not have the order. -/
def OrderBook.cancel (b : OrderBook ι) (target : ι) : OrderBook ι × Bool :=
  match b.resting.get? target with
  | none => (b, false)
  | some (side, price) =>
    let b' := { b with resting := b.resting.erase target }
    let h := b.half side
    match h.levels.get? price with
    | some level =>
      if !level.entries.isEmpty ∧ target ∈ level.keys then
        (b'.putHalf side ((h.write price (level.erase target)).removeLevelIfEmpty price), true)
      else (b', true)
    | none => (b', true)

/-- The calls of the book: a side is any string. -/
inductive PyCall (ι : Type) where
  | limit (oid : ι) (side : String) (px qty : ℤ)
  | market (oid : ι) (side : String) (qty : ℤ)
  | cancel (target : ι)
deriving DecidableEq, Repr

/-- One call, with the fills it returns; a cancel returns none. -/
def OrderBook.call (b : OrderBook ι) : PyCall ι → Except PyError (OrderBook ι × List (Fill ι))
  | .limit oid side px qty => b.limit oid side px qty
  | .market _ side qty => b.market side qty
  | .cancel target => .ok ((b.cancel target).1, [])

/-- Whether an order with this id rests on the book: some level of some side
holds it. -/
def OrderBook.Resting (b : OrderBook ι) (i : ι) : Prop :=
  ∃ level ∈ b.bidLevels.values ++ b.askLevels.values, i ∈ level.keys

instance (b : OrderBook ι) (i : ι) : Decidable (b.Resting i) :=
  inferInstanceAs (Decidable (∃ level ∈ b.bidLevels.values ++ b.askLevels.values, i ∈ level.keys))

/-- What the submitters owe: a limit order's id is not resting. The engine does
not check it, and the bots keep to it by drawing ids from spaces of their
own. -/
def OrderBook.FreshId (b : OrderBook ι) : PyCall ι → Prop
  | .limit oid _ _ _ => ¬ b.Resting oid
  | _ => True

instance (b : OrderBook ι) (c : PyCall ι) : Decidable (b.FreshId c) :=
  match c with
  | .limit oid _ _ _ => inferInstanceAs (Decidable (¬ b.Resting oid))
  | .market _ _ _ => isTrue trivial
  | .cancel _ => isTrue trivial

end PyEngine
