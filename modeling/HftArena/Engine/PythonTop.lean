import Mathlib.Tactic.Ring
import HftArena.Engine.PythonMatch

/-!
# A level on top of the bids

What the calls of the Python book do to a level of bids that is better than all
others, and that no ask crosses: whatever else is on the book – consistent or
not – is left alone. Two orders that rest there, a sell that takes the first
and some of the second, and a cancel of the rest leave the book as it was.

Nothing is assumed of the rest of the book, so this also holds of one that an
order without a hashable id left with an empty level, and it is an equation of
books: the dictionaries have their entries in the same order afterwards. It is
what the probe's iterations rely on, each of which has a price of its own on
top of the bids (`roundTrip`).
-/

open PriceTime

namespace PyEngine

variable {ι : Type} [DecidableEq ι]

/-- The book with a level of bids above all others, which is the last of the
prices and the last of the dictionary. -/
def OrderBook.withTop (b : OrderBook ι) (px : ℤ) (level : Dict ι ℤ)
    (resting : Dict ι (String × ℤ)) : OrderBook ι :=
  { b with
    bidLevels := b.bidLevels.set px level
    bidPrices := b.bidPrices ++ [px]
    resting := resting }

/-- A price that is better than all others goes to the end. -/
theorem insort_of_lt {prices : List ℤ} {px : ℤ} (h : ∀ p ∈ prices, p < px) :
    insort prices px = prices ++ [px] := by
  induction prices with
  | nil => rfl
  | cons p prices ih =>
    obtain ⟨hp, hrest⟩ := List.forall_mem_cons.mp h
    rw [insort, List.orderedInsert_cons, if_neg (not_lt.mpr hp.le)]
    exact congrArg (p :: ·) (ih hrest)

/-- When it is gone the prices are as before. -/
theorem erase_append_self {prices : List ℤ} {px : ℤ} (h : ∀ p ∈ prices, p < px) :
    (prices ++ [px]).erase px = prices := by
  rw [List.erase_append_right _ (fun hmem => lt_irrefl px (h px hmem)), List.erase_cons_head,
    List.append_nil]

variable {b : OrderBook ι} {px : ℤ}

/-- **A buy that crosses no ask is not filled**: the best ask is beyond its
limit, or there is none. -/
theorem match_buy_of_lt (hasks : ∀ p ∈ b.askPrices, px < p) (qty : ℤ) :
    b.match "buy" (some px) qty = .ok ([], qty, b) := by
  refine b.match_idle (.inr (fun best hbest => ?_))
  have hlt : px < best := hasks best (List.mem_of_head? hbest)
  simpa [crosses] using hlt

/-- A first order goes to a new level. -/
theorem limit_buy_new {oid : ι} {qty : ℤ} (hqty : 0 < qty) (hasks : ∀ p ∈ b.askPrices, px < p)
    (hbids : ∀ p ∈ b.bidPrices, p < px) (hlevel : px ∉ b.bidLevels.keys) :
    b.limit oid "buy" px qty
      = .ok (b.withTop px (Dict.empty.set oid qty) (b.resting.set oid ("buy", px)), []) := by
  have hopen : (b.half "buy").openLevel px
      = (⟨b.bidLevels.set px .empty, b.bidPrices ++ [px]⟩, .empty) := by
    have hnone : (b.half "buy").levels.get? px = none := Dict.get?_eq_none_iff.mpr hlevel
    rw [Half.openLevel, hnone]
    dsimp only
    rw [show (b.half "buy").prices = b.bidPrices from rfl, insort_of_lt hbids]
    rfl
  unfold OrderBook.limit
  rw [match_buy_of_lt hasks]
  show Except.ok (if 0 < qty then b.rest "buy" px oid qty else b, []) = _
  rw [if_pos hqty, OrderBook.rest, hopen]
  show Except.ok (({ b with
    bidLevels := (b.bidLevels.set px .empty).set px (Dict.empty.set oid (0 + qty)),
    bidPrices := b.bidPrices ++ [px],
    resting := b.resting.set oid ("buy", px) } : OrderBook ι), []) = _
  rw [Dict.set_set, zero_add]
  rfl

variable {level : Dict ι ℤ} {resting : Dict ι (String × ℤ)}

/-- A second order goes behind the first. -/
theorem limit_buy_top {oid : ι} {qty : ℤ} (hqty : 0 < qty) (hasks : ∀ p ∈ b.askPrices, px < p)
    (hoid : oid ∉ level.keys) :
    (b.withTop px level resting).limit oid "buy" px qty
      = .ok (b.withTop px (level.set oid qty) (resting.set oid ("buy", px)), []) := by
  have hopen : ((b.withTop px level resting).half "buy").openLevel px
      = ((b.withTop px level resting).half "buy", level) := by
    have hsome : ((b.withTop px level resting).half "buy").levels.get? px = some level := by
      show (b.bidLevels.set px level).get? px = some level
      rw [Dict.get?_set, if_pos rfl]
    rw [Half.openLevel, hsome]
  unfold OrderBook.limit
  rw [match_buy_of_lt (b := b.withTop px level resting) hasks]
  show Except.ok (if 0 < qty then (b.withTop px level resting).rest "buy" px oid qty else _, []) = _
  rw [if_pos hqty, OrderBook.rest, hopen]
  dsimp only
  rw [Dict.get?_eq_none_iff.mpr hoid]
  show Except.ok (({ b with
    bidLevels := (b.bidLevels.set px level).set px (level.set oid (0 + qty)),
    bidPrices := b.bidPrices ++ [px],
    resting := resting.set oid ("buy", px) } : OrderBook ι), []) = _
  rw [Dict.set_set, zero_add]
  rfl

/-- **A sell takes the first of two orders, and some of the second.** The level
is the best, so no other is looked at. -/
theorem match_sell_top (b : OrderBook ι) (px : ℤ) (resting : Dict ι (String × ℤ))
    {a m : ι} {x y z : ℤ} (hlevel : level.entries = [(a, x), (m, y)]) (hx : 0 < x) (hxz : x < z)
    (hzy : z < x + y) :
    ∃ level', level'.entries = [(m, x + y - z)]
      ∧ (b.withTop px level resting).match "sell" (some px) z
        = .ok ([⟨px, x, a⟩, ⟨px, z - x, m⟩], 0, b.withTop px level' (resting.erase a)) := by
  have ha : level.get? a = some x := Dict.get?_eq_some_iff.mpr (by rw [hlevel]; simp)
  have herase : (level.erase a).entries = [(m, y)] := Dict.entries_erase_head hlevel
  have hm : (level.erase a).get? m = some y := Dict.get?_eq_some_iff.mpr (by rw [herase]; simp)
  have hset : ((level.erase a).set m (y - (z - x))).entries = [(m, x + y - z)] := by
    rw [Dict.entries_set_head herase]
    congr 2
    ring
  refine ⟨(level.erase a).set m (y - (z - x)), hset, ?_⟩
  have hindex : index level a = .ok x := by rw [index, ha]
  have hindex' : index (level.erase a) m = .ok y := by rw [index, hm]
  -- the first maker is filled and deleted, the second keeps the rest
  have hmakers : matchMakers px level.keys ⟨level, resting, [], z⟩
      = .ok ⟨(level.erase a).set m (y - (z - x)), resting.erase a,
        [⟨px, x, a⟩, ⟨px, z - x, m⟩], 0⟩ := by
    rw [show level.keys = [a, m] by rw [Dict.keys, hlevel]; rfl, matchMakers, hindex]
    show (if z - (if z < x then z else x) = 0 then _ else _) = _
    rw [if_neg (not_lt.mpr hxz.le), if_neg (by omega)]
    dsimp only
    rw [if_pos (sub_self x), matchMakers, hindex']
    show (if z - x - (if z - x < y then z - x else y) = 0 then _ else _) = _
    rw [if_pos (show z - x < y by omega), if_pos (sub_self _)]
    dsimp only
    rw [if_neg (show ¬ y - (z - x) = 0 by omega), sub_self]
    rfl
  have hturn : matchTurn (crosses "sell" (some px)) (bestOf "sell")
      ⟨(b.withTop px level resting).half "buy", resting, [], z⟩
      = .ok (.again ⟨⟨b.bidLevels.set px ((level.erase a).set m (y - (z - x))), b.bidPrices ++ [px]⟩,
          resting.erase a, [⟨px, x, a⟩, ⟨px, z - x, m⟩], 0⟩) := by
    have hbest : bestOf "sell" ((b.withTop px level resting).half "buy").prices = some px :=
      List.getLast?_concat
    have hlevels : index ((b.withTop px level resting).half "buy").levels px = .ok level := by
      rw [index, show ((b.withTop px level resting).half "buy").levels
        = b.bidLevels.set px level from rfl,
        Dict.get?_set, if_pos rfl]
    have hkept : ((⟨b.bidLevels.set px level, b.bidPrices ++ [px]⟩ : Half ι).write px
        ((level.erase a).set m (y - (z - x)))).removeLevelIfEmpty px
        = ⟨b.bidLevels.set px ((level.erase a).set m (y - (z - x))), b.bidPrices ++ [px]⟩ := by
      rw [Half.write, Half.removeLevelIfEmpty, Dict.set_set, Dict.get?_set, if_pos rfl,
        Option.getD_some, hset,
        if_neg (show ¬ [(m, x + y - z)].isEmpty = true from Bool.false_ne_true)]
    rw [matchTurn, if_pos (show 0 < z by omega)]
    dsimp only
    rw [hbest]
    dsimp only
    rw [if_pos (show crosses "sell" (some px) px = true by simp [crosses]), hlevels]
    show (matchMakers px level.keys ⟨level, resting, [], z⟩ >>= _) = _
    rw [hmakers]
    exact congrArg (fun h => Except.ok (Turn.again (⟨h, _, _, _⟩ : MatchState ι))) hkept
  have hloop : loop .diverges (matchTurn (crosses "sell" (some px)) (bestOf "sell"))
      (((b.withTop px level resting).half "buy").prices.length + 1)
      ⟨(b.withTop px level resting).half "buy", resting, [], z⟩
      = .ok ⟨⟨b.bidLevels.set px ((level.erase a).set m (y - (z - x))), b.bidPrices ++ [px]⟩,
          resting.erase a, [⟨px, x, a⟩, ⟨px, z - x, m⟩], 0⟩ := by
    have hlen : ((b.withTop px level resting).half "buy").prices.length + 1
        = b.bidPrices.length + 1 + 1 := congrArg (· + 1) List.length_append
    rw [hlen, loop, hturn]
    dsimp only
    rw [loop, matchTurn, if_neg (lt_irrefl (0 : ℤ))]
  unfold OrderBook.match
  dsimp only
  rw [show makerSide "sell" = "buy" from rfl,
    show (b.withTop px level resting).resting = resting from rfl, hloop]
  rfl

/-- So nothing of it rests. -/
theorem limit_sell_top (b : OrderBook ι) (px : ℤ) (resting : Dict ι (String × ℤ)) (oid : ι)
    {a m : ι} {x y z : ℤ} (hlevel : level.entries = [(a, x), (m, y)]) (hx : 0 < x) (hxz : x < z)
    (hzy : z < x + y) :
    ∃ level', level'.entries = [(m, x + y - z)]
      ∧ (b.withTop px level resting).limit oid "sell" px z
        = .ok (b.withTop px level' (resting.erase a), [⟨px, x, a⟩, ⟨px, z - x, m⟩]) := by
  obtain ⟨level', hlevel', hmatch⟩ := match_sell_top b px resting hlevel hx hxz hzy
  refine ⟨level', hlevel', ?_⟩
  rw [OrderBook.limit, hmatch]
  rfl

/-- A cancel of the last order takes the level with it. -/
theorem cancel_top {m : ι} {w : ℤ} (hlevel : level.entries = [(m, w)])
    (hm : resting.get? m = some ("buy", px)) (hbids : ∀ p ∈ b.bidPrices, p < px)
    (hnew : px ∉ b.bidLevels.keys) :
    (b.withTop px level resting).cancel m = ({ b with resting := resting.erase m }, true) := by
  have herase : (level.erase m).entries = [] := Dict.entries_erase_head hlevel
  have hmem : m ∈ level.keys := by
    rw [Dict.keys, hlevel]
    exact List.mem_cons_self
  unfold OrderBook.cancel
  rw [show (b.withTop px level resting).resting = resting from rfl, hm]
  dsimp only
  rw [show ((b.withTop px level resting).half "buy").levels = b.bidLevels.set px level from rfl,
    Dict.get?_set, if_pos rfl]
  dsimp only
  rw [hlevel, if_pos ⟨rfl, hmem⟩, Half.write, Half.removeLevelIfEmpty]
  dsimp only
  rw [Dict.get?_set, if_pos rfl, Option.getD_some, herase,
    if_pos (show ([] : List (ι × ℤ)).isEmpty = true from rfl),
    show ((b.withTop px level resting).half "buy").levels = b.bidLevels.set px level from rfl,
    Dict.set_set, Dict.erase_set hnew,
    show ((b.withTop px level resting).half "buy").prices = b.bidPrices ++ [px] from rfl,
    erase_append_self hbids]
  rfl

/-- **Two orders that rest on top of the bids, a sell that takes the first and
some of the second, and a cancel leave the book as it was.** -/
theorem roundTrip (oid : ι) {a m : ι} {x y z : ℤ} (hne : a ≠ m) (hx : 0 < x) (hxz : x < z)
    (hzy : z < x + y)
    (hasks : ∀ p ∈ b.askPrices, px < p) (hbids : ∀ p ∈ b.bidPrices, p < px)
    (hnew : px ∉ b.bidLevels.keys) (ha : a ∉ b.resting.keys) (hm : m ∉ b.resting.keys) :
    ∃ b₁ b₂ b₃, b.limit a "buy" px x = .ok (b₁, []) ∧ b₁.limit m "buy" px y = .ok (b₂, [])
      ∧ b₂.limit oid "sell" px z = .ok (b₃, [⟨px, x, a⟩, ⟨px, z - x, m⟩]) ∧ (b₃.cancel m).1 = b := by
  have hentries : ((Dict.empty.set a x).set m y).entries = [(a, x), (m, y)] := by
    rw [Dict.entries_set_of_notMem]
    · rfl
    · rw [Dict.mem_keys_set, Dict.keys_empty]
      exact fun hmem => hmem.elim (fun heq => hne heq.symm) (fun hnil => nomatch hnil)
  obtain ⟨level, hlevel, hsell⟩ := limit_sell_top b px
    ((b.resting.set a ("buy", px)).set m ("buy", px)) oid hentries hx hxz hzy
  have hresting : ((b.resting.set a ("buy", px)).set m ("buy", px)).erase a
      = b.resting.set m ("buy", px) := Dict.erase_set_set hne ha hm _ _
  refine ⟨_, _, _, limit_buy_new hx hasks hbids hnew, limit_buy_top (by omega) hasks ?_, hsell, ?_⟩
  · rw [Dict.mem_keys_set, Dict.keys_empty]
    exact fun hmem => hmem.elim (fun heq => hne heq.symm) (fun hnil => nomatch hnil)
  · rw [hresting, cancel_top hlevel (by rw [Dict.get?_set, if_pos rfl]) hbids hnew,
      Dict.erase_set hm]

end PyEngine
