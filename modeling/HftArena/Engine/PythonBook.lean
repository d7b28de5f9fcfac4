import HftArena.Engine.PythonMatch
import HftArena.PriceTime.Arrival

/-!
# What the Python book guarantees over whole runs

Three things, of any sequence of calls from the empty book.

* With ids of any kind – reused, resting twice, trading against themselves –
  the book stays *sound* (`run_sound`): its prices are its levels, no level is
  empty, no quantity is below one, and no bid meets an ask. That is also what
  the matching loop runs on: it finds each level it looks up, and it ends.
* With ids of any kind, every quantity submitted under an id is accounted for
  (`quantity_conserved`): it was filled, is stored, was cancelled or was
  dropped.
* Where no limit order is submitted under an id that is resting, the book is
  the price-time-priority book (`Refines`), and so gives the fills of a greedy
  execution along the orders in the order of their arrival
  (`price_time_priority`). A reused id merges into the quantity that is there,
  which is why the first two are stated apart from the third.
-/

open PriceTime

namespace PyEngine

variable {ι : Type}

/-! ## The invariant

Everything that calls can rely on, whatever the ids. It is kept call by call,
and each call succeeds where it holds. -/

/-- The prices of the bids are those that are listed. -/
theorem OrderBook.mem_prices_bid {b : OrderBook ι} {p : ℤ} :
    p ∈ (b.ladder .bid).prices ↔ p ∈ b.bidPrices :=
  Ladder.mem_prices_ofPrices

/-- The prices of the asks are those that are listed. -/
theorem OrderBook.mem_prices_ask {b : OrderBook ι} {p : ℤ} :
    p ∈ (b.ladder .ask).prices ↔ p ∈ b.askPrices :=
  Ladder.mem_prices_ofPrices

/-- **A sound book**: both sides are, and every bid is below every ask. It is
kept for ids of any kind, and says nothing of the index, which may be wrong
once an id rests twice. -/
structure OrderBook.Sound (b : OrderBook ι) : Prop where
  bid : Half.WF ⟨b.bidLevels, b.bidPrices⟩
  ask : Half.WF ⟨b.askLevels, b.askPrices⟩
  uncrossed : ∀ p ∈ b.bidPrices, ∀ p' ∈ b.askPrices, p < p'

theorem OrderBook.Sound.half {b : OrderBook ι} (h : b.Sound) : b.HalvesWF
  | .bid => h.bid
  | .ask => h.ask

/-- The prices may be read off the ladders. -/
theorem OrderBook.HalvesWF.sound {b : OrderBook ι} (h : b.HalvesWF)
    (huncrossed : ∀ p ∈ (b.ladder .bid).prices, ∀ p' ∈ (b.ladder .ask).prices, p < p') :
    b.Sound :=
  ⟨h .bid, h .ask, fun p hp p' hp' =>
    huncrossed p (mem_prices_bid.mpr hp) p' (mem_prices_ask.mpr hp')⟩

/-- The ladders do not cross. -/
theorem OrderBook.Sound.ladder_uncrossed {b : OrderBook ι} (h : b.Sound) :
    ∀ p ∈ (b.ladder .bid).prices, ∀ p' ∈ (b.ladder .ask).prices, p < p' :=
  fun p hp p' hp' => h.uncrossed p (mem_prices_bid.mp hp) p' (mem_prices_ask.mp hp')

/-- So is the book that an engine starts with. -/
theorem sound_init : (OrderBook.init : OrderBook ι).Sound :=
  ⟨Half.wf_empty, Half.wf_empty, fun _ hp => absurd hp (by simp [OrderBook.init])⟩

variable [DecidableEq ι]

/-- **Trading keeps a book sound**, and leaves nothing within the limit where
something stays unfilled. -/
theorem OrderBook.Sound.match {b : OrderBook ι} (h : b.Sound) (side : String)
    (limitPx : Option ℤ) (qty : ℤ) :
    ∃ b', b.match side limitPx qty
        = .ok ((b.book.sweep (sideOf side) limitPx qty).fills,
            (b.book.sweep (sideOf side) limitPx qty).unfilled, b')
      ∧ b'.Sound
      ∧ b'.book = b.book.put (sideOf side).opp (b.book.sweep (sideOf side) limitPx qty).left := by
  obtain ⟨b', hb', hhalf, hbook, -⟩ := OrderBook.match_eq_sweep h.half side limitPx qty
  have hprices : ∀ s, (b'.ladder s).prices ⊆ (b.ladder s).prices := by
    intro s
    show (b'.book.ladder s).prices ⊆ _
    rw [hbook]
    by_cases hs : s = (sideOf side).opp
    · subst hs
      rw [Book.ladder_put_self]
      exact (Ladder.prices_sweep_sublist _ _ _).subset
    · rw [Book.ladder_put_of_ne hs]
      exact List.Subset.refl _
  exact ⟨b', hb', hhalf.sound (fun p hp p' hp' =>
    h.ladder_uncrossed p (hprices _ hp) p' (hprices _ hp')), hbook⟩

/-- **Coming to rest keeps a book sound** at a price that nothing opposite
reaches, whatever the id. -/
theorem OrderBook.Sound.rest {b : OrderBook ι} (h : b.Sound) {side : String} {px : ℤ} {oid : ι}
    {qty : ℤ} (hqty : 0 < qty)
    (hcross : ∀ p ∈ (b.ladder (sideOf side).opp).prices,
      (sideOf side).opp.reaches (some px) p = false) :
    (b.rest side px oid qty).Sound := by
  obtain ⟨level, -, hhalf, -, hqueue⟩ := OrderBook.rest_spec h.half side px oid hqty
  refine hhalf.sound (Book.uncrossed_of_rest (fun s => (b.ladder s).prices)
    (fun s => ((b.rest side px oid qty).ladder s).prices) h.ladder_uncrossed
    (sideOf side) px (fun p hp => ?_) (fun p hp => ?_))
  · rw [(hhalf.ladder _).mem_prices_iff, hqueue, if_neg, ← (h.half.ladder _).mem_prices_iff] at hp
    · exact ⟨hp, hcross p hp⟩
    · intro hs
      cases hside : sideOf side <;> rw [hside] at hs <;> exact absurd hs.1 (by decide)
  · by_cases hpx : p = px
    · exact Or.inl hpx
    · rw [(hhalf.ladder _).mem_prices_iff, hqueue, if_neg (fun h => hpx h.2),
        ← (h.half.ladder _).mem_prices_iff] at hp
      exact Or.inr hp

/-- **A cancel keeps a book sound**: a level that it empties goes with its
price. -/
theorem OrderBook.Sound.cancel {b : OrderBook ι} (h : b.Sound) (target : ι) :
    (b.cancel target).1.Sound := by
  cases hloc : b.resting.get? target with
  | none =>
    have hsame : b.cancel target = (b, false) := by rw [OrderBook.cancel, hloc]
    rw [hsame]
    exact h
  | some loc =>
    obtain ⟨hhalf, -, hqueue⟩ := OrderBook.cancel_spec h.half hloc
    have hprices : ∀ s, ((b.cancel target).1.ladder s).prices ⊆ (b.ladder s).prices := by
      intro s p hp
      rw [(hhalf.ladder s).mem_prices_iff, hqueue] at hp
      rw [(h.half.ladder s).mem_prices_iff]
      intro hnil
      rw [hnil] at hp
      split_ifs at hp
      · exact hp rfl
      · exact hp rfl
    exact hhalf.sound (fun p hp p' hp' => h.ladder_uncrossed p (hprices _ hp) p' (hprices _ hp'))

/-- **A limit order**: what it does to a sound book, match and rest. -/
theorem OrderBook.Sound.limit {b : OrderBook ι} (h : b.Sound) (oid : ι) (side : String)
    (px qty : ℤ) :
    ∃ b₁, b₁.Sound
      ∧ b₁.book = b.book.put (sideOf side).opp (b.book.sweep (sideOf side) (some px) qty).left
      ∧ (∀ p ∈ (b₁.ladder (sideOf side).opp).prices,
          0 < (b.book.sweep (sideOf side) (some px) qty).unfilled →
          (sideOf side).opp.reaches (some px) p = false)
      ∧ b.limit oid side px qty
        = .ok (if 0 < (b.book.sweep (sideOf side) (some px) qty).unfilled then
              b₁.rest side px oid (b.book.sweep (sideOf side) (some px) qty).unfilled else b₁,
            (b.book.sweep (sideOf side) (some px) qty).fills) := by
  obtain ⟨b₁, hb₁, hsound, hbook⟩ := h.match side (some px) qty
  refine ⟨b₁, hsound, hbook, fun p hp hun => ?_, ?_⟩
  · have hleft : b₁.ladder (sideOf side).opp
        = (b.book.sweep (sideOf side) (some px) qty).left := by
      show b₁.book.ladder _ = _
      rw [hbook, Book.ladder_put_self]
    rw [hleft] at hp
    exact Ladder.not_reaches_of_unfilled_pos (h.half.ladder _) hun p hp
  · unfold OrderBook.limit
    rw [hb₁]
    rfl

/-- A market order is a match without a limit. -/
theorem OrderBook.Sound.market {b : OrderBook ι} (h : b.Sound) (side : String) (qty : ℤ) :
    ∃ b₁, b₁.Sound
      ∧ b₁.book = b.book.put (sideOf side).opp (b.book.sweep (sideOf side) none qty).left
      ∧ b.market side qty = .ok (b₁, (b.book.sweep (sideOf side) none qty).fills) := by
  obtain ⟨b₁, hb₁, hsound, hbook⟩ := h.match side none qty
  refine ⟨b₁, hsound, hbook, ?_⟩
  unfold OrderBook.market
  rw [hb₁]
  rfl

/-- **Every call returns and keeps the book sound**, for ids of any kind. -/
theorem OrderBook.Sound.call {b : OrderBook ι} (h : b.Sound) (c : PyCall ι) :
    ∃ b' fills, b.call c = .ok (b', fills) ∧ b'.Sound := by
  cases c with
  | limit oid side px qty =>
    obtain ⟨b₁, hsound, -, hcross, hlimit⟩ := h.limit oid side px qty
    refine ⟨_, _, hlimit, ?_⟩
    split_ifs with hun
    · exact hsound.rest hun (fun p hp => hcross p hp hun)
    · exact hsound
  | market oid side qty =>
    obtain ⟨b₁, hsound, -, hmarket⟩ := h.market side qty
    exact ⟨_, _, hmarket, hsound⟩
  | cancel target => exact ⟨_, _, rfl, h.cancel target⟩

/-- The book is sound after any calls, and none of them fails. -/
theorem run_call_sound {b : OrderBook ι} (h : b.Sound) (ops : List (PyCall ι)) :
    ∃ b' outs, run OrderBook.call b ops = .ok (b', outs) ∧ b'.Sound :=
  run_inv_of_forall OrderBook.Sound (fun _ c hs => hs.call c) h ops

/-! ### Reachable books

What calls lead to if an order without a hashable id is among them. Then the
invariant is a weaker one, as a level may be empty. -/

section matched

variable {b b₁ : OrderBook ι} {side : String} {px qty remaining : ℤ}
  {fills : List (Fill ι)}

/-- What a method makes of what `_match` returns. -/
theorem OrderBook.limit_of_match (oid : ι)
    (hmatch : b.match side (some px) qty = .ok (fills, remaining, b₁)) :
    b.limit oid side px qty
      = .ok (if 0 < remaining then b₁.rest side px oid remaining else b₁, fills) := by
  unfold OrderBook.limit
  rw [hmatch]
  rfl

/-- The same for an id without a hash: the level is opened, and no more. -/
theorem OrderBook.limitUnhashed_of_match
    (hmatch : b.match side (some px) qty = .ok (fills, remaining, b₁)) :
    b.limitUnhashed side px qty
      = .ok (if 0 < remaining then b₁.putHalf side ((b₁.half side).openLevel px).1 else b₁) := by
  unfold OrderBook.limitUnhashed
  rw [hmatch]
  rfl

/-- A market order drops what is left. -/
theorem OrderBook.market_of_match
    (hmatch : b.match side none qty = .ok (fills, remaining, b₁)) :
    b.market side qty = .ok (b₁, fills) := by
  unfold OrderBook.market
  rw [hmatch]
  rfl

end matched

/-- The methods keep the sides in order also where a level holds nothing. -/
theorem OrderBook.HalvesLoose.limit {b b' : OrderBook ι} (h : b.HalvesLoose) {oid : ι}
    {side : String} {px qty : ℤ} {fills : List (Fill ι)}
    (hlimit : b.limit oid side px qty = .ok (b', fills)) : b'.HalvesLoose := by
  obtain ⟨b₁, hmatch, hb₁, -⟩ := h.match side (some px) qty
  obtain ⟨rfl, -⟩ := Prod.mk.inj (Except.ok.inj (hlimit.symm.trans (b.limit_of_match oid hmatch)))
  split_ifs with hun
  · obtain ⟨h', -, heq, hl, -⟩ := hb₁.rest side px oid hun
    rw [heq]
    exact hb₁.putHalf hl side
  · exact hb₁

/-- So does one that raises, after it has opened a level. -/
theorem OrderBook.HalvesLoose.limitUnhashed {b b' : OrderBook ι} (h : b.HalvesLoose) {side : String}
    {px qty : ℤ} (hlimit : b.limitUnhashed side px qty = .ok b') : b'.HalvesLoose := by
  obtain ⟨b₁, hmatch, hb₁, -⟩ := h.match side (some px) qty
  obtain rfl := Except.ok.inj (hlimit.symm.trans (b.limitUnhashed_of_match hmatch))
  split_ifs
  · exact hb₁.putHalf ((hb₁.half side).opened px).1 side
  · exact hb₁

/-- So does a market order. -/
theorem OrderBook.HalvesLoose.market {b b' : OrderBook ι} (h : b.HalvesLoose) {side : String}
    {qty : ℤ} {fills : List (Fill ι)} (hmarket : b.market side qty = .ok (b', fills)) :
    b'.HalvesLoose := by
  obtain ⟨b₁, hmatch, hb₁, -⟩ := h.match side none qty
  obtain ⟨rfl, -⟩ := Prod.mk.inj (Except.ok.inj (hmarket.symm.trans (b.market_of_match hmatch)))
  exact hb₁

/-- **A reachable book**: the empty one, and what the methods make of it, a
limit order whose id has no hash among them. Such an order cannot come to rest,
but the level that was made for it stays behind, so a reachable book need not
be sound: its prices are those of its levels (`Reachable.loose`), and some of
the levels may hold nothing. -/
inductive OrderBook.Reachable : OrderBook ι → Prop where
  | init : Reachable .init
  | limit {b b' : OrderBook ι} {oid : ι} {side : String} {px qty : ℤ} {fills : List (Fill ι)}
      (h : Reachable b) (hlimit : b.limit oid side px qty = .ok (b', fills)) : Reachable b'
  | limitUnhashed {b b' : OrderBook ι} {side : String} {px qty : ℤ} (h : Reachable b)
      (hlimit : b.limitUnhashed side px qty = .ok b') : Reachable b'
  | market {b b' : OrderBook ι} {side : String} {qty : ℤ} {fills : List (Fill ι)}
      (h : Reachable b) (hmarket : b.market side qty = .ok (b', fills)) : Reachable b'
  | cancel {b : OrderBook ι} (h : Reachable b) (target : ι) : Reachable (b.cancel target).1

/-- **A reachable book is in order**, though some of its levels may be
empty. -/
theorem OrderBook.Reachable.loose {b : OrderBook ι} (h : b.Reachable) : b.HalvesLoose := by
  induction h with
  | init => exact sound_init.half.loose
  | limit _ hlimit ih => exact ih.limit hlimit
  | limitUnhashed _ hlimit ih => exact ih.limitUnhashed hlimit
  | market _ hmarket ih => exact ih.market hmarket
  | @cancel b _ target ih =>
    cases hloc : b.resting.get? target with
    | none =>
      unfold OrderBook.cancel
      rw [hloc]
      exact ih
    | some loc =>
      obtain ⟨h', heq, hl, -⟩ := ih.cancel hloc
      rw [heq]
      exact ih.putHalf hl loc.1

/-- Every state the matching loop passes through shows a sweep. -/
theorem Visits.shows {b : OrderBook ι} (h : b.Sound) {side : String} {limitPx : Option ℤ}
    {qty : ℤ} {st : MatchState ι}
    (hst : Visits (matchTurn (crosses side limitPx) (bestOf side))
      ⟨b.half (makerSide side), b.resting, [], qty⟩ st) :
    ∃ t, st.Shows (sideOf side).opp b.resting t := by
  refine hst.inv (fun st => ∃ t, st.Shows (sideOf side).opp b.resting t)
    (fun st st' hinv hturn => ?_) ⟨⟨[], b.ladder (sideOf side).opp, qty, []⟩, ?_⟩
  · obtain ⟨t, ht⟩ := hinv
    rcases t.stop_or_level ((sideOf side).opp.reaches limitPx) with hstop | ⟨p, q, L, hL, hw, hp⟩
    · rw [matchTurn_of_stop ht.follows hstop] at hturn
      cases hturn
    · obtain ⟨_, st'', -, hturn', -, hst''⟩ := ht.turn_of_level hL hw hp
      rw [hturn'] at hturn
      cases hturn
      exact ⟨_, hst''⟩
  · refine ⟨h.half.half _, ?_, rfl, rfl, rfl⟩
    rw [OrderBook.half_eq, sideOf_makerSide]
    rfl

/-- **The book stays sound**, whatever the ids, the sides, the prices and the
quantities. After any calls its prices are strictly ascending and are the keys
of its levels, no level is empty, every quantity is at least one and every bid
is below every ask. And in every match that could follow, every turn that has a
price to trade at finds its level and, while quantity remains, takes that one
price out; and the match returns. -/
theorem run_sound (ops : List (PyCall ι)) :
    ∃ b outs, run OrderBook.call .init ops = .ok (b, outs) ∧ b.Sound
      ∧ ∀ side limitPx qty,
        (∀ st best, Visits (matchTurn (crosses side limitPx) (bestOf side))
            ⟨b.half (makerSide side), b.resting, [], qty⟩ st →
          0 < st.qty → bestOf side st.half.prices = some best → crosses side limitPx best = true →
          ∃ level st', index st.half.levels best = .ok level
            ∧ matchTurn (crosses side limitPx) (bestOf side) st = .ok (.again st')
            ∧ (0 < st'.qty → st'.half.prices = st.half.prices.erase best
                ∧ st'.half.prices.length + 1 = st.half.prices.length))
        ∧ ∃ r, b.match side limitPx qty = .ok r := by
  obtain ⟨b, outs, hrun, hsound⟩ := run_call_sound sound_init ops
  refine ⟨b, outs, hrun, hsound, fun side limitPx qty => ⟨fun st best hst hqty hbest hcross => ?_,
    ?_⟩⟩
  · obtain ⟨t, ht⟩ := Visits.shows hsound hst
    rcases t.stop_or_level ((sideOf side).opp.reaches limitPx) with hstop | ⟨p, q, L, hL, hw, hp⟩
    · -- a turn that goes on is not one that stops
      have hturn := matchTurn_of_stop ht.follows hstop
      unfold matchTurn at hturn
      rw [if_pos hqty, hbest] at hturn
      dsimp only at hturn
      rw [if_pos hcross] at hturn
      have hmem : best ∈ st.half.prices := by
        unfold bestOf at hbest
        split_ifs at hbest
        · exact List.mem_of_head? hbest
        · exact List.mem_of_getLast? hbest
      obtain ⟨level, hlevel⟩ := ht.wf.loose.get?.mp hmem
      rw [index, hlevel] at hturn
      simp only [bind, Except.bind] at hturn
      split at hturn <;> cases hturn
    · obtain ⟨level, st', hlevel, hturn, hprices, -⟩ := ht.turn_of_level hL hw hp
      have hbest' : best = p := by
        rw [ht.follows.bestOf_eq, hL] at hbest
        exact (Option.some_inj.mp hbest).symm
      subst hbest'
      refine ⟨level, st', by rw [index, hlevel], hturn, fun hqty' => ⟨hprices hqty', ?_⟩⟩
      have hmem : best ∈ st.half.prices := ht.wf.loose.get?.mpr ⟨level, hlevel⟩
      rw [hprices hqty', List.length_erase_of_mem hmem]
      have := List.length_pos_of_mem hmem
      omega
  · obtain ⟨b', hb', -⟩ := hsound.match side limitPx qty
    exact ⟨_, hb'⟩

/-! ## Conservation

The account of one id over a history. As orders with one id are merged in a
level and forgotten by the index elsewhere, it is an account of quantities and
not of orders. -/

/-- The id a call is submitted under, if it is an order. -/
def PyCall.taker : PyCall ι → Option ι
  | .limit oid _ _ _ => some oid
  | .market oid _ _ => some oid
  | .cancel _ => none

/-- The quantity submitted under an id: of a quantity that is not positive,
nothing. -/
def PyCall.submitted (x : ι) : PyCall ι → ℤ
  | .limit oid _ _ qty => if oid = x then max qty 0 else 0
  | .market oid _ qty => if oid = x then max qty 0 else 0
  | .cancel _ => 0

/-- What an id receives as the taker of a call with these fills. -/
def PyCall.takerFilled (x : ι) (c : PyCall ι) (fills : List (Fill ι)) : ℤ :=
  if c.taker = some x then Ladder.filled fills else 0

/-- The quantity stored under an id, over all levels of both sides. -/
def OrderBook.stored (b : OrderBook ι) (x : ι) : ℤ :=
  ((b.bidLevels.values ++ b.askLevels.values).map (fun level => (level.get? x).getD 0)).sum

/-- The quantity that a cancel of an id deletes: what the level that the id is
indexed at holds under it. -/
def OrderBook.cancelled (b : OrderBook ι) (x : ι) : PyCall ι → ℤ
  | .cancel target =>
    if target = x then
      match b.resting.get? target with
      | some (side, price) =>
        ((((b.half side).levels.get? price).getD .empty).get? target).getD 0
      | none => 0
    else 0
  | _ => 0

/-- The unfilled remainder that a market order of an id drops. -/
def OrderBook.dropped (b : OrderBook ι) (x : ι) : PyCall ι → ℤ
  | .market oid side qty =>
    if oid = x then
      match b.match side none qty with
      | .ok (_, remaining, _) => max remaining 0
      | .error _ => 0
    else 0
  | _ => 0

/-- What a side stores under an id is what its ladder holds. -/
theorem Half.WF.stored_eq_held {h : Half ι} (hwf : h.WF) (s : Side) (x : ι) :
    (h.levels.values.map (fun level => (level.get? x).getD 0)).sum
      = Ladder.held x (h.ladder s) := by
  have hvalues : h.levels.values.map (fun level => (level.get? x).getD 0)
      = h.levels.keys.map (fun p => amountOf x (h.queue p)) := by
    unfold Dict.values Dict.keys
    rw [List.map_map, List.map_map]
    refine List.map_congr_left (fun e he => ?_)
    show (e.2.get? x).getD 0 = amountOf x (h.queue e.1)
    rw [Half.queue_of_get? (Dict.get?_eq_some_iff.mpr he), amountOf_entries]
  have hperm : (Ladder.orient s h.prices).Perm h.levels.keys := by
    have horient : (Ladder.orient s h.prices).Perm h.prices := by
      cases s
      · exact List.reverse_perm _
      · exact List.Perm.refl _
    refine horient.trans ?_
    rw [List.perm_ext_iff_of_nodup (hwf.sorted.imp ne_of_lt) h.levels.nodup_keys]
    exact hwf.mem_prices
  rw [hvalues, ← (hperm.map _).sum_eq, Half.ladder, Ladder.held, Ladder.ofPrices, List.map_map]
  rfl

/-- What a book stores under an id is what its ladders hold. -/
theorem OrderBook.HalvesWF.stored_eq_held {b : OrderBook ι} (h : b.HalvesWF) (x : ι) :
    b.stored x = Ladder.held x (b.ladder .bid) + Ladder.held x (b.ladder .ask) := by
  unfold OrderBook.stored
  rw [List.map_append, List.sum_append]
  exact congrArg₂ (· + ·) ((h .bid).stored_eq_held .bid x) ((h .ask).stored_eq_held .ask x)

/-- Two books that differ in one queue store under an id what the queues differ
in. -/
theorem OrderBook.HalvesWF.stored_of_queueAt {b b' : OrderBook ι} (h : b.HalvesWF)
    (h' : b'.HalvesWF) (s : Side) (px : ℤ)
    (heq : ∀ s' p, ¬ (s' = s ∧ p = px) →
      Ladder.queueAt (b'.ladder s') p = Ladder.queueAt (b.ladder s') p) (x : ι) :
    b'.stored x - amountOf x (Ladder.queueAt (b'.ladder s) px)
      = b.stored x - amountOf x (Ladder.queueAt (b.ladder s) px) := by
  have hside := (h.ladder s).held_of_queueAt (h'.ladder s) px
    (fun p hp => heq s p (fun h => hp h.2)) x
  have hother : ∀ s', s' ≠ s → b'.ladder s' = b.ladder s' := fun s' hs =>
    Ladder.WF.ext (h'.ladder s') (h.ladder s') (fun p => heq s' p (fun h => hs h.1))
  rw [h.stored_eq_held, h'.stored_eq_held]
  cases s with
  | bid => rw [hother .ask (by decide)]; omega
  | ask => rw [hother .bid (by decide)]; omega

/-- **Trading conserves what is stored**: what makers gave is no longer
there. -/
theorem OrderBook.Sound.taken_add_stored {b b' : OrderBook ι} (h : b.Sound) (h' : b'.Sound)
    {side : String} {limitPx : Option ℤ} {qty : ℤ}
    (hbook : b'.book
      = b.book.put (sideOf side).opp (b.book.sweep (sideOf side) limitPx qty).left) (x : ι) :
    Ladder.taken x (b.book.sweep (sideOf side) limitPx qty).fills + b'.stored x
      = b.stored x := by
  have hheld := Ladder.taken_add_held x ((sideOf side).opp.reaches limitPx) qty
    (b.ladder (sideOf side).opp)
  have hladder : ∀ s, b'.ladder s
      = (b.book.put (sideOf side).opp (b.book.sweep (sideOf side) limitPx qty).left).ladder s :=
    fun s => congrFun (congrArg Book.ladder hbook) s
  have hopp := hladder (sideOf side).opp
  have hself := hladder (sideOf side)
  rw [Book.ladder_put_self] at hopp
  rw [Book.ladder_put_opp] at hself
  unfold Book.sweep at hopp ⊢
  rw [h.half.stored_eq_held, h'.half.stored_eq_held]
  cases hs : sideOf side <;> rw [hs] at hopp hself hheld <;>
    simp only [Side.opp] at hopp hself hheld ⊢ <;> rw [hopp, hself] <;>
    simp only [OrderBook.book] at hheld ⊢ <;> omega

/-- What is added to a level is added under its id. -/
theorem amountOf_addTo (x oid : ι) (qty : ℤ) (level : Dict ι ℤ) :
    amountOf x (addTo oid qty level).entries
      = amountOf x level.entries + if oid = x then qty else 0 := by
  rw [amountOf_entries, amountOf_entries, addTo, Dict.get?_set]
  by_cases hx : x = oid
  · subst hx
    rw [if_pos rfl, if_pos rfl, Option.getD_some]
  · rw [if_neg hx, if_neg (Ne.symm hx), add_zero]

/-- **An order that comes to rest is stored**, on top of what its id has. -/
theorem OrderBook.Sound.stored_rest {b : OrderBook ι} (h : b.Sound) (side : String) (px : ℤ)
    (oid : ι) {qty : ℤ} (hqty : 0 < qty) (x : ι) :
    (b.rest side px oid qty).stored x = b.stored x + if oid = x then qty else 0 := by
  obtain ⟨level, hlevel, hhalf, -, hqueue⟩ := OrderBook.rest_spec h.half side px oid hqty
  have hstored := h.half.stored_of_queueAt hhalf (sideOf side) px
    (fun s' p hne => by rw [hqueue, if_neg hne]) x
  rw [hqueue, if_pos ⟨rfl, rfl⟩, amountOf_addTo, hlevel] at hstored
  omega

/-- What a cancel takes off a level is all that its id has there. -/
theorem amountOf_filter_ne (x target : ι) (q : List (ι × ℤ)) :
    amountOf x (q.filter (fun e => e.1 ≠ target)) = if target = x then 0 else amountOf x q := by
  induction q with
  | nil => simp
  | cons e q ih =>
    by_cases he : e.1 = target
    · rw [List.filter_cons_of_neg (by simpa using he), ih, amountOf_cons, he]
      split_ifs <;> simp
    · rw [List.filter_cons_of_pos (by simpa using he), amountOf_cons, ih, amountOf_cons]
      by_cases hx : target = x
      · rw [if_pos hx, if_pos hx, if_neg (fun h => he (h.trans hx.symm))]
        rfl
      · rw [if_neg hx, if_neg hx]

/-- **A cancel takes away what it deletes**, and nothing of any other id. -/
theorem OrderBook.Sound.stored_cancel {b : OrderBook ι} (h : b.Sound) (target x : ι) :
    (b.cancel target).1.stored x + b.cancelled x (.cancel target) = b.stored x := by
  cases hloc : b.resting.get? target with
  | none =>
    have hsame : b.cancel target = (b, false) := by rw [OrderBook.cancel, hloc]
    rw [hsame, OrderBook.cancelled, hloc, ite_self, add_zero]
  | some loc =>
    obtain ⟨side, price⟩ := loc
    obtain ⟨hhalf, -, hqueue⟩ := OrderBook.cancel_spec h.half hloc
    have hstored := h.half.stored_of_queueAt hhalf (sideOf side) price
      (fun s' p hne => by rw [hqueue, if_neg hne]) x
    have hlevel : amountOf target (Ladder.queueAt (b.ladder (sideOf side)) price)
        = ((((b.half side).levels.get? price).getD .empty).get? target).getD 0 := by
      rw [← amountOf_entries, OrderBook.half_eq b side]
      exact congrArg _ ((h.half _).queueAt _ _)
    rw [hqueue, if_pos ⟨rfl, rfl⟩, amountOf_filter_ne] at hstored
    rw [OrderBook.cancelled, hloc]
    dsimp only
    rw [← hlevel]
    by_cases hx : target = x
    · subst hx
      rw [if_pos rfl] at hstored ⊢
      omega
    · rw [if_neg hx] at hstored ⊢
      omega

/-- **One call conserves quantity**, id by id: what was stored and what is
submitted is filled, as taker or as maker, or still stored, or cancelled, or
dropped. The five terms are read off the code, and a call has at most three of
them. -/
theorem OrderBook.Sound.conserves {b b' : OrderBook ι} (h : b.Sound) {c : PyCall ι}
    {fills : List (Fill ι)} (hcall : b.call c = .ok (b', fills)) (x : ι) :
    b.stored x + c.submitted x
      = c.takerFilled x fills + Ladder.taken x fills + b'.stored x + b.cancelled x c
        + b.dropped x c := by
  cases c with
  | limit oid side px qty =>
    obtain ⟨b₁, hsound, hbook, -, hlimit⟩ := h.limit oid side px qty
    obtain ⟨rfl, rfl⟩ := Prod.mk.inj (Except.ok.inj (hlimit.symm.trans hcall))
    have htaken := h.taken_add_stored hsound hbook x
    have hfilled := Book.filled_add_max_unfilled b.book (sideOf side) (some px) qty
    simp only [PyCall.submitted, PyCall.takerFilled, PyCall.taker, OrderBook.cancelled,
      OrderBook.dropped, Option.some_inj]
    split_ifs with hx hun hun
    · have hstored := hsound.stored_rest side px oid hun x
      rw [if_pos hx] at hstored
      omega
    · omega
    · have hstored := hsound.stored_rest side px oid hun x
      rw [if_neg hx] at hstored
      omega
    · omega
  | market oid side qty =>
    obtain ⟨b₁, hmatch, hsound, hbook⟩ := h.match side none qty
    have hmarket : b.market side qty = .ok (b₁, (b.book.sweep (sideOf side) none qty).fills) := by
      unfold OrderBook.market
      rw [hmatch]
      rfl
    obtain ⟨rfl, rfl⟩ := Prod.mk.inj (Except.ok.inj (hmarket.symm.trans hcall))
    have htaken := h.taken_add_stored hsound hbook x
    have hfilled := Book.filled_add_max_unfilled b.book (sideOf side) none qty
    simp only [PyCall.submitted, PyCall.takerFilled, PyCall.taker, OrderBook.cancelled,
      OrderBook.dropped, Option.some_inj, hmatch]
    split_ifs <;> omega
  | cancel target =>
    obtain ⟨rfl, rfl⟩ := Prod.mk.inj (Except.ok.inj hcall)
    have hstored := h.stored_cancel target x
    simp only [PyCall.submitted, PyCall.takerFilled, PyCall.taker, OrderBook.dropped]
    rw [Ladder.taken_nil]
    simp only [reduceCtorEq, if_false]
    omega

/-- Along a run from a sound book, quantity is conserved. -/
theorem run_conserves {b : OrderBook ι} (h : b.Sound) (ops : List (PyCall ι)) (x : ι)
    {b' : OrderBook ι} {outs : List (List (Fill ι))}
    (hrun : run OrderBook.call b ops = .ok (b', outs)) :
    b.stored x + (ops.map (PyCall.submitted x)).sum
      = ((history OrderBook.call b ops).map (fun e => e.2.1.takerFilled x e.2.2)).sum
        + Ladder.taken x outs.flatten + b'.stored x
        + ((history OrderBook.call b ops).map (fun e => e.1.cancelled x e.2.1)).sum
        + ((history OrderBook.call b ops).map (fun e => e.1.dropped x e.2.1)).sum := by
  induction ops generalizing b outs with
  | nil =>
    obtain ⟨rfl, rfl⟩ := Prod.mk.inj (Except.ok.inj hrun)
    simp [history]
  | cons c ops ih =>
    obtain ⟨b₁, fills, hcall, hsound⟩ := h.call c
    obtain ⟨b₂, outs₁, hrun₁, -⟩ := run_call_sound hsound ops
    obtain ⟨rfl, rfl⟩ := Prod.mk.inj (Except.ok.inj ((run_cons_of_ok hcall hrun₁).symm.trans hrun))
    have hone := h.conserves hcall x
    have hrest := ih hsound hrun₁
    rw [history_cons_of_ok hcall]
    simp only [List.map_cons, List.sum_cons, List.flatten_cons, Ladder.taken_append]
    omega

/-- Every fill of a call of a sound book is of at least one. -/
theorem OrderBook.Sound.fills_pos {b b' : OrderBook ι} (h : b.Sound) {c : PyCall ι}
    {fills : List (Fill ι)} (hcall : b.call c = .ok (b', fills)) : ∀ f ∈ fills, 1 ≤ f.qty := by
  have hsweep : ∀ side limit qty, ∀ f ∈ (b.book.sweep side limit qty).fills, 1 ≤ f.qty :=
    fun side limit qty f hf => (Ladder.fill_bounds (h.half.ladder _) _ _ f hf).2.2.1
  cases c with
  | limit oid side px qty =>
    obtain ⟨b₁, -, -, -, hlimit⟩ := h.limit oid side px qty
    obtain ⟨-, rfl⟩ := Prod.mk.inj (Except.ok.inj (hlimit.symm.trans hcall))
    exact hsweep _ _ _
  | market oid side qty =>
    obtain ⟨b₁, -, -, hmarket⟩ := h.market side qty
    obtain ⟨-, rfl⟩ := Prod.mk.inj (Except.ok.inj (hmarket.symm.trans hcall))
    exact hsweep _ _ _
  | cancel target =>
    obtain ⟨-, rfl⟩ := Prod.mk.inj (Except.ok.inj hcall)
    simp

/-- So it is along a run. -/
theorem run_fills_pos {b : OrderBook ι} (h : b.Sound) (ops : List (PyCall ι))
    {b' : OrderBook ι} {outs : List (List (Fill ι))}
    (hrun : run OrderBook.call b ops = .ok (b', outs)) :
    ∀ fills ∈ outs, ∀ f ∈ fills, 1 ≤ f.qty := by
  induction ops generalizing b outs with
  | nil =>
    obtain ⟨rfl, rfl⟩ := Prod.mk.inj (Except.ok.inj hrun)
    simp
  | cons c ops ih =>
    obtain ⟨b₁, fills, hcall, hsound⟩ := h.call c
    obtain ⟨b₂, outs₁, hrun₁, -⟩ := run_call_sound hsound ops
    obtain ⟨rfl, rfl⟩ := Prod.mk.inj (Except.ok.inj ((run_cons_of_ok hcall hrun₁).symm.trans hrun))
    intro fills' hfills'
    rcases List.mem_cons.mp hfills' with rfl | hfills'
    · exact h.fills_pos hcall
    · exact ih hsound hrun₁ fills' hfills'

/-- **Quantity is conserved under every id**, ids reused while resting
included: what was submitted under it was filled as taker, was filled as maker,
is stored, was taken off by its cancels or was dropped by its market orders.
Every fill is of at least one, and a cancel changes what no other id has. -/
theorem quantity_conserved (ops : List (PyCall ι)) (x : ι) :
    ∃ b outs, run OrderBook.call .init ops = .ok (b, outs)
      ∧ (ops.map (PyCall.submitted x)).sum
        = ((history OrderBook.call .init ops).map (fun e => e.2.1.takerFilled x e.2.2)).sum
          + Ladder.taken x outs.flatten + b.stored x
          + ((history OrderBook.call .init ops).map (fun e => e.1.cancelled x e.2.1)).sum
          + ((history OrderBook.call .init ops).map (fun e => e.1.dropped x e.2.1)).sum
      ∧ (∀ fills ∈ outs, ∀ f ∈ fills, 1 ≤ f.qty)
      ∧ ∀ y, y ≠ x → (b.cancel x).1.stored y = b.stored y := by
  obtain ⟨b, outs, hrun, hsound⟩ := run_call_sound sound_init ops
  refine ⟨b, outs, hrun, ?_, run_fills_pos sound_init ops hrun, fun y hy => ?_⟩
  · rw [← run_conserves sound_init ops x hrun]
    exact (zero_add _).symm
  · have hstored := hsound.stored_cancel x y
    have hnothing : b.cancelled y (.cancel x) = 0 := if_neg (Ne.symm hy)
    rwa [hnothing, add_zero] at hstored

/-! ## The price-time-priority book

With ids kept apart, the ladders are those of the abstract book and the index
is right, since no order is merged into another. -/

/-- A call with its side read: any string but `"buy"` is a sell. -/
def PyCall.toCall : PyCall ι → Call ι
  | .limit oid side px qty => .limit oid (sideOf side) px qty
  | .market oid side qty => .market oid (sideOf side) qty
  | .cancel target => .cancel target

/-- Where the index says an order rests. -/
def OrderBook.loc (b : OrderBook ι) (i : ι) : Option (Side × ℤ) :=
  (b.resting.get? i).map (fun l => (sideOf l.1, l.2))

/-- **The Python book is the abstract one**: its sides are sound and show the
ladders of the abstract book, and its index is right. The last is what it takes
ids that are kept apart for. -/
structure OrderBook.Refines (b : OrderBook ι) (B : Book ι) : Prop where
  half : b.HalvesWF
  book : b.book = B
  wf : B.WF
  located : B.Located b.loc

/-- The book that an engine starts with is the abstract one with no order. -/
theorem refines_init : (OrderBook.init : OrderBook ι).Refines .empty := by
  refine ⟨sound_init.half, Book.ext (fun s => ?_), Book.wf_empty, Book.located_empty⟩
  cases s <;> rfl

/-- Such a book is sound. -/
theorem OrderBook.Refines.sound {b : OrderBook ι} {B : Book ι} (h : b.Refines B) : b.Sound := by
  refine h.half.sound ?_
  have huncrossed := h.wf.uncrossed
  rw [← h.book] at huncrossed
  exact huncrossed

/-- An id rests on a level exactly if it rests on the abstract book. -/
theorem OrderBook.Refines.resting_iff {b : OrderBook ι} {B : Book ι} (h : b.Refines B) {i : ι} :
    b.Resting i ↔ B.Resting i := by
  have hside : ∀ s : Side, (∃ level ∈ (b.half s.word).levels.values, i ∈ level.keys)
      ↔ i ∈ Ladder.ids (b.ladder s) := by
    intro s
    rw [Ladder.mem_ids_iff]
    constructor
    · rintro ⟨level, hlevel, hi⟩
      obtain ⟨p, hp⟩ := Dict.mem_values_iff.mp hlevel
      refine ⟨p, ?_⟩
      rw [OrderBook.ladder, (h.half s).queueAt, Half.queue_of_get? hp]
      exact hi
    · rintro ⟨p, hi⟩
      rw [OrderBook.ladder, (h.half s).queueAt, Half.queue] at hi
      cases hget : (b.half s.word).levels.get? p with
      | none => rw [hget] at hi; simp at hi
      | some level =>
        rw [hget] at hi
        exact ⟨level, Dict.mem_values_iff.mpr ⟨p, hget⟩, hi⟩
  have hB : B.Resting i ↔ i ∈ Ladder.ids (b.ladder .bid) ∨ i ∈ Ladder.ids (b.ladder .ask) := by
    rw [← h.book]
    constructor
    · rintro ⟨s, hs⟩
      cases s
      · exact Or.inl hs
      · exact Or.inr hs
    · rintro (hs | hs)
      · exact ⟨.bid, hs⟩
      · exact ⟨.ask, hs⟩
  rw [hB, ← hside, ← hside, OrderBook.Resting]
  simp only [List.mem_append, or_and_right, exists_or]
  exact Iff.rfl

/-- What submitters owe the one they owe the other. -/
theorem OrderBook.Refines.fresh_iff {b : OrderBook ι} {B : Book ι} (h : b.Refines B)
    {c : PyCall ι} : b.FreshId c ↔ B.Fresh c.toCall := by
  cases c with
  | limit oid side px qty => exact not_congr h.resting_iff
  | market oid side qty => exact Iff.rfl
  | cancel target => exact Iff.rfl

/-- **`_match` is a sweep of the abstract book.** -/
theorem OrderBook.Refines.match {b : OrderBook ι} {B : Book ι} (h : b.Refines B) (side : String)
    (limitPx : Option ℤ) (qty : ℤ) :
    ∃ b', b.match side limitPx qty
        = .ok ((B.sweep (sideOf side) limitPx qty).fills,
            (B.sweep (sideOf side) limitPx qty).unfilled, b')
      ∧ b'.Refines (B.put (sideOf side).opp (B.sweep (sideOf side) limitPx qty).left) := by
  obtain ⟨b', hb', hhalf, hbook, hresting⟩ := OrderBook.match_eq_sweep h.half side limitPx qty
  rw [h.book] at hb' hbook hresting
  refine ⟨b', hb', hhalf, hbook, h.wf.put_sweep _ _ _, ?_⟩
  have hloc : b'.loc
      = fun i => if i ∈ (B.sweep (sideOf side) limitPx qty).gone then none else b.loc i := by
    funext i
    rw [OrderBook.loc, hresting, Dict.get?_eraseAll]
    split_ifs <;> rfl
  rw [hloc]
  exact h.located.put_sweep h.wf _ _ _

/-- **`_rest` is coming to rest**, for an id that is not resting. -/
theorem OrderBook.Refines.rest {b : OrderBook ι} {B : Book ι} (h : b.Refines B) (side : String)
    (px : ℤ) {oid : ι} {qty : ℤ} (hfresh : ¬ B.Resting oid) (hqty : 0 < qty)
    (hcross : ∀ p ∈ (B.ladder (sideOf side).opp).prices,
      (sideOf side).opp.reaches (some px) p = false) :
    (b.rest side px oid qty).Refines (B.put (sideOf side)
      (Ladder.rest (sideOf side) px (oid, qty) (B.ladder (sideOf side)))) := by
  obtain ⟨level, hlevel, hhalf, hresting, hqueue⟩ :=
    OrderBook.rest_spec h.half side px oid hqty
  have hwf := h.wf.put_rest (sideOf side) px hfresh hqty hcross
  have hladder : ∀ s, b.ladder s = B.ladder s := fun s => congrFun (congrArg Book.ladder h.book) s
  -- an id that is not resting is not at its level, so it goes to the back
  have hnot : oid ∉ level.keys := by
    intro hmem
    refine hfresh ⟨sideOf side, Ladder.mem_ids_iff.mpr ⟨px, ?_⟩⟩
    rw [← hladder, ← hlevel]
    exact hmem
  have hback : (addTo oid qty level).entries = level.entries ++ [(oid, qty)] := by
    rw [addTo, Dict.entries_set_of_notMem hnot, Dict.get?_eq_none_iff.mpr hnot, Option.getD_none,
      zero_add]
  refine ⟨hhalf, hhalf.book_eq hwf (fun s p => ?_), hwf, ?_⟩
  · rw [hqueue, hback, hlevel]
    by_cases hs : s = sideOf side
    · subst hs
      rw [Book.ladder_put_self, (h.wf.side _).queueAt_rest, hladder]
      by_cases hp : p = px
      · rw [if_pos ⟨rfl, hp⟩, if_pos hp, hp]
      · rw [if_neg (fun h => hp h.2), if_neg hp]
    · rw [if_neg (fun h => hs h.1), Book.ladder_put_of_ne hs, hladder]
  · have hloc : (b.rest side px oid qty).loc
        = fun i => if i = oid then some (sideOf side, px) else b.loc i := by
      funext i
      rw [OrderBook.loc, hresting, Dict.get?_set]
      split_ifs <;> rfl
    rw [hloc]
    exact h.located.put_rest h.wf hfresh _ _ _

/-- **A cancel is a cancel.** The index is right, so the level it names is the
only one with the order. -/
theorem OrderBook.Refines.cancel {b : OrderBook ι} {B : Book ι} (h : b.Refines B) (target : ι) :
    (b.cancel target).1.Refines (B.cancel target) := by
  have hladder : ∀ s, b.ladder s = B.ladder s := fun s => congrFun (congrArg Book.ladder h.book) s
  have hwf : (B.cancel target).WF := h.wf.step (c := .cancel target) trivial
  have hlocated := h.located.cancel target
  cases hloc : b.resting.get? target with
  | none =>
    have hsame : b.cancel target = (b, false) := by rw [OrderBook.cancel, hloc]
    have hnone : b.loc target = none := by rw [OrderBook.loc, hloc]; rfl
    rw [hsame, h.located.cancel_eq_self hnone h.wf]
    exact h
  | some loc =>
    obtain ⟨side, price⟩ := loc
    obtain ⟨hhalf, hresting, hqueue⟩ := OrderBook.cancel_spec h.half hloc
    have hsome : b.loc target = some (sideOf side, price) := by rw [OrderBook.loc, hloc]; rfl
    refine ⟨hhalf, hhalf.book_eq hwf (fun s p => ?_), hwf, ?_⟩
    · rw [hqueue, hladder, h.located.queueAt_cancel hsome]
    · have hloc' : (b.cancel target).1.loc
          = fun i => if i = target then none else b.loc i := by
        funext i
        rw [OrderBook.loc, hresting, Dict.get?_erase]
        split_ifs <;> rfl
      rw [hloc']
      exact hlocated

/-- **Every call that keeps ids apart is the call of the abstract book**, with
the same fills. -/
theorem OrderBook.Refines.call_of_settles {b : OrderBook ι} {B : Book ι} (h : b.Refines B)
    {c : PyCall ι} (hsettles : B.Settles c.toCall) :
    ∃ b', b.call c = .ok (b', (B.step c.toCall).2) ∧ b'.Refines (B.step c.toCall).1 := by
  cases c with
  | limit oid side px qty =>
    obtain ⟨b₁, hb₁, h₁⟩ := h.match side (some px) qty
    refine ⟨if 0 < (B.sweep (sideOf side) (some px) qty).unfilled then
      b₁.rest side px oid (B.sweep (sideOf side) (some px) qty).unfilled else b₁, ?_, ?_⟩
    · show b.limit oid side px qty = _
      unfold OrderBook.limit
      rw [hb₁]
      rfl
    · show (if 0 < (B.sweep (sideOf side) (some px) qty).unfilled then _ else _ :
        OrderBook ι).Refines (if 0 < (B.sweep (sideOf side) (some px) qty).unfilled then _ else _)
      split_ifs with hun
      · have hrest := h₁.rest side px (hsettles hun) hun (by
          rw [Book.ladder_put_self]
          exact Ladder.not_reaches_of_unfilled_pos (h.wf.side _) hun)
        rwa [Book.ladder_put_opp] at hrest
      · exact h₁
  | market oid side qty =>
    obtain ⟨b₁, hb₁, h₁⟩ := h.match side none qty
    refine ⟨b₁, ?_, h₁⟩
    show b.market side qty = _
    unfold OrderBook.market
    rw [hb₁]
    rfl
  | cancel target => exact ⟨_, rfl, h.cancel target⟩

/-- The same, as long as no limit order reuses an id that is resting. -/
theorem OrderBook.Refines.call {b : OrderBook ι} {B : Book ι} (h : b.Refines B) {c : PyCall ι}
    (hfresh : B.Fresh c.toCall) :
    ∃ b', b.call c = .ok (b', (B.step c.toCall).2) ∧ b'.Refines (B.step c.toCall).1 :=
  h.call_of_settles hfresh.settles

/-- The book shows a list of resting orders: each level holds the orders of its
side and price, in the order in which they came to rest. -/
def OrderBook.Holds (b : OrderBook ι) (orders : List (Order ι)) : Prop :=
  ∀ side price, (b.half side).queue price = queueOf orders (sideOf side) price

/-- A book that refines one with these orders holds them. -/
theorem OrderBook.Refines.holds {b : OrderBook ι} {B : Book ι} (h : b.Refines B)
    {orders : List (Order ι)} (harrived : B.Arrived orders) : b.Holds orders := by
  intro side price
  rw [← harrived, ← h.book, OrderBook.half_eq]
  exact ((h.half _).queueAt _ _).symm

/-- **Price-time priority.** After any calls in which no limit order reuses an
id that is resting, the fills so far are those of the greedy executions along
the orders in the order in which they came to rest, and the book shows the
orders that are left. Whatever order comes next is executed greedily along
them, too; what a limit order does not fill goes to the back of its price
level, and of a market order nothing stays. -/
theorem price_time_priority (ops : List (PyCall ι))
    (hops : Allowed OrderBook.call OrderBook.FreshId .init ops) :
    ∃ b outs orders, run OrderBook.call .init ops = .ok (b, outs)
      ∧ run (always Arrival.step) [] (ops.map PyCall.toCall) = .ok (orders, outs)
      ∧ b.Holds orders
      ∧ (∀ oid side px qty, ∃ b',
          b.limit oid side px qty
            = .ok (b', Arrival.fills orders (sideOf side) (some px) qty)
          ∧ (¬ b.Resting oid →
              b'.Holds (Arrival.step orders (.limit oid (sideOf side) px qty)).1))
      ∧ ∀ oid side qty, ∃ b',
          b.market side qty = .ok (b', Arrival.fills orders (sideOf side) none qty)
          ∧ b'.Holds (Arrival.step orders (.market oid (sideOf side) qty)).1 := by
  obtain ⟨b, orders, outs, hrun, hspec, B, hB, harrived⟩ := run_sim
    (fun orders c => always Arrival.step orders (PyCall.toCall c))
    (fun b orders => ∃ B : Book ι, b.Refines B ∧ B.Arrived orders)
    (fun b orders c ⟨B, hB, harrived⟩ hfresh => by
      obtain ⟨b', hb', hB'⟩ := hB.call (hB.fresh_iff.mp hfresh)
      obtain ⟨harrived', hfills⟩ := harrived.step hB.wf c.toCall
      exact ⟨b', _, _, hb', by rw [always, hfills], _, hB', harrived'⟩)
    ⟨.empty, refines_init, Book.arrived_empty⟩ hops
  refine ⟨b, outs, orders, hrun, by rw [run_map]; exact hspec, hB.holds harrived,
    fun oid side px qty => ?_, fun oid side qty => ?_⟩
  · obtain ⟨b₁, -, -, -, hlimit⟩ := hB.sound.limit oid side px qty
    rw [hB.book, (harrived.sweep_eq hB.wf _ _ _).1] at hlimit
    refine ⟨_, hlimit, fun hfresh => ?_⟩
    obtain ⟨b', hb', hB'⟩ := hB.call (c := .limit oid side px qty) (hB.fresh_iff.mp hfresh)
    obtain ⟨rfl, -⟩ := Prod.mk.inj (Except.ok.inj (hb'.symm.trans hlimit))
    exact hB'.holds (harrived.step hB.wf _).1
  · obtain ⟨b', hb', hB'⟩ := hB.call (c := .market oid side qty) trivial
    obtain ⟨harrived', hfills⟩ := harrived.step hB.wf (.market oid (sideOf side) qty)
    refine ⟨b', ?_, hB'.holds harrived'⟩
    show b.call (.market oid side qty) = _
    rw [hb']
    exact congrArg (fun f => Except.ok (b', f)) hfills

/-- Two asks at one price and one above, the first of them partly filled and
its neighbour cancelled before a limit order takes all of both prices. -/
theorem price_time_priority_at_two_levels :
    ∃ b outs orders, run OrderBook.call .init
        [.limit 1 "sell" 10 5, .limit 2 "sell" 10 4, .limit 3 "sell" 11 6, .market 4 "buy" 2,
          .cancel 2, .limit 5 "buy" 11 8] = .ok (b, outs)
      ∧ run (always Arrival.step) [] ([PyCall.limit 1 "sell" 10 5, .limit 2 "sell" 10 4,
          .limit 3 "sell" 11 6, .market 4 "buy" 2, .cancel 2, .limit 5 "buy" 11 8].map
            PyCall.toCall) = .ok (orders, outs)
      ∧ outs = [[], [], [], [⟨10, 2, 1⟩], [], [⟨10, 3, 1⟩, ⟨11, 5, 3⟩]]
      ∧ b.Holds orders := by
  obtain ⟨b, outs, orders, hrun, hspec, hholds, -⟩ := price_time_priority (ι := ℕ)
    [.limit 1 "sell" 10 5, .limit 2 "sell" 10 4, .limit 3 "sell" 11 6, .market 4 "buy" 2,
      .cancel 2, .limit 5 "buy" 11 8] (by decide)
  refine ⟨b, outs, orders, hrun, hspec, ?_, hholds⟩
  have houts : (run OrderBook.call (.init : OrderBook ℕ)
      [.limit 1 "sell" 10 5, .limit 2 "sell" 10 4, .limit 3 "sell" 11 6, .market 4 "buy" 2,
        .cancel 2, .limit 5 "buy" 11 8]).toOption.map Prod.snd
      = some [[], [], [], [⟨10, 2, 1⟩], [], [⟨10, 3, 1⟩, ⟨11, 5, 3⟩]] := by decide
  rw [hrun] at houts
  exact Option.some_inj.mp houts

end PyEngine
