import HftArena.PriceTime.Depth

/-!
# Laws of the book

Calls that come to the same: an order that was placed where it does not trade
and then withdrawn, and nothing (`Book.WF.cancel_limit`); a market order and
two for its parts (`Book.market_add`). Of the fills the second only says how
much is traded with each order at its price, since an order that is split may
be filled by one maker in two fills where the whole had one.

And the exchange that tells an engine with price-time priority from others: two
makers at a price of their own, a taker that uses up the first, and the book as
it was when the second is withdrawn (`Book.WF.probe`). It is the pattern of the
bots' probe, in terms of the abstract book; that it leaves the book as it was
is why it can be repeated.
-/

namespace PriceTime

variable {ι κ : Type}

/-! ## A request in two parts

What is served of the whole is what is served of the first part, and of the
second from what the first has left. Makers may be named once more, so fills
are compared by what is exchanged with each order at each price. -/

/-- **A queue is served the parts of a request** one after the other: what is
left of it, and what stays unfilled, is what the whole leaves. If the first
part is filled nothing is left of it, and the second goes on where it
stopped. -/
theorem serve_add {want want' : ℤ} (hw : 0 ≤ want) (hw' : 0 ≤ want') (q : List (κ × ℤ)) :
    (serve (want + want') q).left = (serve want' (serve want q).left).left
      ∧ (serve (want + want') q).unfilled
        = (serve want q).unfilled + (serve want' (serve want q).left).unfilled := by
  induction want, q using serve_induction with
  | nil want => exact ⟨rfl, rfl⟩
  | stop want e q hstop =>
    obtain rfl : want = 0 := le_antisymm hstop hw
    rw [zero_add, serve_of_nonpos le_rfl]
    exact ⟨rfl, (zero_add _).symm⟩
  | whole want k a q hpos ha ih =>
    obtain ⟨hleft, hunfilled⟩ := ih (sub_nonneg.mpr ha)
    rw [serve_cons_of_le hpos ha, serve_cons_of_le (by omega) (by omega), add_sub_right_comm]
    exact ⟨hleft, hunfilled⟩
  | part want k a q hpos ha =>
    rw [serve_cons_of_lt hpos ha]
    dsimp only
    rcases hw'.eq_or_lt with rfl | hw'
    · rw [add_zero, serve_cons_of_lt hpos ha, serve_of_nonpos le_rfl]
      exact ⟨rfl, rfl⟩
    · rcases le_or_gt a (want + want') with hle | hlt
      · rw [serve_cons_of_le (by omega) hle, serve_cons_of_le hw' (by omega),
          show want + want' - a = want' - (a - want) by omega]
        exact ⟨rfl, (zero_add _).symm⟩
      · rw [serve_cons_of_lt (by omega) hlt, serve_cons_of_lt hw' (by omega), sub_sub]
        exact ⟨rfl, rfl⟩

namespace Ladder

/-- **A ladder is swept by the parts of a request** one after the other. -/
theorem sweep_add (reach : ℤ → Bool) {want want' : ℤ} (hw : 0 ≤ want) (hw' : 0 ≤ want')
    (L : Ladder ι) :
    (sweep reach (want + want') L).left = (sweep reach want' (sweep reach want L).left).left := by
  induction want, L using sweep_induction reach with
  | nil want => rfl
  | stop want p q L hstop =>
    rw [sweep_of_stop hstop]
    dsimp only
    rcases hstop with hle | hp
    · rw [le_antisymm hle hw, zero_add]
    · rw [sweep_of_stop (.inr hp), sweep_of_stop (.inr hp)]
  | whole want p q L hpos hp hq ih =>
    obtain ⟨hleft, hunfilled⟩ := serve_add hw hw' q
    rw [hq] at hleft hunfilled
    rw [sweep_of_nil (by omega) hp hleft, sweep_of_nil hpos hp hq, hunfilled]
    exact ih (unfilled_nonneg hw q)
  | part want p q L hpos hp hq =>
    obtain ⟨hleft, hunfilled⟩ := serve_add hw hw' q
    have hun : (serve want q).unfilled = 0 :=
      le_antisymm (not_lt.mp (fun hlt => hq (left_eq_nil_of_unfilled_pos hlt)))
        (unfilled_nonneg hw q)
    rw [hun, zero_add] at hunfilled
    rw [sweep_of_ne_nil hpos hp hq]
    dsimp only
    rcases hw'.eq_or_lt with rfl | hw'
    · rw [add_zero, sweep_of_ne_nil hpos hp hq, sweep_of_stop (.inl le_rfl)]
    · by_cases hnil : (serve want' (serve want q).left).left = []
      · rw [sweep_of_nil (by omega) hp (hleft.trans hnil), sweep_of_nil hw' hp hnil, hunfilled]
      · rw [sweep_of_ne_nil (by omega) hp (hleft ▸ hnil), sweep_of_ne_nil hw' hp hnil, hleft]

section Exchanged

variable [DecidableEq ι]

/-- **How much is traded with an order at a price**, over all fills. It is what
does not depend on how a request is cut up. -/
def exchanged (p : ℤ) (i : ι) (fills : List (Fill ι)) : ℤ :=
  ((fills.filter (fun f => f.px = p ∧ f.maker = i)).map Fill.qty).sum

/-- Fill by fill. -/
theorem exchanged_append (p : ℤ) (i : ι) (fills fills' : List (Fill ι)) :
    exchanged p i (fills ++ fills') = exchanged p i fills + exchanged p i fills' := by
  unfold exchanged
  rw [List.filter_append, List.map_append, List.sum_append]

/-- What the trades of a walk come to. -/
theorem exchanged_map_fillOf (p : ℤ) (i : ι) (trades : List ((ℤ × ι) × ℤ)) :
    exchanged p i (trades.map fillOf) = amountOf (p, i) trades := by
  induction trades with
  | nil => rfl
  | cons t trades ih =>
    obtain ⟨⟨p', i'⟩, a⟩ := t
    rw [List.map_cons, amountOf_cons, ← ih, ← List.singleton_append, exchanged_append]
    refine congrArg (· + _) ?_
    unfold exchanged
    by_cases h : (p', i') = (p, i)
    · obtain ⟨rfl, rfl⟩ := Prod.mk.inj h
      simp [fillOf]
    · have hnot : ¬ (p' = p ∧ i' = i) := fun ⟨hp, hi⟩ => h (Prod.ext hp hi)
      simp [fillOf, hnot]

/-- **What an order has at a price** is exchanged or left. -/
theorem exchanged_sweep (reach : ℤ → Bool) (want : ℤ) (L : Ladder ι) (p : ℤ) (i : ι) :
    exchanged p i (sweep reach want L).fills + amountOf (p, i) (flat (sweep reach want L).left)
      = amountOf (p, i) (flat L) := by
  obtain ⟨hfills, hleft, -, -⟩ := sweep_eq_serve reach want L
  rw [hfills, hleft, exchanged_map_fillOf, amountOf_append, ← add_assoc, amountOf_serve,
    ← amountOf_append, ← flat_append, List.takeWhile_append_dropWhile]

end Exchanged

/-! ## An order that does not trade

Such an order comes to rest at the back of its level. If it is removed again,
the level is as it was, or it is gone if the order was alone there. -/

/-- A ladder out of reach is left as it is. -/
theorem sweep_of_beyond {reach : ℤ → Bool} {L : Ladder ι} (h : ∀ p ∈ L.prices, reach p = false)
    (want : ℤ) : sweep reach want L = ⟨[], L, want, []⟩ := by
  cases L with
  | nil => rfl
  | cons l L => exact sweep_of_stop (.inr (h l.1 List.mem_cons_self)) l.2 L

/-- What is better than all there is comes to rest in front. -/
theorem rest_of_better {s : Side} {px : ℤ} {L : Ladder ι} (h : ∀ p ∈ L.prices, s.better px p)
    (e : ι × ℤ) : rest s px e L = (px, [e]) :: L := by
  cases L with
  | nil => rfl
  | cons l L =>
    have hbetter := h l.1 List.mem_cons_self
    rw [rest, if_neg (fun heq => s.better_irrefl px (by rwa [heq] at hbetter)), if_pos hbetter]

/-- **What came to rest and leaves** has changed nothing: the level that was
made for it goes with it. -/
theorem WF.remove_rest [DecidableEq ι] {s : Side} {L : Ladder ι} (h : WF s L) {i : ι}
    (hi : i ∉ ids L) (px qty : ℤ) : Ladder.remove i (Ladder.rest s px (i, qty) L) = L := by
  induction L with
  | nil => simp [Ladder.rest, Ladder.remove]
  | cons l L ih =>
    obtain ⟨p, q⟩ := l
    have hself : Ladder.remove i ((p, q) :: L) = (p, q) :: L := (h.remove_eq_self_iff i).mpr hi
    rw [ids_cons, List.mem_append, not_or] at hi
    have hq : q.filter (fun e => e.1 ≠ i) = q :=
      List.filter_eq_self.mpr (fun e he =>
        decide_eq_true (fun heq => hi.1 (heq ▸ List.mem_map_of_mem he)))
    have hne : q ≠ [] := h.nonempty _ List.mem_cons_self
    rw [Ladder.rest]
    split_ifs with heq hbetter
    · have htail : Ladder.remove i L = L := (h.tail.remove_eq_self_iff i).mpr hi.2
      rw [remove_cons, List.filter_append, hq, List.filter_singleton]
      simp [htail, hne]
    · rw [remove_cons, List.filter_singleton]
      simp [hself]
    · rw [remove_cons, hq, if_neg hne, ih h.tail hi.2]

end Ladder

namespace Book

open Ladder

/-- A side that is replaced by itself. -/
theorem put_ladder (B : Book ι) (s : Side) : B.put s (B.ladder s) = B := by
  refine Book.ext (fun s' => ?_)
  by_cases hs : s' = s
  · subst hs
    rw [ladder_put_self]
  · rw [ladder_put_of_ne hs]

/-- **A limit order that does not trade** comes to rest, if it is for
something. -/
theorem limit_of_beyond (B : Book ι) (side : Side) {px : ℤ}
    (h : ∀ p ∈ (B.ladder side.opp).prices, side.opp.reaches (some px) p = false) (oid : ι) (qty : ℤ) :
    B.limit oid side px qty
      = (if 0 < qty then B.put side (rest side px (oid, qty) (B.ladder side)) else B, []) := by
  unfold limit sweep
  rw [sweep_of_beyond h]
  dsimp only
  rw [put_ladder]

/-- **An order that is withdrawn before it trades** has changed nothing, for an
identifier that is not resting: otherwise the cancel would take the other order
as well. -/
theorem WF.cancel_limit [DecidableEq ι] {B : Book ι} (hwf : B.WF) {oid : ι} (hfresh : ¬ B.Resting oid)
    {side : Side} {px : ℤ}
    (h : ∀ p ∈ (B.ladder side.opp).prices, side.opp.reaches (some px) p = false) (qty : ℤ) :
    B.limit oid side px qty = ((B.limit oid side px qty).1, [])
      ∧ (B.limit oid side px qty).1.cancel oid = B := by
  have hnot : ∀ s, oid ∉ ids (B.ladder s) := fun s hmem => hfresh ⟨s, hmem⟩
  rw [limit_of_beyond B _ h]
  refine ⟨rfl, Book.ext (fun s => ?_)⟩
  show remove oid (Book.ladder (if 0 < qty then _ else B) s) = _
  have hself : remove oid (B.ladder s) = B.ladder s :=
    ((hwf.side s).remove_eq_self_iff oid).mpr (hnot s)
  split_ifs
  · by_cases hs : s = side
    · subst hs
      rw [ladder_put_self, (hwf.side s).remove_rest (hnot s)]
    · rw [ladder_put_of_ne hs, hself]
  · exact hself

/-- **A market order and two for its parts** leave the same book, and trade the
same with each order. -/
theorem market_add [DecidableEq ι] (B : Book ι) (side : Side) {qty qty' : ℤ} (hqty : 0 ≤ qty)
    (hqty' : 0 ≤ qty') :
    (B.market side (qty + qty')).1 = ((B.market side qty).1.market side qty').1
      ∧ ∀ p i, exchanged p i (B.market side (qty + qty')).2
        = exchanged p i (B.market side qty).2
          + exchanged p i ((B.market side qty).1.market side qty').2 := by
  have hleft := sweep_add (side.opp.reaches none) hqty hqty' (B.ladder side.opp)
  have hother : ((B.market side qty).1).ladder side.opp
      = (Ladder.sweep (side.opp.reaches none) qty (B.ladder side.opp)).left := ladder_put_self _ _ _
  refine ⟨Book.ext (fun s => ?_), fun p i => ?_⟩
  · unfold market sweep at hother ⊢
    dsimp only at hother ⊢
    rw [hother, hleft]
    by_cases hs : s = side.opp
    · subst hs
      rw [ladder_put_self, ladder_put_self]
    · rw [ladder_put_of_ne hs, ladder_put_of_ne hs, ladder_put_of_ne hs]
  · have hwhole := exchanged_sweep (side.opp.reaches none) (qty + qty') (B.ladder side.opp) p i
    have hfirst := exchanged_sweep (side.opp.reaches none) qty (B.ladder side.opp) p i
    have hsecond := exchanged_sweep (side.opp.reaches none) qty'
      (Ladder.sweep (side.opp.reaches none) qty (B.ladder side.opp)).left p i
    rw [← hleft] at hsecond
    show exchanged p i (Ladder.sweep _ _ (B.ladder side.opp)).fills
      = exchanged p i (Ladder.sweep _ _ (B.ladder side.opp)).fills
        + exchanged p i (Ladder.sweep _ _ ((B.market side qty).1.ladder side.opp)).fills
    rw [hother]
    omega

/-- **Two makers and a taker at a price of their own**: the first maker is used
up, some of the second is taken, and when the rest of it is withdrawn the book
is the one before. The fills name the makers in the order in which they came,
which is what an engine without time priority gets wrong. -/
theorem WF.probe [DecidableEq ι] {B : Book ι} (hwf : B.WF) {a m : ι} (hne : a ≠ m) (t : ι)
    {px x y z : ℤ} (hx : 0 < x) (hxz : x < z) (hzxy : z < x + y)
    (hbids : ∀ p ∈ (B.ladder .bid).prices, p < px) (hasks : ∀ p ∈ (B.ladder .ask).prices, px < p)
    (ha : ¬ B.Resting a) (hm : ¬ B.Resting m) :
    ∃ B₁ B₂ B₃ : Book ι, B.step (.limit a .bid px x) = (B₁, [])
      ∧ B₁.step (.limit m .bid px y) = (B₂, [])
      ∧ B₂.step (.limit t .ask px z) = (B₃, [⟨px, x, a⟩, ⟨px, z - x, m⟩])
      ∧ B₃.step (.cancel m) = (B, [])
      ∧ B.Settles (.limit a .bid px x) ∧ B₁.Settles (.limit m .bid px y)
      ∧ B₂.Settles (.limit t .ask px z) := by
  set L := B.ladder .bid with hL
  have hbeyond : ∀ q, ∀ p ∈ ((B.put .bid ((px, q) :: L)).ladder Side.bid.opp).prices,
      Side.bid.opp.reaches (some px) p = false := fun q p hp => by
    rw [ladder_put_of_ne (by decide)] at hp
    exact decide_eq_false (not_le.mpr (hasks p hp))
  have hlimitA := limit_of_beyond B .bid
    (fun p hp => decide_eq_false (not_le.mpr (hasks p hp))) a x
  rw [if_pos hx, ← hL, rest_of_better hbids] at hlimitA
  have hlimitB := limit_of_beyond _ .bid (hbeyond [(a, x)]) m y
  rw [if_pos (by omega), ladder_put_self, rest, if_pos rfl] at hlimitB
  have hserve : serve z [(a, x), (m, y)]
      = ⟨[(a, x), (m, z - x)], [(m, y - (z - x))], 0, [a]⟩ := by
    rw [serve_cons_of_le (by omega) hxz.le, serve_cons_of_lt (by omega) (by omega)]
  have hsweep : Ladder.sweep (Side.bid.reaches (some px)) z ((px, [(a, x), (m, y)]) :: L)
      = ⟨[⟨px, x, a⟩, ⟨px, z - x, m⟩], (px, [(m, y - (z - x))]) :: L, 0, [a]⟩ := by
    rw [sweep_of_ne_nil (by omega) (decide_eq_true le_rfl)
      (by rw [hserve]; exact List.cons_ne_nil _ _), hserve]
    rfl
  have hput : ∀ q q' : List (ι × ℤ), (B.put .bid ((px, q) :: L)).put .bid ((px, q') :: L)
      = B.put .bid ((px, q') :: L) := by
    intro q q'
    refine Book.ext (fun s => ?_)
    cases s <;> rfl
  refine ⟨B.put .bid ((px, [(a, x)]) :: L), B.put .bid ((px, [(a, x), (m, y)]) :: L),
    B.put .bid ((px, [(m, y - (z - x))]) :: L), hlimitA, hlimitB.trans ?_, ?_, ?_,
    Fresh.settles ha, Fresh.settles ?_, ?_⟩
  · rw [hput]
    rfl
  · show limit _ t .ask px z = _
    unfold limit sweep
    rw [show Side.ask.opp = .bid from rfl, ladder_put_self, hsweep]
    dsimp only
    rw [if_neg (lt_irrefl 0), hput]
  · refine congrArg (·, []) (Book.ext (fun s => ?_))
    have hself : ∀ s, remove m (B.ladder s) = B.ladder s := fun s =>
      ((hwf.side s).remove_eq_self_iff m).mpr (fun hmem => hm ⟨s, hmem⟩)
    show remove m ((B.put .bid ((px, [(m, y - (z - x))]) :: L)).ladder s) = _
    cases s with
    | bid =>
      rw [ladder_put_self, remove_cons, if_pos (by simp), hL]
      exact hself .bid
    | ask =>
      rw [ladder_put_of_ne (by decide)]
      exact hself .ask
  · rintro ⟨s, hmem⟩
    cases s with
    | bid =>
      rw [ladder_put_self, ids_cons] at hmem
      rcases List.mem_cons.mp hmem with heq | hmem
      · exact hne heq.symm
      · exact hm ⟨.bid, hmem⟩
    | ask =>
      rw [ladder_put_of_ne (by decide)] at hmem
      exact hm ⟨.ask, hmem⟩
  · intro hpos
    unfold sweep at hpos
    rw [show Side.ask.opp = .bid from rfl, ladder_put_self, hsweep] at hpos
    exact absurd hpos (lt_irrefl 0)

end Book

end PriceTime
