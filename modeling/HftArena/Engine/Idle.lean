import HftArena.Engine.Go
import HftArena.Engine.Rust
import HftArena.PriceTime.Depth

/-!
# Calls that change nothing

Which calls leave the Go and the Rust book as they are, whatever was called
before: limit orders for nothing, market orders for nothing or with nothing to
trade with, and cancels of ids that the index does not have
(`Book.Shows.call_self_iff`, one for each engine).

The conditions are read off the engine's own book, and the equivalences hold of
every book that calls lead to. A limit order for something always changes the
book, since it is filled or comes to rest; a cancel of an id that the index has
takes at least the entry out.
-/

open PriceTime

variable {ι : Type}

/-- A limit order on nodes is one on the book of nodes. -/
theorem PriceTime.Handles.book_limit [DecidableEq ι] (H : Handles ι) (oid : ι) (side : Side)
    (px qty : ℤ) : (H.limit oid side px qty).book = (H.book.limit (H.next, oid) side px qty).1 := by
  unfold Handles.limit Book.limit
  dsimp only
  split_ifs with hun
  · show (H.book.put side.opp _).put side
      (Ladder.rest side px _ ((H.book.put side.opp _).ladder side)) = _
    rw [Book.ladder_put_opp]
    rfl
  · rfl

/-! ## Go -/

namespace GoEngine

/-- **A call that changes nothing.** -/
def Book.Idle [DecidableEq ι] (b : Book ι) : Call ι → Prop
  | .limit _ _ _ qty => qty ≤ 0
  | .market _ side qty => qty ≤ 0 ∨ (b.own (buys side.opp)).prices = []
  | .cancel target => b.index.get? target = none

variable [DecidableEq ι]

/-- With nothing wanted, or nothing there, a match changes nothing: the loop
ends at its first turn. -/
theorem Book.match_idle (b : Book ι) (side : Side) (limitPx : ℤ) {qty : ℤ} (hasLimit : Bool)
    (h : qty ≤ 0 ∨ (b.own (buys side.opp)).prices = []) :
    b.match (buys side) limitPx qty hasLimit = .ok ([], qty, b) := by
  have hturn : matchTurn (buys side) limitPx hasLimit ⟨b.own (buys side.opp), b.index, [], qty⟩
      = .ok (.done ⟨b.own (buys side.opp), b.index, [], qty⟩) := by
    unfold matchTurn
    dsimp only
    rcases h with hqty | hempty
    · rw [if_neg (not_lt.mpr hqty)]
    · rw [hempty]
      cases side <;> (split_ifs <;> rfl)
  unfold Book.match
  rw [← buys_opp]
  simp only [loop, hturn, bind, Except.bind]
  cases side <;> rfl

/-- **A call leaves the book as it is** exactly if it is idle. -/
theorem Book.Shows.call_self_iff {b b' : Book ι} {H : Handles ι} (h : b.Shows H) {c : Call ι}
    {fills : List (Fill ι)} (hcall : b.call c = .ok (b', fills)) : b' = b ↔ b.Idle c := by
  obtain ⟨b'', hcall', h'⟩ := h.call c
  cases hcall.symm.trans hcall'
  -- the same book shows the same ladders
  have hladder : b' = b → ∀ s, (H.step c).1.book.ladder s = H.book.ladder s := fun heq s => by
    rw [← h'.ladder, ← h.ladder, heq]
  have hwf : ∀ s, Ladder.WF s (H.book.ladder s) := H.wf.side
  cases c with
  | limit oid side px qty =>
    constructor
    · intro heq
      by_contra hqty
      refine Book.not_forall_ladder_limit hwf (H.next, oid) side px (not_le.mp hqty) (fun s => ?_)
      rw [← H.book_limit]
      exact hladder heq s
    · intro hqty
      have hsame : b.call (.limit oid side px qty) = .ok (b, []) := by
        show b.limit oid (buys side) px qty = _
        unfold Book.limit
        rw [b.match_idle side px true (Or.inl hqty)]
        simp only [bind, Except.bind, if_neg (not_lt.mpr hqty)]
      exact (Prod.mk.inj (Except.ok.inj (hcall.symm.trans hsame))).1
  | market oid side qty =>
    have hempty : H.book.ladder side.opp = [] ↔ (b.own (buys side.opp)).prices = [] := by
      rw [← h.ladder, Half.ladder, Ladder.ofPrices_eq_nil_iff]
    constructor
    · intro heq
      rcases le_or_gt qty 0 with hqty | hqty
      · exact Or.inl hqty
      · exact Or.inr (hempty.mp ((Book.ladder_market_eq_iff side hqty).mp (hladder heq)))
    · intro hidle
      have hsame : b.call (.market oid side qty) = .ok (b, []) := by
        show b.market (buys side) qty = _
        unfold Book.market
        rw [b.match_idle side 0 false hidle]
        rfl
      exact (Prod.mk.inj (Except.ok.inj (hcall.symm.trans hsame))).1
  | cancel target =>
    have heq : b' = b.cancel target := (Prod.mk.inj (Except.ok.inj hcall)).1.symm
    show b' = b ↔ b.index.get? target = none
    rw [heq]
    unfold Book.cancel
    cases hloc : b.index.get? target with
    | none => exact iff_of_true rfl rfl
    | some lc =>
      refine iff_of_false (fun hsame => ?_) (Option.some_ne_none _)
      have hindex := congrArg (fun b => Dict.get? (Book.index b) target) hsame
      dsimp only at hindex
      rw [Dict.get?_erase, if_pos rfl, hloc] at hindex
      cases hindex

end GoEngine

/-! ## Rust -/

namespace RustEngine

/-- **A call that changes nothing.** -/
def Book.Idle [DecidableEq ι] (b : Book ι) : Call ι → Prop
  | .limit _ _ _ qty => qty ≤ 0
  | .market _ side qty => qty ≤ 0 ∨ (b.own (buys side.opp)).keys = []
  | .cancel target => b.index.get? target = none

variable [DecidableEq ι]

/-- With nothing wanted, or nothing there, a match changes nothing: the loop
ends at its first turn, and no id was collected. -/
theorem Book.matchOrder_idle (b : Book ι) (side : Side) (limitPx : ℤ) {qty : ℤ} (hasLimit : Bool)
    (h : qty ≤ 0 ∨ (b.own (buys side.opp)).keys = []) :
    b.matchOrder (buys side) limitPx qty hasLimit = .ok ([], qty, b) := by
  have hturn : matchTurn (buys side) limitPx hasLimit ⟨b.own (buys side.opp), [], [], qty⟩
      = .ok (.done ⟨b.own (buys side.opp), [], [], qty⟩) := by
    unfold matchTurn
    dsimp only
    rcases h with hqty | hempty
    · rw [if_pos hqty]
    · rw [hempty]
      cases side <;> (split_ifs <;> rfl)
  unfold Book.matchOrder
  rw [← buys_opp]
  simp only [loop, hturn, bind, Except.bind]
  cases side <;> rfl

/-- **A call leaves the book as it is** exactly if it is idle. -/
theorem Book.Shows.call_self_iff {b b' : Book ι} {B : PriceTime.Book ι} (h : b.Shows B) {c : Call ι}
    {fills : List (Fill ι)} (hcall : b.call c = .ok (b', fills)) : b' = b ↔ b.Idle c := by
  cases c with
  | limit oid side px qty =>
    constructor
    · intro heq
      obtain ⟨b'', hcall', h'⟩ := h.limit oid side px qty
      cases hcall.symm.trans hcall'
      by_contra hqty
      refine Book.not_forall_ladder_limit h.wf oid side px (not_le.mp hqty) (fun s => ?_)
      rw [← h'.ladder, ← h.ladder, heq]
    · intro hqty
      have hsame : b.call (.limit oid side px qty) = .ok (b, []) := by
        show b.limit oid (buys side) px qty = _
        unfold Book.limit
        rw [b.matchOrder_idle side px true (Or.inl hqty)]
        simp only [bind, Except.bind, if_neg (not_lt.mpr hqty)]
      exact (Prod.mk.inj (Except.ok.inj (hcall.symm.trans hsame))).1
  | market oid side qty =>
    have hempty : B.ladder side.opp = [] ↔ (b.own (buys side.opp)).keys = [] := by
      rw [← h.ladder, Ladder.ofMap, Ladder.ofPrices_eq_nil_iff]
    constructor
    · intro heq
      obtain ⟨b'', hcall', h'⟩ := h.market oid side qty
      cases hcall.symm.trans hcall'
      rcases le_or_gt qty 0 with hqty | hqty
      · exact Or.inl hqty
      · refine Or.inr (hempty.mp ((Book.ladder_market_eq_iff side hqty).mp (fun s => ?_)))
        rw [← h'.ladder, ← h.ladder, heq]
    · intro hidle
      have hsame : b.call (.market oid side qty) = .ok (b, []) := by
        show b.market (buys side) qty = _
        unfold Book.market
        rw [b.matchOrder_idle side 0 false hidle]
        rfl
      exact (Prod.mk.inj (Except.ok.inj (hcall.symm.trans hsame))).1
  | cancel target =>
    have heq : b' = b.cancel target := (Prod.mk.inj (Except.ok.inj hcall)).1.symm
    show b' = b ↔ b.index.get? target = none
    rw [heq]
    unfold Book.cancel
    cases hloc : b.index.get? target with
    | none => exact iff_of_true rfl rfl
    | some loc =>
      refine iff_of_false (fun hsame => ?_) (Option.some_ne_none _)
      have hindex := congrArg (fun b => Dict.get? (Book.index b) target) hsame
      dsimp only at hindex
      rw [Dict.get?_erase, if_pos rfl, hloc] at hindex
      cases hindex

end RustEngine
