import HftArena.Engine.Agreement
import HftArena.PriceTime.Laws
import HftArena.PriceTime.Volume

/-!
# What callers can count on

Four properties of an engine that are about its answers and its depth only, and
that each of the four engines has as long as no limit order is submitted under
an identifier that rests:

- it has no state beside what its depth shows: two histories that lead to the
  same depth have the same future (`BookEngine.NoHiddenState`);
- an order that is withdrawn before it trades leaves no trace
  (`BookEngine.Withdraws`);
- a market order can be split (`BookEngine.Splits`);
- an order trades at each price as much as it can after the better prices
  (`BookEngine.TradesBest`).

Each is a property of the abstract book first, and of whatever shows it. The
condition on identifiers is part of each property, for the history before and
for the future after: an order under an identifier that rests already is
withdrawn together with the other order in one engine, and leaves it behind in
another. It is read off the depth (`BookEngine.Apart`), so a caller can keep to
it without looking at anything but what the engine shows.

`Faithful` is what an engine has to be for all four, and each engine is.
-/

open PriceTime

/-- **An engine**, as its callers see it: how it answers and what its levels
hold. Its index, its nodes and its lists of prices are not among that. -/
structure BookEngine (σ ε : Type) where
  init : σ
  call : σ → Call UInt64 → Except ε (σ × List (Fill UInt64))
  /-- The levels of a side, by price. -/
  depth : σ → Side → Ladder UInt64

namespace BookEngine

variable {σ ε : Type}

/-- A limit order is submitted under an identifier that does not rest. Other
calls owe nothing. -/
def Apart (E : BookEngine σ ε) (b : σ) : Call UInt64 → Prop
  | .limit oid _ _ _ => ∀ s, oid ∉ Ladder.ids (E.depth b s)
  | _ => True

instance (E : BookEngine σ ε) (b : σ) : ∀ c, Decidable (E.Apart b c)
  | .limit oid _ _ _ => decidable_of_iff
      (oid ∉ Ladder.ids (E.depth b .bid) ∧ oid ∉ Ladder.ids (E.depth b .ask))
      ⟨fun h s => match s with
        | .bid => h.1
        | .ask => h.2, fun h => ⟨h .bid, h .ask⟩⟩
  | .market _ _ _ | .cancel _ => isTrue trivial

/-- **What a history leads to**, if identifiers are kept apart along it.
Identifiers may be used again once their orders are gone. -/
structure Reaches (E : BookEngine σ ε) (ops : List (Call UInt64)) (b : σ) : Prop where
  allowed : Allowed E.call E.Apart E.init ops
  run : ∃ outs, run E.call E.init ops = .ok (b, outs)

/-- **Two futures are one**: the same fills, and the same depth in the end. -/
def Agree (E : BookEngine σ ε) (b b' : σ) (cs : List (Call UInt64)) : Prop :=
  ∃ t t' fills, run E.call b cs = .ok (t, fills) ∧ run E.call b' cs = .ok (t', fills)
    ∧ ∀ s, E.depth t s = E.depth t' s

/-- **No hidden state**: books of the same depth cannot be told apart by any
calls that keep identifiers apart. -/
def NoHiddenState (E : BookEngine σ ε) : Prop :=
  ∀ ops ops' b b', E.Reaches ops b → E.Reaches ops' b' → (∀ s, E.depth b s = E.depth b' s) →
    ∀ cs, Allowed E.call E.Apart b cs → E.Agree b b' cs

/-- **An order that is withdrawn before it trades leaves no trace**: neither it
nor its cancel trades, and whatever comes after goes as if neither had come. It
does not trade if no price of the other side is within its limit. -/
def Withdraws (E : BookEngine σ ε) : Prop :=
  ∀ ops b, E.Reaches ops b → ∀ oid side px qty, E.Apart b (.limit oid side px qty) →
    (∀ p ∈ (E.depth b side.opp).prices, side.opp.reaches (some px) p = false) →
    ∃ b', run E.call b [.limit oid side px qty, .cancel oid] = .ok (b', [[], []])
      ∧ ∀ cs, Allowed E.call E.Apart b cs → E.Agree b b' cs

/-- **A market order can be split**: as much is traded with each order at each
price. -/
def Splits (E : BookEngine σ ε) : Prop :=
  ∀ ops b, E.Reaches ops b → ∀ oid oid' side qty qty', 0 ≤ qty → 0 ≤ qty' →
    ∃ b' b'' fills fills₁ fills₂, E.call b (.market oid side (qty + qty')) = .ok (b', fills)
      ∧ run E.call b [.market oid side qty, .market oid' side qty'] = .ok (b'', [fills₁, fills₂])
      ∧ (∀ p i, Ladder.exchanged p i fills
        = Ladder.exchanged p i fills₁ + Ladder.exchanged p i fills₂)
      ∧ ∀ cs, Allowed E.call E.Apart b' cs → E.Agree b' b'' cs

/-- **How much can be traded at a price** of a side, after the better ones:
what rests there, or what these leave of the request, whichever is less. -/
def available (s : Side) (limit : Option ℤ) (L : Ladder UInt64) (qty p : ℤ) : ℤ :=
  if s.reaches limit p = true then
    max 0 (min (Ladder.volume L p) (qty - Ladder.amount (fun p' => decide (s.better p' p)) L))
  else 0

/-- **An order trades as much as it can at each price**, after the better
ones. -/
def TradesBest (E : BookEngine σ ε) : Prop :=
  ∀ ops b, E.Reaches ops b → ∀ oid side qty,
    (∃ b' fills, E.call b (.market oid side qty) = .ok (b', fills)
      ∧ ∀ p, Ladder.tradedAt p fills = available side.opp none (E.depth b side.opp) qty p)
    ∧ ∀ px, E.Apart b (.limit oid side px qty) →
      ∃ b' fills, E.call b (.limit oid side px qty) = .ok (b', fills)
        ∧ ∀ p, Ladder.tradedAt p fills = available side.opp (some px) (E.depth b side.opp) qty p

/-! ## Engines that show the abstract book

What is faithful to the abstract book has its properties: a history is carried
over to that book, the property is used there, and the answer carried back. -/

/-- **An engine that shows the abstract book** as long as identifiers of
resting orders are kept apart, with a relation of its own between its states
and the abstract book. -/
structure Faithful (E : BookEngine σ ε) (Rel : σ → Book UInt64 → Prop) : Prop where
  init : Rel E.init .empty
  call : ∀ b B c, Rel b B → B.Settles c →
    ∃ b', E.call b c = .ok (b', (B.step c).2) ∧ Rel b' (B.step c).1
  depth : ∀ b B, Rel b B → ∀ s, E.depth b s = Ladder.ascending s (B.ladder s)

namespace Faithful

variable {E : BookEngine σ ε} {Rel : σ → Book UInt64 → Prop}

/-- Identifiers are kept apart on both sides, or on neither. -/
theorem apart_iff (h : E.Faithful Rel) {b : σ} {B : Book UInt64} (hrel : Rel b B)
    (c : Call UInt64) : E.Apart b c ↔ B.Fresh c := by
  cases c with
  | limit oid side px qty =>
    show (∀ s, oid ∉ Ladder.ids (E.depth b s)) ↔ ¬ ∃ s, oid ∈ Ladder.ids (B.ladder s)
    rw [not_exists]
    refine forall_congr' (fun s => not_congr ?_)
    rw [h.depth b B hrel, Ladder.mem_ids_ascending]
  | market oid side qty => exact Iff.rfl
  | cancel target => exact Iff.rfl

/-- **Along a run** the engine gives the fills of the abstract book, and goes
on showing it. -/
theorem run (h : E.Faithful Rel) {cs : List (Call UInt64)} {b : σ} {B : Book UInt64}
    (hrel : Rel b B) (hcs : Allowed E.call E.Apart b cs) :
    ∃ t T fills, run E.call b cs = .ok (t, fills)
      ∧ run (always Book.step) B cs = .ok (T, fills) ∧ Rel t T := by
  refine run_sim (always Book.step) Rel (fun b B c hrel hapart => ?_) hrel hcs
  obtain ⟨b', hcall, hrel'⟩ := h.call b B c hrel ((h.apart_iff hrel c).mp hapart).settles
  exact ⟨b', _, _, hcall, rfl, hrel'⟩

/-- What a history leads to shows a book that is well formed. -/
theorem reached (h : E.Faithful Rel) {ops : List (Call UInt64)} {b : σ} (hb : E.Reaches ops b)
    (hwf : ∀ b B, Rel b B → B.WF) : ∃ B, Rel b B ∧ B.WF := by
  obtain ⟨outs, hrun⟩ := hb.run
  obtain ⟨t, B, fills, hrun', -, hrel⟩ := h.run h.init hb.allowed
  obtain ⟨rfl, -⟩ := Prod.mk.inj (Except.ok.inj (hrun.symm.trans hrun'))
  exact ⟨B, hrel, hwf b B hrel⟩

/-- **Engines that show the same book** have the same future. -/
theorem agree (h : E.Faithful Rel) {b b' : σ} {B : Book UInt64} (hb : Rel b B) (hb' : Rel b' B)
    {cs : List (Call UInt64)} (hcs : Allowed E.call E.Apart b cs) : E.Agree b b' cs := by
  have hcs' : Allowed E.call E.Apart b' cs := by
    refine allowed_of_sim E.call E.Apart (fun x y => ∃ B, Rel x B ∧ Rel y B)
      (fun x y c ⟨B, hx, hy⟩ hapart => ?_) (fun x y c ⟨B, hx, hy⟩ hapart => ?_) ⟨B, hb, hb'⟩ hcs
    · have hfresh := (h.apart_iff hx c).mp hapart
      obtain ⟨x', hx', hrelx⟩ := h.call x B c hx hfresh.settles
      obtain ⟨y', hy', hrely⟩ := h.call y B c hy hfresh.settles
      exact ⟨x', y', _, hx', hy', _, hrelx, hrely⟩
    · exact (h.apart_iff hy c).mpr ((h.apart_iff hx c).mp hapart)
  obtain ⟨t, T, fills, hrun, hspec, hrel⟩ := h.run hb hcs
  obtain ⟨t', T', fills', hrun', hspec', hrel'⟩ := h.run hb' hcs'
  obtain ⟨rfl, rfl⟩ := Prod.mk.inj (Except.ok.inj (hspec.symm.trans hspec'))
  refine ⟨t, t', fills, hrun, hrun', fun s => ?_⟩
  rw [h.depth t T hrel, h.depth t' T hrel']

/-- **There is no hidden state**: a ladder is determined by its levels in
ascending order, so two books of one depth show the same abstract book. -/
theorem noHiddenState (h : E.Faithful Rel) (hwf : ∀ b B, Rel b B → B.WF) : E.NoHiddenState := by
  intro ops ops' b b' hb hb' hdepth cs hcs
  obtain ⟨B, hrel, -⟩ := h.reached hb hwf
  obtain ⟨B', hrel', -⟩ := h.reached hb' hwf
  have hbook : B = B' := Book.ext (fun s => ascending_injective s (by
    rw [← h.depth b B hrel, hdepth, h.depth b' B' hrel']))
  subst hbook
  exact h.agree hrel hrel' hcs

/-- **Orders are withdrawn without a trace**: the abstract book is the one
before, and the engine shows it again. -/
theorem withdraws (h : E.Faithful Rel) (hwf : ∀ b B, Rel b B → B.WF) : E.Withdraws := by
  intro ops b hb oid side px qty hapart hbeyond
  obtain ⟨B, hrel, hB⟩ := h.reached hb hwf
  have hfresh := (h.apart_iff hrel _).mp hapart
  have hprices : ∀ p ∈ (B.ladder side.opp).prices, side.opp.reaches (some px) p = false := by
    intro p hp
    refine hbeyond p ?_
    rw [h.depth b B hrel]
    exact ((Ladder.ascending_perm side.opp (B.ladder side.opp)).map Prod.fst).mem_iff.mpr hp
  obtain ⟨hnone, hback⟩ := hB.cancel_limit hfresh hprices qty
  obtain ⟨b₁, hlimit, hrel₁⟩ := h.call b B _ hrel hfresh.settles
  obtain ⟨b₂, hcancel, hrel₂⟩ := h.call b₁ _ (.cancel oid) hrel₁ trivial
  have hfills : (B.step (.limit oid side px qty)).2 = [] := congrArg Prod.snd hnone
  rw [hfills] at hlimit
  refine ⟨b₂, run_cons_of_ok hlimit (run_cons_of_ok hcancel rfl), fun cs hcs => ?_⟩
  have hrel₂ : Rel b₂ B := hback ▸ hrel₂
  exact h.agree hrel hrel₂ hcs

/-- **Market orders can be split**: the abstract book is the same after the
parts, and as much is traded with each order. -/
theorem splits (h : E.Faithful Rel) (hwf : ∀ b B, Rel b B → B.WF) : E.Splits := by
  intro ops b hb oid oid' side qty qty' hqty hqty'
  obtain ⟨B, hrel, -⟩ := h.reached hb hwf
  obtain ⟨hbook, hexchanged⟩ := B.market_add side hqty hqty'
  obtain ⟨b', hwhole, hrel'⟩ := h.call b B (.market oid side (qty + qty')) hrel trivial
  obtain ⟨b₁, hfirst, hrel₁⟩ := h.call b B (.market oid side qty) hrel trivial
  obtain ⟨b₂, hsecond, hrel₂⟩ := h.call b₁ _ (.market oid' side qty') hrel₁ trivial
  have hrel₂ : Rel b₂ (B.market side (qty + qty')).1 := hbook ▸ hrel₂
  exact ⟨b', b₂, _, _, _, hwhole, run_cons_of_ok hfirst (run_cons_of_ok hsecond rfl), hexchanged,
    fun cs hcs => h.agree hrel' hrel₂ hcs⟩

/-- **Orders trade as much as they can**, which is the closed form of a
sweep. -/
theorem tradesBest (h : E.Faithful Rel) (hwf : ∀ b B, Rel b B → B.WF) : E.TradesBest := by
  intro ops b hb oid side qty
  obtain ⟨B, hrel, hB⟩ := h.reached hb hwf
  have htraded : ∀ limit p, Ladder.tradedAt p (B.sweep side limit qty).fills
      = available side.opp limit (E.depth b side.opp) qty p := by
    intro limit p
    have hperm := Ladder.ascending_perm side.opp (B.ladder side.opp)
    rw [h.depth b B hrel, available, Ladder.volume_perm hperm, Ladder.amount_congr hperm]
    exact (hB.side side.opp).tradedAt_sweep limit qty p
  refine ⟨?_, fun px hapart => ?_⟩
  · obtain ⟨b', hcall, -⟩ := h.call b B (.market oid side qty) hrel trivial
    exact ⟨b', _, hcall, htraded none⟩
  · obtain ⟨b', hcall, -⟩ := h.call b B _ hrel ((h.apart_iff hrel _).mp hapart).settles
    exact ⟨b', _, hcall, htraded (some px)⟩

end Faithful

end BookEngine

/-! ## The four engines

Each of them is faithful, with the relation that its own module proves. -/

/-- The Python engine. -/
def PyEngine.engine : BookEngine (PyEngine.OrderBook UInt64) PyEngine.PyError :=
  ⟨.init, fun b c => b.call c.toPy, PyEngine.OrderBook.depth⟩

/-- The C++ engine. -/
def CppEngine.engine : BookEngine (CppEngine.OrderBook UInt64) CppEngine.CppError :=
  ⟨.init, CppEngine.OrderBook.call, CppEngine.OrderBook.depth⟩

/-- The Go engine. -/
def GoEngine.engine : BookEngine (GoEngine.Book UInt64) GoEngine.GoError :=
  ⟨GoEngine.newBook, GoEngine.Book.call, GoEngine.Book.depth⟩

/-- The Rust engine. -/
def RustEngine.engine : BookEngine (RustEngine.Book UInt64) RustEngine.RustError :=
  ⟨.new, RustEngine.Book.call, RustEngine.Book.depth⟩

/-- The Python book refines the abstract one. -/
theorem PyEngine.faithful : PyEngine.engine.Faithful PyEngine.OrderBook.Refines where
  init := PyEngine.refines_init
  call _ _ c hrel hsettles := by
    obtain ⟨b', hb', hrel'⟩ := hrel.call_of_settles (c := c.toPy) (by rwa [Call.toCall_toPy])
    rw [Call.toCall_toPy] at hb' hrel'
    exact ⟨b', hb', hrel'⟩
  depth _ _ hrel s := hrel.depth_eq s

/-- The C++ book shows nodes that show the abstract one. -/
theorem CppEngine.faithful :
    CppEngine.engine.Faithful (fun b B => ∃ H, b.Shows H ∧ H.Shows B) where
  init := ⟨_, CppEngine.shows_init, Handles.shows_empty⟩
  call _ _ c := fun ⟨H, hb, hH⟩ hsettles => by
    obtain ⟨b', hb', hshows⟩ := hb.call c
    obtain ⟨hH', hfills⟩ := hH.step_of_settles hsettles
    exact ⟨b', hfills ▸ hb', _, hshows, hH'⟩
  depth _ _ := fun ⟨_, hb, hH⟩ s => hb.depth_eq hH s

/-- The Go book shows elements that show the abstract one. -/
theorem GoEngine.faithful :
    GoEngine.engine.Faithful (fun b B => ∃ H, b.Shows H ∧ H.Shows B) where
  init := ⟨_, GoEngine.shows_newBook, Handles.shows_empty⟩
  call _ _ c := fun ⟨H, hb, hH⟩ hsettles => by
    obtain ⟨b', hb', hshows⟩ := hb.call c
    obtain ⟨hH', hfills⟩ := hH.step_of_settles hsettles
    exact ⟨b', hfills ▸ hb', _, hshows, hH'⟩
  depth _ _ := fun ⟨_, hb, hH⟩ s => hb.depth_eq hH s

/-- The Rust book refines the abstract one. -/
theorem RustEngine.faithful : RustEngine.engine.Faithful RustEngine.Book.Refines where
  init := RustEngine.refines_new
  call _ _ _ hrel hsettles := hrel.call_of_settles hsettles
  depth _ _ hrel s := hrel.depth_eq s

/-- **The depth of an engine is all there is to it**: the indexes, the handles
and the list of prices hold nothing that a caller could tell two books of the
same depth by, as long as identifiers are kept apart along both histories and
in what follows. -/
theorem engines_no_hidden_state :
    PyEngine.engine.NoHiddenState ∧ CppEngine.engine.NoHiddenState ∧ GoEngine.engine.NoHiddenState
      ∧ RustEngine.engine.NoHiddenState :=
  ⟨PyEngine.faithful.noHiddenState (fun _ _ h => h.wf),
    CppEngine.faithful.noHiddenState (fun _ _ ⟨_, _, h⟩ => h.wf),
    GoEngine.faithful.noHiddenState (fun _ _ ⟨_, _, h⟩ => h.wf),
    RustEngine.faithful.noHiddenState (fun _ _ h => h.wf)⟩

/-- An order that is withdrawn, and one that was never there. -/
theorem engines_no_hidden_state_withdrawn :
    ∃ b b', CppEngine.engine.Reaches [.limit 1 .bid 10 5] b
      ∧ CppEngine.engine.Reaches [.limit 2 .bid 11 3, .limit 1 .bid 10 5, .cancel 2] b'
      ∧ CppEngine.engine.Agree b b' [.market 3 .ask 2, .limit 2 .ask 10 4] := by
  refine ⟨_, _, ⟨by decide, _, rfl⟩, ⟨by decide, _, rfl⟩,
    engines_no_hidden_state.2.1 [.limit 1 .bid 10 5]
      [.limit 2 .bid 11 3, .limit 1 .bid 10 5, .cancel 2] _ _ ⟨by decide, _, rfl⟩
      ⟨by decide, _, rfl⟩ (fun s => ?_) _ (by decide)⟩
  cases s <;> rfl

/-- Identifiers are used again once their orders are gone. -/
example : Allowed CppEngine.engine.call CppEngine.engine.Apart CppEngine.engine.init
    [.limit 1 .bid 10 5, .market 2 .ask 5, .limit 1 .ask 12 4, .cancel 1, .limit 1 .bid 9 3] := by
  decide

/-- **Orders withdrawn in time leave no trace, and market orders can be
split**, in whatever histories before and after. -/
theorem engines_withdraw_and_split :
    (PyEngine.engine.Withdraws ∧ PyEngine.engine.Splits)
      ∧ (CppEngine.engine.Withdraws ∧ CppEngine.engine.Splits)
      ∧ (GoEngine.engine.Withdraws ∧ GoEngine.engine.Splits)
      ∧ RustEngine.engine.Withdraws ∧ RustEngine.engine.Splits :=
  ⟨⟨PyEngine.faithful.withdraws (fun _ _ h => h.wf), PyEngine.faithful.splits (fun _ _ h => h.wf)⟩,
    ⟨CppEngine.faithful.withdraws (fun _ _ ⟨_, _, h⟩ => h.wf),
      CppEngine.faithful.splits (fun _ _ ⟨_, _, h⟩ => h.wf)⟩,
    ⟨GoEngine.faithful.withdraws (fun _ _ ⟨_, _, h⟩ => h.wf),
      GoEngine.faithful.splits (fun _ _ ⟨_, _, h⟩ => h.wf)⟩,
    RustEngine.faithful.withdraws (fun _ _ h => h.wf),
    RustEngine.faithful.splits (fun _ _ h => h.wf)⟩

/-- An offer is withdrawn, and a bid is taken in two parts. -/
theorem engines_withdraw_and_split_oneBid :
    ∃ b, GoEngine.engine.Reaches [.limit 1 .bid 10 5] b
      ∧ (∃ b', run GoEngine.engine.call b [.limit 2 .ask 12 4, .cancel 2] = .ok (b', [[], []])
        ∧ GoEngine.engine.Agree b b' [.market 3 .ask 2])
      ∧ ∃ b' b'' fills fills₁ fills₂,
        GoEngine.engine.call b (.market 3 .ask (2 + 1)) = .ok (b', fills)
          ∧ run GoEngine.engine.call b [.market 3 .ask 2, .market 4 .ask 1]
            = .ok (b'', [fills₁, fills₂])
          ∧ ∀ p i, Ladder.exchanged p i fills
            = Ladder.exchanged p i fills₁ + Ladder.exchanged p i fills₂ := by
  refine ⟨_, ⟨by decide, _, rfl⟩, ?_, ?_⟩
  · obtain ⟨b', hrun, hagree⟩ := engines_withdraw_and_split.2.2.1.1 [.limit 1 .bid 10 5] _
      ⟨by decide, _, rfl⟩ 2 .ask 12 4 (by decide) (by decide)
    exact ⟨b', hrun, hagree _ (by decide)⟩
  · obtain ⟨b', b'', fills, fills₁, fills₂, hcall, hrun, hexchanged, -⟩ :=
      engines_withdraw_and_split.2.2.1.2 [.limit 1 .bid 10 5] _ ⟨by decide, _, rfl⟩ 3 4 .ask 2 1
        (by decide) (by decide)
    exact ⟨b', b'', fills, fills₁, fills₂, hcall, hrun, hexchanged⟩

/-- **An order trades at each price as much as it can after the better ones**,
in closed form and on every book that an engine comes to along a history that
keeps identifiers apart.

The condition on identifiers is on the history and on the order itself. The
formula does not mention them; but that an engine holds what its depth shows
depends on them. -/
theorem engines_trade_best :
    PyEngine.engine.TradesBest ∧ CppEngine.engine.TradesBest ∧ GoEngine.engine.TradesBest
      ∧ RustEngine.engine.TradesBest :=
  ⟨PyEngine.faithful.tradesBest (fun _ _ h => h.wf),
    CppEngine.faithful.tradesBest (fun _ _ ⟨_, _, h⟩ => h.wf),
    GoEngine.faithful.tradesBest (fun _ _ ⟨_, _, h⟩ => h.wf),
    RustEngine.faithful.tradesBest (fun _ _ h => h.wf)⟩

/-- A market order takes all of the better bid, and some of the other. -/
theorem engines_trade_best_twoBids :
    ∃ b, RustEngine.engine.Reaches [.limit 1 .bid 10 5, .limit 2 .bid 11 3] b
      ∧ ∃ b' fills, RustEngine.engine.call b (.market 3 .ask 4) = .ok (b', fills)
        ∧ ∀ p, Ladder.tradedAt p fills
          = BookEngine.available .bid none (RustEngine.engine.depth b .bid) 4 p :=
  ⟨_, ⟨by decide, _, rfl⟩, (engines_trade_best.2.2.2 [.limit 1 .bid 10 5, .limit 2 .bid 11 3] _
    ⟨by decide, _, rfl⟩ 3 .ask 4).1⟩
