import HftArena.Engine.Agreement
import HftArena.PriceTime.Bounds

/-!
# What the engines' fills are bounded by

Each of the four books keeps to the prices it is given and to the quantity that
is wanted (`PriceTime.KeepsWithin`), for ids of any kind, also where a limit
order reuses an id that is resting and the books no longer agree.

What the binary encoding of a fill has room for is a matter of its price and
its quantity, so with `P` the range of the wire's price field this is what
makes a fill's frame say what the book did. The condition is the same for the
four engines, and each has its own invariant, which is the one that its book
keeps anyway with all prices within `P`.
-/

open PriceTime

variable {ι : Type} [DecidableEq ι] {P : ℤ → Prop}

namespace PyEngine

/-- A sound book with its prices within `P`. -/
def OrderBook.Within (b : OrderBook ι) (P : ℤ → Prop) : Prop := b.Sound ∧ b.book.Priced P

/-- An order comes to rest at a price within `P`. -/
theorem OrderBook.Within.rest {b : OrderBook ι} (h : b.Within P) {side : String} {px : ℤ}
    (hpx : P px) {oid : ι} {qty : ℤ} (hqty : 0 < qty)
    (hcross : ∀ p ∈ (b.ladder (sideOf side).opp).prices,
      (sideOf side).opp.reaches (some px) p = false) :
    (b.rest side px oid qty).Within P := by
  obtain ⟨level, -, hhalf, -, hqueue⟩ := OrderBook.rest_spec h.1.half side px oid hqty
  refine ⟨h.1.rest hqty hcross, fun s p hp => ?_⟩
  have hnew := (h.1.half.ladder s).prices_of_queueAt (hhalf.ladder s) (Q := (· = px))
    (fun p hnil hne => by
      rw [hqueue] at hne
      by_contra hp
      rw [if_neg (fun h => hp h.2)] at hne
      exact hne hnil)
  rcases hnew p hp with rfl | hp
  · exact hpx
  · exact h.2 s p hp

/-- A cancel brings no prices. -/
theorem OrderBook.Within.cancel {b : OrderBook ι} (h : b.Within P) (target : ι) :
    (b.cancel target).1.Within P := by
  refine ⟨h.1.cancel target, ?_⟩
  cases hloc : b.resting.get? target with
  | none =>
    have hsame : b.cancel target = (b, false) := by rw [OrderBook.cancel, hloc]
    rw [hsame]
    exact h.2
  | some loc =>
    obtain ⟨hhalf, -, hqueue⟩ := OrderBook.cancel_spec h.1.half hloc
    intro s p hp
    have hold := (h.1.half.ladder s).prices_of_queueAt (hhalf.ladder s) (Q := fun _ => False)
      (fun p hnil hne => by
        rw [hqueue, hnil] at hne
        split_ifs at hne <;> exact hne rfl)
    exact h.2 s p ((hold p hp).resolve_left not_false)

theorem keepsWithin : KeepsWithin (fun (b : OrderBook ι) (c : Call ι) => b.call c.toPy) P
    (OrderBook.Within · P) := by
  intro b c ⟨h, hP⟩ hc
  have hbook : ∀ {b₁ : OrderBook ι} {side limit qty},
      b₁.book = b.book.put (Side.opp side) (b.book.sweep side limit qty).left → b₁.book.Priced P :=
    fun heq => heq ▸ hP.put_sweep _ _ _
  have hfills : ∀ side limit qty, ∀ f ∈ (b.book.sweep side limit qty).fills, f.Within P qty :=
    fun side limit qty => hP.sweep_within (h.half.ladder side.opp) limit qty
  cases c with
  | limit oid side px qty =>
    obtain ⟨b₁, hsound, hb₁, hcross, hlimit⟩ := h.limit oid side.word px qty
    rw [sideOf_word] at hb₁ hcross hlimit
    refine ⟨_, _, hlimit, ?_, hfills _ _ _⟩
    split_ifs with hun
    · refine OrderBook.Within.rest ⟨hsound, hbook hb₁⟩ hc hun (fun p hp => ?_)
      rw [sideOf_word] at hp ⊢
      exact hcross p hp hun
    · exact ⟨hsound, hbook hb₁⟩
  | market oid side qty =>
    obtain ⟨b₁, hsound, hb₁, hmarket⟩ := h.market side.word qty
    rw [sideOf_word] at hb₁ hmarket
    exact ⟨_, _, hmarket, ⟨hsound, hbook hb₁⟩, hfills _ _ _⟩
  | cancel target =>
    exact ⟨_, _, rfl, OrderBook.Within.cancel ⟨h, hP⟩ target, fun f hf => absurd hf List.not_mem_nil⟩

omit [DecidableEq ι] in
theorem within_init : (OrderBook.init : OrderBook ι).Within P := by
  refine ⟨sound_init, fun s p hp => absurd hp ?_⟩
  cases s <;> simp [OrderBook.book, OrderBook.ladder, OrderBook.init, OrderBook.half, Half.ladder,
    Ladder.ofPrices, Ladder.orient, Side.word]

end PyEngine

namespace CppEngine

/-- A book of nodes with its prices within `P`. -/
def OrderBook.Within (b : OrderBook ι) (P : ℤ → Prop) : Prop :=
  ∃ H, b.Shows H ∧ H.book.Priced P

theorem keepsWithin : KeepsWithin (OrderBook.call (ι := ι)) P (OrderBook.Within · P) := by
  intro b c ⟨H, hb, hH⟩ hc
  obtain ⟨b', hb', hshows⟩ := hb.call c
  obtain ⟨hpriced, hfills⟩ := Handles.step_within hH hc
  exact ⟨b', _, hb', ⟨_, hshows, hpriced⟩, hfills⟩

theorem within_init : (OrderBook.init : OrderBook ι).Within P :=
  ⟨_, shows_init, Book.priced_empty⟩

end CppEngine

namespace GoEngine

/-- A book of elements with its prices within `P`. -/
def Book.Within (b : Book ι) (P : ℤ → Prop) : Prop := ∃ H, b.Shows H ∧ H.book.Priced P

theorem keepsWithin : KeepsWithin (Book.call (ι := ι)) P (Book.Within · P) := by
  intro b c ⟨H, hb, hH⟩ hc
  obtain ⟨b', hb', hshows⟩ := hb.call c
  obtain ⟨hpriced, hfills⟩ := Handles.step_within hH hc
  exact ⟨b', _, hb', ⟨_, hshows, hpriced⟩, hfills⟩

/-- A new book has no prices. -/
theorem within_newBook : (newBook : Book ι).Within P :=
  ⟨_, shows_newBook, PriceTime.Book.priced_empty⟩

end GoEngine

namespace RustEngine

/-- A book with its prices within `P`. -/
def Book.Within (b : Book ι) (P : ℤ → Prop) : Prop := ∃ B, b.Shows B ∧ B.Priced P

/-- A cancel brings no prices, whichever of the orders with its id it takes. -/
theorem Book.Within.cancel {b : Book ι} (h : b.Within P) (target : ι) :
    (b.cancel target).Within P := by
  obtain ⟨B, hb, hB⟩ := h
  cases hloc : b.index.get? target with
  | none =>
    rw [Book.cancel_of_none hloc]
    exact ⟨B, hb, hB⟩
  | some l =>
    obtain ⟨s, px⟩ := l
    obtain ⟨L, hshows, hL, -, hqueue⟩ := hb.cancel_spec hloc
    refine ⟨_, hshows, hB.put (fun p hp => ?_)⟩
    have hold := (hb.wf _).prices_of_queueAt hL (Q := fun _ => False)
      (fun p hnil hne => by
        rw [hqueue, hnil] at hne
        split_ifs at hne <;> exact hne rfl)
    exact hB _ p ((hold p hp).resolve_left not_false)

theorem keepsWithin : KeepsWithin (Book.call (ι := ι)) P (Book.Within · P) := by
  intro b c ⟨B, hb, hB⟩ hc
  have hfills : ∀ side limit qty, ∀ f ∈ (B.sweep side limit qty).fills, f.Within P qty :=
    fun side limit qty => hB.sweep_within (hb.wf side.opp) limit qty
  cases c with
  | limit oid side px qty =>
    obtain ⟨b₁, hb₁, h₁, -⟩ := hb.matchOrder side px qty true
    have hcall : b.call (.limit oid side px qty)
        = .ok (if 0 < (B.sweep side (some px) qty).unfilled then
              b₁.rest oid (buys side) px (B.sweep side (some px) qty).unfilled else b₁,
            (B.sweep side (some px) qty).fills) := by
      show b.limit oid (buys side) px qty = _
      unfold Book.limit
      rw [hb₁]
      rfl
    refine ⟨_, _, hcall, ?_, hfills side (some px) qty⟩
    split_ifs with hun
    · exact ⟨_, h₁.rest side px oid hun, (hB.put_sweep side (some px) qty).put_rest side hc _⟩
    · exact ⟨_, h₁, hB.put_sweep side (some px) qty⟩
  | market oid side qty =>
    obtain ⟨b₁, hb₁, h₁, -⟩ := hb.matchOrder side 0 qty false
    refine ⟨b₁, _, ?_, ⟨_, h₁, hB.put_sweep side none qty⟩, hfills side none qty⟩
    show b.market (buys side) qty = _
    unfold Book.market
    rw [hb₁]
    rfl
  | cancel target =>
    exact ⟨_, _, rfl, Book.Within.cancel ⟨B, hb, hB⟩ target, fun f hf => absurd hf List.not_mem_nil⟩

omit [DecidableEq ι] in
/-- A new book has no prices. -/
theorem within_new : (Book.new : Book ι).Within P := ⟨_, shows_new, PriceTime.Book.priced_empty⟩

end RustEngine
