import HftArena.Engine.Agreement
import HftArena.Wire.Served

/-!
# No frame crosses a book

Each of the four engines has one book for all of its connections, and no frame
is refused for what it asks: prices and quantities are any numbers of their
width, an id may be that of an order that rests, and what is no order at all
may reach the branch that makes a call. The shape of the book withstands this.
However the connections interleave, and whatever they send, the depth of each
engine is in order (`Depth.Orderly`): the prices of a side ascend, each order
has something left, and every bid is below every ask.

The compiled engines have no empty level either (`Depth.Full`). The Python
engine can come to have one: it opens the level before it looks for the hash of
the id. Its sides stay uncrossed nevertheless, empty levels and all, since it
opens a level only after everything within reach is gone.

For the C++ and the Go book the invariant is that of the nodes, which is at
hand (`OrderBook.Shows`, `Book.Shows`). The Rust index may name a place that
its order has left, so that a cancel there is no cancel of the book of ladders;
but it takes away from one level, and that the sides are uncrossed is kept by
whatever takes away (`Book.Uncrossed.mono`).
-/

open PriceTime Wire

namespace PriceTime

variable {ι : Type}

/-! ## Books whose sides are uncrossed

Ladders alone, without an index: what rests may be named wrongly by an engine,
or not at all. -/

/-- Every bid is below every ask. -/
def Book.Uncrossed (B : Book ι) : Prop :=
  ∀ p ∈ (B.ladder .bid).prices, ∀ p' ∈ (B.ladder .ask).prices, p < p'

namespace Book.Uncrossed

variable {B B' : Book ι}

/-- There are no prices to begin with. -/
theorem empty : (Book.empty : Book ι).Uncrossed := fun _ hp => absurd hp List.not_mem_nil

/-- **It is kept by whatever takes away**, be it the right order or not. -/
theorem mono (h : B.Uncrossed) (hsub : ∀ s, (B'.ladder s).prices ⊆ (B.ladder s).prices) :
    B'.Uncrossed :=
  fun p hp p' hp' => h p (hsub .bid hp) p' (hsub .ask hp')

/-- Replacing a side by one with fewer prices. -/
theorem put (h : B.Uncrossed) {s : Side} {L : Ladder ι} (hsub : L.prices ⊆ (B.ladder s).prices) :
    (B.put s L).Uncrossed := by
  refine h.mono (fun s' => ?_)
  by_cases hs : s' = s
  · subst hs
    rwa [ladder_put_self]
  · rw [ladder_put_of_ne hs]
    exact List.Subset.refl _

/-- Trading takes away. -/
theorem sweep (h : B.Uncrossed) (side : Side) (limit : Option ℤ) (qty : ℤ) :
    (B.put side.opp (B.sweep side limit qty).left).Uncrossed :=
  h.put (Ladder.prices_sweep_sublist _ qty _).subset

/-- **A price is added after the sweep**, if something stays unfilled: it is
beyond what is left. -/
theorem rest (h : B.Uncrossed) {side : Side} {px qty : ℤ}
    (hsorted : (B.ladder side.opp).prices.Pairwise side.opp.better)
    (hun : 0 < (B.sweep side (some px) qty).unfilled)
    (hopp : (B'.ladder side.opp).prices ⊆ (B.sweep side (some px) qty).left.prices)
    (hside : ∀ p ∈ (B'.ladder side).prices, p = px ∨ p ∈ (B.ladder side).prices) :
    B'.Uncrossed := by
  refine Book.uncrossed_of_rest (fun s => (B.ladder s).prices) (fun s => (B'.ladder s).prices) h
    side px (fun p hp => ?_) hside
  have hold : (B.sweep side (some px) qty).left.prices.Sublist (B.ladder side.opp).prices :=
    Ladder.prices_sweep_sublist _ qty _
  exact ⟨hold.subset (hopp hp), Ladder.not_reaches_of_sorted hsorted hun p (hopp hp)⟩

end Book.Uncrossed

/-! ## Depth in order

The same of what an engine shows, in ascending order of prices on both sides. -/

namespace Depth

/-- **The depth of a book is in order**: the prices of a side ascend, each
order has something left, and every bid is below every ask. A level may be
empty. -/
structure Orderly (d : Side → Ladder ι) : Prop where
  ascending : ∀ s, (d s).prices.Pairwise (· < ·)
  positive : ∀ s, ∀ l ∈ d s, Positive l.2
  uncrossed : ∀ p ∈ (d .bid).prices, ∀ p' ∈ (d .ask).prices, p < p'

/-- No level is empty. -/
def Full (d : Side → Ladder ι) : Prop := ∀ s, ∀ l ∈ d s, l.2 ≠ []

/-- The prices of the levels in ascending order. -/
theorem prices_ascending (s : Side) (L : Ladder ι) :
    (Ladder.ascending s L).prices = Ladder.orient s L.prices := by
  cases s
  · exact List.map_reverse
  · rfl

/-- Ladders in order, read upwards. -/
theorem orderly_ascending {B : Book ι} (hsorted : ∀ s, (B.ladder s).prices.Pairwise s.better)
    (hpos : ∀ s, ∀ l ∈ B.ladder s, Positive l.2) (h : B.Uncrossed) :
    Orderly (fun s => Ladder.ascending s (B.ladder s)) where
  ascending s := by
    rw [prices_ascending]
    cases s with
    | bid => exact List.pairwise_reverse.mpr (hsorted .bid)
    | ask => exact hsorted .ask
  positive s l hl := hpos s l ((Ladder.ascending_perm s _).mem_iff.mp hl)
  uncrossed p hp p' hp' := by
    rw [prices_ascending, Ladder.mem_orient] at hp hp'
    exact h p hp p' hp'

/-- So it is of ladders without an empty level. -/
theorem full_ascending {B : Book ι} (hwf : ∀ s, Ladder.WF s (B.ladder s)) :
    Full (fun s => Ladder.ascending s (B.ladder s)) :=
  fun s l hl => (hwf s).nonempty l ((Ladder.ascending_perm s _).mem_iff.mp hl)

/-- Well-formed ladders have a depth in order, without an empty level. -/
theorem orderly_of_wf {B : Book ι} (hwf : ∀ s, Ladder.WF s (B.ladder s)) (h : B.Uncrossed)
    {d : Side → Ladder ι} (hd : ∀ s, d s = Ladder.ascending s (B.ladder s)) :
    Orderly d ∧ Full d := by
  obtain rfl : d = fun s => Ladder.ascending s (B.ladder s) := funext hd
  exact ⟨orderly_ascending (fun s => (hwf s).sorted) (fun s => (hwf s).positive) h,
    full_ascending hwf⟩

/-- Nodes under their ids. -/
theorem orderly_of_nodes {H : Handles ι} {d : Side → Ladder ι}
    (hd : ∀ s, d s = Ladder.ascending s (Ladder.rename Prod.snd (H.book.ladder s))) :
    Orderly d ∧ Full d := by
  refine orderly_of_wf (B := H.book.rename Prod.snd) (fun s => (H.wf.side s).rename _) ?_ hd
  intro p hp p' hp'
  have hbid : p ∈ (Ladder.rename Prod.snd (H.book.ladder .bid)).prices := hp
  have hask : p' ∈ (Ladder.rename Prod.snd (H.book.ladder .ask)).prices := hp'
  rw [Ladder.prices_rename] at hbid hask
  exact H.wf.uncrossed p hbid p' hask

end Depth

end PriceTime

/-! ## Rust

Whatever a cancel finds under its id, it takes orders away from one level. -/

namespace RustEngine

/-- **A call of a sound book that is not crossed** leaves one. -/
theorem Book.Shows.call_uncrossed {b : Book UInt64} {B : PriceTime.Book UInt64} (h : b.Shows B)
    (hu : B.Uncrossed) (c : Call UInt64) :
    ∃ b' fills, b.call c = .ok (b', fills) ∧ ∃ B', b'.Shows B' ∧ B'.Uncrossed := by
  cases c with
  | limit oid side px qty =>
    obtain ⟨b', hcall, h'⟩ := h.limit oid side px qty
    refine ⟨b', _, hcall, _, h', ?_⟩
    unfold PriceTime.Book.limit
    dsimp only
    split_ifs with hun
    · refine hu.rest (h.wf side.opp).sorted hun ?_ (fun p hp => ?_)
      · rw [PriceTime.Book.ladder_put_opp', PriceTime.Book.ladder_put_self]
        exact List.Subset.refl _
      · rw [PriceTime.Book.ladder_put_self] at hp
        exact Ladder.mem_prices_rest.mp hp
    · exact hu.sweep side (some px) qty
  | market oid side qty =>
    obtain ⟨b', hcall, h'⟩ := h.market oid side qty
    exact ⟨b', _, hcall, _, h', hu.sweep side none qty⟩
  | cancel target =>
    cases hloc : b.index.get? target with
    | none =>
      refine ⟨_, _, rfl, B, ?_, hu⟩
      rw [Book.cancel_of_none hloc]
      exact h
    | some loc =>
      obtain ⟨L, h', hwf, -, hqueue⟩ := h.cancel_spec hloc
      refine ⟨_, _, rfl, _, h', hu.put (fun p hp => ?_)⟩
      rw [hwf.mem_prices_iff, hqueue] at hp
      rw [(h.wf _).mem_prices_iff]
      by_cases hpx : p = loc.2
      · rw [if_pos hpx] at hp
        exact fun hnil => hp (by rw [hnil, List.filter_nil])
      · rwa [if_neg hpx] at hp

/-- **So does a frame.** -/
theorem Book.Shows.handle_uncrossed (json : String → Option JsonValue) {b : Book UInt64}
    {B : PriceTime.Book UInt64} (h : b.Shows B) (hu : B.Uncrossed) (now : Instant) (f : Frame) :
    ∃ B', (b.handle json now f).book.Shows B' ∧ B'.Uncrossed := by
  obtain ⟨b', fills, hmade, B', h', hu'⟩ : ∃ b' fills,
      (reads json f).elim (.ok (b, [])) b.call = .ok (b', fills)
        ∧ ∃ B', b'.Shows B' ∧ B'.Uncrossed := by
    cases reads json f with
    | none => exact ⟨b, [], rfl, B, h, hu⟩
    | some c => exact h.call_uncrossed hu c
  obtain ⟨sent, hhandle⟩ := Book.handle_of_call now hmade
  rw [hhandle]
  exact ⟨B', h', hu'⟩

theorem service_splits_uncrossed (json : String → Option JsonValue) : (service json).Splits
    (always (fun b x => ((b.handle json x.1 x.2).book, (b.handle json x.1 x.2).sent)))
    (fun b => (∃ B, b.Shows B) ∧ ∃ B, b.Shows B ∧ B.Uncrossed) := by
  refine (service_splits json).and (fun b x b' sent _ h hhandle => ?_)
  obtain ⟨B, h, hu⟩ := h
  obtain rfl : (b.handle json x.1 x.2).book = b' := congrArg Prod.fst (Except.ok.inj hhandle)
  exact h.handle_uncrossed json hu x.1 x.2

end RustEngine

/-! ## Python

An empty level has a price, and this price is beyond what the order has left of
the other side. -/

namespace PyEngine

variable {ι : Type}

/-- The prices of a ladder are those of its side. -/
theorem OrderBook.mem_prices_ladder (b : OrderBook ι) (side : String) {p : ℤ} :
    p ∈ (b.ladder (sideOf side)).prices ↔ p ∈ (b.half side).prices := by
  rw [b.half_eq side]
  exact Ladder.mem_prices_ofPrices

/-- They are in the order of the side, empty levels among them. -/
theorem Half.Loose.sorted_ladder {h : Half ι} (hl : h.Loose) (s : Side) :
    (h.ladder s).prices.Pairwise s.better := by
  rw [Half.ladder, Ladder.prices_ofPrices]
  cases s with
  | bid => exact List.pairwise_reverse.mpr hl.sorted
  | ask => exact hl.sorted

/-- **A level that is opened after `_match`**, whether an order comes to rest
there or not. -/
theorem OrderBook.HalvesLoose.uncrossed_opened {b b₁ b' : OrderBook ι} (h : b.HalvesLoose)
    (hu : b.book.Uncrossed) {side : String} {px qty : ℤ}
    (hun : 0 < (b.book.sweep (sideOf side) (some px) qty).unfilled)
    (hbook : b₁.book
      = b.book.put (sideOf side).opp (b.book.sweep (sideOf side) (some px) qty).left)
    (hsame : b₁.half (sideOf side).word = b.half (sideOf side).word) {h' : Half ι}
    (hladder : ∀ s, b'.ladder s = if s = sideOf side then h'.ladder (sideOf side) else b₁.ladder s)
    (hprices : ∀ p, p ∈ h'.prices ↔ p = px ∨ p ∈ (b₁.half side).prices) :
    b'.book.Uncrossed := by
  refine hu.rest ((h _).sorted_ladder _) hun ?_ (fun p hp => ?_)
  · show (b'.ladder (sideOf side).opp).prices ⊆ _
    have hopp : b₁.ladder (sideOf side).opp = (b₁.book).ladder (sideOf side).opp := rfl
    rw [hladder, if_neg (sideOf side).ne_opp.symm, hopp, hbook, Book.ladder_put_self]
    exact List.Subset.refl _
  · have hmem : p ∈ (b'.ladder (sideOf side)).prices := hp
    rw [hladder, if_pos rfl, Half.ladder, Ladder.mem_prices_ofPrices, hprices,
      b₁.half_eq side, hsame] at hmem
    exact hmem.imp_right Ladder.mem_prices_ofPrices.mpr

variable [DecidableEq ι]

/-- **A call leaves the sides uncrossed**, also one that raises for an id
without a hash. -/
theorem PyState.Sound.uncrossed_call {P : PyJson ι} {st st' : PyState ι} (h : st.Sound P)
    (hu : st.book.book.Uncrossed) {r : PyRequest} {y : Except String (List (Fill ι))}
    (hcall : st.call P r = .ok (st', y)) : st'.book.book.Uncrossed := by
  cases r with
  | limit oid side px qty =>
    obtain ⟨b, hmatch, hb, hbook, -, hsame⟩ := h.loose.match side (some px) qty
    unfold PyState.call at hcall
    simp only [hmatch, bind, Except.bind] at hcall
    have hst : _ = st' := congrArg Prod.fst (Except.ok.inj hcall)
    by_cases hun : 0 < (st.book.book.sweep (sideOf side) (some px) qty).unfilled
    · rw [if_pos hun] at hst
      cases hhash : P.hash oid with
      | some i =>
        obtain ⟨h', level, heq, -, -, hprices, -⟩ := hb.rest side px i hun
        rw [hhash] at hst
        obtain rfl : ⟨b.rest side px i _, st.hold b side px i oid⟩ = st' := hst
        refine h.loose.uncrossed_opened hu hun hbook hsame (fun s => ?_) hprices
        dsimp only
        rw [heq, OrderBook.ladder_withResting, OrderBook.ladder_putHalf]
      | none =>
        obtain ⟨-, hprices, -⟩ := (hb.half side).openLevel px
        rw [hhash] at hst
        obtain rfl : ⟨b.putHalf side ((b.half side).openLevel px).1, st.held⟩ = st' := hst
        exact h.loose.uncrossed_opened hu hun hbook hsame
          (fun s => OrderBook.ladder_putHalf _ _ _ _) hprices
    · rw [if_neg hun] at hst
      obtain rfl : ⟨b, st.held⟩ = st' := hst
      show b.book.Uncrossed
      rw [hbook]
      exact hu.sweep _ _ _
  | market side qty =>
    obtain ⟨b, hmatch, -, hbook, -⟩ := h.loose.match side none qty
    unfold PyState.call at hcall
    simp only [hmatch, bind, Except.bind] at hcall
    obtain rfl : ⟨b, st.held⟩ = st' := congrArg Prod.fst (Except.ok.inj hcall)
    show b.book.Uncrossed
    rw [hbook]
    exact hu.sweep _ _ _
  | cancel target =>
    unfold PyState.call at hcall
    have hst : _ = st' := congrArg Prod.fst (Except.ok.inj hcall)
    cases hhash : P.hash target with
    | none =>
      rw [hhash] at hst
      obtain rfl : st = st' := hst
      exact hu
    | some i =>
      rw [hhash] at hst
      obtain rfl : ⟨(st.book.cancel i).1, st.held⟩ = st' := hst
      cases hloc : st.book.resting.get? i with
      | none =>
        have hsame : (st.book.cancel i).1 = st.book := by
          unfold OrderBook.cancel
          rw [hloc]
        rw [hsame]
        exact hu
      | some loc =>
        obtain ⟨h', heq, -, hprices, -⟩ := h.loose.cancel hloc
        refine hu.mono (fun s p hp => ?_)
        have hmem : p ∈ ((st.book.cancel i).1.ladder s).prices := hp
        rw [heq, OrderBook.ladder_withResting, OrderBook.ladder_putHalf] at hmem
        split_ifs at hmem with hs
        · subst hs
          have hold := (hprices p (Ladder.mem_prices_ofPrices.mp hmem)).1
          exact (st.book.mem_prices_ladder loc.1).mpr hold
        · exact hmem

/-- A frame makes one call, or none: what else a handler does is to send. -/
theorem PyState.serve_call (P : PyJson ι) (st : PyState ι) (x : Instant × Frame) :
    (st.serve P x).1 = st ∨ ∃ r y, st.call P r = .ok ((st.serve P x).1, y) := by
  have hrequest : ∀ r, (st.afterRequest P r).1 = st
      ∨ ∃ q y, st.call P q = .ok ((st.afterRequest P r).1, y) := by
    intro r
    unfold PyState.afterRequest
    dsimp only
    cases hcall : st.call P (.ofBinary r) with
    | error e => exact Or.inl rfl
    | ok z =>
      obtain ⟨st', fills | reason⟩ := z
      · exact Or.inr ⟨_, _, hcall⟩
      · exact Or.inr ⟨_, _, hcall⟩
  have hmessage : ∀ m t id oid, (st.afterMessage P m t id oid).1 = st
      ∨ ∃ q y, st.call P q = .ok ((st.afterMessage P m t id oid).1, y) := by
    intro m t id oid
    unfold PyState.afterMessage
    dsimp only
    cases PyRequest.ofJson P m t id with
    | error reason => exact Or.inl rfl
    | ok request =>
      dsimp only
      cases hcall : st.call P request with
      | error e => cases e <;> exact Or.inl rfl
      | ok z =>
        obtain ⟨st', fills | reason⟩ := z
        · exact Or.inr ⟨_, _, hcall⟩
        · exact Or.inr ⟨_, _, hcall⟩
  obtain ⟨now, f⟩ := x
  unfold PyState.serve
  cases f with
  | binary raw =>
    dsimp only
    cases decode raw with
    | none => exact Or.inl rfl
    | some r =>
      dsimp only
      split_ifs
      · exact hrequest r
      · exact Or.inl rfl
  | text s =>
    dsimp only
    cases P.loads s with
    | valueError => exact Or.inl rfl
    | raises => exact Or.inl rfl
    | value m =>
      cases m with
      | object fields =>
        dsimp only
        cases (JsonValue.object fields).item "t" with
        | none => exact Or.inl rfl
        | some t =>
          cases (JsonValue.object fields).item "id" with
          | none => exact Or.inl rfl
          | some id =>
            dsimp only
            cases P.text id with
            | none => exact Or.inl rfl
            | some oid => exact hmessage _ t id oid
      | _ => exact Or.inl rfl

/-- **A frame leaves the sides uncrossed.** -/
theorem PyState.Sound.uncrossed_handle {P : PyJson ι} {st : PyState ι} (h : st.Sound P)
    (hu : st.book.book.Uncrossed) (now : Instant) (f : Frame) :
    (st.handle P now f).book.book.book.Uncrossed := by
  rw [st.handle_eq P (now, f)]
  rcases st.serve_call P (now, f) with hsame | ⟨r, y, hcall⟩
  · dsimp only
    rw [hsame]
    exact hu
  · exact h.uncrossed_call hu hcall

omit [DecidableEq ι] in
/-- The depth of loose sides that do not cross is in order. -/
theorem PyState.Sound.orderly {P : PyJson ι} {st : PyState ι} (h : st.Sound P)
    (hu : st.book.book.Uncrossed) : Depth.Orderly st.book.depth := by
  have hdepth : st.book.depth = fun s => Ladder.ascending s (st.book.book.ladder s) :=
    funext st.book.depth_eq_ladder
  rw [hdepth]
  exact Depth.orderly_ascending (fun s => (h.loose s).sorted_ladder s)
    (fun s => (h.loose s).positive_ladder s) hu

theorem service_splits_uncrossed (P : PyJson ι) : (service P).Splits
    (always (fun st x => ((st.handle P x.1 x.2).book, (st.handle P x.1 x.2).sent)))
    (fun st => True ∧ st.Sound P ∧ st.book.book.Uncrossed) := by
  refine (service_splits P).and (fun st x st' sent _ h hhandle => ?_)
  obtain rfl : (st.handle P x.1 x.2).book = st' := congrArg Prod.fst (Except.ok.inj hhandle)
  exact ⟨(h.1.handle x.1 x.2).1, h.1.uncrossed_handle h.2 x.1 x.2⟩

end PyEngine

/-! ## The four engines

By the rule of servers that split a handler: what frames keep one by one holds
in every interleaving. -/

namespace Wire

/-- **Whatever is sent, and however the connections interleave**, each of the
four engines has a book in order: no bid reaches an ask, the prices of a side
ascend and each order has something left; and the compiled ones have no empty
level. -/
theorem engines_never_cross {ι : Type} [DecidableEq ι] (P : PyEngine.PyJson ι)
    (goJson : List UInt8 → Option JsonValue) (fold : String → String)
    (rustJson : String → Option JsonValue) :
    (PyEngine.service P).Always .init (fun st => Depth.Orderly st.book.depth)
    ∧ CppEngine.service.Always .init (fun b => Depth.Orderly b.depth ∧ Depth.Full b.depth)
    ∧ (GoEngine.service goJson fold).Always GoEngine.newBook
        (fun b => Depth.Orderly b.depth ∧ Depth.Full b.depth)
    ∧ (RustEngine.service rustJson).Always .new
        (fun b => Depth.Orderly b.depth ∧ Depth.Full b.depth) := by
  refine ⟨?_, ?_, ?_, ?_⟩
  · exact (PyEngine.service_splits_uncrossed P).always
      ⟨trivial, PyEngine.PyState.sound_init P, PyEngine.sound_init.ladder_uncrossed⟩
      (fun st h => h.2.1.orderly h.2.2)
  · refine CppEngine.service_splits.always ⟨_, CppEngine.shows_init⟩ (fun b h => ?_)
    obtain ⟨H, h⟩ := h
    exact Depth.orderly_of_nodes h.depth_nodes
  · refine (GoEngine.service_splits goJson fold).always ⟨_, GoEngine.shows_newBook⟩
      (fun b h => ?_)
    obtain ⟨G, h⟩ := h
    exact Depth.orderly_of_nodes h.depth_nodes
  · refine (RustEngine.service_splits_uncrossed rustJson).always
      ⟨⟨_, RustEngine.shows_new⟩, _, RustEngine.shows_new, Book.Uncrossed.empty⟩ (fun b h => ?_)
    obtain ⟨-, B, h, hu⟩ := h
    exact Depth.orderly_of_wf h.wf hu h.depth_eq

end Wire
