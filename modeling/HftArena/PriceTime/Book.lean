import HftArena.PriceTime.Ladder

/-!
# The price-time-priority book

The book as a component means it: a ladder on each side and three calls. A
limit order sweeps the other side within its limit and what stays unfilled
comes to rest at the back of its own price level; a market order sweeps without
a limit and rests nothing; a cancel takes an order off the book.

This is the abstract book the reference engines are compared with. It says
nothing of how levels, queues or an index are stored, and it is total: a call
with any integers at all has a result. The calls keep it well formed
(`WF.step`) as long as no order is submitted under an identifier that is
resting (`Fresh`) – which is the contract of the callers, since no engine
checks it. A weaker condition is enough, and is used where callers do reuse
identifiers: that no order comes to rest under one that is still resting
(`Settles`), which an order that is filled at once meets whatever it is called.

The last part says what an engine's index has to know (`Located`), and what
becomes of it when the book trades, when an order comes to rest and when one is
cancelled. An engine's proof goes through these lemmas and does not look at
where an order rests by itself.
-/

namespace PriceTime

variable {ι : Type}

/-- **A call of a book.** -/
inductive Call (ι : Type) where
  /-- A limit order: identifier, side, price and quantity. -/
  | limit (oid : ι) (side : Side) (px qty : ℤ)
  /-- A market order: identifier, side and quantity. -/
  | market (oid : ι) (side : Side) (qty : ℤ)
  /-- Cancel the order with this identifier. -/
  | cancel (target : ι)
deriving DecidableEq, Repr

namespace Ladder

/-! ## Coming to rest and leaving

The book is put together from what can happen to a ladder: it is swept, an
order comes to rest at the back of its level, and an order is removed from
wherever it is. -/

/-- **An order comes to rest** at the back of its price level, which is made if
there is none. -/
def rest (s : Side) (px : ℤ) (e : ι × ℤ) : Ladder ι → Ladder ι
  | [] => [(px, [e])]
  | (p, q) :: L =>
    if p = px then (p, q ++ [e]) :: L
    else if s.better px p then (px, [e]) :: (p, q) :: L
    else (p, q) :: rest s px e L

/-- An order that comes to rest adds its own price, and takes none away. -/
theorem mem_prices_rest {s : Side} {px : ℤ} {e : ι × ℤ} {L : Ladder ι} {p : ℤ} :
    p ∈ (rest s px e L).prices ↔ p = px ∨ p ∈ L.prices := by
  induction L with
  | nil => simp [rest]
  | cons l L ih =>
    obtain ⟨p', q⟩ := l
    rw [rest]
    split_ifs with heq hbetter
    · subst heq; simp
    · simp
    · rw [prices_cons, List.mem_cons, ih, prices_cons, List.mem_cons]
      exact or_left_comm

/-- A ladder stays in order when an order comes to rest: its level is made
where it belongs. -/
theorem WF.rest {s : Side} {L : Ladder ι} (h : WF s L) (px : ℤ) {e : ι × ℤ}
    (he : 0 < e.2) : WF s (rest s px e L) := by
  have hpos : Positive [e] := fun e' he' => by rw [List.mem_singleton.mp he']; exact he
  induction L with
  | nil => exact h.cons (by simp) (by simp) hpos
  | cons l L ih =>
    obtain ⟨p, q⟩ := l
    rw [Ladder.rest]
    split_ifs with heq hbetter
    · refine h.tail.cons h.better_of_mem (by simp) (fun e' he' => ?_)
      rcases List.mem_append.mp he' with he' | he'
      · exact h.positive _ List.mem_cons_self e' he'
      · exact hpos e' he'
    · refine h.cons (fun p' hp' => ?_) (by simp) hpos
      rcases List.mem_cons.mp hp' with rfl | hp'
      · exact hbetter
      · exact s.better_trans hbetter (h.better_of_mem p' hp')
    · refine (ih h.tail).cons (fun p' hp' => ?_) (h.nonempty _ List.mem_cons_self)
        (h.positive _ List.mem_cons_self)
      rcases mem_prices_rest.mp hp' with rfl | hp'
      · exact s.better_of_not (Ne.symm heq) hbetter
      · exact h.better_of_mem p' hp'

/-- **Only its own level changes** when an order comes to rest, at its back. -/
theorem WF.queueAt_rest {s : Side} {L : Ladder ι} (h : WF s L) (px : ℤ) (e : ι × ℤ)
    (p : ℤ) : queueAt (Ladder.rest s px e L) p
      = if p = px then queueAt L p ++ [e] else queueAt L p := by
  induction L with
  | nil =>
    by_cases hp : p = px
    · simp [Ladder.rest, hp]
    · simp [Ladder.rest, hp, Ne.symm hp]
  | cons l L ih =>
    obtain ⟨p', q⟩ := l
    rw [Ladder.rest]
    by_cases heq : p' = px
    · subst heq
      rw [if_pos rfl, queueAt_cons, queueAt_cons]
      by_cases hp : p = p'
      · subst hp
        have hnot : p ∉ prices L := fun hmem => s.better_irrefl p (h.better_of_mem p hmem)
        rw [if_pos rfl, if_pos rfl, if_pos rfl, queueAt_of_notMem hnot,
          List.append_nil, List.append_nil]
      · rw [if_neg (Ne.symm hp), if_neg (Ne.symm hp), if_neg hp]
    rw [if_neg heq]
    by_cases hbetter : s.better px p'
    · rw [if_pos hbetter, queueAt_cons]
      by_cases hp : p = px
      · subst hp
        have hnot : p ∉ prices ((p', q) :: L) := by
          intro hmem
          rcases List.mem_cons.mp hmem with rfl | hmem
          · exact heq rfl
          · exact s.better_irrefl p (s.better_trans hbetter (h.better_of_mem p hmem))
        rw [if_pos rfl, if_pos rfl, queueAt_of_notMem hnot, List.append_nil, List.nil_append]
      · rw [if_neg (Ne.symm hp), if_neg hp, List.nil_append]
    · rw [if_neg hbetter, queueAt_cons, queueAt_cons, ih h.tail]
      by_cases hp : p = px
      · rw [if_pos hp, if_pos hp, List.append_assoc]
      · rw [if_neg hp, if_neg hp]

variable [DecidableEq ι]

/-- **An order leaves**: its level closes the gap, and goes if it was the last
there. -/
def remove (target : ι) (L : Ladder ι) : Ladder ι :=
  L.filterMap (fun l =>
    let q := l.2.filter (fun e => e.1 ≠ target)
    if q.isEmpty then none else some (l.1, q))

/-- The ladder after an order left, level by level. -/
theorem remove_cons (target : ι) (p : ℤ) (q : List (ι × ℤ)) (L : Ladder ι) :
    remove target ((p, q) :: L)
      = if q.filter (fun e => e.1 ≠ target) = [] then remove target L
        else (p, q.filter (fun e => e.1 ≠ target)) :: remove target L := by
  unfold remove
  rw [List.filterMap_cons]
  by_cases h : q.filter (fun e => e.1 ≠ target) = []
  · simp only [h, List.isEmpty_nil, if_true]
  · simp only [if_neg h, List.isEmpty_iff]

/-- Each queue closes its gap. -/
theorem queueAt_remove (target : ι) (L : Ladder ι) (p : ℤ) :
    queueAt (remove target L) p = (queueAt L p).filter (fun e => e.1 ≠ target) := by
  induction L with
  | nil => rfl
  | cons l L ih =>
    obtain ⟨p', q⟩ := l
    rw [remove_cons, queueAt_cons, List.filter_append, ← ih]
    by_cases hp : p' = p <;> by_cases hq : q.filter (fun e => e.1 ≠ target) = []
    · rw [if_pos hq, if_pos hp, hq, List.nil_append]
    · rw [if_neg hq, if_pos hp, queueAt_cons, if_pos hp]
    · rw [if_pos hq, if_neg hp, List.filter_nil, List.nil_append]
    · rw [if_neg hq, if_neg hp, queueAt_cons, if_neg hp, List.filter_nil]

/-- No price is added, and the prices keep their order. -/
theorem prices_remove_sublist (target : ι) (L : Ladder ι) :
    (remove target L).prices.Sublist L.prices := by
  induction L with
  | nil => exact List.Sublist.refl _
  | cons l L ih =>
    obtain ⟨p, q⟩ := l
    rw [remove_cons]
    split_ifs
    · exact ih.cons p
    · exact ih.cons_cons p

/-- A ladder stays in order when an order leaves. -/
theorem WF.remove {s : Side} {L : Ladder ι} (h : WF s L) (target : ι) :
    WF s (remove target L) := by
  induction L with
  | nil => exact h
  | cons l L ih =>
    obtain ⟨p, q⟩ := l
    rw [remove_cons]
    split_ifs with hq
    · exact ih h.tail
    · refine (ih h.tail).cons
        (fun p' hp' => h.better_of_mem p' ((prices_remove_sublist target L).subset hp')) hq
        (fun e he => h.positive _ List.mem_cons_self e (List.mem_of_mem_filter he))

/-- The others stay, in the order of the ladder. -/
theorem ids_remove (target : ι) (L : Ladder ι) :
    ids (remove target L) = (ids L).filter (fun i => i ≠ target) := by
  induction L with
  | nil => rfl
  | cons l L ih =>
    obtain ⟨p, q⟩ := l
    have hmap : (q.map Prod.fst).filter (fun i => i ≠ target)
        = (q.filter (fun e => e.1 ≠ target)).map Prod.fst := by
      rw [List.filter_map]; rfl
    rw [remove_cons, ids_cons, List.filter_append, hmap, ← ih]
    split_ifs with hq
    · rw [hq, List.map_nil, List.nil_append]
    · rfl

/-- Removing an identifier changes a ladder exactly if an order rests under
it. -/
theorem WF.remove_eq_self_iff {s : Side} {L : Ladder ι} (h : WF s L) (target : ι) :
    Ladder.remove target L = L ↔ target ∉ ids L := by
  constructor
  · intro heq hmem
    rw [← heq, ids_remove] at hmem
    have hne : target ≠ target := of_decide_eq_true (List.mem_filter.mp hmem).2
    exact hne rfl
  · intro hnot
    refine WF.ext (h.remove target) h (fun p => ?_)
    rw [queueAt_remove, List.filter_eq_self]
    intro e he
    refine decide_eq_true (fun heq => hnot ?_)
    exact mem_ids_iff.mpr ⟨p, heq ▸ List.mem_map_of_mem he⟩

end Ladder

/-- **A two-sided book**: a ladder of bids and a ladder of asks. The sides are
arguments, so that what is said of one is said of both. -/
structure Book (ι : Type) where
  /-- The ladder of each side. -/
  ladder : Side → Ladder ι

namespace Book

open Ladder

/-- The book with no order. -/
def empty : Book ι := ⟨fun _ => []⟩

@[ext] theorem ext {b b' : Book ι} (h : ∀ s, b.ladder s = b'.ladder s) : b = b' := by
  cases b; cases b'
  exact congrArg Book.mk (funext h)

/-- The book with one of its ladders replaced. -/
def put (b : Book ι) (s : Side) (L : Ladder ι) : Book ι := ⟨Function.update b.ladder s L⟩

@[simp] theorem ladder_put_self (b : Book ι) (s : Side) (L : Ladder ι) :
    (b.put s L).ladder s = L := by
  show Function.update b.ladder s L s = L
  rw [Function.update_self]

theorem ladder_put_of_ne {s s' : Side} (h : s' ≠ s) (b : Book ι) (L : Ladder ι) :
    (b.put s L).ladder s' = b.ladder s' := by
  show Function.update b.ladder s L s' = b.ladder s'
  rw [Function.update_of_ne h]

@[simp] theorem ladder_put_opp (b : Book ι) (s : Side) (L : Ladder ι) :
    (b.put s.opp L).ladder s = b.ladder s := by
  cases s <;> rfl

@[simp] theorem ladder_put_opp' (b : Book ι) (s : Side) (L : Ladder ι) :
    (b.put s L).ladder s.opp = b.ladder s.opp := by
  cases s <;> rfl

/-- An order trades against the other side, within its limit if it has one.
What it leaves there, what it trades and what stays unfilled are one result. -/
def sweep (b : Book ι) (side : Side) (limit : Option ℤ) (qty : ℤ) : Swept ι :=
  Ladder.sweep (side.opp.reaches limit) qty (b.ladder side.opp)

/-- **A limit order**: what is not filled comes to rest on its own side. Its
price is its limit; it trades at the prices of the orders it meets. -/
def limit (b : Book ι) (oid : ι) (side : Side) (px qty : ℤ) : Book ι × List (Fill ι) :=
  let t := b.sweep side (some px) qty
  let b' := b.put side.opp t.left
  (if 0 < t.unfilled then b'.put side (rest side px (oid, t.unfilled) (b.ladder side)) else b',
    t.fills)

/-- **A market order**: what is not filled is dropped, and its side of the book
is not looked at. -/
def market (b : Book ι) (side : Side) (qty : ℤ) : Book ι × List (Fill ι) :=
  let t := b.sweep side none qty
  (b.put side.opp t.left, t.fills)

/-- **A cancel**: the order leaves, wherever it rests. One that is not there
changes nothing. -/
def cancel [DecidableEq ι] (b : Book ι) (target : ι) : Book ι :=
  ⟨fun s => remove target (b.ladder s)⟩

/-- One call of the book, with the fills it returns. -/
def step [DecidableEq ι] (b : Book ι) : Call ι → Book ι × List (Fill ι)
  | .limit oid side px qty => b.limit oid side px qty
  | .market _ side qty => b.market side qty
  | .cancel target => (b.cancel target, [])

/-- Whether an order with this identifier rests on the book. -/
def Resting (b : Book ι) (i : ι) : Prop := ∃ s, i ∈ ids (b.ladder s)

/-- **What the callers owe**: a limit order is submitted under an identifier
that is not resting. Market orders never rest, so theirs do not matter, and a
cancel may name anything. -/
def Fresh (b : Book ι) : Call ι → Prop
  | .limit oid _ _ _ => ¬ b.Resting oid
  | _ => True

/-- **What keeps identifiers apart**: a limit order that is not filled comes to
rest under an identifier that no other order still rests under. It is looked at
after the order has traded, so an order may take over the identifier of one
that it fills. -/
def Settles (b : Book ι) : Call ι → Prop
  | .limit oid side px qty =>
    0 < (b.sweep side (some px) qty).unfilled →
      ¬ (b.put side.opp (b.sweep side (some px) qty).left).Resting oid
  | _ => True

/-- **A well-formed book**: well-formed ladders, no bid at or above an ask, no
identifier resting twice, be it on one side or on both. -/
structure WF (b : Book ι) : Prop where
  side : ∀ s, Ladder.WF s (b.ladder s)
  uncrossed : ∀ p ∈ (b.ladder .bid).prices, ∀ p' ∈ (b.ladder .ask).prices, p < p'
  nodup : ∀ s, (ids (b.ladder s)).Nodup
  disjoint : ∀ i ∈ ids (b.ladder .bid), i ∉ ids (b.ladder .ask)

/-- So is the book that an engine starts with. -/
theorem wf_empty : (empty : Book ι).WF :=
  ⟨fun s => wf_nil s, by simp [empty], fun _ => List.nodup_nil, by simp [empty]⟩

/-- The other side's orders are other orders, whichever side one looks from. -/
theorem WF.notMem_opp {b : Book ι} (h : b.WF) {s : Side} {i : ι} (hi : i ∈ ids (b.ladder s)) :
    i ∉ ids (b.ladder s.opp) := by
  cases s with
  | bid => exact h.disjoint i hi
  | ask => exact fun hb => h.disjoint i hb hi

/-- **An order rests in one place.** -/
theorem WF.place_unique {b : Book ι} (h : b.WF) {i : ι} {s s' : Side} {p p' : ℤ}
    (hi : i ∈ (queueAt (b.ladder s) p).map Prod.fst)
    (hi' : i ∈ (queueAt (b.ladder s') p').map Prod.fst) : s = s' ∧ p = p' := by
  by_cases hs : s = s'
  · subst hs
    exact ⟨rfl, price_unique (h.nodup s) hi hi'⟩
  · have hopp : s' = s.opp := by
      cases s <;> cases s' <;> first | rfl | exact absurd rfl hs
    subst hopp
    exact absurd (mem_ids_iff.mpr ⟨p', hi'⟩) (h.notMem_opp (mem_ids_iff.mpr ⟨p, hi⟩))

/-- A book that lost prices and orders and nothing else is well formed: each of
the conditions is about what is there, and asks for nothing to be there. -/
theorem WF.shrink {b b' : Book ι} (h : b.WF) (hside : ∀ s, Ladder.WF s (b'.ladder s))
    (hprices : ∀ s, (b'.ladder s).prices ⊆ (b.ladder s).prices)
    (hids : ∀ s, (ids (b'.ladder s)).Sublist (ids (b.ladder s))) : b'.WF where
  side := hside
  uncrossed p hp p' hp' := h.uncrossed p (hprices _ hp) p' (hprices _ hp')
  nodup s := (hids s).nodup (h.nodup s)
  disjoint i hi hi' := h.disjoint i ((hids _).subset hi) ((hids _).subset hi')

/-- A sweep adds no order to the side it goes through. -/
theorem ids_sweep_sublist (b : Book ι) (side : Side) (limit : Option ℤ) (qty : ℤ) :
    (ids (b.sweep side limit qty).left).Sublist (ids (b.ladder side.opp)) := by
  unfold sweep
  rw [← gone_append_ids (side.opp.reaches limit) qty (b.ladder side.opp)]
  exact List.sublist_append_right _ _

/-- **Trading keeps a book well formed.** -/
theorem WF.put_sweep {b : Book ι} (h : b.WF) (side : Side) (limit : Option ℤ) (qty : ℤ) :
    (b.put side.opp (b.sweep side limit qty).left).WF := by
  refine h.shrink (fun s => ?_) (fun s => ?_) (fun s => ?_) <;>
    by_cases hs : s = side.opp
  · subst hs
    rw [ladder_put_self]
    exact (h.side _).sweep _ _
  · rw [ladder_put_of_ne hs]
    exact h.side s
  · subst hs
    rw [ladder_put_self]
    exact (prices_sweep_sublist _ _ _).subset
  · rw [ladder_put_of_ne hs]
    exact List.Subset.refl _
  · subst hs
    rw [ladder_put_self]
    exact b.ids_sweep_sublist side limit qty
  · rw [ladder_put_of_ne hs]

/-- An order that comes to rest is one more among those of its side. -/
theorem ids_rest_perm (s : Side) (px : ℤ) (e : ι × ℤ) (L : Ladder ι) :
    (ids (rest s px e L)).Perm (e.1 :: ids L) := by
  induction L with
  | nil => exact List.Perm.refl _
  | cons l L ih =>
    obtain ⟨p, q⟩ := l
    rw [rest]
    split_ifs
    · rw [ids_cons, ids_cons, List.map_append, List.append_assoc]
      exact List.perm_middle
    · exact List.Perm.refl _
    · rw [ids_cons, ids_cons]
      exact (List.Perm.append_left _ ih).trans List.perm_middle

/-- An order that comes to rest at a price nothing opposite reaches leaves bids
below asks. The statement is about prices alone, so that it serves for books
that are stored in another way. -/
theorem uncrossed_of_rest (ps ps' : Side → List ℤ)
    (h : ∀ p ∈ ps .bid, ∀ p' ∈ ps .ask, p < p') (side : Side) (px : ℤ)
    (hopp : ∀ p ∈ ps' side.opp, p ∈ ps side.opp ∧ side.opp.reaches (some px) p = false)
    (hside : ∀ p ∈ ps' side, p = px ∨ p ∈ ps side) :
    ∀ p ∈ ps' .bid, ∀ p' ∈ ps' .ask, p < p' := by
  intro p hp p' hp'
  cases side with
  | bid =>
    obtain ⟨hmem, hcross⟩ := hopp p' hp'
    rcases hside p hp with rfl | hp
    · simp only [Side.opp, Side.reaches, decide_eq_false_iff_not] at hcross
      omega
    · exact h p hp p' hmem
  | ask =>
    obtain ⟨hmem, hcross⟩ := hopp p hp
    rcases hside p' hp' with rfl | hp'
    · simp only [Side.opp, Side.reaches, decide_eq_false_iff_not] at hcross
      omega
    · exact h p hmem p' hp'

/-- **Coming to rest keeps a book well formed**, for an identifier that is not
resting and a price that does not cross. -/
theorem WF.put_rest {b : Book ι} (h : b.WF) (side : Side) (px : ℤ) {oid : ι} {qty : ℤ}
    (hfresh : ¬ b.Resting oid) (hqty : 0 < qty)
    (hcross : ∀ p ∈ (b.ladder side.opp).prices, side.opp.reaches (some px) p = false) :
    (b.put side (rest side px (oid, qty) (b.ladder side))).WF := by
  have hnot : ∀ s, oid ∉ ids (b.ladder s) := fun s hs => hfresh ⟨s, hs⟩
  have hperm := ids_rest_perm side px (oid, qty) (b.ladder side)
  have hids : ∀ i, i ∈ ids (rest side px (oid, qty) (b.ladder side))
      ↔ i = oid ∨ i ∈ ids (b.ladder side) := fun i => by rw [hperm.mem_iff, List.mem_cons]
  refine ⟨fun s => ?_, ?_, fun s => ?_, ?_⟩
  · by_cases hs : s = side
    · subst hs
      rw [ladder_put_self]
      exact (h.side s).rest px hqty
    · rw [ladder_put_of_ne hs]
      exact h.side s
  · refine uncrossed_of_rest (fun s => (b.ladder s).prices) (fun s => (ladder _ s).prices)
      h.uncrossed side px (fun p hp => ?_) (fun p hp => ?_)
    · rw [ladder_put_opp'] at hp
      exact ⟨hp, hcross p hp⟩
    · rw [ladder_put_self] at hp
      exact mem_prices_rest.mp hp
  · by_cases hs : s = side
    · subst hs
      rw [ladder_put_self, hperm.nodup_iff, List.nodup_cons]
      exact ⟨hnot s, h.nodup s⟩
    · rw [ladder_put_of_ne hs]
      exact h.nodup s
  · cases side with
    | bid =>
      intro i hi hi'
      rcases (hids i).mp hi with rfl | hi
      · exact hnot .ask hi'
      · exact h.disjoint i hi hi'
    | ask =>
      intro i hi hi'
      rcases (hids i).mp hi' with rfl | hi'
      · exact hnot .bid hi
      · exact h.disjoint i hi hi'

/-- Trading brings no order to rest. -/
theorem not_resting_put_sweep (b : Book ι) {i : ι} (hi : ¬ b.Resting i) (side : Side)
    (limit : Option ℤ) (qty : ℤ) :
    ¬ (b.put side.opp (b.sweep side limit qty).left).Resting i := by
  rintro ⟨s, hs⟩
  by_cases hso : s = side.opp
  · subst hso
    rw [ladder_put_self] at hs
    exact hi ⟨_, (b.ids_sweep_sublist side limit qty).subset hs⟩
  · rw [ladder_put_of_ne hso] at hs
    exact hi ⟨s, hs⟩

/-- What the callers owe keeps identifiers apart. -/
theorem Fresh.settles {b : Book ι} {c : Call ι} (h : b.Fresh c) : b.Settles c := by
  cases c with
  | limit oid side px qty => exact fun _ => b.not_resting_put_sweep h side (some px) qty
  | market oid side qty => exact h
  | cancel target => exact h

/-- Coming to rest brings one order to rest. -/
theorem resting_put_rest (b : Book ι) (side : Side) (px : ℤ) (e : ι × ℤ) {i : ι}
    (hi : (b.put side (rest side px e (b.ladder side))).Resting i) : i = e.1 ∨ b.Resting i := by
  obtain ⟨s, hs⟩ := hi
  by_cases hside : s = side
  · subst hside
    rw [ladder_put_self, (ids_rest_perm s px e _).mem_iff, List.mem_cons] at hs
    exact hs.imp_right (fun hs => ⟨s, hs⟩)
  · rw [ladder_put_of_ne hside] at hs
    exact Or.inr ⟨s, hs⟩

/-- A cancel brings no order to rest. -/
theorem resting_of_cancel [DecidableEq ι] (b : Book ι) {target i : ι}
    (hi : (b.cancel target).Resting i) : b.Resting i := by
  obtain ⟨s, hs⟩ := hi
  have hs' : i ∈ ids (remove target (b.ladder s)) := hs
  rw [ids_remove] at hs'
  exact ⟨s, List.mem_of_mem_filter hs'⟩

/-- **A call that keeps identifiers apart keeps a book well formed.** A limit
order that rests does so at a price that nothing opposite reaches any more:
otherwise it would have been filled. -/
theorem WF.step_of_settles [DecidableEq ι] {b : Book ι} (h : b.WF) {c : Call ι}
    (hsettles : b.Settles c) : (b.step c).1.WF := by
  cases c with
  | limit oid side px qty =>
    have hswept := h.put_sweep side (some px) qty
    show (if 0 < (b.sweep side (some px) qty).unfilled then _ else _ : Book ι).WF
    split_ifs with hun
    · have hcross := not_reaches_of_unfilled_pos (h.side side.opp) hun
      have hrest := hswept.put_rest side px (hsettles hun) hun
        (by rw [ladder_put_self]; exact hcross)
      rwa [ladder_put_opp] at hrest
    · exact hswept
  | market oid side qty => exact h.put_sweep side none qty
  | cancel target =>
    refine h.shrink (fun s => (h.side s).remove target)
      (fun s => (prices_remove_sublist target _).subset) (fun s => ?_)
    show (ids (remove target (b.ladder s))).Sublist _
    rw [ids_remove]
    exact List.filter_sublist

/-- **A call that the callers may make keeps a book well formed.** -/
theorem WF.step [DecidableEq ι] {b : Book ι} (h : b.WF) {c : Call ι} (hfresh : b.Fresh c) :
    (b.step c).1.WF :=
  h.step_of_settles hfresh.settles

/-- **What a call submits is filled or unfilled**, and nothing is wanted by an
order of no or negative quantity. -/
theorem filled_add_max_unfilled (b : Book ι) (side : Side) (limit : Option ℤ) (qty : ℤ) :
    Ladder.filled (b.sweep side limit qty).fills + max (b.sweep side limit qty).unfilled 0
      = max qty 0 := by
  rcases le_or_gt qty 0 with hqty | hqty
  · rw [Book.sweep, Ladder.sweep_of_nonpos _ hqty]
    exact zero_add _
  · have hsum := Ladder.filled_add_unfilled (side.opp.reaches limit) qty (b.ladder side.opp)
    have hnonneg := Ladder.sweep_unfilled_nonneg (side.opp.reaches limit) hqty.le
      (b.ladder side.opp)
    unfold Book.sweep
    rw [max_eq_left hnonneg, max_eq_left hqty.le]
    exact hsum

/-! ## Where an order rests

An engine keeps an index from identifiers to places. Whatever the index is made
of, what the book needs of it is the function below: the side and the price of
every order that rests, and nothing of any other. -/

/-- **An index is right** if it gives the side and the price of exactly the
orders that rest. It may say more than that of an order – the engines keep its
node or its level – but it may not name an order that is gone. -/
def Located (b : Book ι) (loc : ι → Option (Side × ℤ)) : Prop :=
  ∀ i s p, loc i = some (s, p) ↔ i ∈ (queueAt (b.ladder s) p).map Prod.fst

/-- An index of nothing is right for the book with no order. -/
theorem located_empty : (empty : Book ι).Located (fun _ => none) := by
  intro i s p
  simp [empty]

/-- An index that is right knows who is resting. -/
theorem Located.resting_iff {b : Book ι} {loc : ι → Option (Side × ℤ)} (h : b.Located loc)
    {i : ι} : b.Resting i ↔ ∃ s p, loc i = some (s, p) := by
  refine exists_congr (fun s => ?_)
  rw [mem_ids_iff]
  exact exists_congr (fun p => (h i s p).symm)

/-- **Trading takes the filled makers out of the index.** -/
theorem Located.put_sweep [DecidableEq ι] {b : Book ι} (hwf : b.WF)
    {loc : ι → Option (Side × ℤ)} (h : b.Located loc) (side : Side) (limit : Option ℤ)
    (qty : ℤ) : (b.put side.opp (b.sweep side limit qty).left).Located
      (fun i => if i ∈ (b.sweep side limit qty).gone then none else loc i) := by
  intro i s p
  dsimp only
  by_cases hs : s = side.opp
  · subst hs
    rw [ladder_put_self, sweep, mem_queueAt_sweep (hwf.nodup _), ← h i]
    split_ifs with hgone <;> simp [hgone]
  · -- the other side keeps its orders, and none of them is a maker here
    have hside : s = side := by
      cases s <;> cases side <;> first | rfl | exact absurd rfl hs
    subst hside
    rw [ladder_put_opp, ← h i]
    split_ifs with hgone
    · refine ⟨fun hnone => absurd hnone (by simp), fun hsome => ?_⟩
      have hopp : i ∈ ids (b.ladder s.opp) := by
        rw [← gone_append_ids (s.opp.reaches limit) qty]
        exact List.mem_append_left _ hgone
      exact absurd hopp (hwf.notMem_opp (mem_ids_iff.mpr ⟨p, (h i s p).mp hsome⟩))
    · exact Iff.rfl

/-- **An order that comes to rest is entered in the index.** -/
theorem Located.put_rest [DecidableEq ι] {b : Book ι} (hwf : b.WF)
    {loc : ι → Option (Side × ℤ)} (h : b.Located loc) {oid : ι} (hfresh : ¬ b.Resting oid)
    (side : Side) (px qty : ℤ) :
    (b.put side (rest side px (oid, qty) (b.ladder side))).Located
      (fun i => if i = oid then some (side, px) else loc i) := by
  intro i s p
  dsimp only
  have hnot : ∀ s p, oid ∉ (queueAt (b.ladder s) p).map Prod.fst :=
    fun s p hmem => hfresh ⟨s, mem_ids_iff.mpr ⟨p, hmem⟩⟩
  by_cases hs : s = side
  · subst hs
    rw [ladder_put_self, (hwf.side s).queueAt_rest]
    by_cases hp : p = px
    · rw [if_pos hp, List.map_append, List.mem_append, ← h i]
      split_ifs with hi
      · subst hi hp
        simp
      · simp [hi]
    · rw [if_neg hp, ← h i]
      split_ifs with hi
      · subst hi
        rw [h i]
        simp [hnot s p, Ne.symm hp]
      · exact Iff.rfl
  · rw [ladder_put_of_ne hs, ← h i]
    split_ifs with hi
    · subst hi
      rw [h i]
      simp [hnot s p, Ne.symm hs]
    · exact Iff.rfl

/-- **A cancelled order is taken out of the index.** -/
theorem Located.cancel [DecidableEq ι] {b : Book ι} {loc : ι → Option (Side × ℤ)}
    (h : b.Located loc) (target : ι) :
    (b.cancel target).Located (fun i => if i = target then none else loc i) := by
  intro i s p
  dsimp only
  show _ ↔ i ∈ (queueAt (remove target (b.ladder s)) p).map Prod.fst
  have hmap : ∀ q : List (ι × ℤ), (q.filter (fun e => e.1 ≠ target)).map Prod.fst
      = (q.map Prod.fst).filter (fun i => i ≠ target) := fun q => by
    rw [List.filter_map]; rfl
  rw [queueAt_remove, hmap, List.mem_filter, ← h i]
  split_ifs with hi <;> simp [hi]

/-- A cancel of an order that is not resting changes nothing. -/
theorem Located.cancel_eq_self [DecidableEq ι] {b : Book ι} {loc : ι → Option (Side × ℤ)}
    (h : b.Located loc) {target : ι} (hloc : loc target = none) (hwf : b.WF) :
    b.cancel target = b := by
  refine Book.ext (fun s => ((hwf.side s).remove_eq_self_iff target).mpr (fun hmem => ?_))
  obtain ⟨p, hp⟩ := mem_ids_iff.mp hmem
  have hsome := (h target s p).mpr hp
  rw [hloc] at hsome
  cases hsome

/-- **An order rests in one place**: a cancel changes the level the index
names, and no other. -/
theorem Located.queueAt_cancel [DecidableEq ι] {b : Book ι} {loc : ι → Option (Side × ℤ)}
    (h : b.Located loc) {target : ι} {side : Side} {price : ℤ}
    (hloc : loc target = some (side, price)) (s : Side) (p : ℤ) :
    queueAt ((b.cancel target).ladder s) p
      = if s = side ∧ p = price then (queueAt (b.ladder s) p).filter (fun e => e.1 ≠ target)
        else queueAt (b.ladder s) p := by
  show queueAt (remove target (b.ladder s)) p = _
  rw [queueAt_remove]
  split_ifs with hplace
  · rfl
  · rw [List.filter_eq_self]
    intro e he
    have hne : e.1 ≠ target := by
      rintro rfl
      have := (h e.1 s p).mpr (List.mem_map_of_mem he)
      rw [hloc, Option.some_inj, Prod.mk.injEq] at this
      exact hplace ⟨this.1.symm, this.2.symm⟩
    simpa using hne

end Book

end PriceTime
