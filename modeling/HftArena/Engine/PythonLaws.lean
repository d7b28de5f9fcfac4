import HftArena.Engine.PythonBook

/-!
# How calls of the Python book undo each other and commute

A cancel takes out the order that rests under its id and nothing else
(`cancel_exact`), and a limit order that crosses nothing followed by its cancel
gives back the very book, down to the order of the dictionaries. Calls that
have nothing to do with each other may be made in either order
(`independent_commute`): the books are then the same but for the order in which
levels and index entries were made, which no method looks at
(`OrderBook.Same`).

Both rest on a side being determined by its queues (`Half.WF.same`). For the
commutation nothing is asked of the ids beyond their being different from each
other: what a call does to a level and to the index is known whatever else is
on the book, and two calls that write different entries may be made in either
order. Where the calls meet at one price – a cancel that empties a level and an
order that comes to rest there – the level goes and comes back, and its queue
is the same.
-/

open PriceTime

namespace PyEngine

variable {ι : Type}

/-! ## A side and its queues

A side is put together anew from the queues that it has at each price. -/

/-- **A side shows queues**: its prices are, in order, those at which something
rests, and its levels are the queues there. -/
structure Half.Shows (h : Half ι) (queue : ℤ → List (ι × ℤ)) : Prop where
  sorted : h.prices.Pairwise (· < ·)
  mem_prices : ∀ p, p ∈ h.prices ↔ queue p ≠ []
  levels : ∀ p, (h.levels.get? p).map Dict.entries = if queue p = [] then none else some (queue p)

/-- A sound side shows its own queues. -/
theorem Half.WF.shows {h : Half ι} (hwf : h.WF) : h.Shows h.queue := by
  have hmem : ∀ p, p ∈ h.prices ↔ h.queue p ≠ [] := hwf.levels.mem
  refine ⟨hwf.sorted, hmem, fun p => ?_⟩
  by_cases hp : p ∈ h.prices
  · obtain ⟨level, hlevel⟩ := hwf.loose.get?.mp hp
    rw [if_neg ((hmem p).mp hp), hlevel, Half.queue_of_get? hlevel]
    rfl
  · rw [if_pos (not_not.mp (fun hne => hp ((hmem p).mpr hne))),
      Option.map_eq_none_iff, Dict.get?_eq_none_iff, ← hwf.mem_prices]
    exact hp

/-- **Queues determine the prices and the levels.** -/
theorem Half.Shows.same {h h' : Half ι} {queue : ℤ → List (ι × ℤ)} (hs : h.Shows queue)
    (hs' : h'.Shows queue) : h.prices = h'.prices ∧ ∀ p, h.levels.get? p = h'.levels.get? p := by
  constructor
  · have hperm : h.prices.Perm h'.prices := by
      rw [List.perm_ext_iff_of_nodup (hs.sorted.imp ne_of_lt) (hs'.sorted.imp ne_of_lt)]
      exact fun p => (hs.mem_prices p).trans (hs'.mem_prices p).symm
    exact hperm.eq_of_pairwise (fun _ _ _ _ hlt hlt' => absurd hlt (lt_asymm hlt')) hs.sorted
      hs'.sorted
  · exact fun p => Option.map_injective (fun _ _ => Dict.ext)
      ((hs.levels p).trans (hs'.levels p).symm)

/-! ## The same book

Dictionaries remember when a key was written first, and the methods never ask
for it. Two books are the same if they differ in nothing else. -/

/-- **The same book**: the same prices, the same levels, each with its queue in
order, and the same index. The order in which a dictionary of levels was filled
is not compared. -/
structure OrderBook.Same [DecidableEq ι] (b b' : OrderBook ι) : Prop where
  bidPrices : b.bidPrices = b'.bidPrices
  askPrices : b.askPrices = b'.askPrices
  bidLevels : ∀ p, b.bidLevels.get? p = b'.bidLevels.get? p
  askLevels : ∀ p, b.askLevels.get? p = b'.askLevels.get? p
  resting : ∀ i, b.resting.get? i = b'.resting.get? i

variable [DecidableEq ι]

/-- A book is the same as itself. -/
theorem OrderBook.Same.refl (b : OrderBook ι) : b.Same b :=
  ⟨rfl, rfl, fun _ => rfl, fun _ => rfl, fun _ => rfl⟩

/-- Sound books with the same queues and the same index are the same. -/
theorem OrderBook.HalvesWF.same {b b' : OrderBook ι} (hb : b.HalvesWF) (hb' : b'.HalvesWF)
    (hqueue : ∀ s p, Ladder.queueAt (b.ladder s) p = Ladder.queueAt (b'.ladder s) p)
    (hresting : ∀ i, b.resting.get? i = b'.resting.get? i) : b.Same b' := by
  have hhalf : ∀ s : Side, (b.half s.word).prices = (b'.half s.word).prices
      ∧ ∀ p, (b.half s.word).levels.get? p = (b'.half s.word).levels.get? p := fun s => by
    have heq : (b.half s.word).queue = (b'.half s.word).queue := by
      funext p
      rw [← (hb s).queueAt s, ← (hb' s).queueAt s]
      exact hqueue s p
    exact (hb s).shows.same (heq ▸ (hb' s).shows)
  exact ⟨(hhalf .bid).1, (hhalf .ask).1, (hhalf .bid).2, (hhalf .ask).2, hresting⟩

/-! ## Orders that cross nothing

They come to rest as they are, and change one level and one entry of the index. -/

/-- **The order does not cross the book**: nothing opposite is within its
price, which is what `_match` asks of the best price. -/
def OrderBook.Clear (b : OrderBook ι) (side : String) (px : ℤ) : Prop :=
  ∀ p ∈ (b.half (makerSide side)).prices, crosses side (some px) p = false

instance (b : OrderBook ι) (side : String) (px : ℤ) : Decidable (b.Clear side px) :=
  inferInstanceAs (Decidable (∀ p ∈ (b.half (makerSide side)).prices, _))

/-- Such an order comes to rest whole. -/
theorem OrderBook.Clear.limit {b : OrderBook ι} {side : String} {px : ℤ} (h : b.Clear side px)
    (oid : ι) (qty : ℤ) :
    b.limit oid side px qty = .ok (if 0 < qty then b.rest side px oid qty else b, []) := by
  have hidle : b.match side (some px) qty = .ok ([], qty, b) := by
    refine b.match_idle (.inr (fun best hbest => h best ?_))
    rw [bestOf_eq_head?] at hbest
    exact Ladder.mem_orient.mp (List.mem_of_head? hbest)
  rw [OrderBook.limit, hidle]
  rfl

/-- **Two orders cross**: they are on opposite sides, and one reaches the price
of the other. -/
def Crossing (side : String) (px : ℤ) (side' : String) (px' : ℤ) : Prop :=
  sideOf side' = (sideOf side).opp ∧ crosses side (some px) px' = true

/-- Crossing is mutual. -/
theorem Crossing.symm {side side' : String} {px px' : ℤ} (h : Crossing side px side' px') :
    Crossing side' px' side px := by
  obtain ⟨hside, hcross⟩ := h
  refine ⟨?_, ?_⟩
  · rw [hside]
    cases sideOf side <;> rfl
  · rw [crosses_eq_reaches] at hcross ⊢
    rw [hside]
    cases hs : sideOf side <;> rw [hs] at hcross <;> exact hcross

omit [DecidableEq ι] in
/-- A price is listed if and only if something rests there. -/
theorem OrderBook.mem_prices_half {b : OrderBook ι} (hb : b.HalvesWF) {side : String} {p : ℤ} :
    p ∈ (b.half side).prices ↔ Ladder.queueAt (b.ladder (sideOf side)) p ≠ [] := by
  rw [hb.loose.queueAt side]
  exact (hb.half side).shows.mem_prices p

/-- What rests does not make an order cross that does not cross it. -/
theorem OrderBook.Clear.rest {b : OrderBook ι} (hb : b.HalvesWF) {side side' : String}
    {px px' : ℤ} (h : b.Clear side' px') (hcross : ¬ Crossing side' px' side px) (oid : ι) {qty : ℤ}
    (hqty : 0 < qty) : (b.rest side px oid qty).Clear side' px' := by
  obtain ⟨level, -, hhalf, -, hqueue⟩ := OrderBook.rest_spec hb side px oid hqty
  intro p hp
  rw [OrderBook.mem_prices_half hhalf, hqueue] at hp
  by_cases hplace : sideOf (makerSide side') = sideOf side ∧ p = px
  · rw [hplace.2, Bool.eq_false_iff]
    refine fun hreach => hcross ⟨?_, hreach⟩
    rw [← hplace.1, sideOf_makerSide]
  · rw [if_neg hplace, ← OrderBook.mem_prices_half hb] at hp
    exact h p hp

/-- A cancel takes out orders, and prices with them. -/
theorem OrderBook.Clear.cancel {b : OrderBook ι} (hb : b.HalvesWF) {side : String} {px : ℤ}
    (h : b.Clear side px) (target : ι) : (b.cancel target).1.Clear side px := by
  cases hloc : b.resting.get? target with
  | none =>
    have hsame : b.cancel target = (b, false) := by rw [OrderBook.cancel, hloc]
    rw [hsame]
    exact h
  | some loc =>
    obtain ⟨hhalf, -, hqueue⟩ := OrderBook.cancel_spec hb hloc
    intro p hp
    rw [OrderBook.mem_prices_half hhalf, hqueue] at hp
    refine h p ((OrderBook.mem_prices_half hb).mpr (fun hnil => ?_))
    rw [hnil] at hp
    split_ifs at hp
    · exact hp rfl
    · exact hp rfl

/-! ## Calls that commute

Each pair of calls is reduced to two writes to a side and two to the index, to
keys that are different. -/

/-- Orders of different ids at different places come to rest in either
order. -/
theorem OrderBook.rest_comm {b : OrderBook ι} (hb : b.HalvesWF) {oid oid' : ι} (hne : oid ≠ oid')
    {side side' : String} {px px' : ℤ} (hplace : ¬ (sideOf side = sideOf side' ∧ px = px'))
    {qty qty' : ℤ} (hqty : 0 < qty) (hqty' : 0 < qty') :
    ((b.rest side px oid qty).rest side' px' oid' qty').Same
      ((b.rest side' px' oid' qty').rest side px oid qty) := by
  obtain ⟨l₁, hl₁, hhalf₁, hres₁, hq₁⟩ := OrderBook.rest_spec hb side px oid hqty
  obtain ⟨l₁₂, hl₁₂, hhalf₁₂, hres₁₂, hq₁₂⟩ := OrderBook.rest_spec hhalf₁ side' px' oid' hqty'
  obtain ⟨l₂, hl₂, hhalf₂, hres₂, hq₂⟩ := OrderBook.rest_spec hb side' px' oid' hqty'
  obtain ⟨l₂₁, hl₂₁, hhalf₂₁, hres₂₁, hq₂₁⟩ := OrderBook.rest_spec hhalf₂ side px oid hqty
  -- neither order changes the level of the other
  have hsame : l₁₂ = l₂ := by
    refine Dict.ext ?_
    rw [hl₁₂, hl₂, hq₁, if_neg (fun h => hplace ⟨h.1.symm, h.2.symm⟩)]
  have hsame' : l₂₁ = l₁ := by
    refine Dict.ext ?_
    rw [hl₂₁, hl₁, hq₂, if_neg hplace]
  refine hhalf₁₂.same hhalf₂₁ (fun s p => ?_) (fun i => ?_)
  · rw [hq₁₂, hq₂₁, hq₁, hq₂, hsame, hsame']
    by_cases h : s = sideOf side ∧ p = px
    · rw [if_neg (fun h' => hplace ⟨h.1.symm.trans h'.1, h.2.symm.trans h'.2⟩), if_pos h, if_pos h]
    · rw [if_neg h, if_neg h]
  · rw [hres₁₂, hres₂₁, hres₁, hres₂, Dict.get?_set, Dict.get?_set, Dict.get?_set, Dict.get?_set]
    by_cases hi : i = oid
    · rw [if_neg (fun h => hne (hi.symm.trans h)), if_pos hi, if_pos hi]
    · rw [if_neg hi, if_neg hi]

/-- Without an index entry a cancel does nothing. -/
theorem OrderBook.cancel_of_none {b : OrderBook ι} {target : ι} (h : b.resting.get? target = none) :
    b.cancel target = (b, false) := by
  rw [OrderBook.cancel, h]

/-- What a cancel does to the index and to the queues, whether the id is
indexed or not. -/
theorem OrderBook.cancel_cases {b : OrderBook ι} (hb : b.HalvesWF) (target : ι) :
    (b.cancel target).1.HalvesWF
      ∧ (∀ i, (b.cancel target).1.resting.get? i = if i = target then none else b.resting.get? i)
      ∧ ∀ s p, Ladder.queueAt ((b.cancel target).1.ladder s) p
          = if (b.resting.get? target).map (fun l => (sideOf l.1, l.2)) = some (s, p) then
              (Ladder.queueAt (b.ladder s) p).filter (fun e => e.1 ≠ target)
            else Ladder.queueAt (b.ladder s) p := by
  cases hloc : b.resting.get? target with
  | none =>
    rw [OrderBook.cancel_of_none hloc]
    refine ⟨hb, fun i => ?_, fun s p => rfl⟩
    split_ifs with hi
    · rw [hi, hloc]
    · rfl
  | some loc =>
    obtain ⟨hhalf, hres, hqueue⟩ := OrderBook.cancel_spec hb hloc
    refine ⟨hhalf, fun i => ?_, fun s p => ?_⟩
    · rw [hres, Dict.get?_erase]
    · rw [hqueue]
      refine if_congr ?_ rfl rfl
      rw [Option.map_some, Option.some_inj, Prod.mk.injEq]
      exact and_congr eq_comm eq_comm

/-- Cancels commute. -/
theorem OrderBook.cancel_comm {b : OrderBook ι} (hb : b.HalvesWF) {x y : ι} (hne : x ≠ y) :
    ((b.cancel x).1.cancel y).1.Same ((b.cancel y).1.cancel x).1 := by
  obtain ⟨hhalf₁, hres₁, hq₁⟩ := OrderBook.cancel_cases hb x
  obtain ⟨hhalf₁₂, hres₁₂, hq₁₂⟩ := OrderBook.cancel_cases hhalf₁ y
  obtain ⟨hhalf₂, hres₂, hq₂⟩ := OrderBook.cancel_cases hb y
  obtain ⟨hhalf₂₁, hres₂₁, hq₂₁⟩ := OrderBook.cancel_cases hhalf₂ x
  refine hhalf₁₂.same hhalf₂₁ (fun s p => ?_) (fun i => ?_)
  · rw [hq₁₂, hq₂₁, hq₁, hq₂, hres₁, hres₂, if_neg hne, if_neg hne.symm]
    split_ifs
    · rw [List.filter_filter, List.filter_filter]
      exact List.filter_congr (fun e _ => Bool.and_comm _ _)
    · rfl
    · rfl
    · rfl
  · rw [hres₁₂, hres₂₁, hres₁, hres₂]
    split_ifs <;> rfl

/-- **A cancel and an order of another id that comes to rest commute**, at one
price too: where the cancelled order was the last there, its level goes and
comes back. -/
theorem OrderBook.cancel_rest {b : OrderBook ι} (hb : b.HalvesWF) {x oid : ι} (hne : oid ≠ x)
    (side : String) (px : ℤ) {qty : ℤ} (hqty : 0 < qty) :
    ((b.cancel x).1.rest side px oid qty).Same ((b.rest side px oid qty).cancel x).1 := by
  obtain ⟨hhalf₁, hres₁, hq₁⟩ := OrderBook.cancel_cases hb x
  obtain ⟨l₁₂, hl₁₂, hhalf₁₂, hres₁₂, hq₁₂⟩ := OrderBook.rest_spec hhalf₁ side px oid hqty
  obtain ⟨l₂, hl₂, hhalf₂, hres₂, hq₂⟩ := OrderBook.rest_spec hb side px oid hqty
  obtain ⟨hhalf₂₁, hres₂₁, hq₂₁⟩ := OrderBook.cancel_cases hhalf₂ x
  have hindex : (b.rest side px oid qty).resting.get? x = b.resting.get? x := by
    rw [hres₂, Dict.get?_set, if_neg hne.symm]
  refine hhalf₁₂.same hhalf₂₁ (fun s p => ?_) (fun i => ?_)
  · rw [hq₁₂, hq₂₁, hindex, hq₁, hq₂]
    by_cases hplace : s = sideOf side ∧ p = px
    · rw [if_pos hplace, if_pos hplace]
      rw [hq₁, ← hl₂, ← hplace.1, ← hplace.2] at hl₁₂
      by_cases hloc : (b.resting.get? x).map (fun l => (sideOf l.1, l.2)) = some (s, p)
      · -- the level without the order, and the new order behind it
        rw [if_pos hloc] at hl₁₂ ⊢
        have hlevel : l₁₂ = l₂.erase x := Dict.ext hl₁₂
        rw [hlevel, addTo, Dict.get?_erase, if_neg hne, ← Dict.erase_set_of_ne hne]
        rfl
      · rw [if_neg hloc] at hl₁₂ ⊢
        rw [Dict.ext hl₁₂]
    · rw [if_neg hplace, if_neg hplace]
  · rw [hres₁₂, hres₂₁, hres₂, Dict.get?_set, Dict.get?_set, hres₁]
    by_cases hi : i = oid
    · rw [if_pos hi, if_pos hi, if_neg (fun h => hne (hi.symm.trans h))]
    · rw [if_neg hi, if_neg hi]

/-- **Independent calls commute.** After any calls: two limit orders of
different ids that cross neither the book nor each other and do not rest at one
price of one side, two cancels, and a cancel and a limit order of another id
that does not cross the book – be it at the price of what is cancelled – leave
the same book in either order. -/
theorem independent_commute (ops : List (PyCall ι)) :
    ∃ b outs, run OrderBook.call .init ops = .ok (b, outs)
      ∧ (∀ oid oid' side side' px px' qty qty', oid ≠ oid' → 0 < qty → 0 < qty' →
          b.Clear side px → b.Clear side' px' → ¬ Crossing side px side' px' →
          ¬ (sideOf side = sideOf side' ∧ px = px') →
          ∃ b₁ b₂ b₁₂ b₂₁,
            b.limit oid side px qty = .ok (b₁, []) ∧ b₁.limit oid' side' px' qty' = .ok (b₁₂, [])
            ∧ b.limit oid' side' px' qty' = .ok (b₂, []) ∧ b₂.limit oid side px qty = .ok (b₂₁, [])
            ∧ b₁₂.Same b₂₁)
      ∧ (∀ x y, x ≠ y → ((b.cancel x).1.cancel y).1.Same ((b.cancel y).1.cancel x).1)
      ∧ ∀ x oid side px qty, oid ≠ x → b.Clear side px →
          ∃ b₁ b₂, (b.cancel x).1.limit oid side px qty = .ok (b₁, [])
            ∧ b.limit oid side px qty = .ok (b₂, []) ∧ b₁.Same (b₂.cancel x).1 := by
  obtain ⟨b, outs, hrun, hsound⟩ := run_call_sound sound_init ops
  have hb : b.HalvesWF := hsound.half
  refine ⟨b, outs, hrun, fun oid oid' side side' px px' qty qty' hne hqty hqty' hclear hclear'
    hcross hplace => ?_, fun x y hne => OrderBook.cancel_comm hb hne,
    fun x oid side px qty hne hclear => ?_⟩
  · have hafter := hclear'.rest hb (fun h => hcross h.symm) oid hqty
    have hafter' := hclear.rest hb hcross oid' hqty'
    refine ⟨b.rest side px oid qty, b.rest side' px' oid' qty',
      (b.rest side px oid qty).rest side' px' oid' qty',
      (b.rest side' px' oid' qty').rest side px oid qty, ?_, ?_, ?_, ?_,
      OrderBook.rest_comm hb hne hplace hqty hqty'⟩
    · rw [hclear.limit, if_pos hqty]
    · rw [hafter.limit, if_pos hqty']
    · rw [hclear'.limit, if_pos hqty']
    · rw [hafter'.limit, if_pos hqty]
  · refine ⟨_, _, (hclear.cancel hb x).limit oid qty, hclear.limit oid qty, ?_⟩
    by_cases hqty : 0 < qty
    · rw [if_pos hqty, if_pos hqty]
      exact OrderBook.cancel_rest hb hne side px hqty
    · rw [if_neg hqty, if_neg hqty]
      exact .refl _

/-! ## A cancel of what rests

The level is found by the index, the order is taken out, and the level goes if
it was the last one there. Everything else is as it was. -/

omit [DecidableEq ι] in
/-- The side that was replaced. -/
@[simp] theorem OrderBook.half_putHalf_self (b : OrderBook ι) (side : String) (h : Half ι) :
    (b.putHalf side h).half side = h := by
  unfold OrderBook.half OrderBook.putHalf
  split_ifs <;> rfl

omit [DecidableEq ι] in
/-- What was written last stays. -/
@[simp] theorem OrderBook.putHalf_putHalf (b : OrderBook ι) (side : String) (h h' : Half ι) :
    (b.putHalf side h).putHalf side h' = b.putHalf side h' := by
  unfold OrderBook.putHalf
  split_ifs <;> rfl

/-- **A level that is opened for one order and closed after it** leaves the
side as it was. -/
theorem Half.WF.open_close {h : Half ι} (hwf : h.WF) {px : ℤ} {oid : ι}
    (hoid : oid ∉ (h.openLevel px).2.keys) (qty : ℤ) :
    (((h.openLevel px).1.write px ((h.openLevel px).2.set oid qty)).write px
      (((h.openLevel px).2.set oid qty).erase oid)).removeLevelIfEmpty px = h := by
  rw [Dict.erase_set hoid, Half.write, Half.write, Half.removeLevelIfEmpty]
  dsimp only
  rw [Dict.set_set, Dict.get?_set, if_pos rfl, Option.getD_some]
  unfold Half.openLevel
  cases hlevel : h.levels.get? px with
  | some level =>
    dsimp only
    have hne : level.entries ≠ [] := hwf.nonempty _ (Dict.get?_eq_some_iff.mp hlevel)
    rw [if_neg (fun hempty => hne (List.isEmpty_iff.mp hempty)), Dict.set_of_get? hlevel]
  | none =>
    have hnew : px ∉ h.levels.keys := Dict.get?_eq_none_iff.mp hlevel
    have hprice : px ∉ h.prices := fun hp => hnew ((hwf.mem_prices px).mp hp)
    dsimp only
    rw [if_pos (show (Dict.empty : Dict ι ℤ).entries.isEmpty = true from rfl), Dict.set_set,
      Dict.erase_set hnew, insort, List.erase_orderedInsert_of_notMem hprice]

/-- **An order that comes to rest and is cancelled** leaves the very book that
was there before it. -/
theorem OrderBook.cancel_of_rest {b : OrderBook ι} (hb : b.HalvesWF) {oid : ι} {side : String}
    {px : ℤ} (hqueue : oid ∉ ((b.half side).queue px).map Prod.fst) (hindex : oid ∉ b.resting.keys)
    (qty : ℤ) : (b.rest side px oid qty).cancel oid = (b, true) := by
  have hentries := ((hb.half side).loose.openLevel px).2.2.2.2
  have hoid : oid ∉ ((b.half side).openLevel px).2.keys := by
    rw [Dict.keys, hentries]
    exact hqueue
  have hrest : b.rest side px oid qty
      = { b.putHalf side (((b.half side).openLevel px).1.write px
          (((b.half side).openLevel px).2.set oid qty)) with
        resting := b.resting.set oid (side, px) } := by
    rw [OrderBook.rest]
    dsimp only
    rw [Dict.get?_eq_none_iff.mpr hoid, Option.getD_none, zero_add]
  have hget : (((b.half side).openLevel px).1.write px
      (((b.half side).openLevel px).2.set oid qty)).levels.get? px
      = some (((b.half side).openLevel px).2.set oid qty) := by
    rw [Half.write, Dict.get?_set, if_pos rfl]
  have hhalf : ({ b.putHalf side (((b.half side).openLevel px).1.write px
      (((b.half side).openLevel px).2.set oid qty)) with
      resting := b.resting.set oid (side, px) } : OrderBook ι).half side
      = ((b.half side).openLevel px).1.write px (((b.half side).openLevel px).2.set oid qty) :=
    OrderBook.half_putHalf_self _ _ _
  have hmem : oid ∈ (((b.half side).openLevel px).2.set oid qty).keys :=
    Dict.mem_keys_set.mpr (.inl rfl)
  have hsome : (!(((b.half side).openLevel px).2.set oid qty).entries.isEmpty) = true := by
    rw [Bool.not_eq_true', List.isEmpty_eq_false_iff]
    exact fun hnil => absurd hmem (by rw [Dict.keys, hnil]; exact List.not_mem_nil)
  rw [hrest, OrderBook.cancel]
  dsimp only
  rw [Dict.get?_set, if_pos rfl]
  dsimp only
  rw [hhalf, hget]
  dsimp only
  rw [if_pos ⟨hsome, hmem⟩, (hb.half side).open_close hoid, Dict.erase_set hindex]
  refine Prod.ext ?_ rfl
  refine (OrderBook.putHalf_withResting (b.putHalf side _) b.resting side _).trans ?_
  rw [OrderBook.putHalf_putHalf, OrderBook.putHalf_half]

/-- A book that is the abstract one after calls that keep ids apart. -/
theorem exists_refines (ops : List (PyCall ι))
    (hops : Allowed OrderBook.call OrderBook.FreshId .init ops) :
    ∃ b outs, run OrderBook.call .init ops = .ok (b, outs) ∧ ∃ B, b.Refines B :=
  run_inv (fun b => ∃ B, b.Refines B) (fun b c ⟨B, hB⟩ hfresh => by
    obtain ⟨b', hb', hB'⟩ := hB.call (hB.fresh_iff.mp hfresh)
    exact ⟨b', _, hb', _, hB'⟩) ⟨.empty, refines_init⟩ hops

/-- **A cancel removes exactly its target.** After any calls in which no limit
order reuses an id that is resting: a cancel returns `True` exactly if an order
rests under its id; on each side the levels and the prices are then those of
the other orders, every one with its quantity and in its place, and the index
is theirs. Where no order rests under the id the book is untouched. And a limit
order of an unused id that crosses nothing, followed by its cancel, gives back
the very book. -/
theorem cancel_exact (ops : List (PyCall ι))
    (hops : Allowed OrderBook.call OrderBook.FreshId .init ops) :
    ∃ b outs, run OrderBook.call .init ops = .ok (b, outs)
      ∧ (∀ target, ((b.cancel target).2 = true ↔ b.Resting target)
        ∧ (∀ side, ((b.cancel target).1.half side).Shows
            (fun p => ((b.half side).queue p).filter (fun e => e.1 ≠ target)))
        ∧ (∀ i, (b.cancel target).1.resting.get? i
            = if i = target then none else b.resting.get? i)
        ∧ (¬ b.Resting target → b.cancel target = (b, false)))
      ∧ ∀ oid side px qty, ¬ b.Resting oid → 0 < qty → b.Clear side px →
        ∃ b', b.limit oid side px qty = .ok (b', []) ∧ b'.cancel oid = (b, true) := by
  obtain ⟨b, outs, hrun, B, hB⟩ := exists_refines ops hops
  have hladder : ∀ s, b.ladder s = B.ladder s := fun s => congrFun (congrArg Book.ladder hB.book) s
  -- the index has the ids that rest, and no others
  have hindex : ∀ i, b.resting.get? i = none ↔ ¬ b.Resting i := fun i => by
    rw [hB.resting_iff, hB.located.resting_iff, OrderBook.loc]
    cases b.resting.get? i with
    | none => simp
    | some loc => simp
  refine ⟨b, outs, hrun, fun target => ⟨?_, fun side => ?_,
    (OrderBook.cancel_cases hB.half target).2.1, fun hnot => OrderBook.cancel_of_none
      ((hindex target).mpr hnot)⟩, fun oid side px qty hfresh hqty hclear => ?_⟩
  · have hsnd : (b.cancel target).2 = (b.resting.get? target).isSome := by
      unfold OrderBook.cancel
      cases b.resting.get? target with
      | none => rfl
      | some loc =>
        dsimp only
        split
        · split_ifs <;> rfl
        · rfl
    rw [hsnd, ← not_iff_not, ← hindex, Bool.not_eq_true, Option.isSome_eq_false_iff,
      Option.isNone_iff_eq_none]
  · have hcancel := hB.cancel target
    have hqueue : ((b.cancel target).1.half side).queue
        = fun p => ((b.half side).queue p).filter (fun e => e.1 ≠ target) := by
      funext p
      rw [← hcancel.half.loose.queueAt side, ← hB.half.loose.queueAt side, hladder]
      show Ladder.queueAt ((b.cancel target).1.book.ladder (sideOf side)) p = _
      rw [hcancel.book]
      exact Ladder.queueAt_remove target _ p
    exact hqueue ▸ (hcancel.half.half side).shows
  · refine ⟨b.rest side px oid qty, ?_, OrderBook.cancel_of_rest hB.half ?_ ?_ qty⟩
    · rw [hclear.limit, if_pos hqty]
    · rw [← hB.half.loose.queueAt side]
      exact fun hmem => hfresh (hB.resting_iff.mpr
        ⟨sideOf side, Ladder.mem_ids_iff.mpr ⟨px, hladder _ ▸ hmem⟩⟩)
    · exact Dict.get?_eq_none_iff.mp ((hindex oid).mpr hfresh)

/-- Two sells at one price, the first of them partly filled: the second is
cancelled, and a buy below them comes and goes. -/
theorem cancel_exact_behind_partial_fill :
    ∃ b outs, run OrderBook.call (.init : OrderBook ℕ)
        [.limit 1 "sell" 10 5, .limit 2 "sell" 10 4, .market 3 "buy" 2] = .ok (b, outs)
      ∧ (b.cancel 2).2 = true ∧ ((b.cancel 2).1.half "sell").Shows
          (fun p => ((b.half "sell").queue p).filter (fun e => e.1 ≠ 2))
      ∧ ∃ b', b.limit 4 "buy" 9 1 = .ok (b', []) ∧ b'.cancel 4 = (b, true) := by
  obtain ⟨b, outs, hrun, hcancel, hlimit⟩ := cancel_exact (ι := ℕ)
    [.limit 1 "sell" 10 5, .limit 2 "sell" 10 4, .market 3 "buy" 2] (by decide)
  have hfacts : (run OrderBook.call (.init : OrderBook ℕ)
      [.limit 1 "sell" 10 5, .limit 2 "sell" 10 4, .market 3 "buy" 2]).toOption.map
        (fun r => (decide (r.1.Resting 2), decide (r.1.Resting 4), decide (r.1.Clear "buy" 9)))
      = some (true, false, true) := by decide
  rw [hrun] at hfacts
  obtain ⟨hrests, hfacts⟩ := Prod.mk.inj (Option.some_inj.mp hfacts)
  obtain ⟨hfresh, hclear⟩ := Prod.mk.inj hfacts
  obtain ⟨hreturns, hshows, -⟩ := hcancel 2
  exact ⟨b, outs, hrun, hreturns.mpr (of_decide_eq_true hrests), hshows "sell",
    hlimit 4 "buy" 9 1 (of_decide_eq_false hfresh) (by decide) (of_decide_eq_true hclear)⟩

end PyEngine
