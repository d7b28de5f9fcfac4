import HftArena.Engine.Python

/-!
# What the methods of the Python book do

One lemma for each method, each in terms of the ladders of the two sides: the
matching loop sweeps the other side (`match_eq_sweep`), `_rest` writes one
level (`rest_spec`), a cancel takes one order off one level (`cancel_spec`).
None of them assumes anything of the ids, and all of them rest on the invariant
of a side, `Half.WF`: its prices ascend and are the prices of its levels, and
no level is empty or holds nothing under an id.

`_rest` opens a level before it looks at the id, so an id that is no key leaves
an empty one: what does not need levels to hold something is proved of
`Half.Loose`, and the lemmas about sound sides add that no level is left empty.

The invariant is also what the loop of `_match` terminates by, and why its
subscriptions find their keys. A turn that goes round again has used a level
up, and its price is gone; the makers are those of the level's own snapshot,
and whoever comes before the current one was filled and deleted.
-/

open PriceTime

/-- The word the engine has for a side. -/
def PriceTime.Side.word : Side → String
  | .bid => "buy"
  | .ask => "sell"

namespace PyEngine

/-- The side a string means: whatever is not `"buy"` sells. -/
def sideOf (side : String) : Side := if side = "buy" then .bid else .ask

@[simp] theorem sideOf_word (s : Side) : sideOf s.word = s := by
  cases s <;> rfl

/-- The makers are on the other side. -/
theorem sideOf_makerSide (side : String) : sideOf (makerSide side) = (sideOf side).opp := by
  unfold makerSide sideOf
  by_cases h : side = "buy" <;> simp [h, Side.opp]

/-- `crosses` is a limit on the other side's prices. -/
theorem crosses_eq_reaches (side : String) (limitPx : Option ℤ) :
    crosses side limitPx = (sideOf side).opp.reaches limitPx := by
  funext best
  unfold crosses sideOf
  cases limitPx with
  | none => rfl
  | some px => by_cases h : side = "buy" <;> simp [h, Side.opp, Side.reaches]

/-- `best_of` is the first price of the other side, best first. -/
theorem bestOf_eq_head? (side : String) (prices : List ℤ) :
    bestOf side prices = (Ladder.orient (sideOf side).opp prices).head? := by
  unfold bestOf sideOf
  by_cases h : side = "buy"
  · simp [h, Side.opp, Ladder.orient]
  · simp [h, Side.opp, Ladder.orient, List.head?_reverse]

/-! ## One side

A side has its prices sorted and a level for each, so its ladder can be read
off. The lemmas say what becomes of the ladder when a level is written. -/

variable {ι : Type}

/-- **What holds of a side whatever the ids**: its prices ascend strictly and
are the keys of its levels, and every quantity is at least one. -/
structure Half.Loose (h : Half ι) : Prop where
  sorted : h.prices.Pairwise (· < ·)
  mem_prices : ∀ p, p ∈ h.prices ↔ p ∈ h.levels.keys
  positive : ∀ e ∈ h.levels.entries, Positive e.2.entries

/-- **The invariant of a side**: its prices ascend strictly and are the keys of
its levels, no level is empty and every quantity is at least one. -/
structure Half.WF (h : Half ι) : Prop where
  sorted : h.prices.Pairwise (· < ·)
  mem_prices : ∀ p, p ∈ h.prices ↔ p ∈ h.levels.keys
  nonempty : ∀ e ∈ h.levels.entries, e.2.entries ≠ []
  positive : ∀ e ∈ h.levels.entries, Positive e.2.entries

theorem Half.WF.loose {h : Half ι} (hwf : h.WF) : h.Loose :=
  ⟨hwf.sorted, hwf.mem_prices, hwf.positive⟩

/-- The queue of a price. -/
def Half.queue (h : Half ι) (p : ℤ) : List (ι × ℤ) :=
  ((h.levels.get? p).getD .empty).entries

/-- The ladder of a side. -/
def Half.ladder (s : Side) (h : Half ι) : Ladder ι := Ladder.ofPrices s h.prices h.queue

/-- A price that is listed has a level, and only such a price has. -/
theorem Half.Loose.get? {h : Half ι} (hl : h.Loose) {p : ℤ} :
    p ∈ h.prices ↔ ∃ level, h.levels.get? p = some level := by
  rw [hl.mem_prices, Dict.mem_keys_iff]

/-- The queue of a price that has a level. -/
theorem Half.queue_of_get? {h : Half ι} {p : ℤ} {level : Dict ι ℤ}
    (hlevel : h.levels.get? p = some level) : h.queue p = level.entries := by
  rw [Half.queue, hlevel, Option.getD_some]

/-- A price that is not listed has no queue. -/
theorem Half.Loose.queue_of_notMem {h : Half ι} (hl : h.Loose) {p : ℤ} (hp : p ∉ h.prices) :
    h.queue p = [] := by
  rw [hl.mem_prices, ← Dict.get?_eq_none_iff] at hp
  rw [Half.queue, hp]
  rfl

/-- Every quantity is at least one. -/
theorem Half.Loose.positive_queue {h : Half ι} (hl : h.Loose) (p : ℤ) : Positive (h.queue p) := by
  by_cases hp : p ∈ h.prices
  · obtain ⟨level, hlevel⟩ := hl.get?.mp hp
    rw [Half.queue_of_get? hlevel]
    exact hl.positive _ (Dict.get?_eq_some_iff.mp hlevel)
  · rw [hl.queue_of_notMem hp]
    exact fun e he => by simp at he

/-- The ladder has the queues of the side. -/
theorem Half.Loose.queueAt {h : Half ι} (hl : h.Loose) (s : Side) (p : ℤ) :
    Ladder.queueAt (h.ladder s) p = h.queue p := by
  rw [Half.ladder, Ladder.queueAt_ofPrices s hl.sorted]
  split_ifs with hp
  · rfl
  · exact (hl.queue_of_notMem hp).symm

theorem Half.Loose.positive_ladder {h : Half ι} (hl : h.Loose) (s : Side) :
    ∀ l ∈ h.ladder s, Positive l.2 := by
  intro l hmem
  obtain ⟨p, -, rfl⟩ := List.mem_map.mp hmem
  exact hl.positive_queue p

/-- Such a side is sound if no level is empty. -/
theorem Half.Loose.wf {h : Half ι} (hl : h.Loose) (hne : ∀ p ∈ h.prices, h.queue p ≠ []) :
    h.WF := by
  refine ⟨hl.sorted, hl.mem_prices, fun ⟨p, level⟩ he => ?_, hl.positive⟩
  have hlevel := Dict.get?_eq_some_iff.mpr he
  rw [← Half.queue_of_get? hlevel]
  exact hne p (hl.get?.mpr ⟨level, hlevel⟩)

theorem Half.WF.queue_ne_nil {h : Half ι} (hwf : h.WF) {p : ℤ} (hp : p ∈ h.prices) :
    h.queue p ≠ [] := by
  obtain ⟨level, hlevel⟩ := hwf.loose.get?.mp hp
  rw [Half.queue_of_get? hlevel]
  exact hwf.nonempty _ (Dict.get?_eq_some_iff.mp hlevel)

/-- A sound side is levels in order. -/
theorem Half.WF.levels {h : Half ι} (hwf : h.WF) : Ladder.Levels h.prices h.queue := by
  refine ⟨hwf.sorted, fun p => ⟨hwf.queue_ne_nil, fun hne => ?_⟩, hwf.loose.positive_queue⟩
  by_contra hp
  exact hne (hwf.loose.queue_of_notMem hp)

/-- **The ladder of a side is well formed.** -/
theorem Half.WF.ladder {h : Half ι} (hwf : h.WF) (s : Side) : Ladder.WF s (h.ladder s) :=
  hwf.levels.wf s

/-- The ladder has the queues of the side. -/
theorem Half.WF.queueAt {h : Half ι} (hwf : h.WF) (s : Side) (p : ℤ) :
    Ladder.queueAt (h.ladder s) p = h.queue p :=
  hwf.loose.queueAt s p

theorem Half.wf_empty : (⟨.empty, []⟩ : Half ι).WF :=
  ⟨List.Pairwise.nil, fun p => by simp, by simp, by simp⟩

/-- A side of which one price's level was replaced. -/
theorem Half.Loose.replace {h h' : Half ι} (hl : h.Loose) (price : ℤ)
    (hsorted : h'.prices.Pairwise (· < ·)) (hmem : ∀ p, p ∈ h'.prices ↔ p ∈ h'.levels.keys)
    (hother : ∀ p, p ≠ price → h'.levels.get? p = h.levels.get? p)
    (hself : ∀ level, h'.levels.get? price = some level → Positive level.entries) : h'.Loose := by
  refine ⟨hsorted, hmem, ?_⟩
  rintro ⟨p, level⟩ he
  have hlevel := Dict.get?_eq_some_iff.mpr he
  by_cases hp : p = price
  · subst hp
    exact hself level hlevel
  · rw [hother p hp, Dict.get?_eq_some_iff] at hlevel
    exact hl.positive _ hlevel

/-- `insort` adds the price and no other. -/
theorem mem_insort {prices : List ℤ} {price p : ℤ} :
    p ∈ insort prices price ↔ p = price ∨ p ∈ prices := by
  rw [insort, List.mem_orderedInsert]

/-- `insort` keeps the prices ascending if the price is a new one. -/
theorem sorted_insort {prices : List ℤ} {price : ℤ} (h : prices.Pairwise (· < ·))
    (hnot : price ∉ prices) : (insort prices price).Pairwise (· < ·) := by
  induction prices with
  | nil => exact List.pairwise_singleton _ _
  | cons p prices ih =>
    rw [List.pairwise_cons] at h
    rw [List.mem_cons, not_or] at hnot
    rw [insort, List.orderedInsert_cons]
    split_ifs with hlt
    · refine List.pairwise_cons.mpr ⟨fun p' hp' => ?_, List.pairwise_cons.mpr h⟩
      rcases List.mem_cons.mp hp' with rfl | hp'
      · exact hlt
      · exact lt_trans hlt (h.1 p' hp')
    · refine List.pairwise_cons.mpr ⟨fun p' hp' => ?_, ih h.2 hnot.2⟩
      rcases mem_insort.mp hp' with rfl | hp'
      · exact lt_of_le_of_ne (not_lt.mp hlt) (Ne.symm hnot.1)
      · exact h.1 p' hp'

/-- **Writing a level and dropping it if it is empty**: the other levels
stay. -/
theorem Half.Loose.write {h : Half ι} (hl : h.Loose) {price : ℤ} (hprice : price ∈ h.prices)
    {level : Dict ι ℤ} (hpos : Positive level.entries) :
    ((h.write price level).removeLevelIfEmpty price).Loose
      ∧ (∀ p, ((h.write price level).removeLevelIfEmpty price).queue p
          = if p = price then level.entries else h.queue p)
      ∧ ((h.write price level).removeLevelIfEmpty price).prices
          = if level.entries = [] then h.prices.erase price else h.prices := by
  have hget : ∀ p, (h.write price level).levels.get? p
      = if p = price then some level else h.levels.get? p := Dict.get?_set _ _ _
  have hkeys : ∀ p, p ∈ h.prices ↔ p ∈ (h.write price level).levels.keys := by
    intro p
    show _ ↔ p ∈ (h.levels.set price level).keys
    rw [Dict.mem_keys_set, hl.mem_prices]
    exact ⟨Or.inr, fun hp => hp.elim (fun hp => hp ▸ (hl.mem_prices _).mp hprice) id⟩
  unfold Half.removeLevelIfEmpty
  rw [hget, if_pos rfl, Option.getD_some]
  by_cases hempty : level.entries = []
  · -- the level goes, and its price is the one `list.remove` takes out
    rw [if_pos (List.isEmpty_iff.mpr hempty), if_pos hempty]
    have hmem : ∀ p, p ∈ h.prices.erase price ↔ p ≠ price ∧ p ∈ h.prices := fun p =>
      List.Nodup.mem_erase_iff (hl.sorted.imp ne_of_lt)
    refine ⟨hl.replace price (hl.sorted.sublist List.erase_sublist) (fun p => ?_)
      (fun p hp => ?_) (fun level' hlevel' => ?_), fun p => ?_, rfl⟩
    · show p ∈ h.prices.erase price ↔ _
      rw [Dict.mem_keys_erase, hmem, hkeys]
    · rw [Dict.get?_erase, if_neg hp, hget, if_neg hp]
    · rw [Dict.get?_erase, if_pos rfl] at hlevel'
      exact absurd hlevel' (by simp)
    · rw [Half.queue, Dict.get?_erase, hget]
      split_ifs
      · exact hempty.symm
      · rfl
  · rw [if_neg (fun h => hempty (List.isEmpty_iff.mp h)), if_neg hempty]
    refine ⟨hl.replace price hl.sorted hkeys (fun p hp => ?_) (fun level' hlevel' => ?_),
      fun p => ?_, rfl⟩
    · rw [hget, if_neg hp]
    · rw [hget, if_pos rfl, Option.some_inj] at hlevel'
      subst hlevel'
      exact hpos
    · rw [Half.queue, hget]
      split_ifs
      · rfl
      · rfl

/-- On a sound side no empty level stays. -/
theorem Half.WF.write {h : Half ι} (hwf : h.WF) {price : ℤ} (hprice : price ∈ h.prices)
    {level : Dict ι ℤ} (hpos : Positive level.entries) :
    ((h.write price level).removeLevelIfEmpty price).WF := by
  obtain ⟨hl, hqueue, hprices⟩ := hwf.loose.write hprice hpos
  refine hl.wf (fun p hp => ?_)
  rw [hprices] at hp
  rw [hqueue]
  by_cases hempty : level.entries = []
  · rw [if_pos hempty] at hp
    have hne : p ≠ price := fun heq =>
      List.Nodup.not_mem_erase (hwf.sorted.imp ne_of_lt) (heq ▸ hp)
    rw [if_neg hne]
    exact hwf.queue_ne_nil (List.mem_of_mem_erase hp)
  · rw [if_neg hempty] at hp
    split_ifs
    · exact hempty
    · exact hwf.queue_ne_nil hp

/-- **Serving the best level**: its price goes with it if it is used up. -/
theorem Half.Loose.ladder_write {h : Half ι} (hl : h.Loose) {s : Side} {p : ℤ}
    {q : List (ι × ℤ)} {L : Ladder ι} (hview : h.ladder s = (p, q) :: L) {level : Dict ι ℤ}
    (hpos : Positive level.entries) :
    ((h.write p level).removeLevelIfEmpty p).ladder s = Ladder.turn p level.entries L := by
  obtain ⟨p', ps, horient, hhead, rfl⟩ := List.map_eq_cons_iff.mp hview
  obtain ⟨rfl, -⟩ := Prod.mk.inj hhead
  have hnodup : (Ladder.orient s h.prices).Nodup :=
    Ladder.nodup_orient (hl.sorted.imp ne_of_lt)
  rw [horient, List.nodup_cons] at hnodup
  have hprice : p' ∈ h.prices := Ladder.mem_orient.mp (horient ▸ List.mem_cons_self)
  obtain ⟨-, hqueue, hprices⟩ := hl.write hprice hpos
  have hrest : ps.map (fun p => (p, ((h.write p' level).removeLevelIfEmpty p').queue p))
      = ps.map (fun p => (p, h.queue p)) := by
    refine List.map_congr_left (fun p hp => ?_)
    rw [hqueue, if_neg (fun heq : p = p' => hnodup.1 (heq ▸ hp))]
  unfold Half.ladder Ladder.ofPrices Ladder.turn
  rw [hprices]
  split_ifs with hempty
  · rw [Ladder.orient_erase (hl.sorted.imp ne_of_lt) horient, hrest]
  · rw [horient, List.map_cons, hrest, hqueue, if_pos rfl]

/-- **Opening a level**: its price is there now, and nothing else changed. -/
theorem Half.Loose.openLevel {h : Half ι} (hl : h.Loose) (price : ℤ) :
    (h.openLevel price).1.prices.Pairwise (· < ·)
      ∧ (∀ p, p ∈ (h.openLevel price).1.prices ↔ p = price ∨ p ∈ h.prices)
      ∧ (∀ p, p ∈ (h.openLevel price).1.prices ↔ p ∈ (h.openLevel price).1.levels.keys)
      ∧ (∀ p, p ≠ price → (h.openLevel price).1.levels.get? p = h.levels.get? p)
      ∧ (h.openLevel price).2.entries = h.queue price := by
  unfold Half.openLevel Half.queue
  cases hget : h.levels.get? price with
  | some level =>
    have hprice : price ∈ h.prices := hl.get?.mpr ⟨level, hget⟩
    exact ⟨hl.sorted, fun p => ⟨Or.inr, fun hp => hp.elim (fun hp => hp ▸ hprice) id⟩,
      hl.mem_prices, fun _ _ => rfl, rfl⟩
  | none =>
    have hnot : price ∉ h.prices := by
      rw [hl.mem_prices]
      exact Dict.get?_eq_none_iff.mp hget
    refine ⟨sorted_insort hl.sorted hnot, fun p => mem_insort, fun p => ?_, fun p hp => ?_, rfl⟩
    · show p ∈ insort h.prices price ↔ _
      rw [mem_insort, Dict.mem_keys_set, hl.mem_prices]
    · rw [Dict.get?_set, if_neg hp]

/-- A level that is opened may stay empty. -/
theorem Half.Loose.opened {h : Half ι} (hl : h.Loose) (price : ℤ) :
    (h.openLevel price).1.Loose ∧ ∀ p, (h.openLevel price).1.queue p = h.queue p := by
  obtain ⟨hsorted, -, hmem, hother, -⟩ := hl.openLevel price
  unfold Half.openLevel at hsorted hmem hother ⊢
  cases hget : h.levels.get? price with
  | some level => exact ⟨hl, fun _ => rfl⟩
  | none =>
    rw [hget] at hsorted hmem hother
    refine ⟨hl.replace price hsorted hmem hother (fun level hlevel => ?_), fun p => ?_⟩
    · rw [Dict.get?_set, if_pos rfl, Option.some_inj] at hlevel
      subst hlevel
      exact fun e he => by simp at he
    · unfold Half.queue
      rw [Dict.get?_set]
      split_ifs with hp
      · rw [hp, hget]
        rfl
      · rfl

/-! ## The two sides

A side is taken out of the book and put back. What was done to it is done to
its ladder, and the other ladder is as it was. -/

/-- The ladder of a side of the book. -/
def OrderBook.ladder (b : OrderBook ι) (s : Side) : Ladder ι := (b.half s.word).ladder s

/-- A method looks at the side that a string means. -/
theorem OrderBook.half_eq (b : OrderBook ι) (side : String) :
    b.half side = b.half (sideOf side).word := by
  unfold OrderBook.half sideOf
  by_cases h : side = "buy" <;> simp [h, Side.word]

/-- One side is replaced, and the other is not. -/
theorem OrderBook.half_putHalf (b : OrderBook ι) (side : String) (h : Half ι) (s : Side) :
    (b.putHalf side h).half s.word = if s = sideOf side then h else b.half s.word := by
  unfold OrderBook.half OrderBook.putHalf sideOf
  cases s <;> by_cases hs : side = "buy" <;> simp [hs, Side.word]

@[simp] theorem OrderBook.resting_putHalf (b : OrderBook ι) (side : String) (h : Half ι) :
    (b.putHalf side h).resting = b.resting := by
  unfold OrderBook.putHalf
  split_ifs <;> rfl

/-- A side that is replaced by itself. -/
theorem OrderBook.putHalf_half (b : OrderBook ι) (side : String) :
    b.putHalf side (b.half side) = b := by
  unfold OrderBook.putHalf OrderBook.half
  split_ifs <;> rfl

/-- The ladder of one side is replaced, and that of the other is not. -/
theorem OrderBook.ladder_putHalf (b : OrderBook ι) (side : String) (h : Half ι) (s : Side) :
    (b.putHalf side h).ladder s
      = if s = sideOf side then h.ladder (sideOf side) else b.ladder s := by
  unfold OrderBook.ladder
  rw [OrderBook.half_putHalf]
  split_ifs with hs
  · rw [hs]
  · rfl

@[simp] theorem OrderBook.ladder_withResting (b : OrderBook ι) (r : Dict ι (String × ℤ)) (s : Side) :
    ({ b with resting := r } : OrderBook ι).ladder s = b.ladder s := rfl

/-- **The book read as the abstract one.** -/
def OrderBook.book (b : OrderBook ι) : Book ι := ⟨b.ladder⟩

/-- Both sides are in order, whatever their levels hold. -/
def OrderBook.HalvesLoose (b : OrderBook ι) : Prop := ∀ s : Side, (b.half s.word).Loose

theorem OrderBook.HalvesLoose.half {b : OrderBook ι} (h : b.HalvesLoose) (side : String) :
    (b.half side).Loose := by
  rw [OrderBook.half_eq]
  exact h _

theorem OrderBook.HalvesLoose.putHalf {b : OrderBook ι} (hb : b.HalvesLoose) {h : Half ι}
    (hl : h.Loose) (side : String) : (b.putHalf side h).HalvesLoose := by
  intro s
  rw [OrderBook.half_putHalf]
  split_ifs
  · exact hl
  · exact hb s

/-- Both sides are sound. Nothing is said of the index, nor of bids and asks
together. -/
def OrderBook.HalvesWF (b : OrderBook ι) : Prop := ∀ s : Side, (b.half s.word).WF

theorem OrderBook.HalvesWF.loose {b : OrderBook ι} (h : b.HalvesWF) : b.HalvesLoose := fun s =>
  (h s).loose

theorem OrderBook.HalvesWF.half {b : OrderBook ι} (h : b.HalvesWF) (side : String) :
    (b.half side).WF := by
  rw [OrderBook.half_eq]
  exact h _

theorem OrderBook.HalvesWF.putHalf {b : OrderBook ι} (hb : b.HalvesWF) {h : Half ι} (hwf : h.WF)
    (side : String) : (b.putHalf side h).HalvesWF := by
  intro s
  rw [OrderBook.half_putHalf]
  split_ifs
  · exact hwf
  · exact hb s

/-- Its ladders are well formed. -/
theorem OrderBook.HalvesWF.ladder {b : OrderBook ι} (hb : b.HalvesWF) (s : Side) :
    Ladder.WF s (b.ladder s) :=
  (hb s).ladder s

/-- Books are compared queue by queue. -/
theorem OrderBook.HalvesWF.book_eq {b : OrderBook ι} (h : b.HalvesWF) {B : Book ι} (hB : B.WF)
    (hqueue : ∀ s p, Ladder.queueAt (b.ladder s) p = Ladder.queueAt (B.ladder s) p) :
    b.book = B :=
  Book.ext (fun s => Ladder.WF.ext (h.ladder s) (hB.side s) (hqueue s))

variable [DecidableEq ι]

/-! ## Matching

The inner loop serves a level and the outer one sweeps the side, by the rules
for such loops; the dictionary of ids loses those of the makers that are gone. -/

/-- **The loop over the makers serves the level.** The snapshot of the keys is
walked in step with the level: whatever precedes the current maker was fully
filled and is gone, so the current maker heads the level. The subscription
finds it therefore, and what is written to it stays where it stands. -/
theorem matchMakers_eq_serve (best : ℤ) {q : List (ι × ℤ)} (hpos : Positive q)
    (st : LevelState ι) (hlevel : st.level.entries = q) (hqty : 0 < st.qty) :
    ∃ r, matchMakers best (q.map Prod.fst) st = .ok r
      ∧ r.level.entries = (serve st.qty q).left
      ∧ r.resting = st.resting.eraseAll (serve st.qty q).gone
      ∧ r.fills = st.fills ++ Ladder.fillsAt best (serve st.qty q).trades
      ∧ r.qty = (serve st.qty q).unfilled := by
  induction q generalizing st with
  | nil => exact ⟨st, rfl, hlevel, rfl, (List.append_nil _).symm, rfl⟩
  | cons e q ih =>
    obtain ⟨makerId, makerQty⟩ := e
    have hindex : index st.level makerId = .ok makerQty := by
      rw [index, Dict.get?_eq_some_iff.mpr (hlevel ▸ List.mem_cons_self)]
    have hmaker : 0 < makerQty := hpos (makerId, makerQty) List.mem_cons_self
    rw [List.map_cons, matchMakers, hindex]
    rcases le_or_gt makerQty st.qty with hle | hlt
    · -- the maker is used up
      have htrade : (if st.qty < makerQty then st.qty else makerQty) = makerQty :=
        if_neg (not_lt.mpr hle)
      have hentries := Dict.entries_erase_head hlevel
      rw [serve_cons_of_le hqty hle]
      simp only [bind, Except.bind, htrade, sub_self, if_true]
      by_cases hdone : st.qty - makerQty = 0
      · rw [if_pos hdone, serve_of_nonpos hdone.le]
        exact ⟨_, rfl, hentries, rfl, rfl, rfl⟩
      · rw [if_neg hdone]
        obtain ⟨r, hr, hleft, hresting, hfills, hunfilled⟩ :=
          ih (fun e he => hpos e (List.mem_cons_of_mem _ he))
            ⟨st.level.erase makerId, st.resting.erase makerId,
              st.fills ++ [⟨best, makerQty, makerId⟩], st.qty - makerQty⟩
            hentries (lt_of_le_of_ne (Int.sub_nonneg_of_le hle) (Ne.symm hdone))
        refine ⟨r, hr, hleft, hresting, ?_, hunfilled⟩
        rw [hfills, List.append_assoc]
        rfl
    · -- the maker keeps its place with what is left of it, and the taker is done
      have htrade : (if st.qty < makerQty then st.qty else makerQty) = st.qty := if_pos hlt
      have hrest : makerQty - st.qty ≠ 0 := ne_of_gt (Int.sub_pos_of_lt hlt)
      rw [serve_cons_of_lt hqty hlt]
      simp only [bind, Except.bind, htrade, sub_self, if_true, if_neg hrest]
      exact ⟨_, rfl, Dict.entries_set_head hlevel, rfl, rfl, rfl⟩

/-- A state of the matching loop that follows a sweep: the side is in order,
and its ladder, the fills, the quantity and the index are those of the
sweep. -/
structure MatchState.Follows (s : Side) (resting : Dict ι (String × ℤ)) (st : MatchState ι)
    (t : Ladder.Swept ι) : Prop where
  loose : st.half.Loose
  left : st.half.ladder s = t.left
  fills : st.fills = t.fills
  qty : st.qty = t.unfilled
  resting : st.resting = resting.eraseAll t.gone

/-- A state of the matching loop that shows a sweep: the side is sound, and its
ladder, the fills, the quantity and the index are those of the sweep. -/
structure MatchState.Shows (s : Side) (resting : Dict ι (String × ℤ)) (st : MatchState ι)
    (t : Ladder.Swept ι) : Prop where
  wf : st.half.WF
  left : st.half.ladder s = t.left
  fills : st.fills = t.fills
  qty : st.qty = t.unfilled
  resting : st.resting = resting.eraseAll t.gone

/-- What shows a sweep follows it. -/
theorem MatchState.Shows.follows {s : Side} {resting : Dict ι (String × ℤ)} {st : MatchState ι}
    {t : Ladder.Swept ι} (h : st.Shows s resting t) : st.Follows s resting t :=
  ⟨h.wf.loose, h.left, h.fills, h.qty, h.resting⟩

/-- The best price is the first of the ladder. -/
theorem MatchState.Follows.bestOf_eq {side : String} {resting : Dict ι (String × ℤ)}
    {st : MatchState ι} {t : Ladder.Swept ι} (h : st.Follows (sideOf side).opp resting t) :
    bestOf side st.half.prices = t.left.head?.map Prod.fst := by
  rw [bestOf_eq_head?, ← h.left, Half.ladder, Ladder.ofPrices, List.head?_map, Option.map_map]
  exact (congrFun Option.map_id _).symm

/-- Where the sweep stops, the loop stops. -/
theorem matchTurn_of_stop {side : String} {limitPx : Option ℤ}
    {resting : Dict ι (String × ℤ)} {st : MatchState ι} {t : Ladder.Swept ι}
    (h : st.Follows (sideOf side).opp resting t)
    (hstop : t.unfilled ≤ 0
      ∨ ∀ l ∈ t.left.head?, (sideOf side).opp.reaches limitPx l.1 = false) :
    matchTurn (crosses side limitPx) (bestOf side) st = .ok (.done st) := by
  unfold matchTurn
  rw [h.qty, h.bestOf_eq, crosses_eq_reaches]
  rcases hstop with hqty | hhead
  · rw [if_neg (not_lt.mpr hqty)]
  · split_ifs
    · cases ht : t.left.head? with
      | none => rfl
      | some l =>
        dsimp only [Option.map_some]
        rw [if_neg (by simpa using hhead l ht)]
    · rfl

/-- Where the sweep serves a level, the loop does: the lookup of the level
succeeds, and the level is written, or goes if it is used up. -/
theorem matchTurn_of_level {side : String} {limitPx : Option ℤ}
    {resting : Dict ι (String × ℤ)} {st : MatchState ι} {t : Ladder.Swept ι} {p : ℤ}
    {q : List (ι × ℤ)} {L : Ladder ι} (h : st.Follows (sideOf side).opp resting t)
    (hL : t.left = (p, q) :: L) (hqty : 0 < t.unfilled)
    (hreach : (sideOf side).opp.reaches limitPx p = true) :
    ∃ level level' st', st.half.levels.get? p = some level
      ∧ matchTurn (crosses side limitPx) (bestOf side) st = .ok (.again st')
      ∧ st'.half = (st.half.write p level').removeLevelIfEmpty p
      ∧ Positive level'.entries ∧ (0 < st'.qty → level'.entries = [])
      ∧ st'.Follows (sideOf side).opp resting (t.serveLevel p q L) := by
  have hview : st.half.ladder (sideOf side).opp = (p, q) :: L := h.left.trans hL
  have hbest : bestOf side st.half.prices = some p := by
    rw [h.bestOf_eq, hL]
    rfl
  have hp : p ∈ st.half.prices := by
    rw [← Ladder.mem_prices_ofPrices (s := (sideOf side).opp) (f := st.half.queue)]
    show p ∈ (st.half.ladder _).prices
    rw [hview]
    exact List.mem_cons_self
  obtain ⟨level, hlevel⟩ := h.loose.get?.mp hp
  have hq : level.entries = q := by
    rw [← Half.queue_of_get? hlevel]
    obtain ⟨p', -, heq⟩ := List.mem_map.mp (hview ▸ List.mem_cons_self :
      (p, q) ∈ st.half.ladder (sideOf side).opp)
    obtain ⟨rfl, rfl⟩ := Prod.mk.inj heq
    rfl
  have hposq : Positive q :=
    h.loose.positive_ladder (sideOf side).opp (p, q) (hview ▸ List.mem_cons_self)
  obtain ⟨r, hr, hleft, hresting, hfills, hunfilled⟩ :=
    matchMakers_eq_serve p hposq ⟨level, st.resting, st.fills, st.qty⟩ hq
      (h.qty ▸ hqty)
  have hposleft : Positive r.level.entries := hleft ▸ positive_left hposq
  have hturn : matchTurn (crosses side limitPx) (bestOf side) st
      = .ok (.again ⟨(st.half.write p r.level).removeLevelIfEmpty p, r.resting, r.fills,
          r.qty⟩) := by
    unfold matchTurn
    rw [if_pos (h.qty ▸ hqty), hbest]
    dsimp only
    rw [if_pos (by rw [crosses_eq_reaches]; exact hreach), index, hlevel]
    simp only [bind, Except.bind]
    rw [show level.keys = q.map Prod.fst from congrArg (List.map Prod.fst) hq, hr]
  rw [h.qty] at hleft hresting hfills hunfilled
  refine ⟨level, r.level, _, hlevel, hturn, rfl, hposleft, fun hrest => ?_,
    ⟨(h.loose.write hp hposleft).1, ?_, ?_, hunfilled, ?_⟩⟩
  · -- a level with something left in it leaves nothing wanted
    rw [hleft]
    exact left_eq_nil_of_unfilled_pos (hunfilled ▸ hrest)
  · have hturned : r.level.entries = (serve t.unfilled q).left := hleft
    show _ = Ladder.turn p (serve t.unfilled q).left L
    rw [← hturned]
    exact h.loose.ladder_write hview hposleft
  · rw [hfills, h.fills]
    rfl
  · rw [hresting, h.resting, ← Dict.eraseAll_append]
    rfl

/-- On a sound side no empty level is left behind, and a price goes for each
level that is used up. -/
theorem MatchState.Shows.turn_of_level {side : String} {limitPx : Option ℤ}
    {resting : Dict ι (String × ℤ)} {st : MatchState ι} {t : Ladder.Swept ι} {p : ℤ}
    {q : List (ι × ℤ)} {L : Ladder ι} (h : st.Shows (sideOf side).opp resting t)
    (hL : t.left = (p, q) :: L) (hqty : 0 < t.unfilled)
    (hreach : (sideOf side).opp.reaches limitPx p = true) :
    ∃ level st', st.half.levels.get? p = some level
      ∧ matchTurn (crosses side limitPx) (bestOf side) st = .ok (.again st')
      ∧ (0 < st'.qty → st'.half.prices = st.half.prices.erase p)
      ∧ st'.Shows (sideOf side).opp resting (t.serveLevel p q L) := by
  obtain ⟨level, level', st', hlevel, hturn, hhalf, hpos, hempty, hst'⟩ :=
    matchTurn_of_level h.follows hL hqty hreach
  have hp : p ∈ st.half.prices := h.wf.loose.get?.mpr ⟨level, hlevel⟩
  refine ⟨level, st', hlevel, hturn, fun hrest => ?_, ?_, hst'.left, hst'.fills, hst'.qty,
    hst'.resting⟩
  · rw [hhalf, (h.wf.loose.write hp hpos).2.2, if_pos (hempty hrest)]
  · rw [hhalf]
    exact h.wf.write hp hpos

/-- **`_match` sweeps the other side**, whatever the ids. It returns – no
subscription fails and the loop ends – with the fills and the unfilled rest of
the sweep; the other side is what the sweep leaves, and the makers that are
gone are out of the index. -/
theorem OrderBook.HalvesLoose.match {b : OrderBook ι} (hb : b.HalvesLoose) (side : String)
    (limitPx : Option ℤ) (qty : ℤ) :
    ∃ b', b.match side limitPx qty
        = .ok ((b.book.sweep (sideOf side) limitPx qty).fills,
            (b.book.sweep (sideOf side) limitPx qty).unfilled, b')
      ∧ b'.HalvesLoose
      ∧ b'.book = b.book.put (sideOf side).opp (b.book.sweep (sideOf side) limitPx qty).left
      ∧ b'.resting = b.resting.eraseAll (b.book.sweep (sideOf side) limitPx qty).gone
      ∧ b'.half (sideOf side).word = b.half (sideOf side).word := by
  have hhalf := hb.half (makerSide side)
  have hladder : (b.half (makerSide side)).ladder (sideOf side).opp
      = b.ladder (sideOf side).opp := by
    rw [OrderBook.half_eq, sideOf_makerSide]
    rfl
  obtain ⟨st, hloop, hst⟩ := Ladder.loop_sweep PyError.diverges
    (matchTurn (crosses side limitPx) (bestOf side))
    ((sideOf side).opp.reaches limitPx)
    (MatchState.Follows (sideOf side).opp b.resting) (fun st t h hstop => matchTurn_of_stop h hstop)
    (fun st t p q L h hL hqty hreach =>
      let ⟨_, _, st', _, hturn, _, _, _, hst'⟩ := matchTurn_of_level h hL hqty hreach
      ⟨st', hturn, hst'⟩)
    (n := (b.half (makerSide side)).prices.length + 1)
    (s := ⟨b.half (makerSide side), b.resting, [], qty⟩)
    (t := ⟨[], b.ladder (sideOf side).opp, qty, []⟩)
    ⟨hhalf, hladder, rfl, rfl, rfl⟩
    (by
      rw [← hladder, Half.ladder, Ladder.length_ofPrices]
      omega)
  have hsweep : Ladder.Swept.resume ((sideOf side).opp.reaches limitPx)
      ⟨[], b.ladder (sideOf side).opp, qty, []⟩ = b.book.sweep (sideOf side) limitPx qty := rfl
  rw [hsweep] at hst
  refine ⟨{ b.putHalf (makerSide side) st.half with resting := st.resting }, ?_,
    hb.putHalf hst.loose _, ?_, hst.resting, ?_⟩
  · unfold OrderBook.match
    simp only [hloop, bind, Except.bind]
    rw [hst.fills, hst.qty]
  · refine Book.ext (fun s => ?_)
    show (b.putHalf (makerSide side) st.half).ladder s = _
    rw [OrderBook.ladder_putHalf, sideOf_makerSide]
    split_ifs with hs
    · rw [hs, Book.ladder_put_self, hst.left]
    · rw [Book.ladder_put_of_ne hs]
      rfl
  · show (b.putHalf (makerSide side) st.half).half (sideOf side).word = _
    rw [OrderBook.half_putHalf, sideOf_makerSide, if_neg (Side.ne_opp _)]

/-- **With nothing wanted, or the best price beyond the limit**, a match
changes nothing. -/
theorem OrderBook.match_idle (b : OrderBook ι) {side : String} {limitPx : Option ℤ} {qty : ℤ}
    (h : qty ≤ 0 ∨ ∀ best ∈ bestOf side (b.half (makerSide side)).prices,
      crosses side limitPx best = false) :
    b.match side limitPx qty = .ok ([], qty, b) := by
  have hturn : matchTurn (crosses side limitPx) (bestOf side)
      ⟨b.half (makerSide side), b.resting, [], qty⟩
      = .ok (.done ⟨b.half (makerSide side), b.resting, [], qty⟩) := by
    unfold matchTurn
    dsimp only
    rcases h with hqty | hbeyond
    · rw [if_neg (not_lt.mpr hqty)]
    · cases hbest : bestOf side (b.half (makerSide side)).prices with
      | none => rw [ite_self]
      | some best =>
        have hno : ¬ crosses side limitPx best = true := by
          rw [hbeyond best hbest]
          exact Bool.false_ne_true
        dsimp only
        rw [if_neg hno, ite_self]
  unfold OrderBook.match
  simp only [loop, hturn, bind, Except.bind]
  rw [OrderBook.putHalf_half]

/-- On a sound book the sides stay sound. -/
theorem OrderBook.match_eq_sweep {b : OrderBook ι} (hb : b.HalvesWF) (side : String)
    (limitPx : Option ℤ) (qty : ℤ) :
    ∃ b', b.match side limitPx qty
        = .ok ((b.book.sweep (sideOf side) limitPx qty).fills,
            (b.book.sweep (sideOf side) limitPx qty).unfilled, b')
      ∧ b'.HalvesWF
      ∧ b'.book = b.book.put (sideOf side).opp (b.book.sweep (sideOf side) limitPx qty).left
      ∧ b'.resting = b.resting.eraseAll (b.book.sweep (sideOf side) limitPx qty).gone := by
  obtain ⟨b', hmatch, hloose, hbook, hresting, -⟩ := hb.loose.match side limitPx qty
  refine ⟨b', hmatch, fun s => ?_, hbook, hresting⟩
  -- what a sweep leaves has no empty level
  have hladder : Ladder.WF s ((b'.half s.word).ladder s) := by
    have heq : (b'.half s.word).ladder s = _ := congrFun (congrArg Book.ladder hbook) s
    rw [heq]
    by_cases hs : s = (sideOf side).opp
    · rw [hs, Book.ladder_put_self]
      exact (hb.ladder _).sweep _ _
    · rw [Book.ladder_put_of_ne hs]
      exact hb.ladder s
  refine (hloose s).wf (fun p hp => ?_)
  exact hladder.nonempty (p, (b'.half s.word).queue p)
    (List.mem_map_of_mem (Ladder.mem_orient.mpr hp))

/-! ## Coming to rest and leaving

A level is a dictionary from ids to quantities. An order under an id that is in
it is added to what is there, and does not lose its place. -/

/-- What a level holds under an id is its amount there. -/
theorem amountOf_entries (level : Dict ι ℤ) (i : ι) :
    amountOf i level.entries = (level.get? i).getD 0 := by
  cases hget : level.get? i with
  | none => exact amountOf_eq_zero (Dict.get?_eq_none_iff.mp hget)
  | some a =>
    have hmem := Dict.get?_eq_some_iff.mp hget
    have hnodup := level.nodup
    obtain ⟨l, l', hl⟩ := List.append_of_mem hmem
    rw [hl, List.map_append, List.map_cons] at hnodup
    obtain ⟨-, hcons, hdisj⟩ := List.nodup_append.mp hnodup
    rw [List.nodup_cons] at hcons
    rw [hl, amountOf_append, amountOf_cons, if_pos rfl, amountOf_eq_zero hcons.1,
      amountOf_eq_zero (fun hi => hdisj i hi i List.mem_cons_self rfl)]
    simp

theorem positive_entries_iff {level : Dict ι ℤ} :
    Positive level.entries ↔ ∀ i a, level.get? i = some a → 0 < a :=
  ⟨fun h _ _ ha => h _ (Dict.get?_eq_some_iff.mp ha),
    fun h e he => h e.1 e.2 (Dict.get?_eq_some_iff.mpr he)⟩

/-- What an id holds at a level after it came to rest there again. -/
def addTo (oid : ι) (qty : ℤ) (level : Dict ι ℤ) : Dict ι ℤ :=
  level.set oid ((level.get? oid).getD 0 + qty)

/-- Its quantity is positive again. -/
theorem positive_addTo {level : Dict ι ℤ} (hpos : Positive level.entries) (oid : ι) {qty : ℤ}
    (hqty : 0 < qty) : Positive (addTo oid qty level).entries := by
  rw [positive_entries_iff] at hpos ⊢
  intro i a ha
  rw [addTo, Dict.get?_set] at ha
  by_cases hi : i = oid
  · rw [if_pos hi, Option.some_inj] at ha
    cases hold : level.get? oid with
    | none => rw [hold, Option.getD_none] at ha; omega
    | some a' =>
      have := hpos oid a' hold
      rw [hold, Option.getD_some] at ha
      omega
  · rw [if_neg hi] at ha
    exact hpos i a ha

/-- The level is not empty. -/
theorem addTo_ne_nil (oid : ι) (qty : ℤ) (level : Dict ι ℤ) :
    (addTo oid qty level).entries ≠ [] := by
  intro hnil
  have hmem : oid ∈ (addTo oid qty level).keys := Dict.mem_keys_set.mpr (Or.inl rfl)
  rw [Dict.keys, hnil] at hmem
  simp at hmem

omit [DecidableEq ι] in
/-- What the queues are after a side was replaced. -/
theorem OrderBook.queueAt_putHalf {b : OrderBook ι} {side : String}
    {h : Half ι} (hl : h.Loose) {b' : OrderBook ι} {r : Dict ι (String × ℤ)}
    (heq : b' = { b.putHalf side h with resting := r }) (s : Side) (p : ℤ) :
    Ladder.queueAt (b'.ladder s) p
      = if s = sideOf side then h.queue p else Ladder.queueAt (b.ladder s) p := by
  rw [heq, OrderBook.ladder_withResting, OrderBook.ladder_putHalf]
  split_ifs
  · exact hl.queueAt _ p
  · rfl

omit [DecidableEq ι] in
/-- The queue of a price is read off its side. -/
theorem OrderBook.HalvesLoose.queueAt {b : OrderBook ι} (hb : b.HalvesLoose) (side : String)
    (p : ℤ) : Ladder.queueAt (b.ladder (sideOf side)) p = (b.half side).queue p := by
  rw [OrderBook.half_eq]
  exact (hb _).queueAt _ p

/-- **`_rest` writes one level**: under the order's id, on top of what is
there. -/
theorem OrderBook.HalvesLoose.rest {b : OrderBook ι} (hb : b.HalvesLoose) (side : String)
    (price : ℤ) (oid : ι) {qty : ℤ} (hqty : 0 < qty) :
    ∃ h' level, b.rest side price oid qty
        = { b.putHalf side h' with resting := b.resting.set oid (side, price) }
      ∧ h'.Loose ∧ level.entries = (b.half side).queue price
      ∧ (∀ p, p ∈ h'.prices ↔ p = price ∨ p ∈ (b.half side).prices)
      ∧ ∀ p, h'.queue p
          = if p = price then (addTo oid qty level).entries else (b.half side).queue p := by
  have hl := hb.half side
  obtain ⟨hsorted, hprices, hkeys, hother, hentries⟩ := hl.openLevel price
  obtain ⟨⟨h', level⟩, hopen⟩ : ∃ o, (b.half side).openLevel price = o := ⟨_, rfl⟩
  rw [hopen] at hsorted hprices hkeys hother hentries
  dsimp only at hsorted hprices hkeys hother hentries
  have hpos : Positive level.entries := hentries ▸ hl.positive_queue price
  have hget : ∀ p, (h'.write price (addTo oid qty level)).levels.get? p
      = if p = price then some (addTo oid qty level) else h'.levels.get? p := Dict.get?_set _ _ _
  refine ⟨h'.write price (addTo oid qty level), level, ?_, ?_, hentries, hprices, fun p => ?_⟩
  · unfold OrderBook.rest
    rw [hopen]
    rfl
  · refine hl.replace price hsorted (fun p => ?_) (fun p hp => ?_) (fun level' hlevel' => ?_)
    · show p ∈ h'.prices ↔ _
      rw [Half.write, Dict.mem_keys_set, ← hkeys, hprices]
      exact ⟨Or.inr, fun hp => hp.elim Or.inl id⟩
    · rw [hget, if_neg hp, hother p hp]
    · rw [hget, if_pos rfl, Option.some_inj] at hlevel'
      exact hlevel' ▸ positive_addTo hpos oid hqty
  · rw [Half.queue, hget]
    split_ifs with hp
    · rfl
    · rw [hother p hp]
      rfl

/-- On a sound book the sides stay sound, and the index says where the order
rests. -/
theorem OrderBook.rest_spec {b : OrderBook ι} (hb : b.HalvesWF) (side : String) (price : ℤ)
    (oid : ι) {qty : ℤ} (hqty : 0 < qty) :
    ∃ level, level.entries = Ladder.queueAt (b.ladder (sideOf side)) price
      ∧ (b.rest side price oid qty).HalvesWF
      ∧ (b.rest side price oid qty).resting = b.resting.set oid (side, price)
      ∧ ∀ s p, Ladder.queueAt ((b.rest side price oid qty).ladder s) p
          = if s = sideOf side ∧ p = price then (addTo oid qty level).entries
            else Ladder.queueAt (b.ladder s) p := by
  obtain ⟨h', level, heq, hl, hlevel, hprices, hqueue⟩ := hb.loose.rest side price oid hqty
  refine ⟨level, hlevel.trans (hb.loose.queueAt side price).symm, ?_, by rw [heq], fun s p => ?_⟩
  · rw [heq]
    refine hb.putHalf (hl.wf (fun p hp => ?_)) side
    rw [hqueue]
    split_ifs with hpx
    · exact addTo_ne_nil oid qty level
    · exact (hb.half side).queue_ne_nil (((hprices p).mp hp).resolve_left hpx)
  · rw [OrderBook.queueAt_putHalf hl heq, hqueue]
    by_cases hs : s = sideOf side
    · subst hs
      rw [if_pos rfl, hb.loose.queueAt side]
      exact if_congr (by simp) rfl rfl
    · rw [if_neg hs, if_neg (fun h => hs h.1)]

omit [DecidableEq ι] in
theorem OrderBook.putHalf_withResting (b : OrderBook ι) (r : Dict ι (String × ℤ)) (side : String)
    (h : Half ι) : ({ b with resting := r } : OrderBook ι).putHalf side h
      = { b.putHalf side h with resting := r } := by
  unfold OrderBook.putHalf
  split_ifs <;> rfl

/-- **A cancel takes the order off the level its id is indexed at**, if it is
there, and its id out of the index. -/
theorem OrderBook.HalvesLoose.cancel {b : OrderBook ι} (hb : b.HalvesLoose) {target : ι}
    {side : String} {price : ℤ} (hloc : b.resting.get? target = some (side, price)) :
    ∃ h', (b.cancel target).1 = { b.putHalf side h' with resting := b.resting.erase target }
      ∧ h'.Loose
      ∧ (∀ p ∈ h'.prices, p ∈ (b.half side).prices
          ∧ ((b.half side).queue p ≠ [] → h'.queue p ≠ []))
      ∧ ∀ p, h'.queue p
          = if p = price then ((b.half side).queue p).filter (fun e => e.1 ≠ target)
            else (b.half side).queue p := by
  have hl := hb.half side
  -- where the level has no such order, nothing changes and the filter agrees
  have hsame : target ∉ ((b.half side).queue price).map Prod.fst → ∀ p, (b.half side).queue p
      = if p = price then ((b.half side).queue p).filter (fun e => e.1 ≠ target)
        else (b.half side).queue p := by
    intro hnot p
    split_ifs with hp
    · subst hp
      rw [eq_comm, List.filter_eq_self]
      intro e he
      have hne : e.1 ≠ target := fun h => hnot (h ▸ List.mem_map_of_mem he)
      simpa using hne
    · rfl
  have hkept : { b with resting := b.resting.erase target }
      = { b.putHalf side (b.half side) with resting := b.resting.erase target } := by
    rw [OrderBook.putHalf_half]
  unfold OrderBook.cancel
  rw [hloc]
  dsimp only
  cases hlevel : (b.half side).levels.get? price with
  | none =>
    refine ⟨b.half side, hkept, hl, fun p hp => ⟨hp, id⟩, hsame ?_⟩
    rw [Half.queue, hlevel]
    simp
  | some level =>
    have hqueue := Half.queue_of_get? hlevel
    dsimp only
    split_ifs with hin
    · have hprice : price ∈ (b.half side).prices := hl.get?.mpr ⟨level, hlevel⟩
      have hpos : Positive (level.erase target).entries := fun e he =>
        hl.positive_queue price e (hqueue.symm ▸ List.mem_of_mem_filter he)
      obtain ⟨hl', hqueue', hprices'⟩ := hl.write hprice hpos
      refine ⟨_, OrderBook.putHalf_withResting _ _ _ _, hl', fun p hp => ?_, fun p => ?_⟩
      · rw [hprices'] at hp
        rw [hqueue']
        by_cases hempty : (level.erase target).entries = []
        · rw [if_pos hempty] at hp
          have hne : p ≠ price := fun heq =>
            List.Nodup.not_mem_erase (hl.sorted.imp ne_of_lt) (heq ▸ hp)
          rw [if_neg hne]
          exact ⟨List.mem_of_mem_erase hp, id⟩
        · rw [if_neg hempty] at hp
          split_ifs
          · exact ⟨hp, fun _ => hempty⟩
          · exact ⟨hp, id⟩
      · rw [hqueue']
        split_ifs with hp
        · rw [hp, hqueue]
          rfl
        · rfl
    · refine ⟨b.half side, hkept, hl, fun p hp => ⟨hp, id⟩, hsame ?_⟩
      rw [hqueue]
      intro hmem
      refine hin ⟨?_, hmem⟩
      cases hentries : level.entries with
      | nil => rw [hentries] at hmem; simp at hmem
      | cons e l => rfl

/-- On a sound book the sides stay sound. -/
theorem OrderBook.cancel_spec {b : OrderBook ι} (hb : b.HalvesWF) {target : ι} {side : String}
    {price : ℤ} (hloc : b.resting.get? target = some (side, price)) :
    (b.cancel target).1.HalvesWF
      ∧ (b.cancel target).1.resting = b.resting.erase target
      ∧ ∀ s p, Ladder.queueAt ((b.cancel target).1.ladder s) p
          = if s = sideOf side ∧ p = price then
              (Ladder.queueAt (b.ladder s) p).filter (fun e => e.1 ≠ target)
            else Ladder.queueAt (b.ladder s) p := by
  obtain ⟨h', heq, hl, hprices, hqueue⟩ := hb.loose.cancel hloc
  refine ⟨?_, by rw [heq], fun s p => ?_⟩
  · rw [heq]
    refine hb.putHalf (hl.wf (fun p hp => ?_)) side
    obtain ⟨hp', hne⟩ := hprices p hp
    exact hne ((hb.half side).queue_ne_nil hp')
  · rw [OrderBook.queueAt_putHalf hl heq, hqueue]
    by_cases hs : s = sideOf side
    · subst hs
      rw [if_pos rfl, hb.loose.queueAt side]
      exact if_congr (by simp) rfl rfl
    · rw [if_neg hs, if_neg (fun h => hs h.1)]

end PyEngine
