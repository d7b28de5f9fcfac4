import HftArena.Lib.Run
import HftArena.PriceTime.Handles
import HftArena.PriceTime.Levels

/-!
# The Go reference engine: `Book`

The order book of `reference_engine_go/engine.go`, method by method: maps from
prices to linked lists, the prices of each side in a sorted slice, and an index
from ids to list elements. An element is modelled with its address, which is
what a pointer to it is. A list that a map does not have is a nil pointer, and
asking for its length is a panic – an error here; removing an element from a
list that it is not in does nothing, as in `container/list`.

Like the C++ book, it is a book of nodes (`Book.Shows`) for ids of any kind:
`opp[best]` is never nil, every element an index entry names is in the list it
is removed from, and the loops end.

What is its own are the sorted slices. `sort.SearchInts` is a binary search,
modelled by what it finds in a sorted slice; `insort` and `remove` are read as
the code has them, at the position that is found, and shown to insert and to
erase (`sorted_insort`, `remove_eq_erase`). The invariant of a side is that the
slice has exactly the keys of the map (`Half.WF`).
-/

open PriceTime

namespace GoEngine

/-- What can go wrong in a method of the book. -/
inductive GoError where
  /-- A nil pointer was dereferenced. -/
  | nilPointer
  /-- A loop has not ended. -/
  | diverges
deriving DecidableEq, Repr

/-- An order in its list element. -/
structure Element (ι : Type) where
  /-- The address of the element. -/
  el : ℕ
  id : ι
  qty : ℤ
deriving DecidableEq, Repr

/-- Where the index says an order is. -/
structure Loc where
  /-- `'b'` or `'a'`. -/
  side : Char
  price : ℤ
  el : ℕ
deriving DecidableEq, Repr

/-- The levels and the prices of one side, which the code passes on as a map
and a pointer to a slice. -/
structure Half (ι : Type) where
  levels : Dict ℤ (List (Element ι))
  /-- Ascending. -/
  prices : List ℤ

/-- **The order book.** Each price level is a list whose order is time
priority. -/
structure Book (ι : Type) where
  /-- `bidLevels` and `bidPrices`; the best bid is the last. -/
  bids : Half ι
  /-- `askLevels` and `askPrices`; the best ask is the first. -/
  asks : Half ι
  index : Dict ι Loc
  /-- The address of the next element that is made. -/
  nextEl : ℕ

/-- `sort.SearchInts`: the least position whose entry is not below `v`. It is
what the binary search finds where the slice is sorted, which it always is. -/
def searchInts (s : List ℤ) (v : ℤ) : ℕ := s.findIdx (fun x => v ≤ x)

/-- `insort`: the new price is put in at the position that is found. -/
def insort (s : List ℤ) (v : ℤ) : List ℤ :=
  let i := searchInts s v
  s.take i ++ v :: s.drop i

/-- `remove`: the entry at the position that is found, if it is the price. -/
def remove (s : List ℤ) (v : ℤ) : List ℤ :=
  let i := searchInts s v
  if s[i]? = some v then s.take i ++ s.drop (i + 1) else s

variable {ι : Type}

/-- `newBook`. -/
def newBook : Book ι := ⟨⟨.empty, []⟩, ⟨.empty, []⟩, .empty, 0⟩

/-- The levels and prices a method binds for a side. -/
def Book.own (b : Book ι) (buy : Bool) : Half ι := if buy then b.bids else b.asks

/-- The book after the levels and prices of a side were mutated. -/
def Book.putOwn (b : Book ι) (buy : Bool) (h : Half ι) : Book ι :=
  if buy then { b with bids := h } else { b with asks := h }

/-- The level of a price after its list was mutated in place, dropped with its
price if it is empty. -/
def Half.keep (h : Half ι) (price : ℤ) (l : List (Element ι)) : Half ι :=
  let levels := h.levels.set price l
  if l.length = 0 then ⟨levels.erase price, remove h.prices price⟩ else ⟨levels, h.prices⟩

/-- The level of a price, made with its price if there is none. -/
def Half.openLevel (h : Half ι) (px : ℤ) : Half ι × List (Element ι) :=
  match h.levels.get? px with
  | some l => (h, l)
  | none => (⟨h.levels.set px [], insort h.prices px⟩, [])

/-- What the loop over the orders of a level mutates. -/
structure LevelState (ι : Type) where
  l : List (Element ι)
  index : Dict ι Loc
  fills : List (Fill ι)
  qty : ℤ

/-- What the loop over the levels mutates. -/
structure MatchState (ι : Type) where
  /-- `opp` and `*prices`. -/
  opp : Half ι
  index : Dict ι Loc
  fills : List (Fill ι)
  qty : ℤ

variable [DecidableEq ι]

/-- `rest`: a level is made for a new price, the order is pushed to the back of
its list, and the index is given the element. -/
def Book.rest (b : Book ι) (id : ι) (buy : Bool) (px qty : ℤ) : Book ι :=
  let (h, l) := (b.own buy).openLevel px
  { b.putOwn buy ⟨h.levels.set px (l ++ [⟨b.nextEl, id, qty⟩]), h.prices⟩ with
    index := b.index.set id ⟨if buy then 'b' else 'a', px, b.nextEl⟩
    nextEl := b.nextEl + 1 }

/-- One turn of `for qty > 0 && l.Len() > 0`: a trade with the front element,
which is removed, from the list and by its id from the index, if it is
filled. -/
def levelTurn (best : ℤ) (st : LevelState ι) :
    Except GoError (Turn (LevelState ι) (LevelState ι)) :=
  match st.l with
  | [] => .ok (.done st)
  | m :: l =>
    if 0 < st.qty then
      let trade := if m.qty < st.qty then m.qty else st.qty
      let fills := st.fills ++ [⟨best, trade, m.id⟩]
      let qty := st.qty - trade
      let mqty := m.qty - trade
      if mqty = 0 then .ok (.again ⟨l, st.index.erase m.id, fills, qty⟩)
      else .ok (.again ⟨{ m with qty := mqty } :: l, st.index, fills, qty⟩)
    else .ok (.done st)

/-- One turn of `for qty > 0 && len(*prices) > 0`: the best price, unless it is
beyond the limit, its list, and the removal of both if the list is empty after
it was served. -/
def matchTurn (buy : Bool) (limitPx : ℤ) (hasLimit : Bool) (st : MatchState ι) :
    Except GoError (Turn (MatchState ι) (MatchState ι)) :=
  if 0 < st.qty then
    match if buy then st.opp.prices.head? else st.opp.prices.getLast? with
    | none => .ok (.done st)
    | some best =>
      if hasLimit ∧ (if buy then limitPx < best else best < limitPx) then .ok (.done st)
      else
        match st.opp.levels.get? best with
        | none => .error .nilPointer
        | some l => do
          let r ← loop .diverges (levelTurn best) (l.length + 1) ⟨l, st.index, st.fills, st.qty⟩
          .ok (.again ⟨st.opp.keep best r.l, r.index, r.fills, r.qty⟩)
  else .ok (.done st)

/-- `match`: the fills, what is left of `qty`, and the book after. -/
def Book.match (b : Book ι) (buy : Bool) (limitPx qty : ℤ) (hasLimit : Bool) :
    Except GoError (List (Fill ι) × ℤ × Book ι) := do
  let opp := b.own !buy
  let st ← loop .diverges (matchTurn buy limitPx hasLimit) (opp.prices.length + 1)
    ⟨opp, b.index, [], qty⟩
  .ok (st.fills, st.qty, { b.putOwn (!buy) st.opp with index := st.index })

/-- `limit`: what is not filled rests. -/
def Book.limit (b : Book ι) (id : ι) (buy : Bool) (px qty : ℤ) :
    Except GoError (Book ι × List (Fill ι)) := do
  let (fills, rem, b') ← b.match buy px qty true
  .ok (if 0 < rem then b'.rest id buy px rem else b', fills)

/-- `market`: what is not filled is dropped. -/
def Book.market (b : Book ι) (buy : Bool) (qty : ℤ) :
    Except GoError (Book ι × List (Fill ι)) := do
  let (fills, _, b') ← b.match buy 0 qty false
  .ok (b', fills)

/-- `cancel`: the element that the index names is removed from the level of its
price, if there is one. -/
def Book.cancel (b : Book ι) (target : ι) : Book ι :=
  match b.index.get? target with
  | none => b
  | some lc =>
    let buy := lc.side == 'b'
    let h := b.own buy
    let h' := match h.levels.get? lc.price with
      | some l => h.keep lc.price (l.filter (fun e => e.el ≠ lc.el))
      | none => h
    { b.putOwn buy h' with index := b.index.erase target }

/-- One call, with the fills it returns; a cancel returns none. -/
def Book.call (b : Book ι) : Call ι → Except GoError (Book ι × List (Fill ι))
  | .limit oid side px qty => b.limit oid (side == .bid) px qty
  | .market _ side qty => b.market (side == .bid) qty
  | .cancel target => .ok (b.cancel target, [])

/-! ## Sorted slices

The two functions that keep a slice sorted, seen as insertion into a sorted
list and as removal from it. -/

/-- The first price of a side. -/
theorem insort_nil (v : ℤ) : insort [] v = [v] := rfl

/-- A new price is put before the first that it does not exceed. -/
theorem insort_cons (x : ℤ) (s : List ℤ) (v : ℤ) :
    insort (x :: s) v = if v ≤ x then v :: x :: s else x :: insort s v := by
  unfold insort searchInts
  rw [List.findIdx_cons]
  by_cases h : v ≤ x
  · simp [h]
  · simp [h]

/-- A price is looked for up to the first that it does not exceed. -/
theorem remove_cons (x : ℤ) (s : List ℤ) (v : ℤ) :
    remove (x :: s) v
      = if v ≤ x then (if x = v then s else x :: s) else x :: remove s v := by
  unfold remove searchInts
  rw [List.findIdx_cons]
  by_cases h : v ≤ x
  · by_cases hx : x = v <;> simp [h, hx]
  · simp only [h, decide_false, cond_false, if_false, List.getElem?_cons_succ,
      List.take_succ_cons, List.drop_succ_cons]
    split_ifs <;> rfl

/-- The new price is added, and no other. -/
theorem mem_insort {s : List ℤ} {v x : ℤ} : x ∈ insort s v ↔ x = v ∨ x ∈ s := by
  induction s with
  | nil => simp [insort_nil]
  | cons y s ih =>
    rw [insort_cons]
    split_ifs
    · rw [List.mem_cons]
    · rw [List.mem_cons, ih, List.mem_cons]
      exact or_left_comm

/-- A new price goes to its place. -/
theorem sorted_insort {s : List ℤ} {v : ℤ} (h : s.Pairwise (· < ·)) (hnot : v ∉ s) :
    (insort s v).Pairwise (· < ·) := by
  induction s with
  | nil => exact List.pairwise_singleton _ _
  | cons y s ih =>
    rw [List.pairwise_cons] at h
    rw [List.mem_cons, not_or] at hnot
    rw [insort_cons]
    split_ifs with hle
    · refine List.pairwise_cons.mpr ⟨fun x hx => ?_, List.pairwise_cons.mpr h⟩
      rcases List.mem_cons.mp hx with rfl | hx
      · exact lt_of_le_of_ne hle hnot.1
      · exact lt_of_le_of_lt hle (h.1 x hx)
    · refine List.pairwise_cons.mpr ⟨fun x hx => ?_, ih h.2 hnot.2⟩
      rcases mem_insort.mp hx with rfl | hx
      · exact not_le.mp hle
      · exact h.1 x hx

/-- A price that is taken out of a sorted slice is found where it is looked
for. -/
theorem remove_eq_erase {s : List ℤ} (h : s.Pairwise (· < ·)) (v : ℤ) :
    remove s v = s.erase v := by
  induction s with
  | nil => rfl
  | cons y s ih =>
    rw [List.pairwise_cons] at h
    rw [remove_cons, List.erase_cons, ih h.2]
    by_cases hy : y = v
    · simp [hy]
    · by_cases hle : v ≤ y
      · have hnot : v ∉ s := fun hv => absurd (h.1 v hv) (not_lt.mpr hle)
        rw [if_pos hle, if_neg hy, List.erase_of_not_mem hnot]
        simp [hy]
      · rw [if_neg hle]
        simp [hy]

/-! ## One side

The map and the slice of a side have the same prices, and every list in the map
has an element. -/

section Reading

omit [DecidableEq ι]

/-- An order of a list, under its address and its id. -/
def Element.entry (e : Element ι) : (ℕ × ι) × ℤ := ((e.el, e.id), e.qty)

/-- The queue of a price. -/
def Half.queue (h : Half ι) (p : ℤ) : List ((ℕ × ι) × ℤ) :=
  ((h.levels.get? p).getD []).map Element.entry

/-- **The invariant of a side**: its levels are in order, and its prices are
the keys of its map. -/
structure Half.WF (h : Half ι) : Prop where
  levels : Ladder.Levels h.prices h.queue
  keys : ∀ p, p ∈ h.prices ↔ p ∈ h.levels.keys

/-- The ladder of a side. -/
def Half.ladder (s : Side) (h : Half ι) : Ladder (ℕ × ι) := Ladder.ofPrices s h.prices h.queue

theorem Half.wf_empty : (⟨.empty, []⟩ : Half ι).WF := ⟨Ladder.Levels.nil, fun p => by simp⟩

/-- The queue of a price that has a list. -/
theorem Half.queue_of_get? {h : Half ι} {p : ℤ} {l : List (Element ι)}
    (hl : h.levels.get? p = some l) : h.queue p = l.map Element.entry := by
  rw [Half.queue, hl, Option.getD_some]

/-- The ladder of such a side is well formed. -/
theorem Half.WF.wf_ladder {h : Half ι} (hwf : h.WF) (s : Side) : Ladder.WF s (h.ladder s) :=
  hwf.levels.wf s

/-- It has the queues of the side. -/
theorem Half.WF.queueAt {h : Half ι} (hwf : h.WF) (s : Side) (p : ℤ) :
    Ladder.queueAt (h.ladder s) p = h.queue p :=
  hwf.levels.queueAt s p

/-- **Keeping a level after its list was mutated**: the other levels stay. -/
theorem Half.WF.keep {h : Half ι} (hwf : h.WF) {price : ℤ} (hprice : price ∈ h.prices)
    {l : List (Element ι)} (hpos : Positive (l.map Element.entry)) :
    (h.keep price l).WF
      ∧ ∀ p, (h.keep price l).queue p = if p = price then l.map Element.entry else h.queue p := by
  unfold Half.keep
  by_cases hempty : l = []
  · subst hempty
    have hqueue : ∀ p,
        (⟨(h.levels.set price []).erase price, remove h.prices price⟩ : Half ι).queue p
        = if p = price then [] else h.queue p := by
      intro p
      unfold Half.queue
      rw [Dict.get?_erase, Dict.get?_set]
      split_ifs
      · rfl
      · rfl
    have hsorted := hwf.levels.sorted
    have hmem : ∀ p, p ∈ remove h.prices price ↔ p ≠ price ∧ p ∈ h.prices := fun p => by
      rw [remove_eq_erase hsorted, List.Nodup.mem_erase_iff (hsorted.imp ne_of_lt)]
    rw [List.length_nil, if_pos rfl]
    refine ⟨⟨hwf.levels.update ?_ (fun p => ?_) hpos hqueue, fun p => ?_⟩, hqueue⟩
    · show (remove h.prices price).Pairwise _
      rw [remove_eq_erase hsorted]
      exact hsorted.sublist List.erase_sublist
    · show p ∈ remove h.prices price ↔ _
      rw [hmem]
      split_ifs with hp <;> simp [hp]
    · show p ∈ remove h.prices price ↔ _
      rw [hmem, Dict.mem_keys_erase, Dict.mem_keys_set, hwf.keys]
      exact ⟨fun hp => ⟨hp.1, Or.inr hp.2⟩, fun hp => ⟨hp.1, hp.2.resolve_left hp.1⟩⟩
  · have hqueue : ∀ p, (⟨h.levels.set price l, h.prices⟩ : Half ι).queue p
        = if p = price then l.map Element.entry else h.queue p := by
      intro p
      unfold Half.queue
      rw [Dict.get?_set]
      split_ifs
      · rfl
      · rfl
    rw [if_neg (fun h => hempty (List.length_eq_zero_iff.mp h))]
    refine ⟨⟨hwf.levels.update hwf.levels.sorted (fun p => ?_) hpos hqueue, fun p => ?_⟩, hqueue⟩
    · show p ∈ h.prices ↔ _
      split_ifs with hp
      · simp [hp, hprice, hempty]
      · exact Iff.rfl
    · show p ∈ h.prices ↔ _
      rw [Dict.mem_keys_set, hwf.keys]
      exact ⟨Or.inr, fun hp => hp.elim (fun hp => hp ▸ (hwf.keys _).mp hprice) id⟩

/-- **Appending to a level**, which is made if there is none. -/
theorem Half.WF.push {h : Half ι} (hwf : h.WF) (px : ℤ) {e : Element ι} (hpos : 0 < e.qty) :
    (⟨(h.openLevel px).1.levels.set px ((h.openLevel px).2 ++ [e]),
        (h.openLevel px).1.prices⟩ : Half ι).WF
      ∧ ∀ p, (⟨(h.openLevel px).1.levels.set px ((h.openLevel px).2 ++ [e]),
          (h.openLevel px).1.prices⟩ : Half ι).queue p
        = if p = px then h.queue p ++ [e.entry] else h.queue p := by
  have hpos' : Positive (h.queue px ++ [e.entry]) := by
    intro e' he'
    rcases List.mem_append.mp he' with he' | he'
    · exact hwf.levels.positive px e' he'
    · rw [List.mem_singleton.mp he']
      exact hpos
  have hopen : (h.openLevel px).1.prices.Pairwise (· < ·)
      ∧ (∀ p, p ∈ (h.openLevel px).1.prices ↔ p = px ∨ p ∈ h.prices)
      ∧ (∀ p, p ∈ (h.openLevel px).1.levels.keys ↔ p = px ∨ p ∈ h.levels.keys)
      ∧ (∀ p, p ≠ px → (h.openLevel px).1.levels.get? p = h.levels.get? p)
      ∧ (h.openLevel px).2.map Element.entry = h.queue px := by
    unfold Half.openLevel
    cases hget : h.levels.get? px with
    | some l =>
      have hkey := Dict.mem_keys_of_get? hget
      exact ⟨hwf.levels.sorted,
        fun p => ⟨Or.inr, fun hp => hp.elim (fun hp => hp ▸ (hwf.keys px).mpr hkey) id⟩,
        fun p => ⟨Or.inr, fun hp => hp.elim (fun hp => hp ▸ hkey) id⟩, fun _ _ => rfl,
        (Half.queue_of_get? hget).symm⟩
    | none =>
      have hnot : px ∉ h.prices := by
        rw [hwf.keys]
        exact Dict.get?_eq_none_iff.mp hget
      refine ⟨sorted_insort hwf.levels.sorted hnot, fun p => mem_insort, fun p => Dict.mem_keys_set,
        fun p hp => ?_, by rw [Half.queue, hget]; rfl⟩
      rw [Dict.get?_set, if_neg hp]
  obtain ⟨hsorted, hprices, hkeys, hother, hlevel⟩ := hopen
  have hqueue : ∀ p, (⟨(h.openLevel px).1.levels.set px ((h.openLevel px).2 ++ [e]),
        (h.openLevel px).1.prices⟩ : Half ι).queue p
      = if p = px then h.queue px ++ [e.entry] else h.queue p := by
    intro p
    unfold Half.queue
    rw [Dict.get?_set]
    by_cases hp : p = px
    · rw [if_pos hp, if_pos hp, Option.getD_some, List.map_append, hlevel]
      rfl
    · rw [if_neg hp, if_neg hp, hother p hp]
  refine ⟨⟨hwf.levels.update hsorted (fun p => ?_) hpos' hqueue, fun p => ?_⟩, fun p => ?_⟩
  · show p ∈ (h.openLevel px).1.prices ↔ _
    rw [hprices]
    split_ifs with hp <;> simp [hp]
  · show p ∈ (h.openLevel px).1.prices ↔ _
    rw [hprices, Dict.mem_keys_set, hkeys, hwf.keys]
    tauto
  · rw [hqueue]
    split_ifs with hp
    · rw [hp]
    · rfl

/-! ## The book of nodes

As for the C++ book: elements are nodes, the index names their places, and each
method is an operation of `PriceTime.Handles`. -/

/-- The flag of a side. -/
def buys (s : Side) : Bool := s == .bid

@[simp] theorem buys_opp (s : Side) : buys s.opp = !buys s := by
  cases s <;> rfl

/-- The place that an entry of the index names. -/
def Loc.place (l : Loc) : Side × ℤ × ℕ := (if l.side = 'b' then .bid else .ask, l.price, l.el)

/-- The place of an entry that `rest` makes. -/
theorem place_mk (s : Side) (px : ℤ) (el : ℕ) :
    Loc.place ⟨if buys s then 'b' else 'a', px, el⟩ = (s, px, el) := by
  cases s <;> rfl

/-- One side is replaced, and the other is not. -/
theorem Book.own_putOwn (b : Book ι) (s s' : Side) (h : Half ι) :
    (b.putOwn (buys s) h).own (buys s') = if s' = s then h else b.own (buys s') := by
  cases s <;> cases s' <;> rfl

/-- No element is made by it. -/
theorem Book.nextEl_putOwn (b : Book ι) (buy : Bool) (h : Half ι) :
    (b.putOwn buy h).nextEl = b.nextEl := by
  cases buy <;> rfl

/-- **The book shows a book of nodes**: its sides are in order and have the
ladders of the nodes, and the index and the next address are theirs. -/
structure Book.Shows (b : Book ι) (H : Handles ι) [DecidableEq ι] : Prop where
  half : ∀ s, (b.own (buys s)).WF
  ladder : ∀ s, (b.own (buys s)).ladder s = H.book.ladder s
  index : ∀ i, (b.index.get? i).map Loc.place = H.index i
  next : b.nextEl = H.next

end Reading

/-- A new book shows no nodes. -/
theorem shows_newBook : (newBook : Book ι).Shows .empty := by
  refine ⟨fun s => ?_, fun s => ?_, fun i => rfl, rfl⟩
  · cases s <;> exact Half.wf_empty
  · cases s <;> rfl

/-- **The loop over the orders of a level serves it**, and takes the makers
that are gone out of the index. -/
theorem levelLoop_eq_serve (best : ℤ) (lvl : List (Element ι)) (index : Dict ι Loc)
    (fills : List (Fill ι)) (qty : ℤ) :
    ∃ r, loop .diverges (levelTurn best) (lvl.length + 1) ⟨lvl, index, fills, qty⟩ = .ok r
      ∧ r.l.map Element.entry = (serve qty (lvl.map Element.entry)).left
      ∧ r.index = index.eraseAll ((serve qty (lvl.map Element.entry)).gone.map Prod.snd)
      ∧ r.fills = fills ++ (Ladder.fillsAt best (serve qty (lvl.map Element.entry)).trades).map
          (Fill.rename Prod.snd)
      ∧ r.qty = (serve qty (lvl.map Element.entry)).unfilled := by
  refine loop_serve _ (levelTurn best)
    (fun st t => st.l.map Element.entry = t.left
      ∧ st.index = index.eraseAll (t.gone.map Prod.snd)
      ∧ st.fills = fills ++ (Ladder.fillsAt best t.trades).map (Fill.rename Prod.snd)
      ∧ st.qty = t.unfilled)
    (fun st t hat hstop => ?_) (fun st t k a q hat hL hw => ?_)
    (t := ⟨[], lvl.map Element.entry, qty, []⟩) ⟨rfl, rfl, (List.append_nil _).symm, rfl⟩ (by simp)
  · obtain ⟨hlvl, -, -, hqty⟩ := hat
    unfold levelTurn
    cases hcase : st.l with
    | nil => rfl
    | cons m lvl' =>
      dsimp only
      rw [if_neg]
      rcases hstop with hstop | hstop
      · exact not_lt.mpr (hqty ▸ hstop)
      · rw [hcase, hstop] at hlvl
        exact absurd hlvl (by simp)
  · obtain ⟨hlvl, hindex, hfills, hqty⟩ := hat
    rw [hL] at hlvl
    obtain ⟨m, lvl', hm, hk, hq⟩ := List.map_eq_cons_iff.mp hlvl
    obtain ⟨rfl, rfl⟩ : (m.el, m.id) = k ∧ m.qty = a := Prod.mk.inj hk
    unfold levelTurn Served.trade
    rw [hm]
    dsimp only
    rw [if_pos (hqty ▸ hw), hqty]
    rcases le_or_gt m.qty t.unfilled with hle | hlt
    · have htrade : (if m.qty < t.unfilled then m.qty else t.unfilled) = m.qty := by
        split_ifs <;> omega
      rw [htrade, if_pos hle, sub_self, if_pos rfl]
      refine ⟨_, rfl, hq, ?_, ?_, rfl⟩
      · rw [hindex, List.map_append, Dict.eraseAll_append]
        rfl
      · rw [Ladder.fillsAt_concat_rename, hfills, List.append_assoc]
    · have hrest : m.qty - t.unfilled ≠ 0 := ne_of_gt (Int.sub_pos_of_lt hlt)
      rw [if_neg (not_lt.mpr hlt.le), if_neg (not_le.mpr hlt), if_neg hrest, sub_self]
      refine ⟨_, rfl, by rw [List.map_cons, hq]; rfl, hindex, ?_, rfl⟩
      rw [Ladder.fillsAt_concat_rename, hfills, List.append_assoc]

/-- A limit and a flag as a limit that need not be there. -/
def limitOf (limitPx : ℤ) (hasLimit : Bool) : Option ℤ := if hasLimit then some limitPx else none

omit [DecidableEq ι] in
/-- What the code asks before it serves a level is whether the best price is
out of reach. -/
theorem beyond_iff (side : Side) (limitPx best : ℤ) (hasLimit : Bool) :
    (hasLimit ∧ (if buys side then limitPx < best else best < limitPx))
      ↔ side.opp.reaches (limitOf limitPx hasLimit) best = false := by
  cases hasLimit <;> cases side <;> simp [limitOf, buys, Side.opp, Side.reaches]

omit [DecidableEq ι] in
/-- The best price heads the ladder. -/
theorem head?_ladder (side : Side) (h : Half ι) :
    (h.ladder side.opp).head?
      = (if buys side then h.prices.head? else h.prices.getLast?).map (fun p => (p, h.queue p)) := by
  cases side
  · exact List.head?_map
  · show (h.prices.reverse.map _).head? = _
    rw [List.head?_map, List.head?_reverse]
    rfl

/-- **The loop over the levels sweeps the other side**, and never finds a level
missing. -/
theorem matchLoop_eq_sweep (side : Side) (limitPx : ℤ) (hasLimit : Bool) {opp : Half ι}
    (hopp : opp.WF) (index : Dict ι Loc) (qty : ℤ) :
    ∃ r, loop .diverges (matchTurn (buys side) limitPx hasLimit) (opp.prices.length + 1)
        ⟨opp, index, [], qty⟩ = .ok r
      ∧ r.opp.WF
      ∧ r.opp.ladder side.opp
        = (Ladder.sweep (side.opp.reaches (limitOf limitPx hasLimit)) qty
            (opp.ladder side.opp)).left
      ∧ r.index = index.eraseAll ((Ladder.sweep (side.opp.reaches (limitOf limitPx hasLimit)) qty
          (opp.ladder side.opp)).gone.map Prod.snd)
      ∧ r.fills = (Ladder.sweep (side.opp.reaches (limitOf limitPx hasLimit)) qty
          (opp.ladder side.opp)).fills.map (Fill.rename Prod.snd)
      ∧ r.qty = (Ladder.sweep (side.opp.reaches (limitOf limitPx hasLimit)) qty
          (opp.ladder side.opp)).unfilled := by
  refine Ladder.loop_sweep _ (matchTurn (buys side) limitPx hasLimit)
    (side.opp.reaches (limitOf limitPx hasLimit))
    (fun st t => st.opp.WF ∧ st.opp.ladder side.opp = t.left
      ∧ st.index = index.eraseAll (t.gone.map Prod.snd)
      ∧ st.fills = t.fills.map (Fill.rename Prod.snd) ∧ st.qty = t.unfilled)
    (fun st t hat hstop => ?_) (fun st t p q L hat hL hw hp => ?_)
    (t := ⟨[], opp.ladder side.opp, qty, []⟩) ⟨hopp, rfl, rfl, rfl, rfl⟩ ?_
  · obtain ⟨-, hleft, -, -, hqty⟩ := hat
    have hbest := head?_ladder side st.opp
    rw [hleft] at hbest
    unfold matchTurn
    by_cases hpos : 0 < st.qty
    · have hstop := hstop.resolve_left (not_le.mpr (hqty ▸ hpos))
      rw [if_pos hpos]
      cases hprice : (if buys side then st.opp.prices.head? else st.opp.prices.getLast?) with
      | none => rfl
      | some best =>
        rw [hprice] at hbest
        dsimp only
        rw [if_pos ((beyond_iff side limitPx best hasLimit).mpr (hstop _ hbest))]
    · rw [if_neg hpos]
  · obtain ⟨hwf, hleft, hindex, hfills, hqty⟩ := hat
    have hbest := head?_ladder side st.opp
    rw [hleft, hL, List.head?_cons, eq_comm, Option.map_eq_some_iff] at hbest
    obtain ⟨best, hprice, heq⟩ := hbest
    obtain ⟨rfl, rfl⟩ : best = p ∧ st.opp.queue best = q := Prod.mk.inj heq
    have hladder := hwf.wf_ladder side.opp
    rw [hleft, hL] at hladder
    have hmem : best ∈ st.opp.prices :=
      (hwf.levels.mem best).mpr (hladder.nonempty _ List.mem_cons_self)
    obtain ⟨l, hl⟩ := Dict.mem_keys_iff.mp ((hwf.keys best).mp hmem)
    have hposq : Positive (l.map Element.entry) := by
      rw [← Half.queue_of_get? hl]
      exact hwf.levels.positive best
    obtain ⟨r, hr, hrl, hrindex, hrfills, hrqty⟩ :=
      levelLoop_eq_serve best l st.index st.fills st.qty
    rw [hqty] at hrl hrindex hrfills hrqty
    have hposleft : Positive (r.l.map Element.entry) := hrl ▸ positive_left hposq
    obtain ⟨hwf', hqueue'⟩ := hwf.keep hmem hposleft
    refine ⟨⟨st.opp.keep best r.l, r.index, r.fills, r.qty⟩, ?_, hwf', ?_, ?_, ?_, ?_⟩
    · unfold matchTurn
      rw [if_pos (hqty ▸ hw), hprice]
      dsimp only
      rw [if_neg (fun h => by
        rw [(beyond_iff side limitPx best hasLimit).mp h] at hp
        exact absurd hp (by decide)), hl]
      simp only [hr, bind, Except.bind]
    · refine hladder.eq_turn (hwf'.wf_ladder side.opp)
        (positive_left (hwf.levels.positive best)) (fun p' => ?_)
      rw [hwf'.queueAt, hqueue', hrl, ← hL, ← hleft, hwf.queueAt, Half.queue_of_get? hl]
    · rw [hrindex, hindex, ← Dict.eraseAll_append, ← List.map_append, Half.queue_of_get? hl]
      rfl
    · rw [hrfills, hfills, ← List.map_append, Half.queue_of_get? hl]
      rfl
    · rw [hrqty, Half.queue_of_get? hl]
      rfl
  · rw [Half.ladder, Ladder.length_ofPrices]
    omega

/-- **`match` is a trade of the nodes**: it returns the fills of the sweep,
under the makers' ids, and what stays unfilled. -/
theorem Book.Shows.match {b : Book ι} {H : Handles ι} (h : b.Shows H) (side : Side)
    (limitPx qty : ℤ) (hasLimit : Bool) :
    ∃ b', b.match (buys side) limitPx qty hasLimit
        = .ok ((H.book.sweep side (limitOf limitPx hasLimit) qty).fills.map (Fill.rename Prod.snd),
            (H.book.sweep side (limitOf limitPx hasLimit) qty).unfilled, b')
      ∧ b'.Shows (H.trade side (limitOf limitPx hasLimit) qty) := by
  obtain ⟨r, hr, hwf, hladder, hindex, hfills, hqty⟩ :=
    matchLoop_eq_sweep side limitPx hasLimit (h.half side.opp) b.index qty
  rw [h.ladder] at hladder hindex hfills hqty
  rw [buys_opp] at hr
  refine ⟨{ b.putOwn (!buys side) r.opp with index := r.index }, ?_, ?_⟩
  · unfold Book.match
    simp only [hr, bind, Except.bind]
    rw [hfills, hqty]
    rfl
  · have hside : ∀ s, (b.putOwn (!buys side) r.opp).own (buys s)
        = if s = side.opp then r.opp else b.own (buys s) := by
      intro s
      rw [← buys_opp, Book.own_putOwn]
    refine ⟨fun s => ?_, fun s => ?_, fun i => ?_, ?_⟩
    · show ((b.putOwn (!buys side) r.opp).own (buys s)).WF
      rw [hside]
      split_ifs
      · exact hwf
      · exact h.half s
    · show ((b.putOwn (!buys side) r.opp).own (buys s)).ladder s = (H.book.put side.opp _).ladder s
      rw [hside]
      split_ifs with hs
      · rw [hs, Book.ladder_put_self]
        exact hladder
      · rw [Book.ladder_put_of_ne hs]
        exact h.ladder s
    · show (r.index.get? i).map Loc.place = if _ then none else H.index i
      rw [hindex, Dict.get?_eraseAll, ← h.index]
      unfold Book.sweep
      split_ifs
      · rfl
      · rfl
    · show (b.putOwn (!buys side) r.opp).nextEl = H.next
      rw [Book.nextEl_putOwn]
      exact h.next

/-- **`rest` puts a new element at the back of its level**, which it makes if
there is none. -/
theorem Book.Shows.rest {b : Book ι} {H : Handles ι} (h : b.Shows H) (side : Side) (px : ℤ)
    (oid : ι) {qty : ℤ} (hqty : 0 < qty)
    (hcross : ∀ p ∈ (H.book.ladder side.opp).prices, side.opp.reaches (some px) p = false) :
    (b.rest oid (buys side) px qty).Shows (H.rest side px oid qty hqty hcross) := by
  obtain ⟨hwf, hqueue⟩ := (h.half side).push px (e := ⟨b.nextEl, oid, qty⟩) hqty
  have hside : ∀ s, (b.rest oid (buys side) px qty).own (buys s)
      = if s = side then ⟨((b.own (buys side)).openLevel px).1.levels.set px
          (((b.own (buys side)).openLevel px).2 ++ [⟨b.nextEl, oid, qty⟩]),
          ((b.own (buys side)).openLevel px).1.prices⟩ else b.own (buys s) := by
    intro s
    show ((b.putOwn (buys side) _).own (buys s)) = _
    rw [Book.own_putOwn]
    rfl
  refine ⟨fun s => ?_, fun s => ?_, fun i => ?_, ?_⟩
  · rw [hside]
    split_ifs
    · exact hwf
    · exact h.half s
  · show _ = (H.book.put side _).ladder s
    rw [hside]
    split_ifs with hs
    · subst hs
      rw [Book.ladder_put_self]
      refine Ladder.WF.ext (hwf.wf_ladder s) ((H.wf.side s).rest px hqty) (fun p => ?_)
      rw [hwf.queueAt, hqueue, (H.wf.side s).queueAt_rest, ← h.ladder, (h.half s).queueAt, ← h.next]
      rfl
    · rw [Book.ladder_put_of_ne hs]
      exact h.ladder s
  · show ((b.index.set oid _).get? i).map Loc.place
      = if i = oid then some (side, px, H.next) else H.index i
    rw [Dict.get?_set, ← h.index, ← h.next]
    by_cases hi : i = oid
    · rw [if_pos hi, if_pos hi, Option.map_some, place_mk]
    · rw [if_neg hi, if_neg hi]
  · show b.nextEl + 1 = H.next + 1
    rw [h.next]

/-- **`cancel` removes an element that is there**, from the list it is in. -/
theorem Book.Shows.cancel {b : Book ι} {H : Handles ι} (h : b.Shows H) (target : ι) :
    (b.cancel target).Shows (H.cancel target) := by
  have hindex := h.index target
  unfold Book.cancel Handles.cancel
  cases hloc : b.index.get? target with
  | none =>
    rw [hloc] at hindex
    rw [← hindex]
    exact h
  | some lc =>
    rw [hloc, Option.map_some] at hindex
    obtain ⟨side, hside⟩ : ∃ s : Side, s = lc.place.1 := ⟨_, rfl⟩
    have hbuy : (lc.side == 'b') = buys side := by
      rw [hside]
      by_cases hc : lc.side = 'b' <;> simp [Loc.place, buys, hc]
    have hplace : H.index target = some (side, lc.price, lc.el) := by
      rw [← hindex, hside]
      rfl
    have hlive := H.live target side lc.price lc.el hplace
    rw [← h.ladder, (h.half side).queueAt] at hlive
    obtain ⟨l, hl⟩ : ∃ l, (b.own (buys side)).levels.get? lc.price = some l := by
      cases hget : (b.own (buys side)).levels.get? lc.price with
      | none => rw [Half.queue, hget] at hlive; simp at hlive
      | some l => exact ⟨l, rfl⟩
    have hmem : lc.price ∈ (b.own (buys side)).prices :=
      ((h.half side).keys _).mpr (Dict.mem_keys_of_get? hl)
    have hfilter : (l.filter (fun e => e.el ≠ lc.el)).map Element.entry
        = ((b.own (buys side)).queue lc.price).filter (fun e => e.1.1 ≠ lc.el) := by
      rw [Half.queue_of_get? hl, List.filter_map]
      rfl
    obtain ⟨hwf', hqueue'⟩ := (h.half side).keep hmem
      (l := l.filter (fun e => e.el ≠ lc.el)) (by
        rw [hfilter]
        exact fun e he => (h.half side).levels.positive _ e (List.mem_of_mem_filter he))
    have hwf := (H.remove target lc.el).wf
    rw [hplace]
    dsimp only
    rw [hbuy, hl]
    dsimp only
    refine ⟨fun s => ?_, fun s => ?_, fun i => ?_, ?_⟩
    · show ((b.putOwn (buys side) _).own (buys s)).WF
      rw [Book.own_putOwn]
      split_ifs
      · exact hwf'
      · exact h.half s
    · show ((b.putOwn (buys side) _).own (buys s)).ladder s = _
      rw [Book.own_putOwn]
      by_cases hs : s = side
      · subst hs
        rw [if_pos rfl]
        refine Ladder.WF.ext (hwf'.wf_ladder s) (hwf.side s) (fun p => ?_)
        rw [H.queueAt_remove hplace, hwf'.queueAt, hqueue', ← h.ladder, (h.half s).queueAt, hfilter]
        by_cases hp : p = lc.price
        · rw [if_pos hp, if_pos ⟨rfl, hp⟩, hp]
        · rw [if_neg hp, if_neg (fun h => hp h.2)]
      · rw [if_neg hs, h.ladder]
        refine Ladder.WF.ext (H.wf.side s) (hwf.side s) (fun p => ?_)
        rw [H.queueAt_remove hplace, if_neg (fun h => hs h.1)]
    · show ((b.index.erase target).get? i).map Loc.place = if i = target then none else H.index i
      rw [Dict.get?_erase, ← h.index]
      split_ifs <;> rfl
    · show (b.putOwn (buys side) _).nextEl = H.next
      rw [Book.nextEl_putOwn]
      exact h.next

/-- **Every call is a call of the book of nodes**, for ids of any kind: it
returns, and dereferences no nil pointer. -/
theorem Book.Shows.call {b : Book ι} {H : Handles ι} (h : b.Shows H) (c : Call ι) :
    ∃ b', b.call c = .ok (b', (H.step c).2) ∧ b'.Shows (H.step c).1 := by
  cases c with
  | limit oid side px qty =>
    obtain ⟨b₁, hb₁, h₁⟩ := h.match side px qty true
    have hcall : b.call (.limit oid side px qty)
        = .ok (if 0 < (H.book.sweep side (some px) qty).unfilled then
              b₁.rest oid (buys side) px (H.book.sweep side (some px) qty).unfilled else b₁,
            (H.step (.limit oid side px qty)).2) := by
      show b.limit oid (buys side) px qty = _
      unfold Book.limit
      rw [hb₁]
      rfl
    refine ⟨_, hcall, ?_⟩
    show (if _ then _ else _ : Book ι).Shows (H.limit oid side px qty)
    unfold Handles.limit
    split_ifs with hun
    · exact h₁.rest side px oid hun _
    · exact h₁
  | market oid side qty =>
    obtain ⟨b₁, hb₁, h₁⟩ := h.match side 0 qty false
    refine ⟨b₁, ?_, h₁⟩
    show b.market (buys side) qty = _
    unfold Book.market
    rw [hb₁]
    rfl
  | cancel target => exact ⟨_, rfl, h.cancel target⟩

end GoEngine
