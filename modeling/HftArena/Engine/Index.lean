import HftArena.Engine.Cpp
import HftArena.Engine.Go
import HftArena.Lib.System

/-!
# What the indexes name

The C++ and the Go engine keep, for an id, a pointer into the list of a price
level. No engine checks ids, so an id can be submitted again while it rests:
the index then names the newer order, and the older one stays linked without an
entry. What is safe whatever the ids is stated here of the engines' own
containers: an entry names a node of the level at its price, no two nodes have
one address, no level is empty (`CppEngine.OrderBook.Linked`,
`GoEngine.Book.Sound`). So a cancel takes out the node that its entry names and
no other, and no method fails.

Both are read off the book of nodes that the engine shows, whose structure
carries them (`PriceTime.Handles`); the work here is to say them of maps, lists
and slices.

The Go engine unlocks its mutex after the operation and not in a `defer`, so a
panic inside would leave it locked for good. `GoEngine.Server` is its
connections with the mutex between them: an operation that does not return
leaves its connection stuck and the mutex held, and the invariant is that this
does not happen (`Server.Inv`).
-/

open PriceTime

/-! ## C++

An iterator that is not valid is reached through by no method, since every
entry of the index names a node of its level. -/

namespace CppEngine

variable {ι : Type}

/-- A node is linked in the level of this price on this side. -/
def OrderBook.Holds (b : OrderBook ι) (buy : Bool) (price : ℤ) (n : Resting ι) : Prop :=
  ∃ lvl, (b.own buy).get? price = some lvl ∧ n ∈ lvl

variable [DecidableEq ι]

/-- **What is safe of the book whatever the ids.** It does not say that every
node has an entry, which is false once an id is reused. -/
structure OrderBook.Linked (b : OrderBook ι) : Prop where
  /-- An entry of the index designates a node that is linked in the level at
  its price on its side, and holds the id. -/
  entry : ∀ id loc, b.index.get? id = some loc →
    ∃ n, b.Holds (loc.side == 'b') loc.price n ∧ n.it = loc.it ∧ n.id = id
  /-- A node is in one level. -/
  unique : ∀ buy price n buy' price' n', b.Holds buy price n → b.Holds buy' price' n' →
    n.it = n'.it → buy = buy' ∧ price = price' ∧ n = n'
  /-- No level is empty. -/
  nonempty : ∀ buy price lvl, (b.own buy).get? price = some lvl → lvl ≠ []

omit [DecidableEq ι] in
theorem exists_buys (buy : Bool) : ∃ s, buy = buys s := by
  cases buy
  · exact ⟨.ask, rfl⟩
  · exact ⟨.bid, rfl⟩

omit [DecidableEq ι] in
theorem entry_injective : Function.Injective (Resting.entry : Resting ι → _) := by
  rintro ⟨it, id, qty⟩ ⟨it', id', qty'⟩ h
  cases h
  rfl

/-- What is linked in a level is what rests at its price. -/
theorem OrderBook.Shows.holds_iff {b : OrderBook ι} {H : Handles ι} (h : b.Shows H) (s : Side)
    (price : ℤ) (n : Resting ι) :
    b.Holds (buys s) price n ↔ n.entry ∈ Ladder.queueAt (H.book.ladder s) price := by
  rw [← h.ladder, (h.levels s).queueAt_ofMap, Ladder.mapQueue]
  unfold OrderBook.Holds
  cases (b.own (buys s)).get? price with
  | none => simp
  | some lvl => simp [entry_injective.eq_iff]

/-- The side of an entry, as a flag. -/
theorem OrderBook.Shows.index_place {b : OrderBook ι} {H : Handles ι} (h : b.Shows H) {id : ι}
    {loc : Loc} (hloc : b.index.get? id = some loc) :
    ∃ s, (loc.side == 'b') = buys s ∧ H.index id = some (s, loc.price, loc.it) := by
  have hindex := h.index id
  rw [hloc, Option.map_some] at hindex
  refine ⟨loc.place.1, ?_, hindex.symm⟩
  by_cases hc : loc.side = 'b' <;> simp [Loc.place, buys, hc]

/-- **A book of nodes is safe**: each condition is a field of the nodes, or of
their ladders being well formed. -/
theorem OrderBook.Shows.linked {b : OrderBook ι} {H : Handles ι} (h : b.Shows H) : b.Linked where
  entry id loc hloc := by
    obtain ⟨s, hside, hindex⟩ := h.index_place hloc
    obtain ⟨e, he, hkey⟩ := List.mem_map.mp (H.live id s loc.price loc.it hindex)
    refine ⟨⟨loc.it, id, e.2⟩, ?_, rfl, rfl⟩
    rw [hside, h.holds_iff]
    rwa [Resting.entry, ← hkey]
  unique buy price n buy' price' n' hn hn' hit := by
    obtain ⟨s, rfl⟩ := exists_buys buy
    obtain ⟨s', rfl⟩ := exists_buys buy'
    obtain ⟨rfl, rfl, hentry⟩ := H.node_unique ((h.holds_iff s price n).mp hn)
      ((h.holds_iff s' price' n').mp hn') hit
    exact ⟨rfl, rfl, entry_injective hentry⟩
  nonempty buy price lvl hlvl := by
    obtain ⟨s, rfl⟩ := exists_buys buy
    rintro rfl
    refine ((h.levels s).mem price).mp (SortedMap.mem_keys_iff.mpr ⟨_, hlvl⟩) ?_
    rw [Ladder.mapQueue_of_get? hlvl]
    rfl

/-- **A cancel erases the node that its entry designates**, and no other. -/
theorem OrderBook.Shows.holds_cancel {b : OrderBook ι} {H : Handles ι} (h : b.Shows H) {target : ι}
    {loc : Loc} (hloc : b.index.get? target = some loc) :
    ∃ b', b.call (.cancel target) = .ok (b', [])
      ∧ ∀ buy price n, b'.Holds buy price n ↔ b.Holds buy price n ∧ n.it ≠ loc.it := by
  obtain ⟨b', hb', h'⟩ := h.call (.cancel target)
  refine ⟨b', hb', fun buy price n => ?_⟩
  obtain ⟨s, -, hindex⟩ := h.index_place hloc
  obtain ⟨s', rfl⟩ := exists_buys buy
  rw [h'.holds_iff, h.holds_iff]
  exact H.mem_queueAt_cancel hindex s' price n.entry

/-- Every sequence of calls succeeds, and its book is a book of nodes. -/
theorem exists_run (ops : List (Call ι)) :
    ∃ b outs, run OrderBook.call .init ops = .ok (b, outs) ∧ ∃ H, b.Shows H :=
  run_inv_of_forall (fun b : OrderBook ι => ∃ H, b.Shows H)
    (fun b c ⟨H, h⟩ => by
      obtain ⟨b', hb', h'⟩ := h.call c
      exact ⟨b', _, hb', _, h'⟩)
    ⟨_, shows_init⟩ ops

/-- **The C++ index never points at a removed order.** After every sequence of
operations, whatever ids, prices and quantities they have, no iterator was
reached through that is not valid, each entry of the index designates a node
that is linked where the entry says and holds its id, no node is in two levels
and no level is empty; and a cancel of an id that has an entry unlinks the node
it designates and no other. -/
theorem index_never_stale (ops : List (Call UInt64)) :
    ∃ b outs, run OrderBook.call .init ops = .ok (b, outs) ∧ b.Linked
      ∧ ∀ target loc, b.index.get? target = some loc →
        ∃ b', b.call (.cancel target) = .ok (b', [])
          ∧ ∀ buy price n, b'.Holds buy price n ↔ b.Holds buy price n ∧ n.it ≠ loc.it := by
  obtain ⟨b, outs, hrun, H, h⟩ := exists_run ops
  exact ⟨b, outs, hrun, h.linked, fun target loc hloc => h.holds_cancel hloc⟩

end CppEngine

/-! ## Go

The same of the pointers to elements. A stale one would do no harm by itself,
but the order it was to remove would stay. -/

namespace GoEngine

variable {ι : Type}

/-- An element is in the list of the level of this price on this side. -/
def Book.Holds (b : Book ι) (buy : Bool) (price : ℤ) (e : Element ι) : Prop :=
  ∃ l, (b.own buy).levels.get? price = some l ∧ e ∈ l

variable [DecidableEq ι]

/-- **The links of the book**: slices, maps, lists and index agree. -/
structure Book.Sound (b : Book ι) : Prop where
  /-- The prices of a side ascend. -/
  ascending : ∀ buy, (b.own buy).prices.Pairwise (· < ·)
  /-- They are the keys of its map. -/
  keys : ∀ buy price, price ∈ (b.own buy).prices ↔ price ∈ (b.own buy).levels.keys
  /-- No level is empty or holds an order of no quantity. -/
  level : ∀ buy price l, (b.own buy).levels.get? price = some l → l ≠ [] ∧ ∀ e ∈ l, 0 < e.qty
  /-- An entry of the index names an element of the level at its price on its
  side, which holds the id. -/
  entry : ∀ id lc, b.index.get? id = some lc →
    ∃ e, b.Holds (lc.side == 'b') lc.price e ∧ e.el = lc.el ∧ e.id = id
  /-- An element is in one list. -/
  unique : ∀ buy price e buy' price' e', b.Holds buy price e → b.Holds buy' price' e' →
    e.el = e'.el → buy = buy' ∧ price = price' ∧ e = e'

omit [DecidableEq ι] in
theorem exists_buys (buy : Bool) : ∃ s, buy = buys s := by
  cases buy
  · exact ⟨.ask, rfl⟩
  · exact ⟨.bid, rfl⟩

omit [DecidableEq ι] in
theorem entry_injective : Function.Injective (Element.entry : Element ι → _) := by
  rintro ⟨el, id, qty⟩ ⟨el', id', qty'⟩ h
  cases h
  rfl

/-- What is in a list is what rests at its price. -/
theorem Book.Shows.holds_iff {b : Book ι} {H : Handles ι} (h : b.Shows H) (s : Side)
    (price : ℤ) (e : Element ι) :
    b.Holds (buys s) price e ↔ e.entry ∈ Ladder.queueAt (H.book.ladder s) price := by
  rw [← h.ladder, (h.half s).queueAt, Half.queue]
  unfold Book.Holds
  cases (b.own (buys s)).levels.get? price with
  | none => simp
  | some l => simp [entry_injective.eq_iff]

/-- The side of an entry, as a flag. -/
theorem Book.Shows.index_place {b : Book ι} {H : Handles ι} (h : b.Shows H) {id : ι} {lc : Loc}
    (hlc : b.index.get? id = some lc) :
    ∃ s, (lc.side == 'b') = buys s ∧ H.index id = some (s, lc.price, lc.el) := by
  have hindex := h.index id
  rw [hlc, Option.map_some] at hindex
  refine ⟨lc.place.1, ?_, hindex.symm⟩
  by_cases hc : lc.side = 'b' <;> simp [Loc.place, buys, hc]

/-- **A book of nodes is sound.** -/
theorem Book.Shows.sound {b : Book ι} {H : Handles ι} (h : b.Shows H) : b.Sound where
  ascending buy := by
    obtain ⟨s, rfl⟩ := exists_buys buy
    exact (h.half s).levels.sorted
  keys buy price := by
    obtain ⟨s, rfl⟩ := exists_buys buy
    exact (h.half s).keys price
  level buy price l hl := by
    obtain ⟨s, rfl⟩ := exists_buys buy
    have hqueue := Half.queue_of_get? hl
    have hprice := ((h.half s).keys price).mpr (Dict.mem_keys_of_get? hl)
    refine ⟨?_, fun e he => ?_⟩
    · rintro rfl
      exact ((h.half s).levels.mem price).mp hprice hqueue
    · exact (h.half s).levels.positive price e.entry (hqueue ▸ List.mem_map_of_mem he)
  entry id lc hlc := by
    obtain ⟨s, hside, hindex⟩ := h.index_place hlc
    obtain ⟨e, he, hkey⟩ := List.mem_map.mp (H.live id s lc.price lc.el hindex)
    refine ⟨⟨lc.el, id, e.2⟩, ?_, rfl, rfl⟩
    rw [hside, h.holds_iff]
    rwa [Element.entry, ← hkey]
  unique buy price e buy' price' e' he he' hel := by
    obtain ⟨s, rfl⟩ := exists_buys buy
    obtain ⟨s', rfl⟩ := exists_buys buy'
    obtain ⟨rfl, rfl, hentry⟩ := H.node_unique ((h.holds_iff s price e).mp he)
      ((h.holds_iff s' price' e').mp he') hel
    exact ⟨rfl, rfl, entry_injective hentry⟩

/-- **A cancel removes the element that its entry names**, and no other. -/
theorem Book.Shows.holds_cancel {b : Book ι} {H : Handles ι} (h : b.Shows H) {target : ι}
    {lc : Loc} (hlc : b.index.get? target = some lc) (buy : Bool) (price : ℤ) (e : Element ι) :
    (b.cancel target).Holds buy price e ↔ b.Holds buy price e ∧ e.el ≠ lc.el := by
  obtain ⟨s, -, hindex⟩ := h.index_place hlc
  obtain ⟨s', rfl⟩ := exists_buys buy
  rw [(h.cancel target).holds_iff, h.holds_iff]
  exact H.mem_queueAt_cancel hindex s' price e.entry

/-- Every sequence of calls succeeds, and its book is a book of nodes. -/
theorem exists_run (ops : List (Call ι)) :
    ∃ b outs, run Book.call newBook ops = .ok (b, outs) ∧ ∃ H, b.Shows H :=
  run_inv_of_forall (fun b : Book ι => ∃ H, b.Shows H)
    (fun b c ⟨H, h⟩ => by
      obtain ⟨b', hb', h'⟩ := h.call c
      exact ⟨b', _, hb', _, h'⟩)
    ⟨_, shows_newBook⟩ ops

/-- **`match` dereferences no nil pointer and ends**: at every state that its
loop passes through, `opp[best]` is there. -/
theorem Book.Shows.match_turns {b : Book ι} {H : Handles ι} (h : b.Shows H) (buy : Bool)
    (limitPx qty : ℤ) (hasLimit : Bool) :
    (∃ r, b.match buy limitPx qty hasLimit = .ok r)
      ∧ ∀ st, Visits (matchTurn buy limitPx hasLimit) ⟨b.own !buy, b.index, [], qty⟩ st →
        ∃ t, matchTurn buy limitPx hasLimit st = .ok t := by
  obtain ⟨side, rfl⟩ := exists_buys buy
  obtain ⟨b', hmatch, -⟩ := h.match side limitPx qty hasLimit
  obtain ⟨r, hloop, -⟩ := matchLoop_eq_sweep side limitPx hasLimit (h.half side.opp) b.index qty
  rw [buys_opp] at hloop
  exact ⟨⟨_, hmatch⟩, fun st hst => hst.turn_of_loop hloop⟩

/-! ### The mutex

A connection locks the mutex before an operation, and unlocks it after the
operation has returned. -/

/-- Where a connection is in its receive loop. An operation is a call of the
book, or none if the message has no type that the loop knows. -/
inductive Place (ι : Type) where
  /-- It waits for a frame. -/
  | reading
  /-- It waits for the mutex with the operation it was asked for. -/
  | locking (op : Option (Call ι))
  /-- It holds the mutex and is in the operation. -/
  | operating (op : Option (Call ι))
  /-- It left the operation by a panic, or never does. -/
  | stuck

/-- **The connections of the engine**, with the book and its mutex. -/
structure Server (ι : Type) where
  book : Book ι
  /-- The connection that holds `book.mu`. -/
  holder : Option ℕ
  place : ℕ → Place ι

omit [DecidableEq ι] in
/-- No connection has sent anything. -/
def Server.init : Server ι := ⟨newBook, none, fun _ => .reading⟩

/-- What happens at a connection. -/
inductive ServerEvent (ι : Type) where
  /-- A frame arrived that asks for this. -/
  | frame (op : Option (Call ι))
  /-- `book.mu.Lock()` returns. -/
  | lock
  /-- The operation, and `book.mu.Unlock()` if it returns. -/
  | operate

/-- One event at connection `i`. Nothing unlocks the mutex if the operation
does not return. -/
def Server.step (s : Server ι) : ℕ × ServerEvent ι → Option (Server ι)
  | (i, .frame op) =>
    match s.place i with
    | .reading => some { s with place := Function.update s.place i (.locking op) }
    | _ => none
  | (i, .lock) =>
    match s.place i, s.holder with
    | .locking op, none =>
      some { s with holder := some i, place := Function.update s.place i (.operating op) }
    | _, _ => none
  | (i, .operate) =>
    match s.place i with
    | .operating none =>
      some { s with holder := none, place := Function.update s.place i .reading }
    | .operating (some c) =>
      match s.book.call c with
      | .ok (b', _) => some ⟨b', none, Function.update s.place i .reading⟩
      | .error _ => some { s with place := Function.update s.place i .stuck }
    | _ => none

/-- What holds between the connections: the book is a book of nodes, the holder
of the mutex is the one that is in an operation, and no connection is stuck. -/
structure Server.Inv (s : Server ι) : Prop where
  shows : ∃ H, s.book.Shows H
  holder : ∀ i, s.holder = some i ↔ ∃ op, s.place i = .operating op
  running : ∀ i, s.place i ≠ .stuck

/-- It holds before anything was sent. -/
theorem Server.inv_init : (Server.init : Server ι).Inv :=
  ⟨⟨_, shows_newBook⟩, fun i => by simp [Server.init], fun i => by simp [Server.init]⟩

/-- **An operation that is under way ends**, and the mutex is unlocked. -/
theorem Server.Inv.operate {s : Server ι} (h : s.Inv) {i : ℕ} (hi : s.holder = some i) :
    ∃ s', s.step (i, .operate) = some s' ∧ s'.holder = none
      ∧ s'.place = Function.update s.place i .reading ∧ ∃ H, s'.book.Shows H := by
  obtain ⟨op, hop⟩ := (h.holder i).mp hi
  obtain ⟨H, hH⟩ := h.shows
  unfold Server.step
  dsimp only
  rw [hop]
  cases op with
  | none => exact ⟨_, rfl, rfl, rfl, H, hH⟩
  | some c =>
    obtain ⟨b', hb', h'⟩ := hH.call c
    dsimp only
    rw [hb']
    exact ⟨_, rfl, rfl, rfl, _, h'⟩

/-- Every event keeps what holds between the connections: the mutex is taken by
one at a time, and given back since the operation returns. -/
theorem Server.Inv.step {s s' : Server ι} (h : s.Inv) {e : ℕ × ServerEvent ι}
    (hstep : s.step e = some s') : s'.Inv := by
  obtain ⟨i, e⟩ := e
  cases e with
  | frame op =>
    simp only [Server.step] at hstep
    split at hstep
    case h_1 hplace =>
      cases hstep
      refine ⟨h.shows, fun j => ?_, fun j => ?_⟩ <;> by_cases hj : j = i
      · subst hj
        simp [h.holder, hplace]
      · simp [h.holder, Function.update_of_ne hj]
      · subst hj
        simp
      · simpa [Function.update_of_ne hj] using h.running j
    case h_2 => cases hstep
  | lock =>
    simp only [Server.step] at hstep
    split at hstep
    case h_1 op hplace hfree =>
      cases hstep
      refine ⟨h.shows, fun j => ?_, fun j => ?_⟩ <;> by_cases hj : j = i
      · subst hj
        simp
      · -- the mutex was free, so no other connection is in an operation
        have hnot := h.holder j
        rw [hfree] at hnot
        simp only [Function.update_of_ne hj, ← hnot, Option.some_inj, Ne.symm hj, reduceCtorEq]
      · subst hj
        simp
      · simpa [Function.update_of_ne hj] using h.running j
    case h_2 => cases hstep
  | operate =>
    have hi : s.holder = some i := by
      rw [h.holder]
      simp only [Server.step] at hstep
      split at hstep
      case h_1 hplace => exact ⟨_, hplace⟩
      case h_2 hplace => exact ⟨_, hplace⟩
      case h_3 => cases hstep
    obtain ⟨t, ht, hfree, hplace, hshows⟩ := h.operate hi
    cases ht.symm.trans hstep
    refine ⟨hshows, fun j => ?_, fun j => ?_⟩ <;> rw [hplace] <;> by_cases hj : j = i
    · subst hj
      simp [hfree]
    · have hnot := h.holder j
      rw [hi, Option.some_inj] at hnot
      simp only [hfree, Function.update_of_ne hj, ← hnot, Ne.symm hj, reduceCtorEq]
    · subst hj
      simp
    · simpa [Function.update_of_ne hj] using h.running j

/-- **The Go book never panics while it holds the lock.** After every sequence
of operations, whatever ids, prices and quantities they have, no nil pointer
was dereferenced and every loop has ended; the slices, the maps, the lists and
the index agree; the loop of a `match` that follows finds `opp[best]` at every
turn and ends; and a cancel removes the element that its entry names and no
other. However the connections interleave, none is stuck, and the one that
holds the mutex comes to unlock it. -/
theorem book_never_panics :
    (∀ ops : List (Call UInt64), ∃ b outs, run Book.call newBook ops = .ok (b, outs) ∧ b.Sound
      ∧ (∀ buy limitPx qty hasLimit, (∃ r, b.match buy limitPx qty hasLimit = .ok r)
        ∧ ∀ st, Visits (matchTurn buy limitPx hasLimit) ⟨b.own !buy, b.index, [], qty⟩ st →
          ∃ t, matchTurn buy limitPx hasLimit st = .ok t)
      ∧ ∀ target lc, b.index.get? target = some lc → ∀ buy price e,
        (b.cancel target).Holds buy price e ↔ b.Holds buy price e ∧ e.el ≠ lc.el)
    ∧ ∀ (es : List (ℕ × ServerEvent UInt64)) s, exec Server.step .init es = some s →
      (∀ i, s.place i ≠ .stuck)
        ∧ ∀ i, s.holder = some i → ∃ s', s.step (i, .operate) = some s' ∧ s'.holder = none := by
  refine ⟨fun ops => ?_, fun es s hexec => ?_⟩
  · obtain ⟨b, outs, hrun, H, h⟩ := exists_run ops
    exact ⟨b, outs, hrun, h.sound, fun buy limitPx qty hasLimit =>
      h.match_turns buy limitPx qty hasLimit, fun target lc hlc => h.holds_cancel hlc⟩
  · have hinv : s.Inv := inv_of_exec Server.Inv hexec (fun _ _ _ h hstep => h.step hstep)
      Server.inv_init
    refine ⟨hinv.running, fun i hi => ?_⟩
    obtain ⟨s', hs', hfree, -⟩ := hinv.operate hi
    exact ⟨s', hs', hfree⟩

end GoEngine
