import HftArena.Wire.PyConnection

/-!
# What a reject leaves behind

`handle` of `reference_engine_py/engine.py` has one `try` around the call of
the book, and rejects a message for whatever is raised in it. Nothing takes
back what the call did until then. Fields are looked up and made integers
before the book is called, a market order asks nothing of its id, and a cancel
looks its target up before it changes anything. A limit order that is to come
to rest has traded by then, and the level that it goes to has been made; if its
id has no hash, this is where it raises, and the fills are never sent.

`rejects_without_effect_iff` says that these are all the texts for which a
reject is not the whole of the effect. To see that the books differ it is
enough to see one side differ: a side that was traded with has fewer levels
afterwards, and a side on which a level was opened has that level.
-/

open PriceTime Wire

namespace PyEngine

variable {ι : Type}

/-- A frame that rejects an order: a text of the shape that the handler gives
its rejects, whatever the id and the reason. -/
def IsReject : Frame → Prop
  | .text s => ∃ oid reason, s = "\x7b\"reject\":" ++ oid ++ ",\"reason\":\"" ++ reason ++ "\"\x7d"
  | .binary _ => False

/-- **A limit order that changes the book before it comes to rest**: it is for
more than rests within its limit, and trades or goes to a level that is not
there. An order that is filled whole never comes to rest, and its id is never
asked for a hash. -/
def OrderBook.Unsettles (b : OrderBook ι) (side : String) (px qty : ℤ) : Prop :=
  PriceTime.total
      (Ladder.within ((sideOf side).opp.reaches (some px)) (b.ladder (sideOf side).opp)) < qty
    ∧ ((∃ best ∈ bestOf side (b.half (makerSide side)).prices, crosses side (some px) best = true)
      ∨ px ∉ (b.half side).prices)

/-- A call that is rejected with the book changed: such an order under an id
without a hash, an array or an object. -/
def PyState.Spoils (P : PyJson ι) (st : PyState ι) : PyRequest → Prop
  | .limit oid side px qty => P.hash oid = none ∧ st.book.Unsettles side px qty
  | _ => False

/-- **A text that is rejected with the book changed**: a message whose id can
be sent, and which asks for such a call. -/
def PyState.SpoilsText (P : PyJson ι) (st : PyState ι) (s : String) : Prop :=
  ∃ m t oid r, P.loads s = .value m ∧ m.item "t" = some t ∧ m.item "id" = some oid
    ∧ (P.text oid).isSome ∧ PyRequest.ofJson P m t oid = .ok r ∧ st.Spoils P r

/-! ## Which frames are rejects

They are told from other replies by the name of their first field. -/

/-- What the handler sends as a reject is one. -/
theorem isReject_reject (oid reason : String) : IsReject
    (.text ("\x7b\"reject\":" ++ oid ++ ",\"reason\":\"" ++ reason ++ "\"\x7d")) :=
  ⟨oid, reason, rfl⟩

/-- A text whose first key begins otherwise is no reject. -/
theorem not_isReject {c : Char} (hc : c ≠ 'r') {s : String} (hs : s.toList[2]? = some c) :
    ¬ IsReject (.text s) := by
  rintro ⟨oid, reason, rfl⟩
  simp only [String.toList_append] at hs
  exact hc (Option.some_inj.mp hs).symm

/-- An acknowledgement is no reject. -/
theorem not_isReject_ack (oid : String) (now : ℕ) : ¬ IsReject
    (.text ("\x7b\"ack\":" ++ oid ++ ",\"ts\":" ++ toString now ++ "\x7d")) := by
  refine not_isReject (c := 'a') (by decide) ?_
  simp only [String.toList_append]
  rfl

/-- Nor is a fill. -/
theorem PyState.not_isReject_fill {P : PyJson ι} {st : PyState ι} {oid : String} {side : Side}
    {f : Fill ι} {x : Frame} (hx : st.fillText P oid side f = some x) : ¬ IsReject x := by
  obtain ⟨maker, -, rfl⟩ := Option.map_eq_some_iff.mp hx
  refine not_isReject (c := 'f') (by decide) ?_
  simp only [String.toList_append]
  rfl

/-! ## What a call that raises leaves

A call that returns is not rejected, so only these matter: the book after them
is the one before, unless something was traded or a level was opened. -/

/-- The best price of the other side is the first of its ladder. -/
theorem OrderBook.bestOf_half (b : OrderBook ι) (side : String) :
    bestOf side (b.half (makerSide side)).prices
      = (b.ladder (sideOf side).opp).head?.map Prod.fst := by
  rw [bestOf_eq_head?, OrderBook.half_eq b (makerSide side), sideOf_makerSide, OrderBook.ladder,
    Half.ladder, Ladder.ofPrices, List.head?_map, Option.map_map]
  exact (congrFun Option.map_id _).symm

/-- More is wanted than rests within the limit exactly if something stays
unfilled. -/
theorem OrderBook.HalvesLoose.unfilled_pos_iff {b : OrderBook ι} (h : b.HalvesLoose)
    (side : String) (px qty : ℤ) :
    0 < (b.book.sweep (sideOf side) (some px) qty).unfilled
      ↔ PriceTime.total (Ladder.within ((sideOf side).opp.reaches (some px))
        (b.ladder (sideOf side).opp)) < qty := by
  have hpos : ∀ l ∈ b.ladder (sideOf side).opp, Positive l.2 := (h _).positive_ladder _
  rw [← PriceTime.unfilled_pos_iff (Ladder.positive_within hpos), Ladder.within,
    ← (Ladder.sweep_eq_serve _ _ _).2.2.1]
  rfl

/-- **An order that is to come to rest and has traded** leaves the other side
without the levels within its limit. -/
theorem OrderBook.ladder_ne_of_crosses {b b' : OrderBook ι} {side : String} {px qty best : ℤ}
    (hbook : b'.book
      = b.book.put (sideOf side).opp (b.book.sweep (sideOf side) (some px) qty).left)
    (hun : 0 < (b.book.sweep (sideOf side) (some px) qty).unfilled)
    (hbest : best ∈ bestOf side (b.half (makerSide side)).prices)
    (hcross : crosses side (some px) best = true) :
    b'.ladder (sideOf side).opp ≠ b.ladder (sideOf side).opp := by
  have hladder : b'.ladder (sideOf side).opp = _ :=
    congrFun (congrArg Book.ladder hbook) (sideOf side).opp
  rw [hladder, Book.ladder_put_self, Book.sweep, Ladder.sweep_left_of_unfilled_pos hun]
  rw [OrderBook.bestOf_half, Option.mem_def] at hbest
  rw [crosses_eq_reaches] at hcross
  obtain ⟨l, hl, rfl⟩ := Option.map_eq_some_iff.mp hbest
  obtain ⟨L, hL⟩ := List.head?_eq_some_iff.mp hl
  show (b.ladder (sideOf side).opp).dropWhile _ ≠ _
  rw [hL, List.dropWhile_cons_of_pos (by simpa using hcross)]
  -- the first level is gone, so there are fewer
  intro heq
  have hle := (List.dropWhile_sublist
    (l := L) (fun l => (sideOf side).opp.reaches (some px) l.1)).length_le
  rw [heq, List.length_cons] at hle
  omega

variable [DecidableEq ι]

/-- What is left of the state by a limit order that cannot come to rest. -/
theorem PyState.call_unhashed {P : PyJson ι} {st : PyState ι} {oid : JsonValue} {side : String}
    {px qty : ℤ} {b : OrderBook ι} {fills : List (Fill ι)} {remaining : ℤ}
    (hmatch : st.book.match side (some px) qty = .ok (fills, remaining, b)) (hun : 0 < remaining)
    (hhash : P.hash oid = none) : st.call P (.limit oid side px qty)
      = .ok (⟨b.putHalf side ((b.half side).openLevel px).1, st.held⟩, .error "TypeError") := by
  unfold PyState.call
  simp only [hmatch, bind, Except.bind]
  rw [if_pos hun, hhash]

/-- **The book after it** is the one before exactly if nothing was traded and
the level was there. -/
theorem OrderBook.HalvesLoose.opened_eq_iff {b b' : OrderBook ι} (h : b.HalvesLoose)
    {side : String} {px qty : ℤ} {fills : List (Fill ι)} {remaining : ℤ}
    (hmatch : b.match side (some px) qty = .ok (fills, remaining, b')) (hun : 0 < remaining) :
    b'.putHalf side ((b'.half side).openLevel px).1 = b ↔ ¬ b.Unsettles side px qty := by
  obtain ⟨b'', hmatch', hb', hbook, -, hown⟩ := h.match side (some px) qty
  cases hmatch.symm.trans hmatch'
  have hhalf : b'.half side = b.half side := by
    rw [OrderBook.half_eq b', OrderBook.half_eq b]
    exact hown
  unfold OrderBook.Unsettles
  rw [and_iff_right ((h.unfilled_pos_iff side px qty).mp hun), not_or]
  constructor
  · intro heq
    have hladder : ∀ s, (b'.putHalf side ((b'.half side).openLevel px).1).ladder s = b.ladder s :=
      fun s => congrArg (OrderBook.ladder · s) heq
    refine ⟨?_, not_not.mpr ?_⟩
    · -- a trade shows on the other side
      rintro ⟨best, hbest, hcross⟩
      have hopp := hladder (sideOf side).opp
      rw [OrderBook.ladder_putHalf, if_neg (Side.ne_opp _).symm] at hopp
      exact OrderBook.ladder_ne_of_crosses hbook hun hbest hcross hopp
    · -- an opened level shows on its own
      have hself := congrArg (OrderBook.half · (sideOf side).word) heq
      rw [OrderBook.half_putHalf, if_pos rfl, ← OrderBook.half_eq b] at hself
      rw [← hself]
      exact (((hb'.half side).openLevel px).2.1 px).mpr (Or.inl rfl)
  · rintro ⟨hidle, hlevel⟩
    -- without a trade the match does nothing
    have hsame : b' = b := by
      have hstay : b.match side (some px) qty = .ok ([], qty, b) :=
        b.match_idle (Or.inr (fun best hbest => by
          rw [← Bool.not_eq_true]
          exact fun hcross => hidle ⟨best, hbest, hcross⟩))
      rw [hmatch] at hstay
      exact (Prod.mk.inj (Prod.mk.inj (Except.ok.inj hstay)).2).2
    subst hsame
    obtain ⟨level, hget⟩ := (h.half side).get?.mp (not_not.mp hlevel)
    rw [Half.openLevel, hget]
    exact OrderBook.putHalf_half _ _

/-- **A call that raises** leaves the book as it was exactly if it does not
spoil. -/
theorem PyState.Sound.call_error {P : PyJson ι} {st st' : PyState ι} (h : st.Sound P)
    {r : PyRequest} {reason : String} (hcall : st.call P r = .ok (st', .error reason)) :
    st'.book = st.book ↔ ¬ st.Spoils P r := by
  cases r with
  | limit oid side px qty =>
    obtain ⟨b, hmatch, -⟩ := h.match side (some px) qty
    have hreturn := hcall
    unfold PyState.call at hreturn
    simp only [hmatch, bind, Except.bind] at hreturn
    by_cases hun : 0 < (st.book.book.sweep (sideOf side) (some px) qty).unfilled
    · rw [if_pos hun] at hreturn
      cases hhash : P.hash oid with
      | some i =>
        rw [hhash] at hreturn
        cases hreturn
      -- only this branch raises after the book was changed
      | none =>
        rw [PyState.call_unhashed hmatch hun hhash] at hcall
        cases hcall
        show _ ↔ ¬ (P.hash oid = none ∧ st.book.Unsettles side px qty)
        rw [and_iff_right hhash]
        exact h.loose.opened_eq_iff hmatch hun
    · rw [if_neg hun] at hreturn
      cases hreturn
  | market side qty =>
    obtain ⟨b, hmatch, -⟩ := h.match side none qty
    unfold PyState.call at hcall
    simp only [hmatch, bind, Except.bind] at hcall
    cases hcall
  | cancel target =>
    -- a cancel raises before it changes anything
    refine iff_of_true ?_ id
    unfold PyState.call at hcall
    dsimp only at hcall
    cases hhash : P.hash target with
    | some i =>
      rw [hhash] at hcall
      cases hcall
    | none =>
      rw [hhash] at hcall
      exact congrArg PyState.book (Prod.mk.inj (Except.ok.inj hcall)).1.symm

/-- A call that spoils raises. -/
theorem PyState.Sound.call_of_spoils {P : PyJson ι} {st : PyState ι} (h : st.Sound P)
    {r : PyRequest} (hspoils : st.Spoils P r) :
    ∃ st', st.call P r = .ok (st', .error "TypeError") := by
  cases r with
  | limit oid side px qty =>
    obtain ⟨hhash, hwant, -⟩ := hspoils
    obtain ⟨b, hmatch, -⟩ := h.match side (some px) qty
    exact ⟨_, PyState.call_unhashed hmatch ((h.loose.unfilled_pos_iff side px qty).mpr hwant) hhash⟩
  | market side qty => exact hspoils.elim
  | cancel target => exact hspoils.elim

/-! ## What a text that is rejected leaves

The class of the exception does not matter, and nor does what else was sent. -/

omit [DecidableEq ι] in
/-- What is sent is one of the messages, in whatever turn an exception ended
the sending. -/
theorem mem_of_mem_sendAll {xs : List (Option Frame)} {x : Frame} (hx : x ∈ (sendAll xs).1) :
    some x ∈ xs := by
  induction xs with
  | nil => cases hx
  | cons y ys ih =>
    cases y with
    | none => cases hx
    | some y =>
      rcases List.mem_cons.mp hx with rfl | hx
      · exact List.mem_cons_self
      · exact List.mem_cons_of_mem _ (ih hx)

/-- **A message that is rejected** leaves the book as it was, unless its call
spoils. -/
theorem PyState.Sound.onMessage_rejects {P : PyJson ι} {st : PyState ι} (h : st.Sound P)
    (now : Instant) (m t id : JsonValue) :
    ((∃ f ∈ (st.onMessage P now m t id).sent, IsReject f) →
        (st.onMessage P now m t id).book.book = st.book)
      ↔ ∀ r, (P.text id).isSome → PyRequest.ofJson P m t id = .ok r → ¬ st.Spoils P r := by
  unfold PyState.onMessage
  cases htext : P.text id with
  | none => exact iff_of_true (fun _ => rfl) (fun r hsome => by cases hsome)
  | some oid =>
    dsimp only
    cases hasked : PyRequest.ofJson P m t id with
    | error reason => exact iff_of_true (fun _ => rfl) (fun r _ hr => by cases hr)
    | ok request =>
      have hforall : (∀ r, (some oid).isSome →
          (Except.ok request : Except String PyRequest) = .ok r → ¬ st.Spoils P r)
          ↔ ¬ st.Spoils P request :=
        ⟨fun hall => hall request rfl rfl, fun hno r _ hr => Except.ok.inj hr ▸ hno⟩
      rw [hforall]
      have hraises : (¬ ∃ st', st.call P request = .ok (st', .error "TypeError")) →
          ¬ st.Spoils P request := fun hnot hspoils => hnot (h.call_of_spoils hspoils)
      dsimp only
      rcases hcall : st.call P request with (_ | _) | ⟨st', reason | fills⟩
      · refine iff_of_true (fun _ => rfl) (hraises ?_)
        rintro ⟨st', hst'⟩
        cases hcall.symm.trans hst'
      · refine iff_of_true (fun _ => rfl) (hraises ?_)
        rintro ⟨st', hst'⟩
        cases hcall.symm.trans hst'
      · rw [← h.call_error hcall]
        exact forall_prop_of_true
          ⟨_, List.mem_cons_of_mem _ List.mem_cons_self, isReject_reject oid reason⟩
      · -- the acknowledgement and the fills are no rejects
        refine iff_of_true ?_ (hraises ?_)
        · rintro ⟨f, hf, hreject⟩
          rcases List.mem_cons.mp hf with rfl | hf
          · exact absurd hreject (not_isReject_ack oid now)
          · obtain ⟨fill, -, hfill⟩ := List.mem_map.mp (mem_of_mem_sendAll hf)
            exact absurd hreject (PyState.not_isReject_fill hfill)
        · rintro ⟨st'', hst''⟩
          cases hcall.symm.trans hst''

/-- **A text that is rejected** leaves the book as it was, unless it spoils. -/
theorem PyState.Sound.handle_rejects {P : PyJson ι} {st : PyState ι} (h : st.Sound P)
    (now : Instant) (s : String) :
    ((∃ f ∈ (st.handle P now (.text s)).sent, IsReject f) →
        (st.handle P now (.text s)).book.book = st.book)
      ↔ ¬ st.SpoilsText P s := by
  unfold PyState.handle PyState.SpoilsText
  dsimp only
  cases hloads : P.loads s with
  | valueError =>
    refine iff_of_true (fun _ => rfl) ?_
    rintro ⟨m, t, oid, r, hm, -⟩
    cases hm
  | raises =>
    refine iff_of_true (fun _ => rfl) ?_
    rintro ⟨m, t, oid, r, hm, -⟩
    cases hm
  | value m =>
    -- what has a type and an id is an object
    cases m with
    | object fields =>
      dsimp only
      cases ht : (JsonValue.object fields).item "t" with
      | none =>
        refine iff_of_true (fun _ => rfl) ?_
        rintro ⟨m, t, oid, r, hm, hmt, -⟩
        cases hm
        cases ht.symm.trans hmt
      | some t =>
        cases hid : (JsonValue.object fields).item "id" with
        | none =>
          refine iff_of_true (fun _ => rfl) ?_
          rintro ⟨m, t, oid, r, hm, -, hmid, -⟩
          cases hm
          cases hid.symm.trans hmid
        | some id =>
          refine (h.onMessage_rejects now (.object fields) t id).trans ?_
          constructor
          · rintro hall ⟨m, t', oid, r, hm, hmt, hmid, htext, hr, hspoils⟩
            cases hm
            cases ht.symm.trans hmt
            cases hid.symm.trans hmid
            exact hall r htext hr hspoils
          · exact fun hno r htext hr hspoils =>
              hno ⟨.object fields, t, id, r, rfl, ht, hid, htext, hr, hspoils⟩
    | _ =>
      refine iff_of_true (fun _ => rfl) ?_
      rintro ⟨m, t, oid, r, hm, hmt, -⟩
      cases hm
      cases hmt

/-- **When a reject is the whole of the effect**: after any frames, on any text
that asks for something else than a limit order which changes the book before
it comes to rest under an id without a hash.

Whether such an order changes the book is read off the book before it: it finds
something to trade with, or no level at its price. -/
theorem rejects_without_effect_iff (P : PyJson ι) (past : List (Instant × Frame)) (now : Instant)
    (s : String) :
    let st := past.foldl (fun st x => (st.handle P x.1 x.2).book) PyState.init
    ((∃ f ∈ (st.handle P now (.text s)).sent, IsReject f) →
        (st.handle P now (.text s)).book.book = st.book)
      ↔ ¬ st.SpoilsText P s :=
  (PyState.Sound.foldl past (PyState.sound_init P)).handle_rejects now s

/-- A sell of five, and a buy of eight whose id is an array. -/
def sellThenBuy : PyJson ℤ where
  loads s :=
    if s = "\x7b\"t\":\"limit\",\"id\":1,\"side\":\"sell\",\"px\":10,\"qty\":5\x7d" then
      .value (.object [("t", .string "limit"), ("id", .int false 1), ("side", .string "sell"),
        ("px", .int false 10), ("qty", .int false 5)])
    else if s = "\x7b\"t\":\"limit\",\"id\":[],\"side\":\"buy\",\"px\":10,\"qty\":8\x7d" then
      .value (.object [("t", .string "limit"), ("id", .array []), ("side", .string "buy"),
        ("px", .int false 10), ("qty", .int false 8)])
    else .valueError
  key v := (asInt v).getD 0
  intOf _ := none
  repr _ := some "[]"

/-- **A rejected order that has traded**: the buy takes the five that rest, and
no fill is sent. -/
theorem rejected_after_trade :
    let past := [((0 : Instant), Frame.text
      "\x7b\"t\":\"limit\",\"id\":1,\"side\":\"sell\",\"px\":10,\"qty\":5\x7d")]
    let st := past.foldl (fun st x => (st.handle sellThenBuy x.1 x.2).book) PyState.init
    let o := st.handle sellThenBuy 1
      (.text "\x7b\"t\":\"limit\",\"id\":[],\"side\":\"buy\",\"px\":10,\"qty\":8\x7d")
    ¬ ((∃ f ∈ o.sent, IsReject f) → o.book.book = st.book)
      ∧ (st.book.half "sell").queue 10 = [(1, 5)] ∧ (o.book.book.half "sell").queue 10 = []
      ∧ o.sent.length = 2 := by
  have hqueues : ∀ b b' : OrderBook ℤ, (b.half "sell").queue 10 = [(1, 5)] →
      (b'.half "sell").queue 10 = [] → b' ≠ b := fun b b' h h' heq => by
    rw [heq, h] at h'
    cases h'
  refine ⟨fun h => hqueues _ _ ?_ ?_ (h ⟨_, List.mem_cons_of_mem _ List.mem_cons_self,
    isReject_reject "[]" "TypeError"⟩), ?_, ?_, ?_⟩
  all_goals decide

end PyEngine
