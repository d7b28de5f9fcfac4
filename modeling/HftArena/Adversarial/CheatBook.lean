import HftArena.Engine.PythonTop
import HftArena.Wire.JsonText
import HftArena.Wire.PyHandle

/-!
# An engine that cheats: `CheatBook`

The book of `tests/adversarial/cheater.py`, which fills the newest order of a
price first. Its fields and its `_rest` are those of the reference engine;
`_match` goes through a level from its end, and `cancel` leaves a level without
orders where it is, for `_match` to remove.

The cheat is understood through a mirror: if at each price the orders are
turned round, the cheat's match is the reference engine's (`match_mirror`), so
that nothing about its loops has to be proved a second time.

On a level that is better than all others two orders are filled the wrong way
round (`limit_sell_top`): the second is taken, and some of the first.
-/

open PriceTime PyEngine Wire

namespace Cheater

/-- `__init__` makes what that of the reference engine makes, and `_rest` is
the same, so the type is the same too; only the methods below are its own. -/
abbrev CheatBook (ι : Type) : Type := OrderBook ι

variable {ι : Type} [DecidableEq ι]

/-- One turn of `while qty > 0`: the makers of the level from the newest on. -/
def matchTurn (crosses : ℤ → Bool) (best : List ℤ → Option ℤ) (st : MatchState ι) :
    Except PyError (Turn (MatchState ι) (MatchState ι)) :=
  if 0 < st.qty then
    match best st.half.prices with
    | none => .ok (.done st)
    | some b =>
      if crosses b then do
        let lvl ← index st.half.levels b
        let r ← matchMakers b lvl.keys.reverse ⟨lvl, st.resting, st.fills, st.qty⟩
        .ok (.again ⟨(st.half.write b r.level).removeLevelIfEmpty b, r.resting, r.fills, r.qty⟩)
      else .ok (.done st)
  else .ok (.done st)

/-- `_match`. -/
def CheatBook.match (b : CheatBook ι) (side : String) (limitPx : Option ℤ) (qty : ℤ) :
    Except PyError (List (Fill ι) × ℤ × CheatBook ι) := do
  let h := b.half (makerSide side)
  let st ← loop .diverges (matchTurn (crosses side limitPx) (bestOf side))
    (h.prices.length + 1) ⟨h, b.resting, [], qty⟩
  .ok (st.fills, st.qty, { b.putHalf (makerSide side) st.half with resting := st.resting })

/-- `limit`: it matches, and what stays unfilled comes to rest. -/
def CheatBook.limit (b : CheatBook ι) (oid : ι) (side : String) (px qty : ℤ) :
    Except PyError (CheatBook ι × List (Fill ι)) := do
  let (fills, rem, b') ← b.match side (some px) qty
  .ok (if 0 < rem then b'.rest side px oid rem else b', fills)

/-- `market`: it matches without a limit, and the rest is dropped. -/
def CheatBook.market (b : CheatBook ι) (side : String) (qty : ℤ) :
    Except PyError (CheatBook ι × List (Fill ι)) := do
  let (fills, _, b') ← b.match side none qty
  .ok (b', fills)

/-- `cancel`: a level that it empties stays, where the reference engine would
remove it. -/
def CheatBook.cancel (b : CheatBook ι) (target : ι) : CheatBook ι :=
  match b.resting.get? target with
  | none => b
  | some (side, price) =>
    let b' : CheatBook ι := { b with resting := b.resting.erase target }
    let h := b.half side
    match h.levels.get? price with
    | some lvl =>
      if !lvl.entries.isEmpty ∧ target ∈ lvl.keys then
        b'.putHalf side (h.write price (lvl.erase target))
      else b'
    | none => b'

/-- One call, with the fills it returns. -/
def CheatBook.call (b : CheatBook ι) : PyCall ι → Except PyError (CheatBook ι × List (Fill ι))
  | .limit oid side px qty => b.limit oid side px qty
  | .market _ side qty => b.market side qty
  | .cancel target => .ok (b.cancel target, [])

/-- **`handle`, for one frame.** It reads JSON only, takes every type that it
does not know for a cancel, and raises where a field is missing, when the
acknowledgement is sent already. What is read may raise, or be skipped;
`nothing` is what `None` is as an id. The book that a method which raises
leaves behind is not modelled. -/
def CheatBook.onFrame [PyId ι] (loads : Frame → Except Unit (Option (PyMessage ι))) (nothing : ι)
    (b : CheatBook ι) (now : Instant) (f : Frame) : FrameOutcome (CheatBook ι) Frame :=
  match loads f with
  | .error _ => ⟨b, [], false⟩
  | .ok none => ⟨b, [], true⟩
  | .ok (some m) =>
    match m.t, m.id with
    | some t, some oid =>
      let ack := Frame.text (ackText oid now)
      let raises : FrameOutcome (CheatBook ι) Frame := ⟨b, [ack], false⟩
      let called := fun r : Except PyError (CheatBook ι × List (Fill ι)) =>
        match r with
        | .ok (b', fills) => ⟨b', ack :: fills.map (fun f => .text (fillText oid f)), true⟩
        | .error _ => raises
      if t = "limit" then
        match m.side, m.px, m.qty with
        | some side, some px, some qty => called (b.limit oid side px qty)
        | _, _, _ => raises
      else if t = "market" then
        match m.side, m.qty with
        | some side, some qty => called (b.market side qty)
        | _, _ => raises
      -- every other type is a cancel, also one without a target
      else called (.ok (b.cancel (m.target.getD nothing), []))
    | _, _ => ⟨b, [], true⟩

/-! ## The mirror

A level that is read from its end is the mirrored level read from its
beginning, and nothing else in the match depends on which way round a level
stands. -/

/-- A level with its orders the other way round. -/
def mirrorLevel (level : Dict ι ℤ) : Dict ι ℤ :=
  ⟨level.entries.reverse, by
    rw [List.map_reverse, List.nodup_reverse]
    exact level.nodup⟩

omit [DecidableEq ι] in
@[simp] theorem entries_mirrorLevel (level : Dict ι ℤ) :
    (mirrorLevel level).entries = level.entries.reverse := rfl

omit [DecidableEq ι] in
/-- The mirror image of the mirror image is the level. -/
theorem mirrorLevel_mirrorLevel (level : Dict ι ℤ) : mirrorLevel (mirrorLevel level) = level :=
  Dict.ext level.entries.reverse_reverse

omit [DecidableEq ι] in
/-- The ids come in the other order. -/
theorem keys_mirrorLevel (level : Dict ι ℤ) : (mirrorLevel level).keys = level.keys.reverse :=
  List.map_reverse

omit [DecidableEq ι] in
@[simp] theorem isEmpty_mirrorLevel (level : Dict ι ℤ) :
    (mirrorLevel level).entries.isEmpty = level.entries.isEmpty := List.isEmpty_reverse

/-- An id finds the same amount. -/
theorem get?_mirrorLevel (level : Dict ι ℤ) (i : ι) :
    (mirrorLevel level).get? i = level.get? i := by
  refine Option.ext (fun a => ?_)
  rw [Dict.get?_eq_some_iff, Dict.get?_eq_some_iff]
  exact List.mem_reverse

/-- To erase and to mirror can be done in either order. -/
theorem erase_mirrorLevel (level : Dict ι ℤ) (i : ι) :
    (mirrorLevel level).erase i = mirrorLevel (level.erase i) :=
  Dict.ext List.filter_reverse

/-- An order that is there is written where it stands. -/
theorem set_mirrorLevel {level : Dict ι ℤ} {i : ι} (hi : i ∈ level.keys) (a : ℤ) :
    (mirrorLevel level).set i a = mirrorLevel (level.set i a) := by
  obtain ⟨before, e, after, hentries, rfl⟩ :
      ∃ before e after, level.entries = before ++ e :: after ∧ e.1 = i := by
    obtain ⟨e, he, rfl⟩ := List.mem_map.mp hi
    obtain ⟨before, after, h⟩ := List.append_of_mem he
    exact ⟨before, e, after, h, rfl⟩
  have hnodup := level.nodup
  rw [hentries, List.map_append, List.map_cons, List.nodup_middle, List.nodup_cons,
    List.mem_append, not_or] at hnodup
  -- the id stands once, so it is written between the same two parts
  have hset : ∀ {l l' : List (ι × ℤ)}, e.1 ∉ l.map Prod.fst →
      Dict.setEntries e.1 a (l ++ e :: l') = l ++ (e.1, a) :: l' := by
    intro l l' hl
    induction l with
    | nil => exact if_pos rfl
    | cons x l ih =>
      rw [List.map_cons, List.mem_cons, not_or] at hl
      rw [List.cons_append, Dict.setEntries, if_neg (Ne.symm hl.1), ih hl.2, List.cons_append]
  refine Dict.ext ?_
  show Dict.setEntries e.1 a level.entries.reverse = (Dict.setEntries e.1 a level.entries).reverse
  have hafter : e.1 ∉ after.reverse.map Prod.fst := by
    rw [List.map_reverse, List.mem_reverse]
    exact hnodup.1.2
  rw [hentries, hset hnodup.1.1, List.reverse_append, List.reverse_append, List.reverse_cons,
    List.reverse_cons, List.append_assoc, List.append_assoc, List.singleton_append,
    List.singleton_append, hset hafter]

/-- All levels of a side, each the other way round. -/
def mirrorLevels (levels : Dict ℤ (Dict ι ℤ)) : Dict ℤ (Dict ι ℤ) :=
  levels.mapValues (fun _ => mirrorLevel)

omit [DecidableEq ι] in
theorem get?_mirrorLevels (levels : Dict ℤ (Dict ι ℤ)) (p : ℤ) :
    (mirrorLevels levels).get? p = (levels.get? p).map mirrorLevel :=
  levels.get?_mapValues _ p

omit [DecidableEq ι] in
theorem mirrorLevels_mirrorLevels (levels : Dict ℤ (Dict ι ℤ)) :
    mirrorLevels (mirrorLevels levels) = levels := by
  refine Dict.ext ?_
  show (levels.entries.map _).map _ = _
  rw [List.map_map]
  refine (List.map_congr_left (fun e _ => ?_)).trans (List.map_id _)
  exact Prod.ext rfl (mirrorLevel_mirrorLevel e.2)

omit [DecidableEq ι] in
theorem set_mirrorLevels (levels : Dict ℤ (Dict ι ℤ)) (p : ℤ) (level : Dict ι ℤ) :
    (mirrorLevels levels).set p (mirrorLevel level) = mirrorLevels (levels.set p level) := by
  refine Dict.ext ?_
  show Dict.setEntries p _ (levels.entries.map _) = (Dict.setEntries p _ levels.entries).map _
  induction levels.entries with
  | nil => rfl
  | cons e l ih =>
    rw [List.map_cons, Dict.setEntries, Dict.setEntries]
    split_ifs
    · rfl
    · rw [ih, List.map_cons]

/-- A side in the mirror. -/
def mirrorHalf (h : Half ι) : Half ι := ⟨mirrorLevels h.levels, h.prices⟩

/-- **The book in the mirror**: at each price the newest order is the
oldest. -/
def mirror (b : OrderBook ι) : OrderBook ι :=
  { b with bidLevels := mirrorLevels b.bidLevels, askLevels := mirrorLevels b.askLevels }

/-- What the loop over the makers mutates, in the mirror. -/
def mirrorState (st : LevelState ι) : LevelState ι := { st with level := mirrorLevel st.level }

/-- What the matching loop mutates, in the mirror. -/
def mirrorMatch (st : MatchState ι) : MatchState ι := { st with half := mirrorHalf st.half }

/-- The makers are served as they come, whichever way round they stand. -/
theorem matchMakers_mirror (best : ℤ) (ids : List ι) (level : Dict ι ℤ)
    (resting : Dict ι (String × ℤ)) (fills : List (Fill ι)) (qty : ℤ) :
    matchMakers best ids ⟨mirrorLevel level, resting, fills, qty⟩
      = (matchMakers best ids ⟨level, resting, fills, qty⟩).map mirrorState := by
  induction ids generalizing level resting fills qty with
  | nil => rfl
  | cons i ids ih =>
    rw [matchMakers, matchMakers, index, index, get?_mirrorLevel]
    cases hget : level.get? i with
    | none => rfl
    | some a =>
      simp only [bind, Except.bind]
      rw [erase_mirrorLevel, set_mirrorLevel (Dict.mem_keys_of_get? hget)]
      generalize (if qty < a then qty else a) = trade
      by_cases hmaker : a - trade = 0
      · rw [if_pos hmaker, if_pos hmaker]
        split_ifs
        · rfl
        · exact ih ..
      · rw [if_neg hmaker, if_neg hmaker]
        split_ifs
        · rfl
        · exact ih ..

omit [DecidableEq ι] in
theorem write_mirrorHalf (h : Half ι) (p : ℤ) (level : Dict ι ℤ) :
    ((mirrorHalf h).write p (mirrorLevel level)).removeLevelIfEmpty p
      = mirrorHalf ((h.write p level).removeLevelIfEmpty p) := by
  have herase : ∀ levels : Dict ℤ (Dict ι ℤ), (mirrorLevels levels).erase p
      = mirrorLevels (levels.erase p) := fun levels => Dict.ext List.filter_map
  unfold Half.write Half.removeLevelIfEmpty mirrorHalf
  dsimp only
  rw [set_mirrorLevels, get?_mirrorLevels, Dict.get?_set, if_pos rfl, Option.map_some,
    Option.getD_some, Option.getD_some, isEmpty_mirrorLevel, herase]
  split_ifs <;> rfl

/-- **One turn is the one of the reference engine in the mirror.** -/
theorem matchTurn_eq (crosses : ℤ → Bool) (best : List ℤ → Option ℤ) (st : MatchState ι) :
    matchTurn crosses best (mirrorMatch st)
      = (PyEngine.matchTurn crosses best st).map (Turn.map mirrorMatch mirrorMatch) := by
  obtain ⟨⟨levels, prices⟩, resting, fills, qty⟩ := st
  show matchTurn crosses best ⟨⟨mirrorLevels levels, prices⟩, resting, fills, qty⟩ = _
  unfold matchTurn PyEngine.matchTurn
  dsimp only
  split_ifs with hqty
  · cases best prices with
    | none => rfl
    | some b =>
      dsimp only
      split_ifs with hcross
      · rw [index, index, get?_mirrorLevels]
        cases levels.get? b with
        | none => rfl
        | some level =>
          show (matchMakers b (mirrorLevel level).keys.reverse ⟨mirrorLevel level, resting, fills, qty⟩
            >>= _) = _
          rw [keys_mirrorLevel, List.reverse_reverse, matchMakers_mirror]
          simp only [bind, Except.bind, Except.map]
          cases matchMakers b level.keys ⟨level, resting, fills, qty⟩ with
          | error e => rfl
          | ok r =>
            exact congrArg (fun h => Except.ok (Turn.again (⟨h, _, _, _⟩ : MatchState ι)))
              (write_mirrorHalf ⟨levels, prices⟩ b r.level)
      · rfl
  · rfl

/-- **`_match` is the one of the reference engine in the mirror**: it makes the
same fills on the mirror image of a book, and leaves the mirror image of what
that one leaves. -/
theorem match_mirror (b : OrderBook ι) (side : String) (limitPx : Option ℤ) (qty : ℤ) :
    CheatBook.match (mirror b) side limitPx qty
      = (b.match side limitPx qty).map (fun r => (r.1, r.2.1, mirror r.2.2)) := by
  have hhalf : ∀ s, (mirror b).half s = mirrorHalf (b.half s) := by
    intro s
    unfold OrderBook.half
    split_ifs <;> rfl
  have hput : ∀ (b : OrderBook ι) s h, (mirror b).putHalf s (mirrorHalf h)
      = mirror (b.putHalf s h) := by
    intro b s h
    unfold OrderBook.putHalf
    split_ifs <;> rfl
  unfold CheatBook.match OrderBook.match
  dsimp only
  -- the two loops take the same turns, in the mirror
  have hloop := @loop_map _ _ _ _ _ PyError.diverges _ _ mirrorMatch mirrorMatch
    (matchTurn_eq (crosses side limitPx) (bestOf side)) ((b.half (makerSide side)).prices.length + 1)
    ⟨b.half (makerSide side), b.resting, [], qty⟩
  rw [hhalf]
  show (loop _ _ ((b.half (makerSide side)).prices.length + 1)
    (mirrorMatch ⟨b.half (makerSide side), b.resting, [], qty⟩) >>= _) = _
  rw [hloop]
  cases loop PyError.diverges _ _ (⟨b.half (makerSide side), b.resting, [], qty⟩ : MatchState ι) with
  | error e => rfl
  | ok st =>
    show Except.ok (st.fills, st.qty, ({ (mirror b).putHalf (makerSide side) (mirrorHalf st.half)
      with resting := st.resting } : OrderBook ι)) = _
    rw [hput]
    rfl

/-! ## A level on top of the bids

The level of an iteration of the probe: its makers come to rest on a price of
their own, and a sell is matched with them. -/

/-- A match that does nothing. -/
theorem match_idle (b : CheatBook ι) {side : String} {limitPx : Option ℤ} {qty : ℤ}
    (h : ∀ best ∈ bestOf side (b.half (makerSide side)).prices,
      crosses side limitPx best = false) :
    b.match side limitPx qty = .ok ([], qty, b) := by
  have hturn : matchTurn (crosses side limitPx) (bestOf side)
      ⟨b.half (makerSide side), b.resting, [], qty⟩
      = .ok (.done ⟨b.half (makerSide side), b.resting, [], qty⟩) := by
    unfold matchTurn
    split
    · dsimp only
      cases hbest : bestOf side (b.half (makerSide side)).prices with
      | none => rfl
      | some best =>
        dsimp only
        rw [h best hbest]
        rfl
    · rfl
  unfold CheatBook.match
  dsimp only
  rw [loop, hturn]
  show Except.ok ([], qty, _) = _
  rw [b.putHalf_half]

/-- **A buy that crosses no ask rests**, as it does on the book of the
reference engine. -/
theorem limit_eq_of_lt {b : CheatBook ι} {px : ℤ} (hasks : ∀ p ∈ b.askPrices, px < p) (oid : ι)
    (qty : ℤ) : b.limit oid "buy" px qty = OrderBook.limit b oid "buy" px qty := by
  have hidle : b.match "buy" (some px) qty = .ok ([], qty, b) := by
    refine match_idle b (fun best hbest => ?_)
    have hlt : px < best := hasks best (List.mem_of_head? hbest)
    simpa [crosses] using hlt
  unfold CheatBook.limit OrderBook.limit
  rw [hidle, match_buy_of_lt hasks]

variable {level : Dict ι ℤ}

/-- **A sell takes the second of two orders, and some of the first.** -/
theorem limit_sell_top (b : CheatBook ι) (px : ℤ) (resting : Dict ι (String × ℤ)) (oid : ι)
    {a m : ι} {x y z : ℤ} (hlevel : level.entries = [(a, x), (m, y)]) (hy : 0 < y) (hyz : y < z)
    (hzx : z < x + y) :
    ∃ level', level'.entries = [(a, x + y - z)]
      ∧ CheatBook.limit (b.withTop px level resting) oid "sell" px z
        = .ok (b.withTop px level' (resting.erase m), [⟨px, y, m⟩, ⟨px, z - y, a⟩]) := by
  -- the level is put on top of the mirror image, where the reference engine
  -- sells into it
  have hmirror : ∀ level resting, mirror ((mirror b).withTop px level resting)
      = b.withTop px (mirrorLevel level) resting := by
    intro level resting
    unfold mirror OrderBook.withTop
    dsimp only
    rw [← set_mirrorLevels, mirrorLevels_mirrorLevels, mirrorLevels_mirrorLevels]
  obtain ⟨level', hlevel', hmatch⟩ := match_sell_top (mirror b) px resting
    (show (mirrorLevel level).entries = [(m, y), (a, x)] by
      rw [entries_mirrorLevel, hlevel]
      rfl) hy hyz (by rwa [add_comm])
  refine ⟨mirrorLevel level', ?_, ?_⟩
  · rw [entries_mirrorLevel, hlevel', add_comm y x]
    rfl
  · have hcheat := match_mirror ((mirror b).withTop px (mirrorLevel level) resting) "sell" (some px) z
    rw [hmatch, hmirror, mirrorLevel_mirrorLevel] at hcheat
    rw [CheatBook.limit, hcheat]
    show Except.ok (mirror ((mirror b).withTop px level' (resting.erase m)), _) = _
    rw [hmirror]

end Cheater
