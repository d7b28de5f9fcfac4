import HftArena.Wire.Alike
import HftArena.Wire.JsonText
import HftArena.Wire.PyHandle

/-!
# The receive loop of the Python engine

`handle` of `reference_engine_py/engine.py` on a frame of any content, with the
values as the JSON library reads them: what it does with one frame ends either
at the next turn of the loop or with an exception that leaves it. Only the call
of the book is inside a `try` that takes every exception; unpacking a binary
frame, looking up the type and the id, the acknowledgement and the fills are
not.

Values that are equal are one key – `1`, `1.0` and `True` are – and what a fill
names is the value that came to rest under the key, so the state keeps that
value beside the book. Without a hash a value is no key: it raises when it
comes to rest, after a level was opened for it.

`PyState.Sound.handle` says which frames a connection survives, in any state
that frames lead to. There are two parts to it: that the state stays in order,
so that the book's own methods never raise for a key that is missing, and that
a frame is survived exactly if everything outside the `try` can be done
(`PyState.Withstands`). The state may hold a level without orders, and it is
for this reason that the books are those of `OrderBook.HalvesLoose` and not the
ones in which every level has an order.

On the binary frames that it answers, the handler of well-formed frames
(`OrderBook.onFrame`) does the same (`PyState.Sound.handle_of_onFrame`).
-/

open PriceTime Wire

namespace PyEngine

/-- What `json.loads` makes of a text. -/
inductive Loaded where
  | value (v : JsonValue)
  /-- A `ValueError`, as of a text that is not JSON. -/
  | valueError
  /-- Any other exception, as of a text that is nested too deep. -/
  | raises

/-- **What Python makes of texts and values.** The JSON library is a parameter,
and so are the conversions whose results depend on a value's digits or nesting;
the branches that the handler takes on them are not. -/
structure PyJson (ι : Type) where
  loads : String → Loaded
  /-- What a hashable value is as a key: equal values are one. -/
  key : JsonValue → ι
  /-- `int` of a string. -/
  intOf : String → Option ℤ
  /-- `str` of a float, an array or an object, which can raise. -/
  repr : JsonValue → Option String

variable {ι : Type}

namespace PyJson

/-- The values of the texts that have one. -/
def json (P : PyJson ι) (s : String) : Option JsonValue :=
  match P.loads s with
  | .value v => some v
  | _ => none

/-- A value as a key of a dictionary. Arrays and objects are lists and
dictionaries in Python, and have no hash. -/
def hash (P : PyJson ι) : JsonValue → Option ι
  | .array _ | .object _ => none
  | v => some (P.key v)

/-- What an f-string makes of a value, unless it raises or gives a string that
cannot be sent. -/
def text (P : PyJson ι) : JsonValue → Option String
  | .null => some "None"
  | .bool b => some (if b then "True" else "False")
  | .int minus digits => some (toString (JsonValue.ofDigits minus digits))
  | .nan => some "nan"
  | .infinity minus => some (if minus then "-inf" else "inf")
  | .string s => some s
  | .surrogates _ => none
  | v => P.repr v

/-- `int`, or the class of what it raises: what the reject says is its name. -/
def int (P : PyJson ι) : JsonValue → Except String ℤ
  | .bool b => .ok b.toInt
  | .int minus digits => .ok (JsonValue.ofDigits minus digits)
  | .float minus size => .ok (JsonValue.ofDigits minus size.floor.toNat)
  | .string s => (P.intOf s).elim (.error "ValueError") .ok
  | .nan | .surrogates _ => .error "ValueError"
  | .infinity _ => .error "OverflowError"
  | .null | .array _ | .object _ => .error "TypeError"

end PyJson

/-- What `struct` packs as an integer. -/
def asInt : JsonValue → Option ℤ
  | .bool b => some b.toInt
  | .int minus digits => some (JsonValue.ofDigits minus digits)
  | _ => none

/-- A call of the book, with the values it is called with. The ids are values
of any kind here, since the hash is asked for only by the book. -/
inductive PyRequest where
  | limit (oid : JsonValue) (side : String) (px qty : ℤ)
  | market (side : String) (qty : ℤ)
  | cancel (target : JsonValue)

/-- The call of a binary frame: what is neither 1 nor 2 is a cancel. -/
def PyRequest.ofBinary (r : Request) : PyRequest :=
  let side := if r.side = 0 then "buy" else "sell"
  if r.mtype = 1 then .limit (.int false r.id.toNat) side r.px r.qty
  else if r.mtype = 2 then .market side r.qty
  else .cancel (.int false r.target.toNat)

/-- The call of a message, or why it is rejected: what the `try` finds before
it calls the book. The fields are looked up in the order of the source, so that
the first that is missing, or is no number, decides the reason. -/
def PyRequest.ofJson (P : PyJson ι) (m t oid : JsonValue) : Except String PyRequest :=
  let item := fun name => (m.item name).elim (.error "KeyError") Except.ok
  if t.word = "limit" then do
    let side ← item "side"
    let px ← (item "px").bind P.int
    let qty ← (item "qty").bind P.int
    .ok (.limit oid side.word px qty)
  else if t.word = "market" then do
    let side ← item "side"
    let qty ← (item "qty").bind P.int
    .ok (.market side.word qty)
  else if t.word = "cancel" then do
    let target ← item "target"
    .ok (.cancel target)
  else .error "unknown type"

/-- **What the connections share**: the book, and the values that its keys
are. -/
structure PyState (ι : Type) where
  book : OrderBook ι
  /-- The value that came to rest first, of those that are one key at a
  level. -/
  held : Side → ℤ → ι → JsonValue

/-- Before any frame. -/
def PyState.init : PyState ι := ⟨.init, fun _ _ _ => .null⟩

/-- What is sent of a list of messages up to the first that raises, and whether
none does. -/
def sendAll : List (Option Frame) → List Frame × Bool
  | [] => ([], true)
  | none :: _ => ([], false)
  | some x :: xs => (x :: (sendAll xs).1, (sendAll xs).2)

/-- The value that a fill's maker is: what came to rest under its key at that
price. -/
def PyState.maker (st : PyState ι) (side : Side) (f : Fill ι) : JsonValue :=
  st.held side.opp f.px f.maker

/-- The side of the one who takes; a cancel takes nothing. -/
def PyRequest.side : PyRequest → Side
  | .limit _ side _ _ => sideOf side
  | .market side _ => sideOf side
  | .cancel _ => .bid

/-- A fill as a binary frame, unless `struct` raises. -/
def PyState.fillData (st : PyState ι) (oid : ℤ) (side : Side) (f : Fill ι) : Option Frame :=
  (asInt (st.maker side f)).bind
    (fun maker => (pack fillFormat [2, oid, f.px, f.qty, maker]).map .binary)

/-- A fill as a text, unless its maker has none that can be sent. -/
def PyState.fillText (P : PyJson ι) (st : PyState ι) (oid : String) (side : Side) (f : Fill ι) :
    Option Frame :=
  (P.text (st.maker side f)).map (fun maker => .text ("\x7b\"fill\":" ++ oid ++ ",\"px\":"
    ++ toString f.px ++ ",\"qty\":" ++ toString f.qty ++ ",\"maker\":" ++ maker ++ "\x7d"))

section handle

variable [DecidableEq ι]

/-- A value that comes to rest under a key, which is what the level keeps
unless it has the key. -/
def PyState.hold (st : PyState ι) (b : OrderBook ι) (side : String) (px : ℤ) (i : ι)
    (oid : JsonValue) : Side → ℤ → ι → JsonValue := fun s p k =>
  if s = sideOf side ∧ p = px ∧ k = i ∧ i ∉ ((b.half side).queue px).map Prod.fst then oid
  else st.held s p k

/-- **A call of the book**: the state after it, and the fills or the class of
the exception. The state that a `KeyError` leaves behind is not modelled. -/
def PyState.call (P : PyJson ι) (st : PyState ι) :
    PyRequest → Except PyError (PyState ι × Except String (List (Fill ι)))
  | .limit oid side px qty => do
    let (fills, remaining, b) ← st.book.match side (some px) qty
    .ok <|
      if 0 < remaining then
        match P.hash oid with
        | some i => (⟨b.rest side px i remaining, st.hold b side px i oid⟩, .ok fills)
        -- the level is made before the id is looked at
        | none => (⟨b.putHalf side ((b.half side).openLevel px).1, st.held⟩, .error "TypeError")
      else (⟨b, st.held⟩, .ok fills)
  | .market side qty => do
    let (fills, _, b) ← st.book.match side none qty
    .ok (⟨b, st.held⟩, .ok fills)
  | .cancel target =>
    .ok <|
      match P.hash target with
      | some i => (⟨(st.book.cancel i).1, st.held⟩, .ok [])
      -- an empty dictionary does not ask for a hash
      | none => (st, if st.book.resting.entries.isEmpty then .ok [] else .error "TypeError")

/-- `handle` of a binary request, from its acknowledgement on. There is no
`try` around the call here: whatever is raised ends the connection. -/
def PyState.onRequest (P : PyJson ι) (st : PyState ι) (r : Request) :
    Option (List UInt8) → FrameOutcome (PyState ι) Frame
  | none => ⟨st, [], false⟩
  | some ack =>
    let request := PyRequest.ofBinary r
    match st.call P request with
    | .ok (st', .ok fills) =>
      let sent := sendAll (fills.map (st.fillData r.id.toNat request.side))
      ⟨st', .binary ack :: sent.1, sent.2⟩
    | .ok (st', .error _) => ⟨st', [.binary ack], false⟩
    | .error _ => ⟨st, [.binary ack], false⟩

/-- `handle` of a message with a type and an id. What the call raises is
answered with a reject; what raises before it, or in the fills after it, ends
the connection. -/
def PyState.onMessage (P : PyJson ι) (st : PyState ι) (now : Instant) (m t id : JsonValue) :
    FrameOutcome (PyState ι) Frame :=
  match P.text id with
  | none => ⟨st, [], false⟩
  | some oid =>
    let ack := Frame.text ("\x7b\"ack\":" ++ oid ++ ",\"ts\":" ++ toString (now : ℕ) ++ "\x7d")
    let reject := fun reason =>
      Frame.text ("\x7b\"reject\":" ++ oid ++ ",\"reason\":\"" ++ reason ++ "\"\x7d")
    match PyRequest.ofJson P m t id with
    | .error reason => ⟨st, [ack, reject reason], true⟩
    | .ok request =>
      match st.call P request with
      | .ok (st', .ok fills) =>
        let sent := sendAll (fills.map (st.fillText P oid request.side))
        ⟨st', ack :: sent.1, sent.2⟩
      | .ok (st', .error reason) => ⟨st', [ack, reject reason], true⟩
      | .error .keyError => ⟨st, [ack, reject "KeyError"], true⟩
      | .error .diverges => ⟨st, [ack], false⟩

/-- **`handle`, for one frame** at a time of the engine's clock: the state
after it, what is sent, and whether the loop goes on. -/
def PyState.handle (P : PyJson ι) (st : PyState ι) (now : Instant) :
    Frame → FrameOutcome (PyState ι) Frame
  | .binary raw =>
    match decode raw with
    | none => ⟨st, [], false⟩
    | some r => st.onRequest P r (pack ackFormat [1, r.id.toNat, (now : ℕ)])
  | .text s =>
    match P.loads s with
    | .valueError => ⟨st, [], true⟩
    | .raises => ⟨st, [], false⟩
    | .value m =>
      match m with
      | .object _ =>
        match m.item "t", m.item "id" with
        | some t, some id => st.onMessage P now m t id
        | _, _ => ⟨st, [], true⟩
      -- no other value has items with a name
      | _ => ⟨st, [], false⟩

end handle

/-! ## What holds of every state

The sides are in order, with empty levels allowed, and every order that rests
has a value that can be written into a text. -/

/-- **The states that frames lead to**: the book is in order, and the values
that are its keys can be sent as text. The second part is what keeps a taker's
connection alive when it is filled by another client's order. -/
structure PyState.Sound (P : PyJson ι) (st : PyState ι) : Prop where
  loose : st.book.HalvesLoose
  text : ∀ s p i, i ∈ (Ladder.queueAt (st.book.ladder s) p).map Prod.fst →
    (P.text (st.held s p i)).isSome

theorem PyState.sound_init (P : PyJson ι) : (PyState.init : PyState ι).Sound P := by
  refine ⟨PyEngine.sound_init.half.loose, fun s p i hi => ?_⟩
  cases s <;> cases hi

/-- A state whose orders were there before. -/
theorem PyState.Sound.of_subset {P : PyJson ι} {st : PyState ι} (h : st.Sound P) {b : OrderBook ι}
    (hb : b.HalvesLoose) (hsub : ∀ s p i, i ∈ (Ladder.queueAt (b.ladder s) p).map Prod.fst →
      i ∈ (Ladder.queueAt (st.book.ladder s) p).map Prod.fst) : PyState.Sound P ⟨b, st.held⟩ :=
  ⟨hb, fun s p i hi => h.text s p i (hsub s p i hi)⟩

/-- The fills of a call. -/
def PyState.fills (st : PyState ι) : PyRequest → List (Fill ι)
  | .limit _ side px qty => (st.book.book.sweep (sideOf side) (some px) qty).fills
  | .market side qty => (st.book.book.sweep (sideOf side) none qty).fills
  | .cancel _ => []

/-- How much a call asks for; a cancel asks for nothing. -/
def PyRequest.qty : PyRequest → ℤ
  | .limit _ _ _ qty => qty
  | .market _ qty => qty
  | .cancel _ => 0

/-- A fill is of an order that rests, and of no more than is asked for. -/
theorem PyState.Sound.fill {P : PyJson ι} {st : PyState ι} (h : st.Sound P) {r : PyRequest} :
    ∀ f ∈ st.fills r, f.maker ∈ (Ladder.queueAt (st.book.ladder r.side.opp) f.px).map Prod.fst
      ∧ 0 < f.qty ∧ f.qty ≤ r.qty := by
  have hpos := fun s => (h.loose s).positive_ladder s
  cases r with
  | limit oid side px qty => exact Ladder.fill_of_resting (hpos _) _ _
  | market side qty => exact Ladder.fill_of_resting (hpos _) _ _
  | cancel target => exact List.forall_mem_nil _

/-- So its maker can be sent as text. -/
theorem PyState.Sound.isSome_fillText {P : PyJson ι} {st : PyState ι} (h : st.Sound P)
    (oid : String) {r : PyRequest} : ∀ f ∈ st.fills r, (st.fillText P oid r.side f).isSome := by
  intro f hf
  rw [PyState.fillText, Option.isSome_map]
  exact h.text _ _ _ (h.fill f hf).1

/-! ## What a connection survives

The condition on a frame. It asks of a binary order that each order within its
reach can be packed, and of a text that its type and id are found and its id
can be written. -/

/-- A fill that `struct` packs: its price has room, and its maker is an integer
that has. -/
def Packs (px : ℤ) (maker : JsonValue) : Prop :=
  InInt32 px ∧ ∃ z, asInt maker = some z ∧ FieldKind.Holds (.unsigned 8) z

/-- An order for this much trades only with orders whose fills can be packed:
an order within reach is traded with if less than is wanted is ahead of it. -/
def PyState.TakesPacked (st : PyState ι) (s : Side) (limit : Option ℤ) (qty : ℤ) : Prop :=
  ∀ ahead o behind,
    Ladder.within (s.opp.reaches limit) (st.book.ladder s.opp) = ahead ++ o :: behind →
    PriceTime.total ahead < qty → Packs o.1.1 (st.held s.opp o.1.1 o.1.2)

/-- **The frames that a connection survives**: binary frames of 26 bytes whose
fills can be packed, and texts that are no JSON, or an object which lacks the
type or the id or has an id that can be sent. The condition is on the frame and
on the state before it. -/
def PyState.Withstands (P : PyJson ι) (st : PyState ι) : Frame → Prop
  | .binary raw =>
    let r := requestOf raw
    raw.length = 26 ∧
      if r.mtype = 1 then st.TakesPacked r.bookSide (some r.px) r.qty
      else if r.mtype = 2 then st.TakesPacked r.bookSide none r.qty
      else True
  | .text s =>
    match P.loads s with
    | .valueError => True
    | .raises => False
    | .value (.object fields) => ∀ t id, (JsonValue.object fields).item "t" = some t →
        (JsonValue.object fields).item "id" = some id → (P.text id).isSome
    | .value _ => False

/-- Everything is sent exactly if nothing raises. -/
theorem sendAll_iff {xs : List (Option Frame)} :
    (sendAll xs).2 = true ↔ ∀ x ∈ xs, x.isSome := by
  induction xs with
  | nil => exact iff_of_true rfl (List.forall_mem_nil _)
  | cons x xs ih =>
    rw [List.forall_mem_cons]
    cases x with
    | none => exact iff_of_false Bool.false_ne_true (fun h => Bool.false_ne_true h.1)
    | some x => exact ih.trans (and_iff_right rfl).symm

/-- A fill is sent as a frame of bytes exactly if its price and its maker can
be packed; its quantity always can. -/
theorem PyState.isSome_fillData (st : PyState ι) (oid : UInt64) (side : Side) {f : Fill ι}
    (hqty : InInt32 f.qty) :
    (st.fillData oid.toNat side f).isSome ↔ Packs f.px (st.maker side f) := by
  unfold PyState.fillData Packs
  cases asInt (st.maker side f) with
  | none => simp
  | some maker =>
    have hroom : (pack fillFormat [2, oid.toNat, f.px, f.qty, maker]).isSome
        ↔ InInt32 f.px ∧ FieldKind.Holds (.unsigned 8) maker := by
      rw [isSome_pack_iff]
      constructor
      · intro hholds
        simp only [fillFormat, List.forall₂_cons] at hholds
        exact ⟨hholds.2.2.1, hholds.2.2.2.2.1⟩
      · rintro ⟨hpx, hmaker⟩
        exact .cons (by decide) (.cons (holds_toNat oid)
          (.cons hpx (.cons hqty (.cons hmaker .nil))))
    rw [Option.bind_some, Option.isSome_map, hroom]
    simp

/-- The side of a binary request's call. -/
theorem sideOf_ofBinary (r : Request) :
    sideOf (if r.side = 0 then "buy" else "sell") = r.bookSide := by
  unfold Request.bookSide
  split_ifs <;> rfl

/-- The fills of a binary request are packed if those it trades with allow
it. -/
theorem PyState.Sound.fills_packed_iff {P : PyJson ι} {st : PyState ι} (h : st.Sound P)
    (r : Request) :
    (∀ f ∈ st.fills (.ofBinary r), Packs f.px (st.maker (PyRequest.ofBinary r).side f))
      ↔ if r.mtype = 1 then st.TakesPacked r.bookSide (some r.px) r.qty
        else if r.mtype = 2 then st.TakesPacked r.bookSide none r.qty
        else True := by
  have htakes : ∀ s limit qty, (∀ f ∈ (st.book.book.sweep s limit qty).fills,
      Packs f.px (st.held s.opp f.px f.maker)) ↔ st.TakesPacked s limit qty := fun s limit qty =>
    Ladder.forall_fills_iff ((h.loose s.opp).positive_ladder s.opp) _ qty
      (fun px i => Packs px (st.held s.opp px i))
  have hside := sideOf_ofBinary r
  unfold PyRequest.ofBinary
  dsimp only
  by_cases h1 : r.mtype = 1
  · rw [if_pos h1, if_pos h1, ← htakes, ← hside]
    rfl
  · by_cases h2 : r.mtype = 2
    · rw [if_neg h1, if_neg h1, if_pos h2, if_pos h2, ← htakes, ← hside]
      rfl
    · rw [if_neg h1, if_neg h1, if_neg h2, if_neg h2]
      exact iff_of_true (List.forall_mem_nil _) trivial

/-! ## What a frame does

From the calls of the book up to the whole handler: each keeps the state in
order, whether it raises or not, and raises exactly where the condition says. -/

variable [DecidableEq ι]

/-- Matching keeps the state in order. -/
theorem PyState.Sound.match {P : PyJson ι} {st : PyState ι} (h : st.Sound P) (side : String)
    (limitPx : Option ℤ) (qty : ℤ) :
    ∃ b, st.book.match side limitPx qty
        = .ok ((st.book.book.sweep (sideOf side) limitPx qty).fills,
            (st.book.book.sweep (sideOf side) limitPx qty).unfilled, b)
      ∧ PyState.Sound P ⟨b, st.held⟩ := by
  obtain ⟨b, hmatch, hb, hbook, -, -⟩ := h.loose.match side limitPx qty
  refine ⟨b, hmatch, h.of_subset hb (fun s p i hi => ?_)⟩
  have hladder : b.ladder s = _ := congrFun (congrArg Book.ladder hbook) s
  rw [hladder] at hi
  by_cases hs : s = (sideOf side).opp
  · rw [hs, Book.ladder_put_self] at hi
    exact hs ▸ Ladder.mem_queueAt_of_sweep hi
  · rwa [Book.ladder_put_of_ne hs] at hi

/-- So does coming to rest, of a value that can be sent. -/
theorem PyState.Sound.rest {P : PyJson ι} {st : PyState ι} {b : OrderBook ι}
    (h : PyState.Sound P ⟨b, st.held⟩) (side : String) (px : ℤ) (i : ι) {oid : JsonValue}
    (hoid : (P.text oid).isSome) {qty : ℤ} (hqty : 0 < qty) :
    PyState.Sound P ⟨b.rest side px i qty, st.hold b side px i oid⟩ := by
  obtain ⟨h', level, heq, hl, hlevel, -, hqueue⟩ := h.loose.rest side px i hqty
  refine ⟨?_, fun s p k hk => ?_⟩
  · rw [heq]
    exact h.loose.putHalf hl side
  · dsimp only at hk ⊢
    rw [OrderBook.queueAt_putHalf hl heq, hqueue] at hk
    unfold PyState.hold
    -- the value is new, or the level keeps the one that it has
    by_cases hnew : s = sideOf side ∧ p = px ∧ k = i ∧ i ∉ ((b.half side).queue px).map Prod.fst
    · rwa [if_pos hnew]
    · rw [if_neg hnew]
      refine h.text s p k ?_
      by_cases hs : s = sideOf side
      · subst hs
        rw [h.loose.queueAt]
        rw [if_pos rfl] at hk
        by_cases hp : p = px
        · subst hp
          rw [if_pos rfl] at hk
          rcases Dict.mem_keys_set.mp hk with rfl | hold
          · by_contra hfresh
            exact hnew ⟨rfl, rfl, rfl, hfresh⟩
          · rwa [← hlevel]
        · rwa [if_neg hp] at hk
      · rwa [if_neg hs] at hk

omit [DecidableEq ι] in
/-- So does opening a level. -/
theorem PyState.Sound.openLevel {P : PyJson ι} {st : PyState ι} {b : OrderBook ι}
    (h : PyState.Sound P ⟨b, st.held⟩) (side : String) (px : ℤ) :
    PyState.Sound P ⟨b.putHalf side ((b.half side).openLevel px).1, st.held⟩ := by
  obtain ⟨hl, hqueue⟩ := (h.loose.half side).opened px
  refine h.of_subset (h.loose.putHalf hl side) (fun s p i hi => ?_)
  rw [OrderBook.queueAt_putHalf hl rfl, hqueue] at hi
  by_cases hs : s = sideOf side
  · subst hs
    rw [if_pos rfl] at hi
    show i ∈ (Ladder.queueAt (b.ladder _) p).map Prod.fst
    rwa [h.loose.queueAt]
  · rwa [if_neg hs] at hi

/-- And so does a cancel. -/
theorem PyState.Sound.cancel {P : PyJson ι} {st : PyState ι} (h : st.Sound P) (target : ι) :
    PyState.Sound P ⟨(st.book.cancel target).1, st.held⟩ := by
  cases hloc : st.book.resting.get? target with
  | none =>
    have hsame : (st.book.cancel target).1 = st.book := by
      unfold OrderBook.cancel
      rw [hloc]
    rw [hsame]
    exact h
  | some loc =>
    obtain ⟨h', heq, hl, -, hqueue⟩ := h.loose.cancel hloc
    refine h.of_subset (heq ▸ h.loose.putHalf hl loc.1) (fun s p i hi => ?_)
    rw [OrderBook.queueAt_putHalf hl heq, hqueue] at hi
    by_cases hs : s = sideOf loc.1
    · subst hs
      rw [h.loose.queueAt]
      rw [if_pos rfl] at hi
      by_cases hp : p = loc.2
      · rw [if_pos hp] at hi
        exact List.map_subset _ (List.filter_subset_self _) hi
      · rwa [if_neg hp] at hi
    · rwa [if_neg hs] at hi

/-- A call whose ids are keys. -/
def PyRequest.Keyed (P : PyJson ι) : PyRequest → Prop
  | .limit oid _ _ _ => (P.hash oid).isSome
  | .market _ _ => True
  | .cancel target => (P.hash target).isSome

/-- A call whose id can be sent. -/
def PyRequest.Sendable (P : PyJson ι) : PyRequest → Prop
  | .limit oid _ _ _ => (P.text oid).isSome
  | _ => True

/-- **A call of the book returns** – no key is missing, and the loop of
`_match` ends – or raises for a value without a hash; the state stays in
order. -/
theorem PyState.Sound.call {P : PyJson ι} {st : PyState ι} (h : st.Sound P) {r : PyRequest}
    (hr : r.Sendable P) :
    (∃ st', st.call P r = .ok (st', .ok (st.fills r)) ∧ st'.Sound P)
      ∨ ∃ st' reason, st.call P r = .ok (st', .error reason) ∧ st'.Sound P ∧ ¬ r.Keyed P := by
  cases r with
  | limit oid side px qty =>
    obtain ⟨b, hmatch, hb⟩ := h.match side (some px) qty
    unfold PyState.call PyRequest.Keyed
    simp only [hmatch, bind, Except.bind]
    by_cases hun : 0 < (st.book.book.sweep (sideOf side) (some px) qty).unfilled
    · rw [if_pos hun]
      cases P.hash oid with
      | some i => exact Or.inl ⟨_, rfl, hb.rest side px i hr hun⟩
      -- it has traded, and opened the level, when it raises
      | none => exact Or.inr ⟨_, _, rfl, hb.openLevel side px, Bool.false_ne_true⟩
    · rw [if_neg hun]
      exact Or.inl ⟨_, rfl, hb⟩
  | market side qty =>
    obtain ⟨b, hmatch, hb⟩ := h.match side none qty
    unfold PyState.call
    simp only [hmatch, bind, Except.bind]
    exact Or.inl ⟨_, rfl, hb⟩
  | cancel target =>
    unfold PyState.call PyRequest.Keyed
    dsimp only
    cases P.hash target with
    | some i => exact Or.inl ⟨_, rfl, h.cancel i⟩
    | none =>
      dsimp only
      by_cases hempty : st.book.resting.entries.isEmpty = true
      · rw [if_pos hempty]
        exact Or.inl ⟨_, rfl, h⟩
      · rw [if_neg hempty]
        exact Or.inr ⟨_, _, rfl, h, Bool.false_ne_true⟩

omit [DecidableEq ι] in
/-- A binary request names its ids by integers. -/
theorem PyRequest.keyed_ofBinary (P : PyJson ι) (r : Request) :
    (PyRequest.ofBinary r).Keyed P ∧ (PyRequest.ofBinary r).Sendable P := by
  unfold PyRequest.ofBinary
  dsimp only
  by_cases h1 : r.mtype = 1
  · rw [if_pos h1]
    exact ⟨rfl, rfl⟩
  · by_cases h2 : r.mtype = 2
    · rw [if_neg h1, if_pos h2]
      exact ⟨trivial, trivial⟩
    · rw [if_neg h1, if_neg h2]
      exact ⟨rfl, trivial⟩

/-- What returns at the end returned at each step. -/
theorem exists_of_bind {ε α β : Type} {x : Except ε α} {f : α → Except ε β} {b : β}
    (h : x.bind f = .ok b) : ∃ a, x = .ok a ∧ f a = .ok b := by
  cases x with
  | error e => cases h
  | ok a => exact ⟨a, rfl, h⟩

/-- An item that is taken is there. -/
theorem isSome_of_item {ε α : Type} {item : Option α} {e : ε} {a : α}
    (h : item.elim (.error e) Except.ok = .ok a) : item.isSome := by
  cases item with
  | none => cases h
  | some a => rfl

omit [DecidableEq ι] in
/-- **The call of a message**: the message has the required fields, and the id
that it names is its own. -/
theorem PyRequest.of_ofJson {P : PyJson ι} {m t oid : JsonValue} {r : PyRequest}
    (h : PyRequest.ofJson P m t oid = .ok r) :
    (∀ name ∈ JsonValue.required t.word, (m.item name).isSome)
      ∧ ((P.text oid).isSome → r.Sendable P) := by
  unfold PyRequest.ofJson at h
  unfold JsonValue.required
  dsimp only at h
  -- each item is taken before the call is made, so it is there
  by_cases h1 : t.word = "limit"
  · rw [if_pos h1] at h ⊢
    obtain ⟨side, hside, h⟩ := exists_of_bind h
    obtain ⟨px, hpx, h⟩ := exists_of_bind h
    obtain ⟨qty, hqty, h⟩ := exists_of_bind h
    obtain ⟨_, hpx, -⟩ := exists_of_bind hpx
    obtain ⟨_, hqty, -⟩ := exists_of_bind hqty
    cases h
    simp only [List.forall_mem_cons]
    exact ⟨⟨isSome_of_item hside, isSome_of_item hpx, isSome_of_item hqty, List.forall_mem_nil _⟩,
      id⟩
  rw [if_neg h1] at h ⊢
  by_cases h2 : t.word = "market"
  · rw [if_pos h2] at h ⊢
    obtain ⟨side, hside, h⟩ := exists_of_bind h
    obtain ⟨qty, hqty, h⟩ := exists_of_bind h
    obtain ⟨_, hqty, -⟩ := exists_of_bind hqty
    cases h
    simp only [List.forall_mem_cons]
    exact ⟨⟨isSome_of_item hside, isSome_of_item hqty, List.forall_mem_nil _⟩, fun _ => trivial⟩
  rw [if_neg h2] at h ⊢
  by_cases h3 : t.word = "cancel"
  · rw [if_pos h3] at h ⊢
    obtain ⟨target, htarget, h⟩ := exists_of_bind h
    cases h
    simp only [List.forall_mem_cons]
    exact ⟨⟨isSome_of_item htarget, List.forall_mem_nil _⟩, fun _ => trivial⟩
  · rw [if_neg h3] at h
    cases h

/-- A binary frame of another length cannot be unpacked. -/
theorem decode_of_ne {raw : List UInt8} (h : raw.length ≠ 26) : decode raw = none := by
  have hsize : ¬ raw.length = formatSize reqFormat := h
  rw [decode, unpack, if_neg hsize]

/-- An acknowledgement has room. -/
theorem exists_pack_ack (i : UInt64) (t : Instant) :
    ∃ ack, pack ackFormat [1, i.toNat, (t : ℕ)] = some ack := by
  rw [show ackFormat = Wire.ackFormat from rfl]
  exact ⟨_, pack_ack i t⟩

/-- A request is acknowledged, and its fills are sent as far as they can be
packed. -/
theorem PyState.onRequest_of_call {P : PyJson ι} {st st' : PyState ι} {r : Request}
    (ack : List UInt8) {fills : List (Fill ι)}
    (hcall : st.call P (.ofBinary r) = .ok (st', .ok fills)) :
    st.onRequest P r (some ack) = ⟨st',
      .binary ack :: (sendAll (fills.map (st.fillData r.id.toNat (PyRequest.ofBinary r).side))).1,
      (sendAll (fills.map (st.fillData r.id.toNat (PyRequest.ofBinary r).side))).2⟩ := by
  unfold PyState.onRequest
  dsimp only
  rw [hcall]

omit [DecidableEq ι] in
/-- A binary frame asks for no more than has room in a fill. -/
theorem PyState.Sound.inInt32_qty {P : PyJson ι} {st : PyState ι} (h : st.Sound P)
    {raw : List UInt8} (hlen : raw.length = 26) :
    ∀ f ∈ st.fills (.ofBinary (requestOf raw)), InInt32 f.qty := by
  intro f hf
  obtain ⟨-, hpos, hle⟩ := h.fill f hf
  have hqty : (PyRequest.ofBinary (requestOf raw)).qty ≤ (requestOf raw).qty
      ∨ (PyRequest.ofBinary (requestOf raw)).qty = 0 := by
    unfold PyRequest.ofBinary
    dsimp only
    by_cases h1 : (requestOf raw).mtype = 1
    · rw [if_pos h1]
      exact Or.inl le_rfl
    · by_cases h2 : (requestOf raw).mtype = 2
      · rw [if_neg h1, if_pos h2]
        exact Or.inl le_rfl
      · rw [if_neg h1, if_neg h2]
        exact Or.inr rfl
  rcases hqty with hqty | hqty
  · exact inInt32_of_le hlen hpos (hle.trans hqty)
  · omega

/-- **A binary frame** keeps the state in order, and is survived by the
condition; a shorter one changes nothing. -/
theorem PyState.Sound.handle_binary {P : PyJson ι} {st : PyState ι} (h : st.Sound P) (now : Instant)
    (raw : List UInt8) : (st.handle P now (.binary raw)).book.Sound P
      ∧ ((st.handle P now (.binary raw)).goesOn = true ↔ st.Withstands P (.binary raw))
      ∧ (raw.length < 26 → (st.handle P now (.binary raw)).book = st) := by
  by_cases hlen : raw.length = 26
  · -- integers are keys, so the call returns; the fills decide
    obtain ⟨hkeyed, hsendable⟩ := PyRequest.keyed_ofBinary P (requestOf raw)
    rcases h.call hsendable with ⟨st', hcall, hst'⟩ | ⟨-, -, -, -, hnot⟩
    · obtain ⟨ack, hack⟩ := exists_pack_ack (requestOf raw).id now
      have hhandle : st.handle P now (.binary raw)
          = st.onRequest P (requestOf raw) (some ack) := by
        rw [PyState.handle, decode_eq hlen]
        dsimp only
        rw [hack]
      rw [hhandle, PyState.onRequest_of_call ack hcall]
      refine ⟨hst', ?_, fun hshort => absurd hlen hshort.ne⟩
      dsimp only
      rw [sendAll_iff, List.forall_mem_map]
      unfold PyState.Withstands
      dsimp only
      rw [and_iff_right hlen, ← h.fills_packed_iff]
      exact forall₂_congr (fun f hf => st.isSome_fillData _ _ (h.inInt32_qty hlen f hf))
    · exact absurd hkeyed hnot
  · have hhandle : st.handle P now (.binary raw) = ⟨st, [], false⟩ := by
      rw [PyState.handle, decode_of_ne hlen]
    rw [hhandle]
    exact ⟨h, iff_of_false Bool.false_ne_true (fun hw => hlen hw.1), fun _ => rfl⟩

/-- **A message with a type and an id** is survived if its id can be sent: what
the call raises is rejected, and the makers of its fills were sent before.
Without the required fields it changes nothing. -/
theorem PyState.Sound.onMessage {P : PyJson ι} {st : PyState ι} (h : st.Sound P) (now : Instant)
    (m t id : JsonValue) : (st.onMessage P now m t id).book.Sound P
      ∧ ((st.onMessage P now m t id).goesOn = true ↔ (P.text id).isSome)
      ∧ ((¬ ∀ name ∈ JsonValue.required t.word, (m.item name).isSome) →
        (st.onMessage P now m t id).book = st) := by
  unfold PyState.onMessage
  cases htext : P.text id with
  | none => exact ⟨h, iff_of_false Bool.false_ne_true Bool.false_ne_true, fun _ => rfl⟩
  | some oid =>
    dsimp only
    cases hasked : PyRequest.ofJson P m t id with
    | error reason => exact ⟨h, iff_of_true rfl rfl, fun _ => rfl⟩
    | ok request =>
      obtain ⟨hfields, hsendable⟩ := PyRequest.of_ofJson hasked
      dsimp only
      rcases h.call (hsendable (htext ▸ rfl)) with
        ⟨st', hcall, hst'⟩ | ⟨st', reason, hcall, hst', -⟩
      · -- what rests was sent before, so the fills can be sent
        rw [hcall]
        refine ⟨hst', iff_of_true ?_ rfl, fun hnot => absurd hfields hnot⟩
        dsimp only
        rw [sendAll_iff, List.forall_mem_map]
        exact h.isSome_fillText oid
      · rw [hcall]
        exact ⟨hst', iff_of_true rfl rfl, fun hnot => absurd hfields hnot⟩

/-- **A text** keeps the state in order, and is survived by the condition; one
that is no order changes nothing. -/
theorem PyState.Sound.handle_text {P : PyJson ι} {st : PyState ι} (h : st.Sound P) (now : Instant)
    (s : String) : (st.handle P now (.text s)).book.Sound P
      ∧ ((st.handle P now (.text s)).goesOn = true ↔ st.Withstands P (.text s))
      ∧ (NoOrder P.json (.text s) → (st.handle P now (.text s)).book = st) := by
  unfold PyState.handle PyState.Withstands NoOrder PyJson.json
  dsimp only
  cases P.loads s with
  | valueError => exact ⟨h, iff_of_true rfl trivial, fun _ => rfl⟩
  | raises => exact ⟨h, iff_of_false Bool.false_ne_true id, fun _ => rfl⟩
  | value m =>
    cases m with
    | object fields =>
      dsimp only
      cases ht : (JsonValue.object fields).item "t" with
      | none => exact ⟨h, iff_of_true rfl (fun t id ht => by cases ht), fun _ => rfl⟩
      | some t =>
        cases hid : (JsonValue.object fields).item "id" with
        | none => exact ⟨h, iff_of_true rfl (fun t id _ hid => by cases hid), fun _ => rfl⟩
        -- only a message with both is answered
        | some id =>
          obtain ⟨hsound, hgoes, hsame⟩ := h.onMessage now (.object fields) t id
          refine ⟨hsound, hgoes.trans ?_, fun hno => hsame (fun hall => ?_)⟩
          · exact ⟨fun htext t' id' _ hid' => Option.some_inj.mp hid' ▸ htext,
              fun hall => hall t id rfl rfl⟩
          · refine hno _ rfl ⟨t, ht, ?_⟩
            rw [List.forall_mem_cons]
            exact ⟨hid ▸ rfl, hall⟩
    | _ => exact ⟨h, iff_of_false Bool.false_ne_true id, fun _ => rfl⟩

/-- **A frame** keeps the state in order, is survived by the condition, and
changes nothing if it is no order. -/
theorem PyState.Sound.handle {P : PyJson ι} {st : PyState ι} (h : st.Sound P) (now : Instant)
    (f : Frame) : (st.handle P now f).book.Sound P
      ∧ ((st.handle P now f).goesOn = true ↔ st.Withstands P f)
      ∧ (NoOrder P.json f → (st.handle P now f).book = st) := by
  cases f with
  | binary raw => exact h.handle_binary now raw
  | text s => exact h.handle_text now s

/-- **Any frames** keep it in order, whether the connections that sent them
survived or not. -/
theorem PyState.Sound.foldl {P : PyJson ι} (past : List (Instant × Frame)) {st : PyState ι}
    (h : st.Sound P) :
    (past.foldl (fun st x => (st.handle P x.1 x.2).book) st).Sound P := by
  induction past generalizing st with
  | nil => exact h
  | cons x past ih => exact ih (h.handle x.1 x.2).1

/-! ### The books

The state beside the book left aside, each frame makes one call, or none. -/

/-- **A call of the book** leaves a reachable one, also where it raises. -/
theorem PyState.reachable_call {P : PyJson ι} {st st' : PyState ι} (h : st.book.Reachable)
    {r : PyRequest} {y : Except String (List (Fill ι))} (hcall : st.call P r = .ok (st', y)) :
    st'.book.Reachable := by
  cases r with
  | limit oid side px qty =>
    obtain ⟨b, hmatch, -⟩ := h.loose.match side (some px) qty
    have hlimit := fun i => OrderBook.limit_of_match i hmatch
    have hunhashed := OrderBook.limitUnhashed_of_match hmatch
    unfold PyState.call at hcall
    simp only [hmatch, bind, Except.bind] at hcall
    by_cases hun : 0 < (st.book.book.sweep (sideOf side) (some px) qty).unfilled
    · simp only [if_pos hun] at hcall hlimit hunhashed
      cases hhash : P.hash oid with
      | some i =>
        rw [hhash] at hcall
        cases hcall
        exact h.limit (hlimit i)
      | none =>
        rw [hhash] at hcall
        cases hcall
        exact h.limitUnhashed hunhashed
    · -- nothing is left to rest, so the id is not looked at
      rw [if_neg hun] at hcall hunhashed
      cases hcall
      exact h.limitUnhashed hunhashed
  | market side qty =>
    obtain ⟨b, hmatch, -⟩ := h.loose.match side none qty
    unfold PyState.call at hcall
    simp only [hmatch, bind, Except.bind] at hcall
    cases hcall
    exact h.market (OrderBook.market_of_match hmatch)
  | cancel target =>
    unfold PyState.call at hcall
    dsimp only at hcall
    cases hhash : P.hash target with
    | some i =>
      rw [hhash] at hcall
      cases hcall
      exact h.cancel i
    | none =>
      rw [hhash] at hcall
      cases hcall
      exact h

/-- So does a frame. -/
theorem PyState.reachable_handle {P : PyJson ι} {st : PyState ι} (h : st.book.Reachable)
    (now : Instant) (f : Frame) : (st.handle P now f).book.book.Reachable := by
  -- the book is the one before or the one that a call leaves
  have hrequest : ∀ r ack, (st.onRequest P r ack).book.book.Reachable := by
    intro r ack
    unfold PyState.onRequest
    cases ack with
    | none => exact h
    | some ack =>
      dsimp only
      cases hcall : st.call P (.ofBinary r) with
      | error e => exact h
      | ok z =>
        obtain ⟨st', fills | reason⟩ := z
        · exact PyState.reachable_call h hcall
        · exact PyState.reachable_call h hcall
  have hmessage : ∀ m t id, (st.onMessage P now m t id).book.book.Reachable := by
    intro m t id
    unfold PyState.onMessage
    cases P.text id with
    | none => exact h
    | some oid =>
      dsimp only
      cases PyRequest.ofJson P m t id with
      | error reason => exact h
      | ok request =>
        dsimp only
        cases hcall : st.call P request with
        | error e => cases e <;> exact h
        | ok z =>
          obtain ⟨st', fills | reason⟩ := z
          · exact PyState.reachable_call h hcall
          · exact PyState.reachable_call h hcall
  unfold PyState.handle
  cases f with
  | binary raw =>
    dsimp only
    cases decode raw with
    | none => exact h
    | some r =>
      dsimp only
      generalize pack ackFormat _ = ack
      exact hrequest r ack
  | text s =>
    dsimp only
    cases P.loads s with
    | valueError => exact h
    | raises => exact h
    | value m =>
      cases m with
      | object fields =>
        dsimp only
        split
        · exact hmessage _ _ _
        · exact h
      | _ => exact h

/-- **The books that frames lead to are reachable**, whatever the frames
hold. -/
theorem PyState.reachable_foldl {P : PyJson ι} (past : List (Instant × Frame)) {st : PyState ι}
    (h : st.book.Reachable) :
    (past.foldl (fun st x => (st.handle P x.1 x.2).book) st).book.Reachable := by
  induction past generalizing st with
  | nil => exact h
  | cons x past ih => exact ih (PyState.reachable_handle h x.1 x.2)

/-! ## The handler of well-formed frames

Two models of `handle` are in use, one for frames that are answered and this
one for any. Here they meet. -/

/-- A frame that is made was packed. -/
theorem pack_of_frame {ks : List FieldKind} {vs : List ℤ} {data : List UInt8}
    (h : frame ks vs = .ok data) : pack ks vs = some data := by
  unfold frame at h
  cases hpack : pack ks vs with
  | none =>
    rw [hpack] at h
    cases h
  | some data' =>
    rw [hpack] at h
    cases h
    rfl

/-- An exception that is passed on under another name was one before. -/
theorem of_mapError {ε ε' α : Type} {f : ε → ε'} {x : Except ε α} {a : α}
    (h : x.mapError f = .ok a) : x = .ok a := by
  cases x with
  | error e => cases h
  | ok a' =>
    cases h
    rfl

section WellFormed

variable [PyId ι] {P : PyJson ι}

/-- A call of a binary request, where integers are the keys that they are. -/
theorem PyState.call_of_serveInt (hkey : ∀ n : ℕ, P.key (.int false n) = PyId.int n)
    {st : PyState ι} {r : Request} {b : OrderBook ι} {fills : List (Fill ι)}
    (h : st.book.serveInt r = .ok (b, fills)) :
    ∃ held, st.call P (.ofBinary r) = .ok (⟨b, held⟩, .ok fills) := by
  have hhash : ∀ n : ℕ, P.hash (.int false n) = some (PyId.int n) := fun n =>
    congrArg some (hkey n)
  unfold OrderBook.serveInt at h
  unfold PyRequest.ofBinary
  dsimp only
  by_cases h1 : r.mtype = 1
  · rw [if_pos h1] at h ⊢
    obtain ⟨⟨fills', remaining, b'⟩, hmatch, hlimit⟩ := exists_of_bind h
    obtain ⟨rfl, rfl⟩ := Prod.mk.inj (Except.ok.inj hlimit)
    unfold PyState.call
    simp only [hmatch, hhash, bind, Except.bind]
    by_cases hrest : 0 < remaining
    · rw [if_pos hrest, if_pos hrest]
      exact ⟨_, rfl⟩
    · rw [if_neg hrest, if_neg hrest]
      exact ⟨_, rfl⟩
  · rw [if_neg h1] at h ⊢
    by_cases h2 : r.mtype = 2
    · rw [if_pos h2] at h ⊢
      obtain ⟨⟨fills', remaining, b'⟩, hmatch, hmarket⟩ := exists_of_bind h
      obtain ⟨rfl, rfl⟩ := Prod.mk.inj (Except.ok.inj hmarket)
      unfold PyState.call
      simp only [hmatch, bind, Except.bind]
      exact ⟨_, rfl⟩
    · rw [if_neg h2] at h ⊢
      obtain ⟨rfl, rfl⟩ := Prod.mk.inj (Except.ok.inj h)
      unfold PyState.call
      simp only [hhash]
      exact ⟨_, rfl⟩

omit [DecidableEq ι] in
/-- Fills that are all packed are all sent. -/
theorem sendAll_of_mapM {st : PyState ι} {oid : ℤ} {side : Side} {fills : List (Fill ι)}
    (hmaker : ∀ f ∈ fills, asInt (st.maker side f) = PyId.asInt f.maker)
    {frames : List (List UInt8)} (h : fills.mapM (PyEngine.fillData oid) = .ok frames) :
    sendAll (fills.map (st.fillData oid side)) = (frames.map .binary, true) := by
  induction fills generalizing frames with
  | nil =>
    cases h
    rfl
  | cons f fills ih =>
    rw [List.forall_mem_cons] at hmaker
    rw [List.mapM_cons] at h
    obtain ⟨data, hdata, h⟩ := exists_of_bind h
    obtain ⟨frames', hframes, h⟩ := exists_of_bind h
    cases h
    -- a frame that the other handler makes is made here
    have hfill : st.fillData oid side f = some (.binary data) := by
      unfold PyEngine.fillData at hdata
      unfold PyState.fillData
      rw [hmaker.1]
      cases hint : PyId.asInt f.maker with
      | none =>
        rw [hint] at hdata
        cases hdata
      | some maker =>
        rw [hint] at hdata
        rw [Option.bind_some, pack_of_frame hdata]
        rfl
    rw [List.map_cons, hfill, sendAll, ih hmaker.2 hframes]
    rfl

/-- **On a binary frame that it answers the handler of well-formed frames is
this one**, where integers are the keys that they are, and what rests was
packed as its key is. -/
theorem PyState.Sound.handle_of_onFrame (hkey : ∀ n : ℕ, P.key (.int false n) = PyId.int n)
    {st : PyState ι} (h : st.Sound P)
    (hheld : ∀ s p i, i ∈ (Ladder.queueAt (st.book.ladder s) p).map Prod.fst →
      asInt (st.held s p i) = PyId.asInt i)
    (loads : String → Option (PyMessage ι)) {now : Instant} {raw : List UInt8} {b : OrderBook ι}
    {sent : List Frame} (hframe : st.book.onFrame loads now (.binary raw) = .ok (b, sent)) :
    ∃ held, st.handle P now (.binary raw) = ⟨⟨b, held⟩, sent, true⟩ := by
  unfold OrderBook.onFrame at hframe
  dsimp only at hframe
  cases hdecode : decode raw with
  | none =>
    rw [hdecode] at hframe
    cases hframe
  | some r =>
    rw [hdecode] at hframe
    obtain ⟨ack, hack, hframe⟩ := exists_of_bind hframe
    obtain ⟨⟨b', fills⟩, hserve, hframe⟩ := exists_of_bind hframe
    obtain ⟨frames, hframes, hframe⟩ := exists_of_bind hframe
    obtain ⟨rfl, rfl⟩ := Prod.mk.inj (Except.ok.inj hframe)
    obtain ⟨held, hcall⟩ := PyState.call_of_serveInt hkey (of_mapError hserve)
    -- the makers are orders that rest, and were packed as their keys are
    have hmaker : ∀ f ∈ fills,
        asInt (st.maker (PyRequest.ofBinary r).side f) = PyId.asInt f.maker := by
      rcases h.call (PyRequest.keyed_ofBinary P r).2 with ⟨st', hcall', -⟩ | ⟨_, _, -, -, hnot⟩
      · obtain ⟨-, hfills⟩ := Prod.mk.inj (Except.ok.inj (hcall.symm.trans hcall'))
        cases hfills
        exact fun f hf => hheld _ _ _ (h.fill f hf).1
      · exact absurd (PyRequest.keyed_ofBinary P r).1 hnot
    refine ⟨held, ?_⟩
    rw [PyState.handle, hdecode]
    dsimp only
    rw [pack_of_frame hack, PyState.onRequest_of_call ack hcall, sendAll_of_mapM hmaker hframes]

end WellFormed

end PyEngine
