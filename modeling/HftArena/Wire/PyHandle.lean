import HftArena.Engine.PythonTop
import HftArena.Lib.FlatJson
import HftArena.Wire.Frame
import HftArena.Wire.Handlers

/-!
# The Python engine on any frame

`handle` of `reference_engine_py/engine.py`, one frame at a time, with the
texts it sends. An id of a JSON message is any hashable value, and those of
binary frames are integers (`PyId`); one book serves both, so a binary frame
can be filled by an order whose id has no room in a fill.

This is the handler for frames that it answers, which is what the probe and the
load bots send: the lemmas say of each kind of order that it is acknowledged
and that its fills follow. What becomes of a connection when something raises
on the way is the matter of `Wire.PyConnection`, where the two handlers are
shown to agree.
-/

open PriceTime Wire

/-- **The ids of the Python engine**: hashable values, the integers among them.
An id goes into a text by `str` and into a binary frame only as an integer, and
for integers both are what they should be. -/
class PyId (ι : Type) where
  int : ℤ → ι
  /-- What `struct` can pack. -/
  asInt : ι → Option ℤ
  asInt_int : ∀ n, asInt (int n) = some n
  /-- What an f-string makes of it. -/
  str : ι → String
  str_int : ∀ n, str (int n) = toString n

instance : PyId ℤ := ⟨id, some, fun _ => rfl, toString, fun _ => rfl⟩

namespace PyEngine

variable {ι : Type} [PyId ι]

theorem int_injective : Function.Injective (PyId.int : ℤ → ι) := fun n m h => by
  have hint := congrArg PyId.asInt h
  rw [PyId.asInt_int, PyId.asInt_int] at hint
  exact Option.some_inj.mp hint

/-- What `json.loads` finds in a text, as far as `handle` looks at it: every
field can be missing. Numbers are integers here; what `int` makes of other
values is in `PyRequest.ofJson`. -/
structure PyMessage (ι : Type) where
  t : Option String
  id : Option ι
  side : Option String
  px : Option ℤ
  qty : Option ℤ
  target : Option ι

/-- The text of an acknowledgement. The braces are written as escapes, since
the source's f-string has them doubled. -/
def ackText (oid : ι) (ts : ℕ) : String :=
  "\x7b\"ack\":" ++ PyId.str oid ++ ",\"ts\":" ++ toString ts ++ "\x7d"

/-- The text of a fill. -/
def fillText (oid : ι) (f : Fill ι) : String :=
  "\x7b\"fill\":" ++ PyId.str oid ++ ",\"px\":" ++ toString f.px ++ ",\"qty\":" ++ toString f.qty
    ++ ",\"maker\":" ++ PyId.str f.maker ++ "\x7d"

/-- The text of a reject. -/
def rejectText (oid : ι) (reason : String) : String :=
  "\x7b\"reject\":" ++ PyId.str oid ++ ",\"reason\":\"" ++ reason ++ "\"\x7d"

/-- The frame of a fill. `struct.pack` raises where a field has no room, and
also where the maker's id is no integer. -/
def fillData (oid : ℤ) (f : Fill ι) : Except (HandlerError PyError) (List UInt8) :=
  match PyId.asInt f.maker with
  | some maker => frame fillFormat [2, oid, f.px, f.qty, maker]
  | none => .error .malformed

variable [DecidableEq ι]

/-- The call a binary request asks for: what is neither 1 nor 2 is a cancel. -/
def OrderBook.serveInt (b : OrderBook ι) (r : Request) :
    Except PyError (OrderBook ι × List (Fill ι)) :=
  if r.mtype = 1 then
    b.limit (PyId.int r.id.toNat) (if r.side = 0 then "buy" else "sell") r.px r.qty
  else if r.mtype = 2 then b.market (if r.side = 0 then "buy" else "sell") r.qty
  else .ok ((b.cancel (PyId.int r.target.toNat)).1, [])

/-- **`handle`, for one frame** at a time of the engine's clock: the book after
it and the frames that are sent. An error says that a method raises; what the
handler has sent by then, and the book that the method leaves behind, are part
of the connection (`PyState.handle`), which does the same as this where nothing
raises. -/
def OrderBook.onFrame (loads : String → Option (PyMessage ι)) (b : OrderBook ι) (now : Instant) :
    Frame → Except (HandlerError PyError) (OrderBook ι × List Frame)
  | .binary raw =>
    match decode raw with
    | none => .error .malformed
    | some r => do
      let ack ← frame ackFormat [1, r.id.toNat, (now : ℕ)]
      let (b', fills) ← (b.serveInt r).mapError .book
      let frames ← fills.mapM (fillData r.id.toNat)
      .ok (b', .binary ack :: frames.map .binary)
  | .text s =>
    match loads s with
    | none => .ok (b, [])
    | some m =>
      match m.t, m.id with
      | some t, some oid =>
        let ack := .text (ackText oid now)
        let reject := fun reason => .ok (b, [ack, .text (rejectText oid reason)])
        let called := fun r : Except PyError (OrderBook ι × List (Fill ι)) =>
          match r with
          | .ok (b', fills) => .ok (b', ack :: fills.map (fun f => .text (fillText oid f)))
          | .error e => .error (.book e)
        if t = "limit" then
          match m.side, m.px, m.qty with
          | some side, some px, some qty => called (b.limit oid side px qty)
          | _, _, _ => reject "KeyError"
        else if t = "market" then
          match m.side, m.qty with
          | some side, some qty => called (b.market side qty)
          | _, _ => reject "KeyError"
        else if t = "cancel" then
          match m.target with
          | some target => called (.ok ((b.cancel target).1, []))
          | none => reject "KeyError"
        -- the acknowledgement is sent before the type is looked at
        else reject "unknown type"
      -- without a type or an id there is nobody to answer
      | _, _ => .ok (b, [])

/-! ## What JSON says

What is asked of a JSON library: a flat object is read as its fields. -/

section json

open FlatJson

omit [DecidableEq ι]

/-- **A message that has the fields of an object.** -/
structure PyMessage.Has (m : PyMessage ι) (fs : List (String × Scalar)) : Prop where
  t : ∀ s, fs.lookup "t" = some (.str s) → m.t = some s
  id : ∀ n, fs.lookup "id" = some (.int n) → m.id = some (PyId.int n)
  side : ∀ s, fs.lookup "side" = some (.str s) → m.side = some s
  px : ∀ n, fs.lookup "px" = some (.int n) → m.px = some n
  qty : ∀ n, fs.lookup "qty" = some (.int n) → m.qty = some n
  target : ∀ n, fs.lookup "target" = some (.int n) → m.target = some (PyId.int n)

/-- A parser that reads flat objects as JSON says. Of the parser nothing else
is asked for: it may do what it likes with other texts. -/
def ReadsFlat (loads : String → Option (PyMessage ι)) : Prop :=
  ∀ s fs, read s = some fs → ∃ m, loads s = some m ∧ m.Has fs

/-- A fill between integers is a flat object. -/
theorem read_fillText (oid px qty maker : ℤ) :
    read (fillText (PyId.int oid : ι) ⟨px, qty, PyId.int maker⟩)
      = some [("fill", .int oid), ("px", .int px), ("qty", .int qty), ("maker", .int maker)] := by
  have htext : fillText (PyId.int oid : ι) ⟨px, qty, PyId.int maker⟩
      = write 0 [("fill", .int oid), ("px", .int px), ("qty", .int qty), ("maker", .int maker)] := by
    rw [write, ← String.ofList_toList (s := fillText _ _)]
    refine congrArg String.ofList ?_
    unfold fillText
    rw [PyId.str_int, PyId.str_int]
    simp only [String.toList_append, fields_singleton, fields_cons_cons, field, quoted,
      Scalar.text, digits, List.append_assoc]
    rfl
  rw [htext]
  refine read_write 0 (List.cons_ne_nil _ _) (show ["fill", "px", "qty", "maker"].Nodup by decide) ?_
  simp only [List.forall_mem_cons]
  exact ⟨.of_key (by decide) trivial, .of_key (by decide) trivial, .of_key (by decide) trivial,
    .of_key (by decide) trivial, List.forall_mem_nil _⟩

end json

/-! ## Frames that are answered

A frame that is unpacked, or read, and whose call returns: the acknowledgement
is sent, and then the fills. -/

/-- A request whose numbers have room is read back. -/
theorem decode_of_pack {mtype side oid px qty target : ℤ} {data : List UInt8}
    (h : pack Wire.reqFormat [mtype, side, oid, px, qty, target] = some data) :
    decode data = some ⟨mtype, side, .ofNat oid.toNat, px, qty, .ofNat target.toNat⟩
      ∧ (UInt64.ofNat oid.toNat).toNat = oid ∧ (UInt64.ofNat target.toNat).toNat = target := by
  have hholds := isSome_pack_iff.mp (Option.isSome_iff_exists.mpr ⟨data, h⟩)
  simp only [Wire.reqFormat, List.forall₂_cons] at hholds
  obtain ⟨-, -, hoid, -, -, htarget, -⟩ := hholds
  have hword : ∀ {v : ℤ}, FieldKind.Holds (.unsigned 8) v
    → ((UInt64.ofNat v.toNat).toNat : ℤ) = v := by
    rintro v ⟨hlo, hhi⟩
    have hlt : v.toNat < 2 ^ 64 := by omega
    rw [UInt64.toNat_ofNat_of_lt' hlt, Int.toNat_of_nonneg hlo]
  refine ⟨?_, hword hoid, hword htarget⟩
  rw [decode, show reqFormat = Wire.reqFormat from rfl, unpack_pack h]

/-- **A binary request** whose numbers have room is acknowledged, and its fills
are sent if theirs have. The book is the one that the call leaves. -/
theorem OrderBook.onFrame_binary (loads : String → Option (PyMessage ι)) {b b' : OrderBook ι}
    (now : Instant) {mtype side oid px qty target : ℤ} {data : List UInt8}
    (h : pack Wire.reqFormat [mtype, side, oid, px, qty, target] = some data) {fills : List (Fill ι)}
    (hserve : b.serveInt ⟨mtype, side, .ofNat oid.toNat, px, qty, .ofNat target.toNat⟩
      = .ok (b', fills)) {frames : List (List UInt8)}
    (hfills : fills.mapM (fillData oid) = .ok frames) :
    ∃ ack, b.onFrame loads now (.binary data) = .ok (b', .binary ack :: frames.map .binary) := by
  obtain ⟨hdecode, hoid, -⟩ := decode_of_pack h
  have hack : ∃ ack, frame ackFormat [1, (UInt64.ofNat oid.toNat).toNat, (now : ℕ)] = .ok ack := by
    refine ⟨packed Wire.ackFormat [1, (UInt64.ofNat oid.toNat).toNat, (now : ℕ)], ?_⟩
    rw [frame, show ackFormat = Wire.ackFormat from rfl, pack_ack]
  obtain ⟨ack, hack⟩ := hack
  refine ⟨ack, ?_⟩
  unfold OrderBook.onFrame
  dsimp only
  rw [hdecode]
  dsimp only
  rw [hack, hserve, hoid]
  show (fills.mapM (fillData oid) >>= fun _ => _) = _
  rw [hfills]
  rfl

omit [DecidableEq ι] in
/-- What the frames of fills are for a reader of the fills' order. -/
theorem mapM_fillData {oid : ℤ} {fills : List (Fill ι)}
    (h : ∀ f ∈ fills, ∃ maker, f.maker = PyId.int maker
      ∧ (pack Wire.fillFormat [2, oid, f.px, f.qty, maker]).isSome) :
    ∃ frames, fills.mapM (fillData oid) = .ok frames
      ∧ List.Forall₂ (fun f data => ∃ maker, f.maker = PyId.int maker
        ∧ pack Wire.fillFormat [2, oid, f.px, f.qty, maker] = some data) fills frames := by
  induction fills with
  | nil => exact ⟨[], rfl, .nil⟩
  | cons f fills ih =>
    obtain ⟨⟨maker, hmaker, hroom⟩, hfills⟩ := List.forall_mem_cons.mp h
    obtain ⟨frames, hframes, hall⟩ := ih hfills
    obtain ⟨data, hdata⟩ := Option.isSome_iff_exists.mp hroom
    have hfill : fillData oid f = .ok data := by
      rw [fillData, hmaker, PyId.asInt_int]
      dsimp only
      rw [frame, show fillFormat = Wire.fillFormat from rfl, hdata]
    refine ⟨data :: frames, ?_, .cons ⟨maker, hmaker, hdata⟩ hall⟩
    rw [List.mapM_cons, hfill, hframes]
    rfl

/-- **A limit order in JSON** is acknowledged, and its fills are sent. As texts
they always can be. -/
theorem OrderBook.onFrame_limit {loads : String → Option (PyMessage ι)} {b b' : OrderBook ι}
    (now : Instant) {s : String} {m : PyMessage ι} (hm : loads s = some m) {oid : ι} {side : String}
    {px qty : ℤ} (ht : m.t = some "limit") (hid : m.id = some oid) (hside : m.side = some side)
    (hpx : m.px = some px) (hqty : m.qty = some qty) {fills : List (Fill ι)}
    (hlimit : b.limit oid side px qty = .ok (b', fills)) :
    b.onFrame loads now (.text s)
      = .ok (b', .text (ackText oid now) :: fills.map (fun f => .text (fillText oid f))) := by
  unfold OrderBook.onFrame
  dsimp only
  rw [hm]
  dsimp only
  rw [ht, hid]
  dsimp only
  rw [if_pos rfl, hside, hpx, hqty]
  dsimp only
  rw [hlimit]

/-- **A cancel in JSON** is acknowledged, whether it finds an order or not. -/
theorem OrderBook.onFrame_cancel {loads : String → Option (PyMessage ι)} (b : OrderBook ι)
    (now : Instant) {s : String} {m : PyMessage ι} (hm : loads s = some m) {oid target : ι}
    (ht : m.t = some "cancel") (hid : m.id = some oid) (htarget : m.target = some target) :
    b.onFrame loads now (.text s) = .ok ((b.cancel target).1, [.text (ackText oid now)]) := by
  unfold OrderBook.onFrame
  dsimp only
  rw [hm]
  dsimp only
  rw [ht, hid]
  dsimp only
  rw [if_neg (by decide), if_neg (by decide), if_pos rfl, htarget]
  rfl

end PyEngine
