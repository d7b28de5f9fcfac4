import HftArena.Lib.Packed
import HftArena.PriceTime.Book

/-!
# The wire formats: `wire.py`

The binary codec of `bot_fleet/wire.py`, which the load bots and the probe
speak: little-endian structures without padding. Its numbers are Python's, so
packing can fail.

An `Order` is what the fleet has to say, with ids and targets of 64 bits and
prices and quantities of 32 bits with a sign. It goes out as a binary frame
(`Order.encode`) or as a JSON message (`Order.message`), of which the fields
are what the engine's JSON library reads; a reply comes back as a binary frame
or as a JSON message, and `SameReply` is when these two say the same.

The round trips are those of `Lib.Packed` at the three formats. An engine does
not unpack a request but takes slices of it, and finds the same fields there
(`Request.Fits.slices`); it lays its replies out by hand, and `wire.py` reads
them back.
-/

open PriceTime

namespace Wire

/-! ## The codec

The functions of `bot_fleet/wire.py`, with `struct` by its documented layout. -/

/-- `REQ`: type, side, id, price, quantity and target. -/
def reqFormat : List FieldKind :=
  [.unsigned 1, .unsigned 1, .unsigned 8, .signed 4, .signed 4, .unsigned 8]

/-- `ACK`: type, id and the engine's time. -/
def ackFormat : List FieldKind := [.unsigned 1, .unsigned 8, .unsigned 8]

/-- `FILL`: type, the taker's id, price, quantity and the maker's id. -/
def fillFormat : List FieldKind := [.unsigned 1, .unsigned 8, .signed 4, .signed 4, .unsigned 8]

/-- `LIMIT`. -/
def limitType : ℤ := 1

/-- `MARKET`. -/
def marketType : ℤ := 2

/-- `CANCEL`. -/
def cancelType : ℤ := 3

/-- `T_ACK`. -/
def ackTag : UInt8 := 1

/-- `T_FILL`. -/
def fillTag : UInt8 := 2

/-- `enc_limit`. It raises where a number has no room in its field. -/
def encLimit (oid : ℤ) (buy : Bool) (px qty : ℤ) : Option (List UInt8) :=
  pack reqFormat [limitType, if buy then 0 else 1, oid, px, qty, 0]

/-- `enc_market`: the price is 0. -/
def encMarket (oid : ℤ) (buy : Bool) (qty : ℤ) : Option (List UInt8) :=
  pack reqFormat [marketType, if buy then 0 else 1, oid, 0, qty, 0]

/-- `enc_cancel`: of the order with the id `target`. -/
def encCancel (oid target : ℤ) : Option (List UInt8) :=
  pack reqFormat [cancelType, 0, oid, 0, 0, target]

/-- `reply_type`: the first byte, which an empty frame has not. -/
def replyType (data : List UInt8) : Option UInt8 := data.head?

/-- `dec_ack`: the id and the engine's time. -/
def decAck (data : List UInt8) : Option (ℤ × ℤ) :=
  match unpack ackFormat data with
  | some [_, oid, ts] => some (oid, ts)
  | _ => none

/-- `dec_fill`: the taker's id, the price, the quantity and the maker. -/
def decFill (data : List UInt8) : Option (ℤ × ℤ × ℤ × ℤ) :=
  match unpack fillFormat data with
  | some [_, oid, px, qty, maker] => some (oid, px, qty, maker)
  | _ => none

/-! ## Orders

What a bot asks for, whichever wire it uses, and what it goes out as on each. -/

/-- **What the fleet has to say**, in the ranges of the binary fields. -/
inductive Order where
  | limit (oid : UInt64) (buy : Bool) (px qty : Int32)
  | market (oid : UInt64) (buy : Bool) (qty : Int32)
  | cancel (oid target : UInt64)
deriving DecidableEq

/-- The fields of a request. -/
structure Request where
  mtype : ℤ
  side : ℤ
  id : UInt64
  px : ℤ
  qty : ℤ
  target : UInt64
deriving DecidableEq, Repr

/-- What an engine's JSON library finds in a text frame: the fields that are
there. The fleet's own messages have the fields of their type; an engine is
sent others by its opponents. -/
structure Message where
  t : Option String
  id : Option UInt64
  side : Option String
  px : Option ℤ
  qty : Option ℤ
  target : Option UInt64
deriving DecidableEq, Repr

/-- What an engine says back in JSON. -/
inductive Reply where
  | ack (id ts : ℤ)
  | fill (id px qty maker : ℤ)
  | reject (id : ℤ)
deriving DecidableEq, Repr

namespace Order

/-- The id it is sent under. -/
def oid : Order → UInt64
  | limit oid _ _ _ => oid
  | market oid _ _ => oid
  | cancel oid _ => oid

/-- The frame it goes out in. -/
def encode : Order → Option (List UInt8)
  | limit oid buy px qty => encLimit oid.toNat buy px.toInt qty.toInt
  | market oid buy qty => encMarket oid.toNat buy qty.toInt
  | cancel oid target => encCancel oid.toNat target.toNat

/-- The bytes of that frame. -/
def frame (o : Order) : List UInt8 := o.encode.getD []

/-- Its type, side, id, price, quantity and target. -/
def request : Order → Request
  | limit oid buy px qty => ⟨limitType, if buy then 0 else 1, oid, px.toInt, qty.toInt, 0⟩
  | market oid buy qty => ⟨marketType, if buy then 0 else 1, oid, 0, qty.toInt, 0⟩
  | cancel oid target => ⟨cancelType, 0, oid, 0, 0, target⟩

/-- The message it goes out in. -/
def message : Order → Message
  | limit oid buy px qty => ⟨some "limit", some oid, some (if buy then "buy" else "sell"),
      some px.toInt, some qty.toInt, none⟩
  | market oid buy qty => ⟨some "market", some oid, some (if buy then "buy" else "sell"), none,
      some qty.toInt, none⟩
  | cancel oid target => ⟨some "cancel", some oid, none, none, none, some target⟩

/-- The call of a book that it asks for. -/
def call : Order → Call UInt64
  | limit oid buy px qty => .limit oid (if buy then .bid else .ask) px.toInt qty.toInt
  | market oid buy qty => .market oid (if buy then .bid else .ask) qty.toInt
  | cancel _ target => .cancel target

end Order

/-- **Two replies that say the same**: a binary frame as `wire.py` reads it,
and a JSON message. The times of two runs differ. -/
def SameReply (data : List UInt8) : Reply → Prop
  | .ack id _ => data.length = 17 ∧ replyType data = some ackTag
      ∧ ∃ ts, decAck data = some (id, ts)
  | .fill id px qty maker => data.length = 25 ∧ replyType data = some fillTag
      ∧ decFill data = some (id, px, qty, maker)
  | .reject _ => False

/-! ## Round trips

An order that has room in the fields is read back as it was, and so are replies
of which the numbers have room. -/

/-- A price or a quantity that a field has room for. -/
def InInt32 (v : ℤ) : Prop := FieldKind.Holds (.signed 4) v

instance (v : ℤ) : Decidable (InInt32 v) := inferInstanceAs (Decidable (FieldKind.Holds _ v))

/-- An `Int32` has room. -/
theorem inInt32_toInt (v : Int32) : InInt32 v.toInt := by
  have hlo := v.le_toInt
  have hhi := v.toInt_lt
  show -(256 ^ 4 : ℕ) ≤ 2 * v.toInt ∧ 2 * v.toInt < (256 ^ 4 : ℕ)
  omega

/-- A `UInt64` has room. -/
theorem holds_toNat (i : UInt64) : FieldKind.Holds (.unsigned 8) i.toNat := by
  have := i.toNat_lt
  show (0 : ℤ) ≤ i.toNat ∧ (i.toNat : ℤ) < (256 ^ 8 : ℕ)
  omega

/-- The numbers of a request. -/
def Request.values (r : Request) : List ℤ :=
  [r.mtype, r.side, r.id.toNat, r.px, r.qty, r.target.toNat]

/-- A request whose numbers have room. -/
structure Request.Fits (r : Request) : Prop where
  mtype : FieldKind.Holds (.unsigned 1) r.mtype
  side : FieldKind.Holds (.unsigned 1) r.side
  px : InInt32 r.px
  qty : InInt32 r.qty

/-- What the fleet has to say has room. -/
theorem Order.fits_request (o : Order) : o.request.Fits := by
  have hside : ∀ buy : Bool, FieldKind.Holds (.unsigned 1) (if buy then 0 else 1) := by decide
  have htype : ∀ mtype ∈ [limitType, marketType, cancelType],
      FieldKind.Holds (.unsigned 1) mtype := by decide
  have hzero : InInt32 0 := by decide
  cases o with
  | limit oid buy px qty =>
    exact ⟨htype limitType (by decide), hside buy, inInt32_toInt px, inInt32_toInt qty⟩
  | market oid buy qty =>
    exact ⟨htype marketType (by decide), hside buy, hzero, inInt32_toInt qty⟩
  | cancel oid target => exact ⟨htype cancelType (by decide), hside true, hzero, hzero⟩

/-- A request that has room is packed. -/
theorem Request.Fits.pack {r : Request} (h : r.Fits) :
    pack reqFormat r.values = some (packed reqFormat r.values) :=
  pack_of_holds (.cons h.mtype (.cons h.side (.cons (holds_toNat _) (.cons h.px (.cons h.qty
    (.cons (holds_toNat _) .nil))))))

/-- **Every order has a frame**, which is the one of its fields. -/
theorem Order.encode_eq (o : Order) :
    o.encode = some (packed reqFormat o.request.values) := by
  rw [← o.fits_request.pack]
  cases o <;> rfl

/-- The bytes of an order are those of its request. -/
theorem Order.frame_eq (o : Order) : o.frame = packed reqFormat o.request.values := by
  rw [Order.frame, o.encode_eq, Option.getD_some]

/-- **What slices of a frame hold**: the fields of a request, at the offsets of
the layout. -/
theorem Request.Fits.slices {r : Request} (h : r.Fits) :
    (packed reqFormat r.values).length = 26
      ∧ (ofLE (slice (packed reqFormat r.values) 0 1) : ℤ) = r.mtype
      ∧ (ofLE (slice (packed reqFormat r.values) 1 1) : ℤ) = r.side
      ∧ UInt64.ofNat (ofLE (slice (packed reqFormat r.values) 2 8)) = r.id
      ∧ signedLE (slice (packed reqFormat r.values) 10 4) = r.px
      ∧ signedLE (slice (packed reqFormat r.values) 14 4) = r.qty
      ∧ UInt64.ofNat (ofLE (slice (packed reqFormat r.values) 18 8)) = r.target := by
  obtain ⟨hlen, hfields⟩ := fields_of_pack h.pack
  simp only [reqFormat, fields, FieldKind.read, FieldKind.width, List.drop_drop, Request.values,
    List.cons.injEq] at hfields
  obtain ⟨hmtype, hside, hid, hpx, hqty, htarget, -⟩ := hfields
  have hword : ∀ {n : ℕ} {i : UInt64}, (n : ℤ) = i.toNat → UInt64.ofNat n = i := by
    intro n i hn
    rw [Int.ofNat_inj.mp hn, UInt64.ofNat_toNat]
  exact ⟨hlen, hmtype, hside, hword hid, hpx, hqty, hword htarget⟩

/-- An engine's clock: nanoseconds since the epoch, as far as 64 bits with a
sign reach. -/
abbrev Instant := Fin (2 ^ 63)

/-- The clock has room in an acknowledgement. -/
theorem holds_instant (t : Instant) : FieldKind.Holds (.unsigned 8) (t : ℕ) := by
  have := t.isLt
  show (0 : ℤ) ≤ (t : ℕ) ∧ ((t : ℕ) : ℤ) < (256 ^ 8 : ℕ)
  omega

/-- An acknowledgement is packed. -/
theorem pack_ack (i : UInt64) (t : Instant) :
    pack ackFormat [1, i.toNat, (t : ℕ)] = some (packed ackFormat [1, i.toNat, (t : ℕ)]) :=
  pack_of_holds (.cons (by decide) (.cons (holds_toNat i) (.cons (holds_instant t) .nil)))

/-- **An acknowledgement is read back.** -/
theorem sameReply_ack (i : UInt64) (t : Instant) (ts : ℤ) :
    SameReply (packed ackFormat [1, i.toNat, (t : ℕ)]) (.ack i.toNat ts) := by
  have hpack := pack_ack i t
  refine ⟨(fields_of_pack hpack).1, rfl, (t : ℕ), ?_⟩
  rw [decAck, unpack_pack hpack]

/-- A fill is packed if its price and its quantity have room. -/
theorem pack_fill (i maker : UInt64) {px qty : ℤ} (hpx : InInt32 px) (hqty : InInt32 qty) :
    pack fillFormat [2, i.toNat, px, qty, maker.toNat]
      = some (packed fillFormat [2, i.toNat, px, qty, maker.toNat]) :=
  pack_of_holds (.cons (by decide) (.cons (holds_toNat i) (.cons hpx (.cons hqty
    (.cons (holds_toNat maker) .nil)))))

/-- **A fill is read back.** -/
theorem sameReply_fill (i maker : UInt64) {px qty : ℤ} (hpx : InInt32 px) (hqty : InInt32 qty) :
    SameReply (packed fillFormat [2, i.toNat, px, qty, maker.toNat])
      (.fill i.toNat px qty maker.toNat) := by
  have hpack := pack_fill i maker hpx hqty
  refine ⟨(fields_of_pack hpack).1, rfl, ?_⟩
  rw [decFill, unpack_pack hpack]

end Wire
