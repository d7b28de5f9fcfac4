import HftArena.Engine.Agreement
import HftArena.Wire.Codec

/-!
# The engines' connection handlers

What each reference engine does with one frame: a binary frame is decoded by
hand at the offsets of the layout, a text frame is a JSON message; both are
acknowledged first, and then the book is called and its fills are sent. The
four handlers differ in what they make of a frame that is too short, a field
that is missing and a type that is unknown, and each is modelled with its own
answer.

A handler that raises, throws, panics or reads out of bounds is an error here.
Times are readings of the engine's clock, one for each frame.

The definitions of the four engines have the same names, each in its own
namespace, and are read side by side: `decode`, what it makes of a binary
request; `serve`, the call it makes; `onBinary` and `onText`, what it sends.
The Python engine packs its replies by a format, and can fail at that; the
compiled engines lay them out byte by byte and cut off what does not fit.
-/

open PriceTime Wire

/-- What can go wrong in a handler: a method of the book fails, or the frame
cannot be read. -/
inductive HandlerError (ε : Type) where
  /-- A method of the book. -/
  | book (e : ε)
  /-- A frame or a message that the handler cannot read. -/
  | malformed

/-- A fill as a JSON message, to the taker with this id. -/
def fillReply (id : UInt64) (f : Fill UInt64) : Reply :=
  .fill id.toNat f.px f.qty f.maker.toNat

/-! ## Python: `handle`

`struct` packs and unpacks; the JSON is written by f-strings. -/

namespace PyEngine

/-- `_REQ`. -/
def reqFormat : List FieldKind :=
  [.unsigned 1, .unsigned 1, .unsigned 8, .signed 4, .signed 4, .unsigned 8]

/-- `_ACK`. -/
def ackFormat : List FieldKind := [.unsigned 1, .unsigned 8, .unsigned 8]

/-- `_FILL`. -/
def fillFormat : List FieldKind := [.unsigned 1, .unsigned 8, .signed 4, .signed 4, .unsigned 8]

/-- `_REQ.unpack`. -/
def decode (raw : List UInt8) : Option Request :=
  match unpack reqFormat raw with
  | some [mtype, side, oid, px, qty, target] =>
    some ⟨mtype, side, .ofNat oid.toNat, px, qty, .ofNat target.toNat⟩
  | _ => none

/-- Packing, which raises `struct.error` where a field has no room. -/
def frame (ks : List FieldKind) (vs : List ℤ) : Except (HandlerError PyError) (List UInt8) :=
  match pack ks vs with
  | some data => .ok data
  | none => .error .malformed

/-- The call a request asks for: what is neither 1 nor 2 is a cancel. -/
def OrderBook.serve (b : OrderBook UInt64) (r : Request) :
    Except PyError (OrderBook UInt64 × List (Fill UInt64)) :=
  if r.mtype = 1 then b.limit r.id (if r.side = 0 then "buy" else "sell") r.px r.qty
  else if r.mtype = 2 then b.market (if r.side = 0 then "buy" else "sell") r.qty
  else .ok ((b.cancel r.target).1, [])

/-- A binary frame. -/
def OrderBook.onBinary (b : OrderBook UInt64) (x : Instant × List UInt8) :
    Except (HandlerError PyError) (OrderBook UInt64 × List (List UInt8)) :=
  match decode x.2 with
  | none => .error .malformed
  | some r => do
    let ack ← frame ackFormat [1, r.id.toNat, (x.1 : ℕ)]
    let (b', fills) ← (b.serve r).mapError .book
    let frames ← fills.mapM
      (fun f => frame fillFormat [2, r.id.toNat, f.px, f.qty, f.maker.toNat])
    .ok (b', ack :: frames)

/-- A text frame. A field that is missing raises a `KeyError`: before the
acknowledgement the message is skipped, after it rejected. The book that a
method which raises leaves behind is not modelled. -/
def OrderBook.onText (b : OrderBook UInt64) (x : Instant × Message) :
    Except (HandlerError PyError) (OrderBook UInt64 × List Reply) :=
  let m := x.2
  match m.t, m.id with
  | some t, some oid =>
    let ack := Reply.ack oid.toNat (x.1 : ℕ)
    let reject := .ok (b, [ack, .reject oid.toNat])
    let called := fun r : Except PyError (OrderBook UInt64 × List (Fill UInt64)) =>
      match r with
      | .ok (b', fills) => .ok (b', ack :: fills.map (fillReply oid))
      | .error e => .error (.book e)
    if t = "limit" then
      match m.side, m.px, m.qty with
      | some side, some px, some qty => called (b.limit oid side px qty)
      | _, _, _ => reject
    else if t = "market" then
      match m.side, m.qty with
      | some side, some qty => called (b.market side qty)
      | _, _ => reject
    else if t = "cancel" then
      match m.target with
      | some target => called (.ok ((b.cancel target).1, []))
      | none => reject
    else reject
  | _, _ => .ok (b, [])

end PyEngine

/-! ## C++: `onmessage`

Fields are copied to and from the bytes of a frame, and cut off where they have
no room. -/

namespace CppEngine

/-- The fields copied out of a frame; a shorter frame is read beyond its
end. -/
def decode (data : List UInt8) : Option Request :=
  if data.length < 26 then none
  else some
    { mtype := ofLE (slice data 0 1)
      side := ofLE (slice data 1 1)
      id := .ofNat (ofLE (slice data 2 8))
      px := signedLE (slice data 10 4)
      qty := signedLE (slice data 14 4)
      target := .ofNat (ofLE (slice data 18 8)) }

/-- `ack`. -/
def ackFrame (id : UInt64) (ts : Instant) : List UInt8 :=
  [1] ++ toLE 8 id.toNat ++ toLEInt 8 (ts : ℕ)

/-- `fb`: the casts to `int32_t` keep the low four bytes. -/
def fillFrame (id : UInt64) (f : Fill UInt64) : List UInt8 :=
  [2] ++ toLE 8 id.toNat ++ toLEInt 4 f.px ++ toLEInt 4 f.qty ++ toLE 8 f.maker.toNat

/-- The call a request asks for: what is neither 1 nor 2 is a cancel. -/
def OrderBook.serve (b : OrderBook UInt64) (r : Request) :
    Except CppError (OrderBook UInt64 × List (Fill UInt64)) :=
  if r.mtype = 1 then b.limit r.id (r.side == 0) r.px r.qty
  else if r.mtype = 2 then b.market (r.side == 0) r.qty
  else do
    let (b', _) ← b.cancel r.target
    .ok (b', [])

/-- A binary frame. -/
def OrderBook.onBinary (b : OrderBook UInt64) (x : Instant × List UInt8) :
    Except (HandlerError CppError) (OrderBook UInt64 × List (List UInt8)) :=
  match decode x.2 with
  | none => .error .malformed
  | some r => do
    let (b', fills) ← (b.serve r).mapError .book
    .ok (b', ackFrame r.id x.1 :: fills.map (fillFrame r.id))

/-- A text frame. The JSON library throws where a field is missing; a message
of another type is acknowledged and nothing else. -/
def OrderBook.onText (b : OrderBook UInt64) (x : Instant × Message) :
    Except (HandlerError CppError) (OrderBook UInt64 × List Reply) :=
  let m := x.2
  match m.id, m.t with
  | some id, some type =>
    let called := fun r : Except CppError (OrderBook UInt64 × List (Fill UInt64)) =>
      match r with
      | .ok (b', fills) => .ok (b', .ack id.toNat (x.1 : ℕ) :: fills.map (fillReply id))
      | .error e => .error (.book e)
    if type = "limit" then
      match m.side, m.px, m.qty with
      | some side, some px, some qty => called (b.limit id (side == "buy") px qty)
      | _, _, _ => .error .malformed
    else if type = "market" then
      match m.side, m.qty with
      | some side, some qty => called (b.market (side == "buy") qty)
      | _, _ => .error .malformed
    else if type = "cancel" then
      match m.target with
      | some target => called (do let (b', _) ← b.cancel target; .ok (b', []))
      | none => .error .malformed
    else called (.ok (b, []))
  | _, _ => .error .malformed

end CppEngine

/-! ## Go: `handle`

A switch over the types, in which an unknown one makes no call. -/

namespace GoEngine

/-- The fields sliced out of a frame; in a shorter frame an index or a slice is
out of range, or reaches into what the buffer held before. -/
def decode (data : List UInt8) : Option Request :=
  if data.length < 26 then none
  else some
    { mtype := ofLE (slice data 0 1)
      side := ofLE (slice data 1 1)
      id := .ofNat (ofLE (slice data 2 8))
      px := signedLE (slice data 10 4)
      qty := signedLE (slice data 14 4)
      target := .ofNat (ofLE (slice data 18 8)) }

/-- `ack`. -/
def ackFrame (id : UInt64) (ts : Instant) : List UInt8 :=
  [1] ++ toLE 8 id.toNat ++ toLE 8 (ts : ℕ)

/-- `fb`: the conversions to `int32` keep the low four bytes. -/
def fillFrame (id : UInt64) (f : Fill UInt64) : List UInt8 :=
  [2] ++ toLE 8 id.toNat ++ toLEInt 4 f.px ++ toLEInt 4 f.qty ++ toLE 8 f.maker.toNat

/-- The call a request asks for: what is neither 1 nor 2 nor 3 is nothing. -/
def Book.serve (b : Book UInt64) (r : Request) :
    Except GoError (Book UInt64 × List (Fill UInt64)) :=
  if r.mtype = 1 then b.limit r.id (r.side == 0) r.px r.qty
  else if r.mtype = 2 then b.market (r.side == 0) r.qty
  else if r.mtype = 3 then .ok (b.cancel r.target, [])
  else .ok (b, [])

/-- A binary frame. -/
def Book.onBinary (b : Book UInt64) (x : Instant × List UInt8) :
    Except (HandlerError GoError) (Book UInt64 × List (List UInt8)) :=
  match decode x.2 with
  | none => .error .malformed
  | some r => do
    let (b', fills) ← (b.serve r).mapError .book
    .ok (b', ackFrame r.id x.1 :: fills.map (fillFrame r.id))

/-- A text frame. A field that is missing has its type's zero. -/
def Book.onText (b : Book UInt64) (x : Instant × Message) :
    Except (HandlerError GoError) (Book UInt64 × List Reply) := do
  let m := x.2
  let id := m.id.getD 0
  let buy := m.side == some "buy"
  let t := m.t.getD ""
  let (b', fills) ← Except.mapError HandlerError.book <|
    if t = "limit" then b.limit id buy (m.px.getD 0) (m.qty.getD 0)
    else if t = "market" then b.market buy (m.qty.getD 0)
    else if t = "cancel" then .ok (b.cancel (m.target.getD 0), [])
    else .ok (b, [])
  .ok (b', .ack id.toNat (x.1 : ℕ) :: fills.map (fillReply id))

end GoEngine

/-! ## Rust: `main`

As in C++, with the bytes taken from slices. -/

namespace RustEngine

/-- The fields sliced out of a frame; a shorter frame is skipped. -/
def decode (d : List UInt8) : Option Request :=
  if d.length < 26 then none
  else some
    { mtype := ofLE (slice d 0 1)
      side := ofLE (slice d 1 1)
      id := .ofNat (ofLE (slice d 2 8))
      px := signedLE (slice d 10 4)
      qty := signedLE (slice d 14 4)
      target := .ofNat (ofLE (slice d 18 8)) }

/-- `ack`. -/
def ackFrame (id : UInt64) (ts : Instant) : List UInt8 :=
  [1] ++ toLE 8 id.toNat ++ toLE 8 (ts : ℕ)

/-- `fb`: the casts to `i32` keep the low four bytes. -/
def fillFrame (id : UInt64) (f : Fill UInt64) : List UInt8 :=
  [2] ++ toLE 8 id.toNat ++ toLEInt 4 f.px ++ toLEInt 4 f.qty ++ toLE 8 f.maker.toNat

/-- The call a request asks for: what is neither 1 nor 2 is a cancel. -/
def Book.serve (b : Book UInt64) (r : Request) :
    Except RustError (Book UInt64 × List (Fill UInt64)) :=
  if r.mtype = 1 then b.limit r.id (r.side == 0) r.px r.qty
  else if r.mtype = 2 then b.market (r.side == 0) r.qty
  else .ok (b.cancel r.target, [])

/-- A binary frame. -/
def Book.onBinary (b : Book UInt64) (x : Instant × List UInt8) :
    Except (HandlerError RustError) (Book UInt64 × List (List UInt8)) :=
  match decode x.2 with
  | none => .ok (b, [])
  | some r => do
    let (b', fills) ← (b.serve r).mapError .book
    .ok (b', ackFrame r.id x.1 :: fills.map (fillFrame r.id))

/-- A text frame. A field that is missing reads as zero or as no string. -/
def Book.onText (b : Book UInt64) (x : Instant × Message) :
    Except (HandlerError RustError) (Book UInt64 × List Reply) := do
  let v := x.2
  let id := v.id.getD 0
  let buy := v.side == some "buy"
  let t := v.t.getD ""
  let (b', fills) ← Except.mapError HandlerError.book <|
    if t = "limit" then b.limit id buy (v.px.getD 0) (v.qty.getD 0)
    else if t = "market" then b.market buy (v.qty.getD 0)
    else if t = "cancel" then .ok (b.cancel (v.target.getD 0), [])
    else .ok (b, [])
  .ok (b', .ack id.toNat (x.1 : ℕ) :: fills.map (fillReply id))

end RustEngine
