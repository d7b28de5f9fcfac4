import HftArena.Engine.Bounds
import HftArena.Wire.Handlers

/-!
# Binary and JSON wires are interchangeable

For every engine: a frame that `wire.py` encodes is decoded to what went in;
the frames that come back are read by `wire.py` as what the engine says in
JSON; and a run in binary frames leaves the book that the run in text frames
leaves (`WireEngine.Interchangeable`).

Both handlers make the same call of the book for the same order. That the
replies fit their frames is what the fills are bounded by: a fill is at a price
that an order brought, and for no more than the taker wanted
(`PriceTime.KeepsWithin`). Ids may repeat.

What is shared by the engines is `WireEngine.interchangeable`: the two runs go
side by side (`run_related`), call by call. What an engine has to show for it
is that its decoder finds the request, that `serve` makes the call, and that
its bytes are those of the formats (`layout_ack`, `layout_fill`).
-/

open PriceTime Wire

/-- **An engine on the wire.** -/
structure WireEngine (σ ε : Type) where
  init : σ
  /-- Its decoder of requests. -/
  decode : List UInt8 → Option Request
  onBinary : σ → Instant × List UInt8 → Except (HandlerError ε) (σ × List (List UInt8))
  onText : σ → Instant × Message → Except (HandlerError ε) (σ × List Reply)

namespace WireEngine

variable {σ ε : Type}

/-- **Both wires carry the same.** An order is given with the readings of the
clock in the two runs. -/
structure Interchangeable (E : WireEngine σ ε) : Prop where
  encodes : ∀ o : Order, o.encode = some o.frame
  decodes : ∀ o : Order, E.decode o.frame = some o.request
  runs : ∀ os : List (Order × Instant × Instant), ∃ b frames replies,
    run E.onBinary E.init (os.map (fun x => (x.2.1, x.1.frame))) = .ok (b, frames)
      ∧ run E.onText E.init (os.map (fun x => (x.2.2, x.1.message))) = .ok (b, replies)
      ∧ List.Forall₂ (List.Forall₂ SameReply) frames replies

/-- **Two handlers that make the call an order asks for**, and answer with its
fills, carry the same if the fills have room. -/
theorem interchangeable {E : WireEngine σ ε}
    {call : σ → Call UInt64 → Except ε (σ × List (Fill UInt64))} {Inv : σ → Prop}
    (hkeeps : KeepsWithin call InInt32 Inv) (hinit : Inv E.init)
    (hdecode : ∀ o : Order, E.decode o.frame = some o.request)
    (hbinary : ∀ b b' o t fills, call b (Order.call o) = .ok (b', fills) →
      (∀ f ∈ fills, InInt32 f.px ∧ InInt32 f.qty) →
      ∃ frames, E.onBinary b (t, o.frame) = .ok (b', frames)
        ∧ ∀ ts, List.Forall₂ SameReply frames
          (.ack o.oid.toNat ts :: fills.map (fillReply o.oid)))
    (htext : ∀ b b' o t fills, call b (Order.call o) = .ok (b', fills) →
      E.onText b (t, o.message)
        = .ok (b', .ack o.oid.toNat (t : ℕ) :: fills.map (fillReply o.oid))) :
    E.Interchangeable := by
  refine ⟨fun o => by rw [o.frame_eq, o.encode_eq], hdecode, fun os => ?_⟩
  suffices h : ∀ b, Inv b → ∃ b' frames replies,
      run E.onBinary b (os.map (fun x => (x.2.1, x.1.frame))) = .ok (b', frames)
        ∧ run E.onText b (os.map (fun x => (x.2.2, x.1.message))) = .ok (b', replies)
        ∧ List.Forall₂ (List.Forall₂ SameReply) frames replies from h _ hinit
  induction os with
  | nil => exact fun b _ => ⟨b, [], [], rfl, rfl, .nil⟩
  | cons x os ih =>
    intro b hb
    obtain ⟨o, t, t'⟩ := x
    have hcall : o.call.Priced InInt32 := by
      cases o with
      | limit oid buy px qty => exact inInt32_toInt px
      | market oid buy qty => exact trivial
      | cancel oid target => exact trivial
    have hwant : InInt32 o.call.want := by
      cases o with
      | limit oid buy px qty => exact inInt32_toInt qty
      | market oid buy qty => exact inInt32_toInt qty
      | cancel oid target => exact (by decide : InInt32 0)
    obtain ⟨b₁, fills, hok, hb₁, hfills⟩ := hkeeps b o.call hb hcall
    have hroom : ∀ f ∈ fills, InInt32 f.px ∧ InInt32 f.qty := by
      intro f hf
      obtain ⟨hpx, hpos, hle⟩ := hfills f hf
      -- more than nothing and no more than a quantity that has room
      exact ⟨hpx, le_trans (by norm_num) (mul_nonneg zero_le_two hpos.le),
        lt_of_le_of_lt (mul_le_mul_of_nonneg_left hle zero_le_two) hwant.2⟩
    obtain ⟨frames, hframes, hsame⟩ := hbinary b b₁ o t fills hok hroom
    obtain ⟨b', fs, rs, hfs, hrs, hsames⟩ := ih b₁ hb₁
    exact ⟨b', _, _, run_cons_of_ok hframes hfs, run_cons_of_ok (htext b b₁ o t' fills hok) hrs,
      .cons (hsame _) hsames⟩

end WireEngine

/-! ## The four engines

For each engine the same three steps: the frame of an order is decoded to its
fields, the fields make the call of the order, and the answer is read back as
the replies that JSON gives. -/

/-- The word for a side is read as that side. -/
theorem beq_buy (buy : Bool) :
    ((if buy then "buy" else "sell") == "buy") = ((if buy then Side.bid else .ask) == .bid) := by
  cases buy <;> rfl

/-- An acknowledgement laid out by hand, with the time as a number with a
sign. -/
theorem layout_ack_signed (i : UInt64) (t : Instant) :
    [1] ++ toLE 8 i.toNat ++ toLEInt 8 (t : ℕ) = packed ackFormat [1, i.toNat, (t : ℕ)] := by
  have hi : i.toNat < 256 ^ 8 := i.toNat_lt
  show _ = toLEInt 1 1 ++ (toLEInt 8 i.toNat ++ (toLEInt 8 (t : ℕ) ++ []))
  rw [toLEInt_natCast hi, List.append_nil, List.append_assoc]
  rfl

/-- The same, with the time as a number without. -/
theorem layout_ack (i : UInt64) (t : Instant) :
    [1] ++ toLE 8 i.toNat ++ toLE 8 (t : ℕ) = packed ackFormat [1, i.toNat, (t : ℕ)] := by
  have ht : (t : ℕ) < 256 ^ 8 := lt_trans t.isLt (by norm_num)
  rw [← layout_ack_signed, toLEInt_natCast ht]

/-- A fill laid out by hand. -/
theorem layout_fill (i maker : UInt64) (px qty : ℤ) :
    [2] ++ toLE 8 i.toNat ++ toLEInt 4 px ++ toLEInt 4 qty ++ toLE 8 maker.toNat
      = packed fillFormat [2, i.toNat, px, qty, maker.toNat] := by
  show _ = toLEInt 1 2 ++ (toLEInt 8 i.toNat ++ (toLEInt 4 px ++ (toLEInt 4 qty
    ++ (toLEInt 8 maker.toNat ++ []))))
  rw [toLEInt_natCast i.toNat_lt, toLEInt_natCast maker.toNat_lt, List.append_nil]
  simp only [List.append_assoc]
  rfl

/-- **Frames laid out by hand say what the JSON says**, if the fills have room:
the casts cut nothing off then. -/
theorem sameReplies {ackFrame : List UInt8} {fillFrame : Fill UInt64 → List UInt8} {i : UInt64}
    {t : Instant} {fills : List (Fill UInt64)}
    (hack : ackFrame = packed ackFormat [1, i.toNat, (t : ℕ)])
    (hfill : ∀ f, fillFrame f = packed fillFormat [2, i.toNat, f.px, f.qty, f.maker.toNat])
    (hroom : ∀ f ∈ fills, InInt32 f.px ∧ InInt32 f.qty) (ts : ℤ) :
    List.Forall₂ SameReply (ackFrame :: fills.map fillFrame)
      (.ack i.toNat ts :: fills.map (fillReply i)) := by
  refine .cons (hack ▸ sameReply_ack i t ts) ?_
  rw [List.forall₂_map_left_iff, List.forall₂_map_right_iff, List.forall₂_same]
  intro f hf
  rw [hfill]
  exact sameReply_fill i f.maker (hroom f hf).1 (hroom f hf).2

namespace PyEngine

/-- The Python engine on the wire. -/
def wire : WireEngine (OrderBook UInt64) PyError :=
  ⟨.init, decode, OrderBook.onBinary, OrderBook.onText⟩

theorem decode_frame (o : Order) : decode o.frame = some o.request := by
  rw [decode, o.frame_eq]
  have hunpack : unpack reqFormat (packed Wire.reqFormat o.request.values)
      = some o.request.values := unpack_pack o.fits_request.pack
  rw [hunpack]
  simp [Request.values]

/-- The request of an order is served by the call it asks for. -/
theorem serve_request (b : OrderBook UInt64) (o : Order) :
    b.serve o.request = b.call o.call.toPy := by
  cases o with
  | limit oid buy px qty => cases buy <;> rfl
  | market oid buy qty => cases buy <;> rfl
  | cancel oid target => rfl

/-- A frame that is packed is made. -/
theorem frame_of_pack {ks : List FieldKind} {vs : List ℤ} {data : List UInt8}
    (h : pack ks vs = some data) : frame ks vs = .ok data := by
  rw [frame, h]

/-- Frames that all have room are all made. -/
theorem mapM_frame (ks : List FieldKind) (vs : Fill UInt64 → List ℤ) {fills : List (Fill UInt64)}
    (h : ∀ f ∈ fills, pack ks (vs f) = some (packed ks (vs f))) :
    fills.mapM (fun f => frame ks (vs f)) = .ok (fills.map (fun f => packed ks (vs f))) := by
  induction fills with
  | nil => rfl
  | cons f fills ih =>
    rw [List.mapM_cons, ih (fun f hf => h f (List.mem_cons_of_mem _ hf)),
      frame_of_pack (h f List.mem_cons_self)]
    rfl

theorem onBinary_frame {b b' : OrderBook UInt64} {o : Order} (t : Instant)
    {fills : List (Fill UInt64)} (hcall : b.call o.call.toPy = .ok (b', fills))
    (hroom : ∀ f ∈ fills, InInt32 f.px ∧ InInt32 f.qty) :
    b.onBinary (t, o.frame) = .ok (b', packed Wire.ackFormat [1, o.oid.toNat, (t : ℕ)]
      :: fills.map (fun f =>
          packed Wire.fillFormat [2, o.oid.toNat, f.px, f.qty, f.maker.toNat])) := by
  have hid : o.request.id = o.oid := by cases o <;> rfl
  have hack := frame_of_pack (pack_ack o.oid t)
  have hfills := mapM_frame Wire.fillFormat
    (fun f => [2, o.oid.toNat, f.px, f.qty, f.maker.toNat])
    (fun f hf => pack_fill o.oid f.maker (hroom f hf).1 (hroom f hf).2)
  have hformats : ackFormat = Wire.ackFormat ∧ fillFormat = Wire.fillFormat := ⟨rfl, rfl⟩
  unfold OrderBook.onBinary
  rw [decode_frame]
  dsimp only
  rw [serve_request, hcall, hid, hformats.1, hformats.2, hack, Except.mapError]
  simp only [bind, Except.bind]
  rw [hfills]

theorem onText_message {b b' : OrderBook UInt64} {o : Order} (t : Instant)
    {fills : List (Fill UInt64)} (hcall : b.call o.call.toPy = .ok (b', fills)) :
    b.onText (t, o.message)
      = .ok (b', .ack o.oid.toNat (t : ℕ) :: fills.map (fillReply o.oid)) := by
  cases o with
  | limit oid buy px qty =>
    have hlimit : b.limit oid (if buy then "buy" else "sell") px.toInt qty.toInt
        = .ok (b', fills) := by
      rw [← hcall]
      cases buy <;> rfl
    simp [OrderBook.onText, Order.message, hlimit, Order.oid]
  | market oid buy qty =>
    have hmarket : b.market (if buy then "buy" else "sell") qty.toInt = .ok (b', fills) := by
      rw [← hcall]
      cases buy <;> rfl
    simp [OrderBook.onText, Order.message, hmarket, Order.oid]
  | cancel oid target =>
    obtain ⟨rfl, rfl⟩ := Prod.mk.inj (Except.ok.inj hcall)
    simp [OrderBook.onText, Order.message, Order.oid]

theorem interchangeable : wire.Interchangeable :=
  WireEngine.interchangeable keepsWithin within_init decode_frame
    (fun _ _ _ t _ hcall hroom =>
      ⟨_, onBinary_frame t hcall hroom, sameReplies rfl (fun _ => rfl) hroom⟩)
    (fun _ _ _ t _ hcall => onText_message t hcall)

end PyEngine

namespace CppEngine

/-- The C++ engine on the wire. -/
def wire : WireEngine (OrderBook UInt64) CppError :=
  ⟨.init, decode, OrderBook.onBinary, OrderBook.onText⟩

theorem decode_frame (o : Order) : decode o.frame = some o.request := by
  obtain ⟨hlen, hmtype, hside, hid, hpx, hqty, htarget⟩ := o.fits_request.slices
  rw [o.frame_eq, decode, if_neg (by omega), hmtype, hside, hid, hpx, hqty, htarget]

/-- The request of an order is served by the call it asks for. -/
theorem serve_request (b : OrderBook UInt64) (o : Order) : b.serve o.request = b.call o.call := by
  cases o with
  | limit oid buy px qty => cases buy <;> rfl
  | market oid buy qty => cases buy <;> rfl
  | cancel oid target => rfl

theorem onBinary_frame {b b' : OrderBook UInt64} {o : Order} (t : Instant)
    {fills : List (Fill UInt64)} (hcall : b.call o.call = .ok (b', fills)) :
    b.onBinary (t, o.frame) = .ok (b', ackFrame o.oid t :: fills.map (fillFrame o.oid)) := by
  have hid : o.request.id = o.oid := by cases o <;> rfl
  unfold OrderBook.onBinary
  rw [decode_frame]
  dsimp only
  rw [serve_request, hcall, hid]
  rfl

theorem onText_message {b b' : OrderBook UInt64} {o : Order} (t : Instant)
    {fills : List (Fill UInt64)} (hcall : b.call o.call = .ok (b', fills)) :
    b.onText (t, o.message)
      = .ok (b', .ack o.oid.toNat (t : ℕ) :: fills.map (fillReply o.oid)) := by
  cases o with
  | limit oid buy px qty =>
    have hlimit : b.limit oid ((if buy then "buy" else "sell") == "buy") px.toInt qty.toInt
        = .ok (b', fills) := by
      rw [beq_buy]
      exact hcall
    simp [OrderBook.onText, Order.message, hlimit, Order.oid]
  | market oid buy qty =>
    have hmarket : b.market ((if buy then "buy" else "sell") == "buy") qty.toInt
        = .ok (b', fills) := by
      rw [beq_buy]
      exact hcall
    simp [OrderBook.onText, Order.message, hmarket, Order.oid]
  | cancel oid target =>
    rw [Order.call, OrderBook.call] at hcall
    simp [OrderBook.onText, Order.message, hcall, Order.oid]

theorem interchangeable : wire.Interchangeable :=
  WireEngine.interchangeable keepsWithin within_init decode_frame
    (fun _ _ _ t _ hcall hroom => ⟨_, onBinary_frame t hcall,
      sameReplies (layout_ack_signed _ _) (fun f => layout_fill _ f.maker f.px f.qty) hroom⟩)
    (fun _ _ _ t _ hcall => onText_message t hcall)

end CppEngine

namespace GoEngine

/-- The Go engine on the wire. -/
def wire : WireEngine (Book UInt64) GoError :=
  ⟨newBook, decode, Book.onBinary, Book.onText⟩

theorem decode_frame (o : Order) : decode o.frame = some o.request := by
  obtain ⟨hlen, hmtype, hside, hid, hpx, hqty, htarget⟩ := o.fits_request.slices
  rw [o.frame_eq, decode, if_neg (by omega), hmtype, hside, hid, hpx, hqty, htarget]

/-- The request of an order is served by the call it asks for. -/
theorem serve_request (b : Book UInt64) (o : Order) : b.serve o.request = b.call o.call := by
  cases o with
  | limit oid buy px qty => cases buy <;> rfl
  | market oid buy qty => cases buy <;> rfl
  | cancel oid target => rfl

theorem onBinary_frame {b b' : Book UInt64} {o : Order} (t : Instant)
    {fills : List (Fill UInt64)} (hcall : b.call o.call = .ok (b', fills)) :
    b.onBinary (t, o.frame) = .ok (b', ackFrame o.oid t :: fills.map (fillFrame o.oid)) := by
  have hid : o.request.id = o.oid := by cases o <;> rfl
  unfold Book.onBinary
  rw [decode_frame]
  dsimp only
  rw [serve_request, hcall, hid]
  rfl

theorem onText_message {b b' : Book UInt64} {o : Order} (t : Instant)
    {fills : List (Fill UInt64)} (hcall : b.call o.call = .ok (b', fills)) :
    b.onText (t, o.message)
      = .ok (b', .ack o.oid.toNat (t : ℕ) :: fills.map (fillReply o.oid)) := by
  cases o with
  | limit oid buy px qty =>
    have hlimit : b.limit oid ((if buy then "buy" else "sell") == "buy") px.toInt qty.toInt
        = .ok (b', fills) := by
      rw [beq_buy]
      exact hcall
    simp only [Book.onText, Order.message, Option.getD_some, Option.some_beq_some, if_true, hlimit]
    rfl
  | market oid buy qty =>
    have hmarket : b.market ((if buy then "buy" else "sell") == "buy") qty.toInt
        = .ok (b', fills) := by
      rw [beq_buy]
      exact hcall
    simp [Book.onText, Order.message, hmarket, Order.oid]
    rfl
  | cancel oid target =>
    obtain ⟨rfl, rfl⟩ := Prod.mk.inj (Except.ok.inj hcall)
    simp [Book.onText, Order.message, Order.oid]
    rfl

theorem interchangeable : wire.Interchangeable :=
  WireEngine.interchangeable keepsWithin within_newBook decode_frame
    (fun _ _ _ t _ hcall hroom => ⟨_, onBinary_frame t hcall,
      sameReplies (layout_ack _ _) (fun f => layout_fill _ f.maker f.px f.qty) hroom⟩)
    (fun _ _ _ t _ hcall => onText_message t hcall)

end GoEngine

namespace RustEngine

/-- The Rust engine on the wire. -/
def wire : WireEngine (Book UInt64) RustError :=
  ⟨.new, decode, Book.onBinary, Book.onText⟩

theorem decode_frame (o : Order) : decode o.frame = some o.request := by
  obtain ⟨hlen, hmtype, hside, hid, hpx, hqty, htarget⟩ := o.fits_request.slices
  rw [o.frame_eq, decode, if_neg (by omega), hmtype, hside, hid, hpx, hqty, htarget]

/-- The request of an order is served by the call it asks for. -/
theorem serve_request (b : Book UInt64) (o : Order) : b.serve o.request = b.call o.call := by
  cases o with
  | limit oid buy px qty => cases buy <;> rfl
  | market oid buy qty => cases buy <;> rfl
  | cancel oid target => rfl

theorem onBinary_frame {b b' : Book UInt64} {o : Order} (t : Instant)
    {fills : List (Fill UInt64)} (hcall : b.call o.call = .ok (b', fills)) :
    b.onBinary (t, o.frame) = .ok (b', ackFrame o.oid t :: fills.map (fillFrame o.oid)) := by
  have hid : o.request.id = o.oid := by cases o <;> rfl
  unfold Book.onBinary
  rw [decode_frame]
  dsimp only
  rw [serve_request, hcall, hid]
  rfl

theorem onText_message {b b' : Book UInt64} {o : Order} (t : Instant)
    {fills : List (Fill UInt64)} (hcall : b.call o.call = .ok (b', fills)) :
    b.onText (t, o.message)
      = .ok (b', .ack o.oid.toNat (t : ℕ) :: fills.map (fillReply o.oid)) := by
  cases o with
  | limit oid buy px qty =>
    have hlimit : b.limit oid ((if buy then "buy" else "sell") == "buy") px.toInt qty.toInt
        = .ok (b', fills) := by
      rw [beq_buy]
      exact hcall
    simp only [Book.onText, Order.message, Option.getD_some, Option.some_beq_some, if_true, hlimit]
    rfl
  | market oid buy qty =>
    have hmarket : b.market ((if buy then "buy" else "sell") == "buy") qty.toInt
        = .ok (b', fills) := by
      rw [beq_buy]
      exact hcall
    simp [Book.onText, Order.message, hmarket, Order.oid]
    rfl
  | cancel oid target =>
    obtain ⟨rfl, rfl⟩ := Prod.mk.inj (Except.ok.inj hcall)
    simp [Book.onText, Order.message, Order.oid]
    rfl

theorem interchangeable : wire.Interchangeable :=
  WireEngine.interchangeable keepsWithin within_new decode_frame
    (fun _ _ _ t _ hcall hroom => ⟨_, onBinary_frame t hcall,
      sameReplies (layout_ack _ _) (fun f => layout_fill _ f.maker f.px f.qty) hroom⟩)
    (fun _ _ _ t _ hcall => onText_message t hcall)

end RustEngine

/-- **Binary and JSON wires are interchangeable**, in each of the four
reference engines: an order encoded on the bot's side is decoded on the
engine's to what it was, and a run of any orders leaves the same book and is
answered by the same replies whichever wire it is sent on. -/
theorem wires_interchangeable :
    PyEngine.wire.Interchangeable ∧ CppEngine.wire.Interchangeable
      ∧ GoEngine.wire.Interchangeable ∧ RustEngine.wire.Interchangeable :=
  ⟨PyEngine.interchangeable, CppEngine.interchangeable, GoEngine.interchangeable,
    RustEngine.interchangeable⟩
