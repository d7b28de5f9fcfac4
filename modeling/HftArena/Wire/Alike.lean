import HftArena.PriceTime.Depth
import HftArena.Wire.Interchange

/-!
# The four handlers on any binary request

A binary frame of 26 bytes can hold any type, side, id, price, quantity and
target. All four handlers read the same request from it (`requestOf`), but
three of them take a type that is neither 1 nor 2 for a cancel and the Go
handler only the type 3; Python refuses to pack a fill at a price that has no
room in its field, where the others cut it off; and a limit order that comes to
rest at a level where its id rests is added to the older order by Python only.

`binary_alike_iff` says that these are all the ways in which the handlers part
after a history in which ids were kept apart. The condition is on the frame and
on the levels of the book before it: each handler's answer is stated in terms
of the call that the frame asks for, the four books are one abstract book, and
what is left is to compare three answers with the first.
-/

open PriceTime Wire

namespace Wire

/-- The fields of a request at the offsets of the layout. -/
def requestOf (raw : List UInt8) : Request where
  mtype := ofLE (slice raw 0 1)
  side := ofLE (slice raw 1 1)
  id := .ofNat (ofLE (slice raw 2 8))
  px := signedLE (slice raw 10 4)
  qty := signedLE (slice raw 14 4)
  target := .ofNat (ofLE (slice raw 18 8))

/-- The side of a request: 0 is a buy, and everything else a sell. -/
def Request.bookSide (r : Request) : Side := if r.side = 0 then .bid else .ask

/-- The call that a request asks for where every other type is a cancel. -/
def Request.call (r : Request) : Call UInt64 :=
  if r.mtype = 1 then .limit r.id r.bookSide r.px r.qty
  else if r.mtype = 2 then .market r.id r.bookSide r.qty
  else .cancel r.target

/-- The types of the layout. -/
def Request.Known (r : Request) : Prop := r.mtype = 1 ∨ r.mtype = 2 ∨ r.mtype = 3

/-- The side as the C++ and the Go handler test it. -/
theorem Request.bookSide_eq_bid (r : Request) : (r.bookSide == .bid) = (r.side == 0) := by
  unfold Request.bookSide
  by_cases h : r.side = 0
  · rw [if_pos h, h]
    rfl
  · rw [if_neg h, beq_false_of_ne h]
    rfl

/-- The quantity of a frame has room in a fill. -/
theorem inInt32_qty {raw : List UInt8} (h : raw.length = 26) : InInt32 (requestOf raw).qty := by
  have hlen : (slice raw 14 4).length = 4 := by
    rw [slice, List.length_take, List.length_drop, h]
    rfl
  have hbounds := signedLE_bounds (slice raw 14 4)
  rw [hlen] at hbounds
  exact hbounds

/-- A type that is none of the three is served as a cancel. -/
theorem Request.call_of_unknown {r : Request} (h : ¬ r.Known) : r.call = .cancel r.target := by
  unfold Request.call
  rw [if_neg (fun h1 => h (Or.inl h1)), if_neg (fun h2 => h (Or.inr (Or.inl h2)))]

/-- So has less than that. -/
theorem inInt32_of_le {raw : List UInt8} (h : raw.length = 26) {qty : ℤ} (hpos : 0 < qty)
    (hle : qty ≤ (requestOf raw).qty) : InInt32 qty := by
  have hwant := inInt32_qty h
  exact ⟨le_trans (by norm_num) (mul_nonneg zero_le_two hpos.le),
    lt_of_le_of_lt (mul_le_mul_of_nonneg_left hle zero_le_two) hwant.2⟩

/-- A fill is for no more than the frame asks for, so it has room. -/
theorem inInt32_fill_qty {B : Book UInt64} (hB : ∀ s, Ladder.WF s (B.ladder s)) {raw : List UInt8}
    (h : raw.length = 26) : ∀ f ∈ (B.step (requestOf raw).call).2, InInt32 f.qty := by
  intro f hf
  have hroom : 0 < f.qty ∧ f.qty ≤ (requestOf raw).qty := by
    unfold Request.call at hf
    split_ifs at hf
    · exact (Ladder.fill_bounds (hB _) _ _ f hf).2.2
    · exact (Ladder.fill_bounds (hB _) _ _ f hf).2.2
    · exact absurd hf List.not_mem_nil
  exact inInt32_of_le h hroom.1 hroom.2

/-! ## The frames that are handled alike

The condition looks at the levels that rest before the frame, and at the fields
of the frame. It names no fill and no book after it. -/

/-- An order for this much trades with these levels only at prices that have
room in a fill: a price within its limit is traded at if less than it asks for
rests at better ones. -/
def TradesFit (s : Side) (limit : Option ℤ) (qty : ℤ) (L : Ladder UInt64) : Prop :=
  ∀ p ∈ L.prices, s.reaches limit p = true →
    Ladder.amount (fun p' => decide (s.better p' p)) L < qty → InInt32 p

/-- **What the handlers have to be asked for**, given the levels of the book:
an order whose fills have room, and which does not come to rest at a level
where its id rests; a cancel of type 3, or under any other type a cancel that
finds nothing. It speaks of the frame and of the book before it, never of an
answer. -/
def HandledAlike (levels : Side → Ladder UInt64) (r : Request) : Prop :=
  if r.mtype = 1 then
    TradesFit r.bookSide.opp (some r.px) r.qty (levels r.bookSide.opp)
      ∧ ¬ (Ladder.amount (r.bookSide.opp.reaches (some r.px)) (levels r.bookSide.opp) < r.qty
        ∧ r.id ∈ (Ladder.queueAt (levels r.bookSide) r.px).map Prod.fst)
  else if r.mtype = 2 then TradesFit r.bookSide.opp none r.qty (levels r.bookSide.opp)
  else r.mtype = 3 ∨ ∀ s, r.target ∉ Ladder.ids (levels s)

/-- Where an order trades does not depend on the order of the levels. -/
theorem tradesFit_congr {L L' : Ladder UInt64} (h : L.Perm L') (s : Side) (limit : Option ℤ)
    (qty : ℤ) : TradesFit s limit qty L ↔ TradesFit s limit qty L' := by
  have hprices : ∀ p, p ∈ L.prices ↔ p ∈ L'.prices := fun p => (h.map Prod.fst).mem_iff
  unfold TradesFit
  simp only [hprices, Ladder.amount_congr h]

/-- The order in which the levels are given does not matter. -/
theorem handledAlike_congr {levels levels' : Side → Ladder UInt64}
    (h : ∀ s, (levels s).Perm (levels' s)) (r : Request) :
    HandledAlike levels r ↔ HandledAlike levels' r := by
  have hids : ∀ s i, i ∈ Ladder.ids (levels s) ↔ i ∈ Ladder.ids (levels' s) := fun s i =>
    ((h s).flatMap_right _).mem_iff
  have hqueue : r.id ∈ (Ladder.queueAt (levels r.bookSide) r.px).map Prod.fst
      ↔ r.id ∈ (Ladder.queueAt (levels' r.bookSide) r.px).map Prod.fst :=
    (((h r.bookSide).flatMap_right _).map Prod.fst).mem_iff
  unfold HandledAlike
  simp only [hids, hqueue, tradesFit_congr (h r.bookSide.opp),
    Ladder.amount_congr (h r.bookSide.opp)]

/-- **A sweep's fills have room** exactly if the prices have at which it
trades. -/
theorem fills_fit_iff {s : Side} {L : Ladder UInt64} (h : Ladder.WF s L)
    (limit : Option ℤ) (qty : ℤ) :
    (∀ f ∈ (Ladder.sweep (s.reaches limit) qty L).fills, InInt32 f.px)
      ↔ TradesFit s limit qty L := by
  constructor
  · intro hfills p hp hreach hamount
    obtain ⟨f, hf, rfl⟩ := (h.exists_fill_iff limit qty p).mpr ⟨hp, hreach, hamount⟩
    exact hfills f hf
  · intro hfit f hf
    obtain ⟨hp, hreach, hamount⟩ := (h.exists_fill_iff limit qty f.px).mp ⟨f, hf, rfl⟩
    exact hfit f.px hp hreach hamount

/-- The condition on a frame, in terms of the abstract book's step. -/
theorem handledAlike_iff {B : Book UInt64} (hB : B.WF) (r : Request) :
    HandledAlike B.ladder r ↔ (∀ f ∈ (B.step r.call).2, InInt32 f.px) ∧ ¬ B.Merges r.call
      ∧ (r.Known ∨ ∀ s, (B.step r.call).1.ladder s = B.ladder s) := by
  unfold HandledAlike Request.call
  by_cases h1 : r.mtype = 1
  · have hfills := fills_fit_iff (hB.side r.bookSide.opp) (some r.px) r.qty
    have hun := (hB.side r.bookSide.opp).unfilled_pos_iff (some r.px) r.qty
    rw [if_pos h1, if_pos h1, ← hfills, ← hun]
    exact ⟨fun h => ⟨h.1, h.2, Or.inl (Or.inl h1)⟩, fun h => ⟨h.1, h.2.1⟩⟩
  · by_cases h2 : r.mtype = 2
    · have hfills := fills_fit_iff (hB.side r.bookSide.opp) none r.qty
      rw [if_neg h1, if_neg h1, if_pos h2, if_pos h2, ← hfills]
      exact ⟨fun h => ⟨h, id, Or.inl (Or.inr (Or.inl h2))⟩, And.left⟩
    · have hknown : r.Known ↔ r.mtype = 3 := by
        unfold Request.Known
        tauto
      have hsame : (∀ s, (B.cancel r.target).ladder s = B.ladder s)
          ↔ ∀ s, r.target ∉ Ladder.ids (B.ladder s) :=
        forall_congr' (fun s => (hB.side s).remove_eq_self_iff r.target)
      rw [if_neg h1, if_neg h1, if_neg h2, if_neg h2, hknown, ← hsame]
      exact ⟨fun h => ⟨List.forall_mem_nil _, id, h⟩, fun h => h.2.2⟩

end Wire

/-! ## What each handler answers

Each handler is brought to the same form: the call of the request, and the
frames of its fills. The Python handler may fail to make one, the Go handler
may make no call. -/

namespace PyEngine

/-- A frame of the right length is unpacked, to the fields at their offsets. -/
theorem decode_eq {raw : List UInt8} (h : raw.length = 26) : decode raw = some (requestOf raw) := by
  have hsize : raw.length = formatSize reqFormat := h
  rw [decode, unpack, if_pos hsize]
  simp only [reqFormat, fields, FieldKind.read, FieldKind.width, List.drop_drop, Int.toNat_natCast]
  rfl

/-- What the Python handler calls is the call of the request. -/
theorem serve_eq (b : OrderBook UInt64) (r : Request) : b.serve r = b.call r.call.toPy := by
  unfold OrderBook.serve Request.call Request.bookSide
  split_ifs <;> rfl

/-- Frames are made if and only if all of them have room. -/
theorem mapM_fillFrame {i : UInt64} {fills : List (Fill UInt64)}
    (hqty : ∀ f ∈ fills, InInt32 f.qty) :
    (∀ f ∈ fills, InInt32 f.px) ∧ fills.mapM (fun f => frame fillFormat
        [2, i.toNat, f.px, f.qty, f.maker.toNat])
          = .ok (fills.map (fun f => packed Wire.fillFormat
            [2, i.toNat, f.px, f.qty, f.maker.toNat]))
      ∨ (¬ ∀ f ∈ fills, InInt32 f.px) ∧ fills.mapM (fun f => frame fillFormat
        [2, i.toNat, f.px, f.qty, f.maker.toNat]) = .error .malformed := by
  induction fills with
  | nil => exact Or.inl ⟨List.forall_mem_nil _, rfl⟩
  | cons f fills ih =>
    have hf := hqty f List.mem_cons_self
    rw [List.mapM_cons, List.forall_mem_cons]
    by_cases hpx : InInt32 f.px
    · -- this frame is made, and the others decide
      have hframe : frame fillFormat [2, i.toNat, f.px, f.qty, f.maker.toNat]
          = .ok (packed Wire.fillFormat [2, i.toNat, f.px, f.qty, f.maker.toNat]) :=
        frame_of_pack (pack_fill i f.maker hpx hf)
      rw [hframe]
      rcases ih (fun f' hf' => hqty f' (List.mem_cons_of_mem _ hf')) with ⟨hall, hok⟩ | ⟨hnot, hok⟩
      · refine Or.inl ⟨⟨hpx, hall⟩, ?_⟩
        rw [hok]
        rfl
      · refine Or.inr ⟨fun hall => hnot hall.2, ?_⟩
        rw [hok]
        rfl
    · -- this frame raises, and the others are not reached
      have hpack : pack fillFormat [2, i.toNat, f.px, f.qty, f.maker.toNat] = none := by
        cases hpack : pack fillFormat [2, i.toNat, f.px, f.qty, f.maker.toNat] with
        | none => rfl
        | some data =>
          have hholds := isSome_pack_iff.mp (Option.isSome_iff_exists.mpr ⟨data, hpack⟩)
          simp only [fillFormat, List.forall₂_cons] at hholds
          exact absurd hholds.2.2.1 hpx
      refine Or.inr ⟨fun hall => hpx hall.1, ?_⟩
      rw [frame, hpack]
      rfl

/-- **The Python handler answers with a call's fills**, or raises if one of
them is at a price that has no room. -/
theorem onBinary_eq {b b' : OrderBook UInt64} {raw : List UInt8} (h : raw.length = 26) (t : Instant)
    {fills : List (Fill UInt64)} (hcall : b.call (requestOf raw).call.toPy = .ok (b', fills))
    (hqty : ∀ f ∈ fills, InInt32 f.qty) :
    (∀ f ∈ fills, InInt32 f.px) ∧ b.onBinary (t, raw)
        = .ok (b', packed Wire.ackFormat [1, (requestOf raw).id.toNat,
          (t : ℕ)] :: fills.map (fun f =>
            packed Wire.fillFormat [2, (requestOf raw).id.toNat, f.px, f.qty, f.maker.toNat]))
      ∨ (¬ ∀ f ∈ fills, InInt32 f.px) ∧ b.onBinary (t, raw) = .error .malformed := by
  have hack : frame ackFormat [1, (requestOf raw).id.toNat, (t : ℕ)]
      = .ok (packed Wire.ackFormat [1, (requestOf raw).id.toNat, (t : ℕ)]) :=
    frame_of_pack (pack_ack _ t)
  unfold OrderBook.onBinary
  rw [decode_eq h]
  dsimp only
  rw [serve_eq, hcall, hack, Except.mapError]
  simp only [bind, Except.bind]
  rcases mapM_fillFrame (i := (requestOf raw).id) hqty with ⟨hall, hok⟩ | ⟨hnot, hok⟩
  · exact Or.inl ⟨hall, by rw [hok]⟩
  · exact Or.inr ⟨hnot, by rw [hok]⟩

end PyEngine

/-- The frames of an answer: an acknowledgement and the fills, with what has no
room cut off. -/
def Wire.answer (r : Request) (t : Instant) (fills : List (Fill UInt64)) : List (List UInt8) :=
  packed ackFormat [1, r.id.toNat, (t : ℕ)]
    :: fills.map (fun f => packed fillFormat [2, r.id.toNat, f.px, f.qty, f.maker.toNat])

/-- What the C++ handler calls is the call of the request. -/
theorem CppEngine.serve_eq (b : CppEngine.OrderBook UInt64) (r : Request) :
    b.serve r = b.call r.call := by
  unfold CppEngine.OrderBook.serve Request.call
  rw [← r.bookSide_eq_bid]
  split_ifs <;> rfl

/-- **The C++ handler answers with a call's fills**, cut off where they have no
room. -/
theorem CppEngine.onBinary_eq {b b' : CppEngine.OrderBook UInt64} {raw : List UInt8}
    (h : raw.length = 26) (t : Instant) {fills : List (Fill UInt64)}
    (hcall : b.call (requestOf raw).call = .ok (b', fills)) :
    b.onBinary (t, raw) = .ok (b', answer (requestOf raw) t fills) := by
  have hdecode : CppEngine.decode raw = some (requestOf raw) := if_neg (by omega)
  unfold CppEngine.OrderBook.onBinary
  rw [hdecode]
  dsimp only
  rw [CppEngine.serve_eq, hcall, answer, ← layout_ack_signed]
  simp only [← layout_fill]
  rfl

/-- What the Rust handler calls is the call of the request. -/
theorem RustEngine.serve_eq (b : RustEngine.Book UInt64) (r : Request) :
    b.serve r = b.call r.call := by
  unfold RustEngine.Book.serve Request.call
  rw [← r.bookSide_eq_bid]
  split_ifs <;> rfl

/-- **The Rust handler answers with a call's fills**, cut off where they have
no room; it takes frames that are too long as well. -/
theorem RustEngine.onBinary_eq {b b' : RustEngine.Book UInt64} {raw : List UInt8}
    (h : 26 ≤ raw.length) (t : Instant) {fills : List (Fill UInt64)}
    (hcall : b.call (requestOf raw).call = .ok (b', fills)) :
    b.onBinary (t, raw) = .ok (b', answer (requestOf raw) t fills) := by
  have hdecode : RustEngine.decode raw = some (requestOf raw) := if_neg (by omega)
  unfold RustEngine.Book.onBinary
  rw [hdecode]
  dsimp only
  rw [RustEngine.serve_eq, hcall, answer, ← layout_ack]
  simp only [← layout_fill]
  rfl

/-- A type that the Go handler knows is served like the others serve it. -/
theorem GoEngine.serve_eq (b : GoEngine.Book UInt64) {r : Request} (hmtype : r.Known) :
    b.serve r = b.call r.call := by
  unfold GoEngine.Book.serve Request.call
  rw [← r.bookSide_eq_bid]
  rcases hmtype with h1 | h2 | h3
  · rw [if_pos h1, if_pos h1]
    rfl
  · have h1 : r.mtype ≠ 1 := by omega
    rw [if_neg h1, if_neg h1, if_pos h2, if_pos h2]
    rfl
  · have h1 : r.mtype ≠ 1 := by omega
    have h2 : r.mtype ≠ 2 := by omega
    rw [if_neg h1, if_neg h1, if_neg h2, if_neg h2, if_pos h3]
    rfl

theorem GoEngine.serve_of_unknown (b : GoEngine.Book UInt64) {r : Request} (hmtype : ¬ r.Known) :
    b.serve r = .ok (b, []) := by
  unfold GoEngine.Book.serve
  rw [if_neg (fun h1 => hmtype (Or.inl h1)), if_neg (fun h2 => hmtype (Or.inr (Or.inl h2))),
    if_neg (fun h3 => hmtype (Or.inr (Or.inr h3)))]

theorem GoEngine.onBinary_of_serve {b b' : GoEngine.Book UInt64} {raw : List UInt8}
    (h : 26 ≤ raw.length) (t : Instant) {fills : List (Fill UInt64)}
    (hserve : b.serve (requestOf raw) = .ok (b', fills)) :
    b.onBinary (t, raw) = .ok (b', answer (requestOf raw) t fills) := by
  have hdecode : GoEngine.decode raw = some (requestOf raw) := if_neg (by omega)
  unfold GoEngine.Book.onBinary
  rw [hdecode]
  dsimp only
  rw [hserve, answer, ← layout_ack]
  simp only [← layout_fill]
  rfl

theorem GoEngine.onBinary_eq {b b' : GoEngine.Book UInt64} {raw : List UInt8}
    (h : 26 ≤ raw.length) (t : Instant) (hmtype : (requestOf raw).Known)
    {fills : List (Fill UInt64)} (hcall : b.call (requestOf raw).call = .ok (b', fills)) :
    b.onBinary (t, raw) = .ok (b', answer (requestOf raw) t fills) :=
  GoEngine.onBinary_of_serve h t ((GoEngine.serve_eq b hmtype).trans hcall)

/-- Any other type is acknowledged. -/
theorem GoEngine.onBinary_of_unknown (b : GoEngine.Book UInt64) {raw : List UInt8}
    (h : 26 ≤ raw.length) (t : Instant) (hmtype : ¬ (requestOf raw).Known) :
    b.onBinary (t, raw) = .ok (b, answer (requestOf raw) t []) :=
  GoEngine.onBinary_of_serve h t (GoEngine.serve_of_unknown b hmtype)

/-! ## The four engines

The four books are one abstract book before the frame. Where the handlers
answer alike they are one after it, and where they do not it is for one of the
three reasons. -/

/-- The books of the four engines. -/
structure Engines where
  py : PyEngine.OrderBook UInt64
  cpp : CppEngine.OrderBook UInt64
  go : GoEngine.Book UInt64
  rust : RustEngine.Book UInt64

namespace Engines

/-- The books after the same calls: each engine has taken all of them, and none
has failed. -/
structure After (E : Engines) (ops : List (Call UInt64)) : Prop where
  py : ∃ outs, run PyEngine.OrderBook.call .init (ops.map Call.toPy) = .ok (E.py, outs)
  cpp : ∃ outs, run CppEngine.OrderBook.call .init ops = .ok (E.cpp, outs)
  go : ∃ outs, run GoEngine.Book.call GoEngine.newBook ops = .ok (E.go, outs)
  rust : ∃ outs, run RustEngine.Book.call .new ops = .ok (E.rust, outs)

/-- All four hold the same levels with the same orders. -/
def OneBook (E : Engines) : Prop :=
  ∀ s, E.py.depth s = E.cpp.depth s ∧ E.cpp.depth s = E.go.depth s ∧ E.go.depth s = E.rust.depth s

/-- **The four handlers treat a frame alike**: whatever their clocks say, they
acknowledge one id, send the same fills byte by byte, and leave the same
book. -/
def Alike (E : Engines) (raw : List UInt8) : Prop :=
  ∀ t₁ t₂ t₃ t₄ : Instant, ∃ (id : UInt64) (fills : List (List UInt8)) (E' : Engines),
    E.py.onBinary (t₁, raw) = .ok (E'.py, packed ackFormat [1, id.toNat, (t₁ : ℕ)] :: fills)
    ∧ E.cpp.onBinary (t₂, raw) = .ok (E'.cpp, packed ackFormat [1, id.toNat, (t₂ : ℕ)] :: fills)
    ∧ E.go.onBinary (t₃, raw) = .ok (E'.go, packed ackFormat [1, id.toNat, (t₃ : ℕ)] :: fills)
    ∧ E.rust.onBinary (t₄, raw) = .ok (E'.rust, packed ackFormat [1, id.toNat, (t₄ : ℕ)] :: fills)
    ∧ E'.OneBook

/-- The four books are one abstract book. -/
structure Show (E : Engines) (B : Book UInt64) : Prop where
  py : E.py.Refines B
  cpp : ∃ H, E.cpp.Shows H ∧ H.Shows B
  go : ∃ H, E.go.Shows H ∧ H.Shows B
  rust : E.rust.Refines B

/-- After calls in which ids are kept apart, there are four books and one
abstract book that they are. -/
theorem exists_after (ops : List (Call UInt64))
    (hops : Allowed PyEngine.OrderBook.call PyEngine.OrderBook.FreshId .init
      (ops.map Call.toPy)) : ∃ (E : Engines) (B : Book UInt64), E.After ops ∧ E.Show B := by
  obtain ⟨py, cpp, go, rust, outs, B, H, G, ⟨hpyrun, hpy⟩, ⟨hcpprun, hcpp⟩, ⟨hgorun, hgo⟩,
    hrustrun, hrust⟩ := engines_show_one_book ops hops
  exact ⟨⟨py, cpp, go, rust⟩, B,
    ⟨⟨outs, hpyrun⟩, ⟨outs, hcpprun⟩, ⟨outs, hgorun⟩, ⟨outs, hrustrun⟩⟩,
    ⟨hpy, ⟨H, hcpp⟩, ⟨G, hgo⟩, hrust⟩⟩

/-- **The handlers part in three ways**: at a fill that Python cannot pack, at
an order that Python merges and at a cancel that Go does not take for one. In
all other cases the answers are the same, because the fills are those of the
abstract book. -/
theorem Show.alike_iff {E : Engines} {B : Book UInt64} (h : E.Show B) {raw : List UInt8}
    (hlen : raw.length = 26) :
    E.Alike raw ↔ (∀ f ∈ (B.step (requestOf raw).call).2, InInt32 f.px)
      ∧ ¬ B.Merges (requestOf raw).call
      ∧ ((requestOf raw).Known ∨ ∀ s, (B.step (requestOf raw).call).1.ladder s = B.ladder s) := by
  obtain ⟨H, hcpp, hH⟩ := h.cpp
  obtain ⟨G, hgo, hG⟩ := h.go
  obtain ⟨py, hpycall, hpy⟩ := h.py.depth_call (requestOf raw).call
  obtain ⟨cpp, hcppcall, hcpp'⟩ := hcpp.depth_call hH (requestOf raw).call
  obtain ⟨go, hgocall, hgo'⟩ := hgo.depth_call hG (requestOf raw).call
  obtain ⟨rust, hrustcall, hrust⟩ := h.rust.depth_call (requestOf raw).call
  have hqty : ∀ f ∈ (B.step (requestOf raw).call).2, InInt32 f.qty :=
    inInt32_fill_qty h.py.wf.side hlen
  have hgodepth : ∀ s, E.go.depth s = Ladder.ascending s (B.ladder s) := hgo.depth_eq hG
  constructor
  · intro halike
    obtain ⟨id, fills, E', hpy', hcppE, hgoE, hrustE, hone⟩ := halike 0 0 0 0
    rw [CppEngine.onBinary_eq hlen 0 hcppcall] at hcppE
    obtain ⟨hcppE, hanswer⟩ := Prod.mk.inj (Except.ok.inj hcppE)
    have hdepth : ∀ s, E'.cpp.depth s
        = Ladder.ascending s ((B.step (requestOf raw).call).1.ladder s) := fun s => hcppE ▸ hcpp' s
    rcases PyEngine.onBinary_eq hlen 0 hpycall hqty with ⟨hfits, hok⟩ | ⟨-, herror⟩
    · rw [hok] at hpy'
      obtain ⟨hpyE, -⟩ := Prod.mk.inj (Except.ok.inj hpy')
      refine ⟨hfits, hpy.mp (fun s => ?_), ?_⟩
      · rw [hpyE, (hone s).1, hdepth]
      · by_cases hknown : (requestOf raw).Known
        · exact Or.inl hknown
        · refine Or.inr (fun s => ascending_injective s ?_)
          rw [GoEngine.onBinary_of_unknown E.go hlen.ge 0 hknown] at hgoE
          obtain ⟨hgoE, -⟩ := Prod.mk.inj (Except.ok.inj hgoE)
          rw [← hdepth, (hone s).2.1, ← hgoE, hgodepth]
    · rw [herror] at hpy'
      cases hpy'
  · rintro ⟨hfits, hmerges, hgo₃⟩ t₁ t₂ t₃ t₄
    have hpyok : E.py.onBinary (t₁, raw)
        = .ok (py, answer (requestOf raw) t₁ (B.step (requestOf raw).call).2) := by
      rcases PyEngine.onBinary_eq hlen t₁ hpycall hqty with ⟨-, hok⟩ | ⟨hnot, -⟩
      · exact hok
      · exact absurd hfits hnot
    -- the Go book after the frame, whether it took it or not
    have hgook : ∃ go', E.go.onBinary (t₃, raw)
          = .ok (go', answer (requestOf raw) t₃ (B.step (requestOf raw).call).2)
        ∧ ∀ s, go'.depth s = Ladder.ascending s ((B.step (requestOf raw).call).1.ladder s) := by
      by_cases hknown : (requestOf raw).Known
      · exact ⟨go, GoEngine.onBinary_eq hlen.ge t₃ hknown hgocall, hgo'⟩
      · have hsame := hgo₃.resolve_left hknown
        refine ⟨E.go, ?_, fun s => by rw [hsame, hgodepth]⟩
        rw [GoEngine.onBinary_of_unknown E.go hlen.ge t₃ hknown, Request.call_of_unknown hknown]
        rfl
    obtain ⟨go', hgook, hgodepth'⟩ := hgook
    refine ⟨(requestOf raw).id, _, ⟨py, cpp, go', rust⟩, hpyok,
      CppEngine.onBinary_eq hlen t₂ hcppcall,
      hgook, RustEngine.onBinary_eq hlen.ge t₄ hrustcall, fun s => ?_⟩
    dsimp only
    rw [hpy.mpr hmerges, hcpp', hgodepth', hrust]
    exact ⟨rfl, rfl, rfl⟩

/-- **The four engines treat a binary request alike exactly if** its fills have
room at the prices it trades at, it is no order that comes to rest at a level
where its id rests, and its type is one of the three or it names no order as a
cancel. -/
theorem binary_alike_iff (ops : List (Call UInt64))
    (hops : Allowed PyEngine.OrderBook.call PyEngine.OrderBook.FreshId .init
      (ops.map Call.toPy)) :
    ∃ E : Engines, E.After ops ∧ ∀ raw : List UInt8, raw.length = 26 →
      (E.Alike raw ↔ HandledAlike E.py.depth (requestOf raw)) := by
  obtain ⟨E, B, hafter, hshow⟩ := exists_after ops hops
  refine ⟨E, hafter, fun raw hlen => ?_⟩
  have hperm : ∀ s, (E.py.depth s).Perm (B.ladder s) := fun s => by
    rw [hshow.py.depth_eq]
    exact Ladder.ascending_perm s _
  rw [hshow.alike_iff hlen, handledAlike_congr hperm, handledAlike_iff hshow.py.wf]

/-- After a bid that rests, and an order that does not. -/
theorem binary_alike_iff_at_resting_bid :
    ∃ E : Engines, E.After [.limit 1 .bid 10 5, .limit 2 .ask 10 2] ∧ ∀ raw : List UInt8,
      raw.length = 26 → (E.Alike raw ↔ HandledAlike E.py.depth (requestOf raw)) :=
  binary_alike_iff [.limit 1 .bid 10 5, .limit 2 .ask 10 2] (by decide)

/-- What the C++ and the Go book hold after a frame that is handled alike. -/
theorem Alike.depth_eq {E : Engines} {raw : List UInt8} (h : E.Alike raw) (s : Side) :
    (E.cpp.onBinary (0, raw)).toOption.map (fun x => x.1.depth s)
      = (E.go.onBinary (0, raw)).toOption.map (fun x => x.1.depth s) := by
  obtain ⟨id, fills, E', -, hcpp, hgo, -, hone⟩ := h 0 0 0 0
  rw [hcpp, hgo]
  exact congrArg some (hone s).2.1

/-- A bid rests under the id 1, and a frame of type 0 names it as its target:
the Python, the C++ and the Rust engine cancel it, the Go engine acknowledges
the frame and keeps the bid. -/
theorem not_alike_at_type_zero :
    ∃ E : Engines, E.After [.limit 1 .bid 10 5]
      ∧ ¬ E.Alike [0, 0, 7, 0, 0, 0, 0, 0, 0, 0, 0, 0, 0, 0, 0, 0, 0, 0, 1, 0, 0, 0, 0,
        0, 0, 0] := by
  exact ⟨⟨_, _, _, _⟩, ⟨⟨_, rfl⟩, ⟨_, rfl⟩, ⟨_, rfl⟩, ⟨_, rfl⟩⟩,
    fun halike => absurd (halike.depth_eq .bid) (by decide)⟩

end Engines
