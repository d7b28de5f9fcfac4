import HftArena.Wire.Connection

/-!
# Fills that are told to a binary taker

A book takes prices from JSON that are wider than the price field of a fill,
and serves both wires. What the four handlers make of a fill at such a price
differs: Python raises, and sends neither this fill nor the ones after it; C++,
Go and Rust cut the price off, and tell another one. Quantities have room,
since a binary order asks for no more, and so have ids, except for those that
only Python takes.

`fills_truthful_iff` says that a binary taker is told the truth exactly if the
prices at which it trades have room. For the three engines a run on both wires
is a `run` of the handlers on orders; the Python loop goes on over frames of
any kind.

The truth is judged from the outside (`Truthful`): the fill frames that are
sent are read back by `wire.py`, and compared one by one with the fills that
the book made.
-/

open PriceTime Wire

namespace Wire

/-! ## Fill frames

What is read back of a frame is what was written, if it had room. -/

section Tells

variable {ι : Type}

/-- A frame in which `wire.py` reads a fill: its taker, price, quantity and
maker. -/
def Tells (maker : Fill ι → Option ℤ) (id : ℤ) (f : Fill ι) (data : List UInt8) : Prop :=
  ∃ z, maker f = some z ∧ decFill data = some (id, f.px, f.qty, z)

/-- **A taker is told its fills**: the fill frames that are sent are one for
each, in their order, and each is read back as its fill. Frames that are no
fills are passed over. -/
def Truthful (maker : Fill ι → Option ℤ) (id : ℤ) (fills : List (Fill ι))
    (sent : List (List UInt8)) : Prop :=
  List.Forall₂ (Tells maker id) fills (sent.filter (fun data => replyType data = some fillTag))

/-- A maker whose id has 64 bits. -/
def makerId (f : Fill UInt64) : Option ℤ := some f.maker.toNat

/-- What is read as a price has room for one. -/
theorem inInt32_of_decFill {data : List UInt8} {id px qty maker : ℤ}
    (h : decFill data = some (id, px, qty, maker)) : InInt32 px := by
  unfold decFill unpack at h
  by_cases hlen : data.length = formatSize fillFormat
  · rw [if_pos hlen] at h
    simp only [fillFormat, fields, FieldKind.read, FieldKind.width, List.drop_drop,
      Option.some_inj, Prod.mk.injEq] at h
    obtain ⟨-, rfl, -, -⟩ := h
    have hbounds := signedLE_bounds ((data.drop 9).take 4)
    have hfour : ((data.drop 9).take 4).length = 4 := by
      rw [List.length_take, List.length_drop, hlen]
      rfl
    rw [hfour] at hbounds
    exact hbounds
  · rw [if_neg hlen] at h
    cases h

/-- **A fill frame is read as what it was made of** exactly if the price has
room. -/
theorem decFill_packed_iff (i maker : UInt64) {px qty : ℤ} (hqty : InInt32 qty) :
    decFill (packed fillFormat [2, i.toNat, px, qty, maker.toNat])
      = some ((i.toNat : ℤ), px, qty, (maker.toNat : ℤ)) ↔ InInt32 px :=
  ⟨inInt32_of_decFill, fun hpx => (sameReply_fill i maker hpx hqty).2.2⟩

/-- An acknowledgement is recognised by its first byte. -/
theorem replyType_ack (i ts : ℤ) : replyType (packed ackFormat [1, i, ts]) = some ackTag := rfl

/-- So is a fill. -/
theorem replyType_fill (i px qty maker : ℤ) :
    replyType (packed fillFormat [2, i, px, qty, maker]) = some fillTag := rfl

/-- **Frames laid out by hand** tell the truth exactly if all prices have room:
the acknowledgement is passed over, and a price that was cut off is read as
another one. -/
theorem truthful_answer_iff (r : Request) (now : Instant) {fills : List (Fill UInt64)}
    (hqty : ∀ f ∈ fills, InInt32 f.qty) :
    Truthful makerId r.id.toNat fills (answer r now fills) ↔ ∀ f ∈ fills, InInt32 f.px := by
  have hack : ¬ replyType (packed ackFormat [1, (r.id.toNat : ℤ), ((now : ℕ) : ℤ)])
      = some fillTag := by
    rw [replyType_ack]
    decide
  have hfilter : (answer r now fills).filter (fun data => replyType data = some fillTag)
      = fills.map (fun f => packed fillFormat [2, r.id.toNat, f.px, f.qty, f.maker.toNat]) := by
    rw [answer, List.filter_cons_of_neg (by simpa using hack)]
    refine List.filter_eq_self.mpr (fun data hdata => ?_)
    obtain ⟨f, -, rfl⟩ := List.mem_map.mp hdata
    rw [replyType_fill]
    exact decide_eq_true_eq.mpr rfl
  rw [Truthful, hfilter, List.forall₂_map_right_iff, List.forall₂_same]
  refine forall₂_congr (fun f hf => ?_)
  rw [← decFill_packed_iff r.id f.maker (hqty f hf), Tells, makerId]
  constructor
  · rintro ⟨z, hz, hdec⟩
    rw [Option.some_inj] at hz
    subst hz
    exact hdec
  · exact fun hdec => ⟨_, rfl, hdec⟩

/-- **Frames that are sent up to the first that cannot be made** tell the truth
exactly if all can. -/
theorem forall₂_sendAll_iff {maker : Fill ι → Option ℤ} {id : ℤ} {make : Fill ι → Option Frame}
    (hmake : ∀ f x, make f = some x →
      ∃ data, x = .binary data ∧ replyType data = some fillTag ∧ Tells maker id f data)
    (bytes : Frame → Option (List UInt8)) (hbytes : ∀ data, bytes (.binary data) = some data)
    (fills : List (Fill ι)) :
    Truthful maker id fills ((PyEngine.sendAll (fills.map make)).1.filterMap bytes)
      ↔ ∀ f ∈ fills, (make f).isSome := by
  unfold Truthful
  induction fills with
  | nil => exact iff_of_true .nil (List.forall_mem_nil _)
  | cons f fills ih =>
    rw [List.map_cons, List.forall_mem_cons]
    cases hf : make f with
    | none => exact iff_of_false (fun h => by cases h) (fun h => Bool.false_ne_true h.1)
    | some x =>
      obtain ⟨data, rfl, htype, htells⟩ := hmake f x hf
      rw [PyEngine.sendAll, List.filterMap_cons_some (hbytes data),
        List.filter_cons_of_pos (by simpa using htype), List.forall₂_cons, ih]
      exact and_congr_left' (iff_of_true htells rfl)

end Tells

/-! ## Where a taker trades

The prices at which an order trades, read off the levels before it. -/

/-- **An order whose fills have room**, given the levels of the book: every
price at which it trades fits the field of a fill. A cancel has none. -/
def FillsFit (levels : Side → Ladder UInt64) (r : Request) : Prop :=
  if r.mtype = 1 then TradesFit r.bookSide.opp (some r.px) r.qty (levels r.bookSide.opp)
  else if r.mtype = 2 then TradesFit r.bookSide.opp none r.qty (levels r.bookSide.opp)
  else True

/-- The order in which the levels are given does not matter. -/
theorem fillsFit_congr {levels levels' : Side → Ladder UInt64}
    (h : ∀ s, (levels s).Perm (levels' s)) (r : Request) :
    FillsFit levels r ↔ FillsFit levels' r := by
  unfold FillsFit
  simp only [tradesFit_congr (h r.bookSide.opp)]

/-- The prices of the fills have room exactly if the order's trades have. -/
theorem fillsFit_iff {B : Book UInt64} (hB : ∀ s, Ladder.WF s (B.ladder s)) (r : Request) :
    (∀ f ∈ (B.step r.call).2, InInt32 f.px) ↔ FillsFit B.ladder r := by
  unfold FillsFit Request.call
  by_cases h1 : r.mtype = 1
  · rw [if_pos h1, if_pos h1]
    exact fills_fit_iff (hB r.bookSide.opp) (some r.px) r.qty
  · by_cases h2 : r.mtype = 2
    · rw [if_neg h1, if_neg h1, if_pos h2, if_pos h2]
      exact fills_fit_iff (hB r.bookSide.opp) none r.qty
    · rw [if_neg h1, if_neg h1, if_neg h2, if_neg h2]
      exact iff_of_true (List.forall_mem_nil _) trivial

/-! ## Orders on both wires

A run of the compiled engines is a list of these, in any order of wires. JSON
puts prices on the book that a binary fill has no room for. -/

/-- **An order in JSON**, whose prices and quantities are those of a book of 64
bits. -/
inductive TextOrder where
  | limit (oid : UInt64) (buy : Bool) (px qty : Int64)
  | market (oid : UInt64) (buy : Bool) (qty : Int64)
  | cancel (oid target : UInt64)

namespace TextOrder

/-- The message it goes out in. -/
def message : TextOrder → Message
  | limit oid buy px qty => ⟨some "limit", some oid, some (if buy then "buy" else "sell"),
      some px.toInt, some qty.toInt, none⟩
  | market oid buy qty => ⟨some "market", some oid, some (if buy then "buy" else "sell"), none,
      some qty.toInt, none⟩
  | cancel oid target => ⟨some "cancel", some oid, none, none, none, some target⟩

/-- The call of a book that it asks for. -/
def call : TextOrder → Call UInt64
  | limit oid buy px qty => .limit oid (if buy then .bid else .ask) px.toInt qty.toInt
  | market oid buy qty => .market oid (if buy then .bid else .ask) qty.toInt
  | cancel _ target => .cancel target

/-- The message asks for the order's call. -/
theorem call_message (o : TextOrder) : o.message.call = some o.call := by
  cases o with
  | limit oid buy px qty => cases buy <;> rfl
  | market oid buy qty => cases buy <;> rfl
  | cancel oid target => rfl

end TextOrder

/-- A binary frame of the length of a request, of any content. -/
abbrev RequestFrame := {raw : List UInt8 // raw.length = 26}

/-- **An order on one of the two wires**: a well-formed message, or a binary
frame of any content. -/
inductive Sent where
  | text (o : TextOrder)
  | binary (raw : RequestFrame)

end Wire

namespace WireEngine

variable {σ ε : Type}

/-- One order, on its wire; the replies of both are collected in one list. -/
def onSent (E : WireEngine σ ε) (b : σ) (x : Instant × Sent) :
    Except (HandlerError ε) (σ × List (List UInt8 ⊕ Reply)) :=
  match x.2 with
  | .text o => (E.onText b (x.1, o.message)).map (Prod.map id (List.map .inr))
  | .binary raw => (E.onBinary b (x.1, raw.val)).map (Prod.map id (List.map .inl))

/-- **An engine tells binary takers their fills where** a condition holds:
after any orders on both wires, and for any request that comes next, what is
sent is the truth about the fills with which the book serves the request
exactly under the condition. -/
def TruthfulWhere (E : WireEngine σ ε)
    (serve : σ → Request → Except ε (σ × List (Fill UInt64))) (Fits : σ → Request → Prop) : Prop :=
  ∀ past : List (Instant × Sent), ∃ b outs, run E.onSent E.init past = .ok (b, outs)
    ∧ ∀ (now : Instant) (raw : RequestFrame), ∃ b' fills sent,
      serve b (requestOf raw.val) = .ok (b', fills)
        ∧ E.onBinary b (now, raw.val) = .ok (b', sent)
        ∧ (Truthful makerId (requestOf raw.val).id.toNat fills sent ↔ Fits b (requestOf raw.val))

/-- **A handler that answers with the fills of its book** tells the truth where
their prices have room, if all its calls return. -/
theorem truthfulWhere {E : WireEngine σ ε}
    {serve : σ → Request → Except ε (σ × List (Fill UInt64))} {Fits : σ → Request → Prop}
    (Inv : σ → Prop) (hinit : Inv E.init)
    (htext : ∀ b, Inv b → ∀ now (o : TextOrder), ∃ b' replies,
      E.onText b (now, o.message) = .ok (b', replies) ∧ Inv b')
    (hbinary : ∀ b, Inv b → ∀ now (raw : RequestFrame), ∃ b' fills,
      serve b (requestOf raw.val) = .ok (b', fills)
        ∧ E.onBinary b (now, raw.val) = .ok (b', answer (requestOf raw.val) now fills)
        ∧ Inv b' ∧ (∀ f ∈ fills, InInt32 f.qty)
        ∧ ((∀ f ∈ fills, InInt32 f.px) ↔ Fits b (requestOf raw.val))) :
    E.TruthfulWhere serve Fits := by
  -- an order on either wire returns, and keeps the invariant
  have hstep : ∀ b, Inv b → ∀ x, ∃ b' out, E.onSent b x = .ok (b', out) ∧ Inv b' := by
    rintro b hb ⟨now, o | raw⟩
    · obtain ⟨b', replies, htext, hb'⟩ := htext b hb now o
      refine ⟨b', replies.map .inr, ?_, hb'⟩
      unfold onSent
      dsimp only
      rw [htext]
      rfl
    · obtain ⟨b', fills, -, hbinary, hb', -⟩ := hbinary b hb now raw
      refine ⟨b', (answer (requestOf raw.val) now fills).map .inl, ?_, hb'⟩
      unfold onSent
      dsimp only
      rw [hbinary]
      rfl
  intro past
  obtain ⟨b, outs, hrun, hb⟩ := run_inv_of_forall Inv (fun b x hb => hstep b hb x) hinit past
  refine ⟨b, outs, hrun, fun now raw => ?_⟩
  obtain ⟨b', fills, hserve, hframe, -, hqty, hfits⟩ := hbinary b hb now raw
  exact ⟨b', fills, _, hserve, hframe, (truthful_answer_iff _ now hqty).trans hfits⟩

end WireEngine

/-! ## The four engines

The three that cut off are one lemma, and its instances. The fourth does not
tell anything wrong, but stops telling. -/

namespace CppEngine

/-- A message of an order is answered, whatever the book's call does. -/
theorem onText_order {b b' : OrderBook UInt64} (now : Instant) {o : TextOrder}
    {fills : List (Fill UInt64)} (hcall : b.call o.call = .ok (b', fills)) :
    ∃ replies, b.onText (now, o.message) = .ok (b', replies) := by
  cases o with
  | limit oid buy px qty =>
    have hlimit : b.limit oid ((if buy then "buy" else "sell") == "buy") px.toInt qty.toInt
        = .ok (b', fills) := by
      rw [beq_buy]
      exact hcall
    simp [OrderBook.onText, TextOrder.message, hlimit]
  | market oid buy qty =>
    have hmarket : b.market ((if buy then "buy" else "sell") == "buy") qty.toInt
        = .ok (b', fills) := by
      rw [beq_buy]
      exact hcall
    simp [OrderBook.onText, TextOrder.message, hmarket]
  | cancel oid target =>
    rw [TextOrder.call, OrderBook.call] at hcall
    simp [OrderBook.onText, TextOrder.message, hcall]

/-- The levels of the book are those of its nodes. -/
theorem OrderBook.Shows.depth_perm {b : OrderBook UInt64} {H : Handles UInt64} (h : b.Shows H)
    (s : Side) : (b.depth s).Perm ((H.book.rename Prod.snd).ladder s) := by
  rw [h.depth_nodes]
  exact Ladder.ascending_perm s _

theorem truthfulWhere :
    wire.TruthfulWhere OrderBook.serve (fun b r => FillsFit b.depth r) := by
  refine WireEngine.truthfulWhere (fun b => ∃ H, b.Shows H) ⟨_, shows_init⟩ ?_ ?_
  · rintro b ⟨H, h⟩ now o
    obtain ⟨b', hcall, h'⟩ := h.call o.call
    obtain ⟨replies, htext⟩ := onText_order now hcall
    exact ⟨b', replies, htext, _, h'⟩
  · rintro b ⟨H, h⟩ now raw
    obtain ⟨b', hcall, h'⟩ := h.call (requestOf raw.val).call
    have hwf : ∀ s, Ladder.WF s ((H.book.rename Prod.snd).ladder s) := fun s =>
      (H.wf.side s).rename Prod.snd
    rw [H.fills_step] at hcall
    refine ⟨b', _, (serve_eq b _).trans hcall, onBinary_eq raw.property now hcall, ⟨_, h'⟩,
      inInt32_fill_qty hwf raw.property, ?_⟩
    rw [fillsFit_iff hwf, fillsFit_congr h.depth_perm]

end CppEngine

namespace GoEngine

/-- The levels of the book are those of its elements. -/
theorem Book.Shows.depth_perm {b : Book UInt64} {H : Handles UInt64} (h : b.Shows H) (s : Side) :
    (b.depth s).Perm ((H.book.rename Prod.snd).ladder s) := by
  rw [h.depth_nodes]
  exact Ladder.ascending_perm s _

theorem truthfulWhere : wire.TruthfulWhere Book.serve (fun b r => FillsFit b.depth r) := by
  refine WireEngine.truthfulWhere (fun b => ∃ H, b.Shows H) ⟨_, shows_newBook⟩ ?_ ?_
  · rintro b ⟨H, h⟩ now o
    obtain ⟨b', hcall, h'⟩ := h.call o.call
    obtain ⟨replies, htext⟩ := Book.onText_of_call now (m := o.message) (b := b)
      (by rw [o.call_message]; exact hcall)
    exact ⟨b', replies, htext, _, h'⟩
  · rintro b ⟨H, h⟩ now raw
    by_cases hknown : (requestOf raw.val).Known
    · obtain ⟨b', hcall, h'⟩ := h.call (requestOf raw.val).call
      have hwf : ∀ s, Ladder.WF s ((H.book.rename Prod.snd).ladder s) := fun s =>
        (H.wf.side s).rename Prod.snd
      rw [H.fills_step] at hcall
      refine ⟨b', _, (serve_eq b hknown).trans hcall, onBinary_eq raw.property.ge now hknown hcall,
        ⟨_, h'⟩, inInt32_fill_qty hwf raw.property, ?_⟩
      rw [fillsFit_iff hwf, fillsFit_congr h.depth_perm]
    · -- nothing is traded, and nothing has to fit
      refine ⟨b, [], serve_of_unknown b hknown, onBinary_of_unknown b raw.property.ge now hknown,
        ⟨H, h⟩, List.forall_mem_nil _, iff_of_true (List.forall_mem_nil _) ?_⟩
      unfold FillsFit
      rw [if_neg (fun h1 => hknown (Or.inl h1)), if_neg (fun h2 => hknown (Or.inr (Or.inl h2)))]
      trivial

end GoEngine

namespace RustEngine

/-- The levels of the book are those of the abstract one. -/
theorem Book.Shows.depth_perm {b : Book UInt64} {B : PriceTime.Book UInt64} (h : b.Shows B)
    (s : Side) : (b.depth s).Perm (B.ladder s) := by
  rw [h.depth_eq]
  exact Ladder.ascending_perm s _

theorem truthfulWhere : wire.TruthfulWhere Book.serve (fun b r => FillsFit b.depth r) := by
  refine WireEngine.truthfulWhere (fun b => ∃ B, b.Shows B) ⟨_, shows_new⟩ ?_ ?_
  · rintro b ⟨B, h⟩ now o
    obtain ⟨b', B', hcall, h'⟩ := h.call o.call
    obtain ⟨replies, htext⟩ := Book.onText_of_call now (m := o.message) (b := b)
      (by rw [o.call_message]; exact hcall)
    exact ⟨b', replies, htext, _, h'⟩
  · rintro b ⟨B, h⟩ now raw
    obtain ⟨b', B', hcall, h'⟩ := h.call (requestOf raw.val).call
    refine ⟨b', _, (serve_eq b _).trans hcall, onBinary_eq raw.property.ge now hcall, ⟨_, h'⟩,
      inInt32_fill_qty h.wf raw.property, ?_⟩
    rw [fillsFit_iff h.wf, fillsFit_congr h.depth_perm]

end RustEngine

namespace PyEngine

variable {ι : Type}

/-- The bytes of a frame that has any. -/
def bytes : Frame → Option (List UInt8)
  | .binary data => some data
  | .text _ => none

/-- A fill that `struct` packs is told. -/
theorem PyState.tells_of_fillData {st : PyState ι} {oid : ℤ} {side : Side} (f : Fill ι) (x : Frame)
    (hx : st.fillData oid side f = some x) : ∃ data, x = .binary data
      ∧ replyType data = some fillTag ∧ Tells (fun f => asInt (st.maker side f)) oid f data := by
  obtain ⟨maker, hmaker, hx⟩ := Option.bind_eq_some_iff.mp hx
  obtain ⟨data, hpack, rfl⟩ := Option.map_eq_some_iff.mp hx
  refine ⟨data, rfl, ?_, maker, hmaker, ?_⟩
  · have hholds := isSome_pack_iff.mp (Option.isSome_iff_exists.mpr ⟨data, hpack⟩)
    rw [pack_of_holds hholds, Option.some_inj] at hpack
    rw [← hpack]
    exact replyType_fill oid f.px f.qty maker
  · rw [decFill, show Wire.fillFormat = fillFormat from rfl, unpack_pack hpack]

variable [DecidableEq ι]

/-- **A binary taker is told its fills** exactly if the loop withstands the
frame. -/
theorem PyState.Sound.truthful_iff {P : PyJson ι} {st : PyState ι} (h : st.Sound P) (now : Instant)
    (raw : RequestFrame) : ∃ st' fills,
      st.call P (.ofBinary (requestOf raw.val)) = .ok (st', .ok fills)
        ∧ (Truthful (fun f => asInt (st.maker (PyRequest.ofBinary (requestOf raw.val)).side f))
            (requestOf raw.val).id.toNat fills
            ((st.handle P now (.binary raw.val)).sent.filterMap bytes)
          ↔ st.Withstands P (.binary raw.val)) := by
  obtain ⟨hkeyed, hsendable⟩ := PyRequest.keyed_ofBinary P (requestOf raw.val)
  rcases h.call hsendable with ⟨st', hcall, -⟩ | ⟨-, -, -, -, hnot⟩
  · refine ⟨st', _, hcall, ?_⟩
    have hack : pack ackFormat [1, (requestOf raw.val).id.toNat, (now : ℕ)]
        = some (packed Wire.ackFormat [1, (requestOf raw.val).id.toNat, (now : ℕ)]) := pack_ack _ now
    -- the acknowledgement is no fill, and does not count
    have hno : ¬ replyType (packed Wire.ackFormat
        [1, ((requestOf raw.val).id.toNat : ℤ), ((now : ℕ) : ℤ)]) = some fillTag := by
      rw [replyType_ack]
      decide
    have hsent : Truthful (fun f => asInt (st.maker (PyRequest.ofBinary (requestOf raw.val)).side f))
        (requestOf raw.val).id.toNat (st.fills (.ofBinary (requestOf raw.val)))
        ((st.handle P now (.binary raw.val)).sent.filterMap bytes)
        ↔ ∀ f ∈ st.fills (.ofBinary (requestOf raw.val)), (st.fillData (requestOf raw.val).id.toNat
          (PyRequest.ofBinary (requestOf raw.val)).side f).isSome := by
      rw [← forall₂_sendAll_iff PyState.tells_of_fillData bytes (fun _ => rfl), PyState.handle,
        decode_eq raw.property]
      dsimp only
      rw [hack, PyState.onRequest_of_call _ hcall, Truthful, Truthful,
        List.filterMap_cons_some (show bytes (.binary _) = some _ from rfl),
        List.filter_cons_of_neg (by simpa using hno)]
    have hpacked := h.fills_packed_iff (requestOf raw.val)
    rw [hsent]
    unfold PyState.Withstands
    dsimp only
    rw [and_iff_right raw.property, ← hpacked]
    exact forall₂_congr (fun f hf =>
      st.isSome_fillData _ _ (h.inInt32_qty raw.property f hf))
  · exact absurd hkeyed hnot

end PyEngine

/-- **When binary takers are told the truth**, in use of both wires: in each of
the four engines after whatever came before, exactly if the prices at which the
taker trades have room in a fill – in the Python engine, which takes ids of any
kind, also the makers' ids. -/
theorem fills_truthful_iff {ι : Type} [DecidableEq ι] (P : PyEngine.PyJson ι) :
    (∀ (past : List (Instant × Frame)) (now : Instant) (raw : RequestFrame),
      let st := past.foldl (fun st x => (st.handle P x.1 x.2).book) PyEngine.PyState.init
      let r := requestOf raw.val
      ∃ st' fills, st.call P (.ofBinary r) = .ok (st', .ok fills)
        ∧ (Truthful (fun f => PyEngine.asInt (st.maker (PyEngine.PyRequest.ofBinary r).side f))
            r.id.toNat fills ((st.handle P now (.binary raw.val)).sent.filterMap PyEngine.bytes)
          ↔ st.Withstands P (.binary raw.val)))
    ∧ CppEngine.wire.TruthfulWhere CppEngine.OrderBook.serve (fun b r => FillsFit b.depth r)
    ∧ GoEngine.wire.TruthfulWhere GoEngine.Book.serve (fun b r => FillsFit b.depth r)
    ∧ RustEngine.wire.TruthfulWhere RustEngine.Book.serve (fun b r => FillsFit b.depth r) :=
  ⟨fun past now raw => (PyEngine.PyState.Sound.foldl past
      (PyEngine.PyState.sound_init P)).truthful_iff now raw,
    CppEngine.truthfulWhere, GoEngine.truthfulWhere, RustEngine.truthfulWhere⟩

/-- A market buy of three under the id 2. -/
def buyThree : RequestFrame :=
  ⟨[2, 0, 2, 0, 0, 0, 0, 0, 0, 0, 0, 0, 0, 0, 3, 0, 0, 0, 0, 0, 0, 0, 0, 0, 0, 0], rfl⟩

/-- A reader of
`{"t":"limit","id":1,"side":"sell","px":2147483648,"qty":5}`. -/
def sellBeyond : PyEngine.PyJson ℤ where
  loads _ := .value (.object [("t", .string "limit"), ("id", .int false 1),
    ("side", .string "sell"), ("px", .int false (2 ^ 31)), ("qty", .int false 5)])
  key v := (PyEngine.asInt v).getD 0
  intOf _ := none
  repr _ := none

/-- **An ask at 2147483648 is told wrongly**: the C++, the Go and the Rust
engine tell a buyer the price -2147483648, and the Python engine tells
nothing. -/
theorem not_truthful_beyond_room :
    (∃ b outs b' fills sent, run CppEngine.wire.onSent CppEngine.wire.init
        [(0, .text (.limit 1 false (2 ^ 31) 5))] = .ok (b, outs)
      ∧ b.serve (requestOf buyThree.val) = .ok (b', fills)
      ∧ b.onBinary (0, buyThree.val) = .ok (b', sent) ∧ ¬ Truthful makerId 2 fills sent)
    ∧ (∃ b outs b' fills sent, run GoEngine.wire.onSent GoEngine.wire.init
        [(0, .text (.limit 1 false (2 ^ 31) 5))] = .ok (b, outs)
      ∧ b.serve (requestOf buyThree.val) = .ok (b', fills)
      ∧ b.onBinary (0, buyThree.val) = .ok (b', sent) ∧ ¬ Truthful makerId 2 fills sent)
    ∧ (∃ b outs b' fills sent, run RustEngine.wire.onSent RustEngine.wire.init
        [(0, .text (.limit 1 false (2 ^ 31) 5))] = .ok (b, outs)
      ∧ b.serve (requestOf buyThree.val) = .ok (b', fills)
      ∧ b.onBinary (0, buyThree.val) = .ok (b', sent) ∧ ¬ Truthful makerId 2 fills sent)
    ∧ let st := (PyEngine.PyState.init.handle sellBeyond 0 (.text ("\x7b\"t\":\"limit\",\"id\":1,"
        ++ "\"side\":\"sell\",\"px\":2147483648,\"qty\":5\x7d"))).book
      ∃ st' fills, st.call sellBeyond (.ofBinary (requestOf buyThree.val)) = .ok (st', .ok fills)
        ∧ ¬ Truthful (fun f => PyEngine.asInt (st.maker .bid f)) 2 fills
          ((st.handle sellBeyond 0 (.binary buyThree.val)).sent.filterMap PyEngine.bytes) := by
  -- one fill is sent, and read back as another
  have hwrong : ∀ {f : Fill UInt64} {sent : List (List UInt8)} {data : List UInt8},
      sent.filter (fun data => replyType data = some fillTag) = [data] →
      decFill data ≠ some ((2 : ℤ), f.px, f.qty, (f.maker.toNat : ℤ)) →
      ¬ Truthful makerId 2 [f] sent := by
    intro f sent data hsent hdata htrue
    rw [Truthful, hsent, List.forall₂_cons] at htrue
    obtain ⟨⟨z, hz, hdec⟩, -⟩ := htrue
    rw [makerId, Option.some_inj] at hz
    subst hz
    exact hdata hdec
  refine ⟨⟨_, _, _, _, _, rfl, rfl, rfl, hwrong rfl ?_⟩, ⟨_, _, _, _, _, rfl, rfl, rfl,
    hwrong rfl ?_⟩, ⟨_, _, _, _, _, rfl, rfl, rfl, hwrong rfl ?_⟩, _, _, rfl, ?_⟩
  · decide
  · decide
  · decide
  · intro htrue
    -- Python sends no fill at all
    have hlen := htrue.length_eq
    revert hlen
    decide
