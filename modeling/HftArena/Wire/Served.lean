import HftArena.Lib.Server
import HftArena.Wire.Connection

/-!
# The engines serve their connections side by side

Each of the four engines takes the frames of a connection one after the other:
it sends the acknowledgement, then makes the call of the book – with the mutex
held, or in Python without giving way – and then sends the fills. Between these
the frames of the other connections are served.

Whatever the interleaving, the engine does what it would do if it took the
frames one by one from a single connection (`Wire.engines_serialize`): each
connection is sent the answers to its own frames, in order, and nothing else,
and the book is the one that results. Nor can an interleaving keep a frame from
being answered.

A frame takes its place when its call is made, not when it is received or
acknowledged: acknowledgements need not be sent in the order of the calls.

For each engine there are three things: what it sends before it touches the
book (`early`), what it does with the book in its hands (`locked`, in Python
`serve`), and that the handler of one frame is these two after another
(`service_splits`). The interleavings are those of `Lib.Server`.
-/

open PriceTime Wire

/-! ## Python: `handle`

There is no lock; but between the acknowledgement and the end of the call there
is no `await` either, and this is what counts as one. -/

namespace PyEngine

variable {ι : Type} [DecidableEq ι]

/-- **What is sent before the book is called**: the acknowledgement, if it gets
so far. -/
def early (P : PyJson ι) (x : Instant × Frame) : List Frame :=
  match x.2 with
  | .binary raw =>
    match decode raw with
    | none => []
    | some r => ((pack ackFormat [1, r.id.toNat, (x.1 : ℕ)]).map Frame.binary).toList
  | .text s =>
    match P.loads s with
    | .value (.object fields) =>
      match (JsonValue.object fields).item "t", (JsonValue.object fields).item "id" with
      | some _, some id => ((P.text id).map (fun oid => Frame.text
          ("\x7b\"ack\":" ++ oid ++ ",\"ts\":" ++ toString (x.1 : ℕ) ++ "\x7d"))).toList
      | _, _ => []
    | _ => []

/-- What follows the acknowledgement of a request. -/
def PyState.afterRequest (P : PyJson ι) (st : PyState ι) (r : Request) :
    PyState ι × List Frame × Bool :=
  let request := PyRequest.ofBinary r
  match st.call P request with
  | .ok (st', .ok fills) => (st', sendAll (fills.map (st.fillData r.id.toNat request.side)))
  | .ok (st', .error _) => (st', [], false)
  | .error _ => (st, [], false)

/-- What follows the acknowledgement of a message. -/
def PyState.afterMessage (P : PyJson ι) (st : PyState ι) (m t id : JsonValue) (oid : String) :
    PyState ι × List Frame × Bool :=
  let reject := fun reason =>
    Frame.text ("\x7b\"reject\":" ++ oid ++ ",\"reason\":\"" ++ reason ++ "\"\x7d")
  match PyRequest.ofJson P m t id with
  | .error reason => (st, [reject reason], true)
  | .ok request =>
    match st.call P request with
    | .ok (st', .ok fills) => (st', sendAll (fills.map (st.fillText P oid request.side)))
    | .ok (st', .error reason) => (st', [reject reason], true)
    | .error .keyError => (st, [reject "KeyError"], true)
    | .error .diverges => (st, [], false)

/-- **What is served without giving way**, and what is sent after it: there is
no `await` between the first line of the call and the last. -/
def PyState.serve (P : PyJson ι) (st : PyState ι) (x : Instant × Frame) :
    PyState ι × List Frame × Bool :=
  match x.2 with
  | .binary raw =>
    match decode raw with
    | none => (st, [], false)
    | some r =>
      if (pack ackFormat [1, r.id.toNat, (x.1 : ℕ)]).isSome then st.afterRequest P r
      else (st, [], false)
  | .text s =>
    match P.loads s with
    | .valueError => (st, [], true)
    | .raises => (st, [], false)
    | .value m =>
      match m with
      | .object _ =>
        match m.item "t", m.item "id" with
        | some t, some id =>
          match P.text id with
          | none => (st, [], false)
          | some oid => st.afterMessage P m t id oid
        | _, _ => (st, [], true)
      -- no other value has items, and looking one up raises
      | _ => (st, [], false)

/-- A request that can be acknowledged is acknowledged, and then served. -/
theorem PyState.onRequest_some (P : PyJson ι) (st : PyState ι) (r : Request) (ack : List UInt8) :
    st.onRequest P r (some ack) = ⟨(st.afterRequest P r).1,
      .binary ack :: (st.afterRequest P r).2.1, (st.afterRequest P r).2.2⟩ := by
  unfold onRequest afterRequest
  dsimp only
  cases st.call P (PyRequest.ofBinary r) with
  | error e => rfl
  | ok y =>
    obtain ⟨st', fills | fills⟩ := y
    · rfl
    · rfl

/-- So is a message whose id can be sent. -/
theorem PyState.onMessage_some (P : PyJson ι) (st : PyState ι) (now : Instant)
    {m t id : JsonValue} {oid : String} (hid : P.text id = some oid) :
    st.onMessage P now m t id = ⟨(st.afterMessage P m t id oid).1,
      .text ("\x7b\"ack\":" ++ oid ++ ",\"ts\":" ++ toString (now : ℕ) ++ "\x7d")
        :: (st.afterMessage P m t id oid).2.1, (st.afterMessage P m t id oid).2.2⟩ := by
  unfold onMessage afterMessage
  rw [hid]
  dsimp only
  cases PyRequest.ofJson P m t id with
  | error reason => rfl
  | ok request =>
    dsimp only
    cases st.call P request with
    | error e => cases e <;> rfl
    | ok y =>
      obtain ⟨st', fills | fills⟩ := y
      · rfl
      · rfl

/-- **The two parts of `handle`**: what it sends is what it sends early,
followed by what the served part sends, and the book is the served part's. -/
theorem PyState.handle_eq (P : PyJson ι) (st : PyState ι) (x : Instant × Frame) :
    st.handle P x.1 x.2
      = ⟨(st.serve P x).1, early P x ++ (st.serve P x).2.1, (st.serve P x).2.2⟩ := by
  obtain ⟨now, f⟩ := x
  cases f with
  | binary raw =>
    unfold handle serve early
    dsimp only
    cases decode raw with
    | none => rfl
    | some r =>
      dsimp only
      cases pack ackFormat [1, r.id.toNat, (now : ℕ)] with
      | none => rfl
      | some ack => exact st.onRequest_some P r ack
  | text s =>
    unfold handle serve early
    dsimp only
    cases P.loads s with
    | valueError => rfl
    | raises => rfl
    | value m =>
      cases m with
      | object fields =>
        dsimp only
        cases (JsonValue.object fields).item "t" with
        | none => rfl
        | some t =>
          cases (JsonValue.object fields).item "id" with
          | none => rfl
          | some id =>
            dsimp only
            cases hid : P.text id with
            | none =>
              unfold onMessage
              rw [hid]
              rfl
            | some oid => exact st.onMessage_some P now hid
      | _ => rfl

/-- `handle`, as it gives way to the other connections. -/
def service (P : PyJson ι) : Service (PyState ι) (Instant × Frame) Frame Empty :=
  ⟨early P, always (fun st x => st.serve P x)⟩

theorem service_splits (P : PyJson ι) : (service P).Splits
    (always (fun st x => ((st.handle P x.1 x.2).book, (st.handle P x.1 x.2).sent)))
    (fun _ => True) := by
  intro st x _
  refine ⟨_, _, _, rfl, ?_, trivial⟩
  rw [always, st.handle_eq]
  rfl

end PyEngine

/-! ## Go: `handle`

The acknowledgement is written before the mutex is taken, and the fills after
it is given back. -/

namespace GoEngine

/-- The `switch` on the type of a message. -/
def Book.switch (b : Book UInt64) (m : Message) :
    Except GoError (Book UInt64 × List (Fill UInt64)) :=
  let id := m.id.getD 0
  let buy := m.side == some "buy"
  let t := m.t.getD ""
  if t = "limit" then b.limit id buy (m.px.getD 0) (m.qty.getD 0)
  else if t = "market" then b.market buy (m.qty.getD 0)
  else if t = "cancel" then .ok (b.cancel (m.target.getD 0), [])
  else .ok (b, [])

/-- **What is sent before `book.mu` is locked**: the acknowledgement, if it
gets so far. -/
def early (json : List UInt8 → Option JsonValue) (fold : String → String) (d : Delivered) :
    List (List UInt8 ⊕ Reply) :=
  if d.binary then
    if d.data.length < 2 then []
    else
      match decode (d.data ++ d.spare) with
      | none => []
      | some r => [.inl (ackFrame r.id d.now)]
  else
    match (json d.data).bind (JsonValue.unmarshal fold) with
    | none => []
    | some m => [.inr (.ack (m.id.getD 0).toNat (d.now : ℕ))]

/-- **What is done with `book.mu` locked**, and what is sent after it. -/
def Book.locked (json : List UInt8 → Option JsonValue) (fold : String → String) (b : Book UInt64)
    (d : Delivered) : Except GoError (Book UInt64 × List (List UInt8 ⊕ Reply) × Bool) :=
  if d.binary then
    if d.data.length < 2 then .ok (b, [], false)
    else
      match decode (d.data ++ d.spare) with
      | none => .ok (b, [], false)
      | some r => do
        let (b', fills) ← b.serve r
        .ok (b', fills.map (fun f => .inl (fillFrame r.id f)), true)
  else
    match (json d.data).bind (JsonValue.unmarshal fold) with
    | none => .ok (b, [], true)
    | some m => do
      let (b', fills) ← b.switch m
      .ok (b', fills.map (fun f => .inr (fillReply (m.id.getD 0) f)), true)

/-- `handle`, as a goroutine of each connection runs it. -/
def service (json : List UInt8 → Option JsonValue) (fold : String → String) :
    Service (Book UInt64) Delivered (List UInt8 ⊕ Reply) GoError :=
  ⟨early json fold, Book.locked json fold⟩

theorem Book.switch_eq (b : Book UInt64) (m : Message) :
    b.switch m = m.call.elim (.ok (b, [])) b.call :=
  m.serve_eq b.call b.limit b.market (fun target => .ok (b.cancel target, []))
    (.ok (b, [])) (fun _ _ _ _ => rfl) (fun _ _ _ => rfl) (fun _ => rfl)

/-- A sound book stays sound, whatever is asked of it. -/
theorem Book.Shows.serve {b : Book UInt64} {H : Handles UInt64} (h : b.Shows H) (r : Request) :
    ∃ b' fills, b.serve r = .ok (b', fills) ∧ ∃ H', b'.Shows H' := by
  by_cases hknown : r.Known
  · obtain ⟨b', hcall, h'⟩ := h.call r.call
    exact ⟨b', _, (serve_eq b hknown).trans hcall, _, h'⟩
  · exact ⟨b, [], serve_of_unknown b hknown, H, h⟩

theorem Book.Shows.switch {b : Book UInt64} {H : Handles UInt64} (h : b.Shows H) (m : Message) :
    ∃ b' fills, b.switch m = .ok (b', fills) ∧ ∃ H', b'.Shows H' := by
  rw [b.switch_eq]
  cases m.call with
  | none => exact ⟨b, [], rfl, H, h⟩
  | some c =>
    obtain ⟨b', hcall, h'⟩ := h.call c
    exact ⟨b', _, hcall, _, h'⟩

/-- A message is acknowledged, and then served. -/
theorem Book.onText_of_switch {b b' : Book UInt64} (now : Instant) {m : Message}
    {fills : List (Fill UInt64)} (hswitch : b.switch m = .ok (b', fills)) :
    b.onText (now, m) = .ok (b', .ack (m.id.getD 0).toNat (now : ℕ)
      :: fills.map (fillReply (m.id.getD 0))) := by
  show (do
    let (b', fills) ← Except.mapError HandlerError.book (b.switch m)
    .ok (b', Reply.ack (m.id.getD 0).toNat (now : ℕ) :: fills.map (fillReply (m.id.getD 0)))) = _
  rw [hswitch]
  rfl

/-- **The two parts of `handle`.** -/
theorem service_splits (json : List UInt8 → Option JsonValue) (fold : String → String) :
    (service json fold).Splits
      (always (fun b d => ((b.handle json fold d).book, (b.handle json fold d).sent)))
      (fun b => ∃ H, b.Shows H) := by
  rintro b d ⟨H, h⟩
  show ∃ s' ms live, b.locked json fold d = .ok (s', ms, live)
    ∧ Except.ok ((b.handle json fold d).book, (b.handle json fold d).sent)
      = .ok (s', early json fold d ++ ms) ∧ ∃ H, s'.Shows H
  unfold Book.locked Book.handle early
  by_cases hbin : d.binary = true
  · rw [if_pos hbin, if_pos hbin, if_pos hbin]
    by_cases htwo : d.data.length < 2
    · rw [if_pos htwo, if_pos htwo, if_pos htwo]
      exact ⟨b, [], false, rfl, rfl, H, h⟩
    · rw [if_neg htwo, if_neg htwo, if_neg htwo]
      unfold Book.onBinary
      dsimp only
      cases decode (d.data ++ d.spare) with
      | none => exact ⟨b, [], false, rfl, rfl, H, h⟩
      | some r =>
        obtain ⟨b', fills, hserve, h'⟩ := h.serve r
        dsimp only
        rw [hserve]
        refine ⟨b', fills.map (fun f => .inl (fillFrame r.id f)), true, rfl, ?_, h'⟩
        show Except.ok (b', (ackFrame r.id d.now :: fills.map (fillFrame r.id)).map Sum.inl) = _
        rw [List.map_cons, List.map_map]
        rfl
  · rw [if_neg hbin, if_neg hbin, if_neg hbin]
    cases (json d.data).bind (JsonValue.unmarshal fold) with
    | none => exact ⟨b, [], true, rfl, rfl, H, h⟩
    | some m =>
      obtain ⟨b', fills, hswitch, h'⟩ := h.switch m
      dsimp only
      rw [hswitch, Book.onText_of_switch d.now hswitch]
      refine ⟨b', fills.map (fun f => .inr (fillReply (m.id.getD 0) f)), true, rfl, ?_, h'⟩
      dsimp only
      rw [List.map_cons, List.map_map]
      rfl

end GoEngine

/-! ## Rust: `main`

The guard of the lock is dropped when the call has returned. -/

namespace RustEngine

/-- The `match` on the type of a message. -/
def Book.switch (b : Book UInt64) (v : Message) :
    Except RustError (Book UInt64 × List (Fill UInt64)) :=
  let id := v.id.getD 0
  let buy := v.side == some "buy"
  let t := v.t.getD ""
  if t = "limit" then b.limit id buy (v.px.getD 0) (v.qty.getD 0)
  else if t = "market" then b.market buy (v.qty.getD 0)
  else if t = "cancel" then .ok (b.cancel (v.target.getD 0), [])
  else .ok (b, [])

/-- **What is sent before `book.lock()`**: the acknowledgement, if the frame is
one to answer. -/
def early (json : String → Option JsonValue) (x : Instant × Frame) : List (List UInt8 ⊕ Reply) :=
  match x.2 with
  | .binary d =>
    match decode d with
    | none => []
    | some r => [.inl (ackFrame r.id x.1)]
  | .text txt =>
    match json txt with
    | none => []
    | some v => [.inr (.ack (v.lookUp.id.getD 0).toNat (x.1 : ℕ))]

/-- **What is done with the book locked**, and what is sent after it. -/
def Book.locked (json : String → Option JsonValue) (b : Book UInt64) (x : Instant × Frame) :
    Except RustError (Book UInt64 × List (List UInt8 ⊕ Reply) × Bool) :=
  match x.2 with
  | .binary d =>
    match decode d with
    | none => .ok (b, [], true)
    | some r => do
      let (b', fills) ← b.serve r
      .ok (b', fills.map (fun f => .inl (fillFrame r.id f)), true)
  | .text txt =>
    match json txt with
    | none => .ok (b, [], true)
    | some v => do
      let (b', fills) ← b.switch v.lookUp
      .ok (b', fills.map (fun f => .inr (fillReply (v.lookUp.id.getD 0) f)), true)

/-- The receive loop, as a task of each connection runs it. -/
def service (json : String → Option JsonValue) :
    Service (Book UInt64) (Instant × Frame) (List UInt8 ⊕ Reply) RustError :=
  ⟨early json, Book.locked json⟩

theorem Book.switch_eq (b : Book UInt64) (m : Message) :
    b.switch m = m.call.elim (.ok (b, [])) b.call :=
  m.serve_eq b.call b.limit b.market (fun target => .ok (b.cancel target, []))
    (.ok (b, [])) (fun _ _ _ _ => rfl) (fun _ _ _ => rfl) (fun _ => rfl)

/-- A sound book stays sound, whatever is asked of it. -/
theorem Book.Shows.switch {b : Book UInt64} {B : PriceTime.Book UInt64} (h : b.Shows B)
    (m : Message) : ∃ b' fills, b.switch m = .ok (b', fills) ∧ ∃ B', b'.Shows B' := by
  rw [b.switch_eq]
  cases m.call with
  | none => exact ⟨b, [], rfl, B, h⟩
  | some c =>
    obtain ⟨b', B', hcall, h'⟩ := h.call c
    exact ⟨b', _, hcall, B', h'⟩

/-- A message is acknowledged, and then served. -/
theorem Book.onText_of_switch {b b' : Book UInt64} (now : Instant) {m : Message}
    {fills : List (Fill UInt64)} (hswitch : b.switch m = .ok (b', fills)) :
    b.onText (now, m) = .ok (b', .ack (m.id.getD 0).toNat (now : ℕ)
      :: fills.map (fillReply (m.id.getD 0))) := by
  show (do
    let (b', fills) ← Except.mapError HandlerError.book (b.switch m)
    .ok (b', Reply.ack (m.id.getD 0).toNat (now : ℕ) :: fills.map (fillReply (m.id.getD 0)))) = _
  rw [hswitch]
  rfl

/-- **The two parts of the loop.** -/
theorem service_splits (json : String → Option JsonValue) :
    (service json).Splits
      (always (fun b x => ((b.handle json x.1 x.2).book, (b.handle json x.1 x.2).sent)))
      (fun b => ∃ B, b.Shows B) := by
  rintro b ⟨now, f⟩ ⟨B, h⟩
  show ∃ s' ms live, b.locked json (now, f) = .ok (s', ms, live)
    ∧ Except.ok ((b.handle json now f).book, (b.handle json now f).sent)
      = .ok (s', early json (now, f) ++ ms) ∧ ∃ B, s'.Shows B
  unfold Book.locked Book.handle early
  cases f with
  | binary d =>
    unfold Book.onBinary
    dsimp only
    cases decode d with
    | none => exact ⟨b, [], true, rfl, rfl, B, h⟩
    | some r =>
      obtain ⟨b', B', hcall, h'⟩ := h.call r.call
      dsimp only
      rw [serve_eq, hcall]
      refine ⟨b', (B.step r.call).2.map (fun f => .inl (fillFrame r.id f)), true, rfl, ?_, B', h'⟩
      show Except.ok (b', (ackFrame r.id now :: (B.step r.call).2.map (fillFrame r.id)).map
        Sum.inl) = _
      rw [List.map_cons, List.map_map]
      rfl
  | text txt =>
    dsimp only
    cases json txt with
    | none => exact ⟨b, [], true, rfl, rfl, B, h⟩
    | some v =>
      obtain ⟨b', fills, hswitch, h'⟩ := h.switch v.lookUp
      dsimp only
      rw [hswitch, Book.onText_of_switch now hswitch]
      refine ⟨b', fills.map (fun f => .inr (fillReply (v.lookUp.id.getD 0) f)), true, rfl, ?_, h'⟩
      dsimp only
      rw [List.map_cons, List.map_map]
      rfl

end RustEngine

/-! ## C++: `onmessage`

The library serves connections by several threads, and `onmessage` holds its
lock for the call. -/

namespace CppEngine

/-- A message that has the fields that its type asks for, so that none is
looked up in vain. -/
def HasFields (m : Message) : Bool :=
  m.id.isSome && m.t.isSome
    && (m.t != some "limit" || m.side.isSome && m.px.isSome && m.qty.isSome)
    && (m.t != some "market" || m.side.isSome && m.qty.isSome)
    && (m.t != some "cancel" || m.target.isSome)

/-- **What the handler is given to serve**: a frame that is not read beyond its
end, and a text that is no JSON or a message with its fields. What the others
do is up to the memory and to the library, and is not modelled. -/
inductive Delivered where
  | binary (data : List UInt8) (h : 26 ≤ data.length)
  | text (m : Option Message) (h : ∀ m' ∈ m, HasFields m')

/-- The handler, for one frame at a time: `onBinary` or `onText`, with the
replies of both wires in one type. -/
def OrderBook.handle (b : OrderBook UInt64) (x : Instant × Delivered) :
    Except (HandlerError CppError) (OrderBook UInt64 × List (List UInt8 ⊕ Reply)) :=
  match x.2 with
  | .binary data _ => (b.onBinary (x.1, data)).map (fun r => (r.1, r.2.map .inl))
  | .text none _ => .ok (b, [])
  | .text (some m) _ => (b.onText (x.1, m)).map (fun r => (r.1, r.2.map .inr))

/-- The branches on the type of a message, with its fields read. -/
def OrderBook.switch (b : OrderBook UInt64) (m : Message) :
    Except CppError (OrderBook UInt64 × List (Fill UInt64)) :=
  let buy := m.side == some "buy"
  if m.t = some "limit" then b.limit (m.id.getD 0) buy (m.px.getD 0) (m.qty.getD 0)
  else if m.t = some "market" then b.market buy (m.qty.getD 0)
  else if m.t = some "cancel" then do
    let (b', _) ← b.cancel (m.target.getD 0)
    .ok (b', [])
  else .ok (b, [])

/-- **What is sent before `BOOK_MTX` is locked**: the acknowledgement. -/
def early (x : Instant × Delivered) : List (List UInt8 ⊕ Reply) :=
  match x.2 with
  | .binary data _ =>
    match decode data with
    | none => []
    | some r => [.inl (ackFrame r.id x.1)]
  | .text none _ => []
  | .text (some m) _ => [.inr (.ack (m.id.getD 0).toNat (x.1 : ℕ))]

/-- **What is done with `BOOK_MTX` locked**, and what is sent after it. -/
def OrderBook.locked (b : OrderBook UInt64) (x : Instant × Delivered) :
    Except CppError (OrderBook UInt64 × List (List UInt8 ⊕ Reply) × Bool) :=
  match x.2 with
  | .binary data _ =>
    match decode data with
    | none => .ok (b, [], true)
    | some r => do
      let (b', fills) ← b.serve r
      .ok (b', fills.map (fun f => .inl (fillFrame r.id f)), true)
  | .text none _ => .ok (b, [], true)
  | .text (some m) _ => do
    let (b', fills) ← b.switch m
    .ok (b', fills.map (fun f => .inr (fillReply (m.id.getD 0) f)), true)

/-- `onmessage`, as the threads of the server run it. -/
def service : Service (OrderBook UInt64) (Instant × Delivered) (List UInt8 ⊕ Reply) CppError :=
  ⟨early, OrderBook.locked⟩

/-- A sound book stays sound, whatever is asked of it. -/
theorem OrderBook.Shows.switch {b : OrderBook UInt64} {H : Handles UInt64} (h : b.Shows H)
    (m : Message) : ∃ b' fills, b.switch m = .ok (b', fills) ∧ ∃ H', b'.Shows H' := by
  have hcall : ∀ c, ∃ b' fills, b.call c = .ok (b', fills) ∧ ∃ H', b'.Shows H' := fun c =>
    (h.call c).elim (fun b' hb' => ⟨b', _, hb'.1, _, hb'.2⟩)
  obtain ⟨side, hside⟩ : ∃ side : Side, (m.side == some "buy") = (side == .bid) := by
    cases m.side == some "buy" with
    | true => exact ⟨.bid, rfl⟩
    | false => exact ⟨.ask, rfl⟩
  unfold OrderBook.switch
  dsimp only
  rw [hside]
  split_ifs
  · exact hcall (.limit (m.id.getD 0) side (m.px.getD 0) (m.qty.getD 0))
  · exact hcall (.market (m.id.getD 0) side (m.qty.getD 0))
  · exact hcall (.cancel (m.target.getD 0))
  · exact ⟨b, [], rfl, H, h⟩

/-- A message with its fields is acknowledged, and then served. -/
theorem OrderBook.onText_of_switch {b b' : OrderBook UInt64} (now : Instant) {m : Message}
    (hm : HasFields m) {fills : List (Fill UInt64)} (hswitch : b.switch m = .ok (b', fills)) :
    b.onText (now, m) = .ok (b', .ack (m.id.getD 0).toNat (now : ℕ)
      :: fills.map (fillReply (m.id.getD 0))) := by
  obtain ⟨t, id, side, px, qty, target⟩ := m
  unfold HasFields at hm
  simp only [Bool.and_eq_true, Bool.or_eq_true, bne_iff_ne, ne_eq] at hm
  obtain ⟨⟨⟨⟨hid, ht⟩, hlimit⟩, hmarket⟩, hcancel⟩ := hm
  obtain ⟨id, rfl⟩ := Option.isSome_iff_exists.mp hid
  obtain ⟨t, rfl⟩ := Option.isSome_iff_exists.mp ht
  unfold OrderBook.switch at hswitch
  unfold OrderBook.onText
  simp only [Option.some_inj] at hswitch hlimit hmarket hcancel ⊢
  by_cases h1 : t = "limit"
  · obtain ⟨⟨hside, hpx⟩, hqty⟩ := hlimit.resolve_left (not_not.mpr h1)
    obtain ⟨side, rfl⟩ := Option.isSome_iff_exists.mp hside
    obtain ⟨px, rfl⟩ := Option.isSome_iff_exists.mp hpx
    obtain ⟨qty, rfl⟩ := Option.isSome_iff_exists.mp hqty
    rw [if_pos h1] at hswitch ⊢
    dsimp only [Option.getD_some] at hswitch ⊢
    rw [show (some side == some "buy") = (side == "buy") from rfl] at hswitch
    rw [hswitch]
  · rw [if_neg h1] at hswitch ⊢
    by_cases h2 : t = "market"
    · obtain ⟨hside, hqty⟩ := hmarket.resolve_left (not_not.mpr h2)
      obtain ⟨side, rfl⟩ := Option.isSome_iff_exists.mp hside
      obtain ⟨qty, rfl⟩ := Option.isSome_iff_exists.mp hqty
      rw [if_pos h2] at hswitch ⊢
      dsimp only [Option.getD_some] at hswitch ⊢
      rw [show (some side == some "buy") = (side == "buy") from rfl] at hswitch
      rw [hswitch]
    · rw [if_neg h2] at hswitch ⊢
      by_cases h3 : t = "cancel"
      · obtain ⟨target, rfl⟩ := Option.isSome_iff_exists.mp (hcancel.resolve_left (not_not.mpr h3))
        rw [if_pos h3] at hswitch ⊢
        dsimp only [Option.getD_some] at hswitch ⊢
        rw [hswitch]
      · rw [if_neg h3] at hswitch ⊢
        cases hswitch
        rfl

/-- **The two parts of the handler.** -/
theorem service_splits : service.Splits OrderBook.handle (fun b => ∃ H, b.Shows H) := by
  rintro b ⟨now, d⟩ ⟨H, h⟩
  show ∃ s' ms live, b.locked (now, d) = .ok (s', ms, live)
    ∧ b.handle (now, d) = .ok (s', early (now, d) ++ ms) ∧ ∃ H, s'.Shows H
  unfold OrderBook.locked OrderBook.handle early
  cases d with
  | binary data hlen =>
    unfold OrderBook.onBinary
    dsimp only
    have hdecode : decode data = some (requestOf data) := if_neg (not_lt.mpr hlen)
    rw [hdecode]
    obtain ⟨b', hcall, h'⟩ := h.call (requestOf data).call
    dsimp only
    rw [serve_eq, hcall]
    refine ⟨b', (H.step (requestOf data).call).2.map (fun f => .inl (fillFrame _ f)), true, rfl,
      ?_, _, h'⟩
    show Except.ok (b', (ackFrame _ now :: (H.step (requestOf data).call).2.map
      (fillFrame _)).map Sum.inl) = _
    rw [List.map_cons, List.map_map]
    rfl
  | text m hm =>
    cases m with
    | none => exact ⟨b, [], true, rfl, rfl, H, h⟩
    | some m =>
      obtain ⟨b', fills, hswitch, h'⟩ := h.switch m
      dsimp only
      rw [hswitch, OrderBook.onText_of_switch now (hm m rfl) hswitch]
      refine ⟨b', fills.map (fun f => .inr (fillReply (m.id.getD 0) f)), true, rfl, ?_, h'⟩
      show Except.ok (b', (_ :: fills.map (fillReply (m.id.getD 0))).map Sum.inr) = _
      rw [List.map_cons, List.map_map]
      rfl

end CppEngine

/-! ## The four engines

Each splits its handler, and so serializes it. -/

namespace Wire

/-- **However the steps of the connections interleave**, each of the four
engines answers as if it had taken the frames one by one, in the order of their
calls; and it can always answer all that it has received. For the C++ engine
the frames are those that it is given to serve (`CppEngine.Delivered`). -/
theorem engines_serialize {ι : Type} [DecidableEq ι] (P : PyEngine.PyJson ι)
    (goJson : List UInt8 → Option JsonValue) (fold : String → String)
    (rustJson : String → Option JsonValue) :
    (PyEngine.service P).Serializes
      (always (fun st x => ((st.handle P x.1 x.2).book, (st.handle P x.1 x.2).sent)))
      PyEngine.PyState.init
    ∧ CppEngine.service.Serializes CppEngine.OrderBook.handle .init
    ∧ (GoEngine.service goJson fold).Serializes
      (always (fun b d => ((b.handle goJson fold d).book, (b.handle goJson fold d).sent)))
      GoEngine.newBook
    ∧ (RustEngine.service rustJson).Serializes
      (always (fun b x => ((b.handle rustJson x.1 x.2).book, (b.handle rustJson x.1 x.2).sent)))
      RustEngine.Book.new :=
  ⟨(PyEngine.service_splits P).serializes trivial,
    CppEngine.service_splits.serializes ⟨_, CppEngine.shows_init⟩,
    (GoEngine.service_splits goJson fold).serializes ⟨_, GoEngine.shows_newBook⟩,
    (RustEngine.service_splits rustJson).serializes ⟨_, RustEngine.shows_new⟩⟩

end Wire
