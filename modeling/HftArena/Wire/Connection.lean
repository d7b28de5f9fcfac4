import HftArena.Engine.Idle
import HftArena.Wire.PyConnection

/-!
# What the receive loops survive

The receive loops of the Go and the Rust engine, one frame at a time, and with
the one of the Python engine what each of them survives: a frame after which
the loop goes on, and which leaves the book as it was if it is no order.

The three part in what they guard. The Rust loop skips a binary frame that is
too short; the Python loop raises on it, and on every other length than 26; the
Go loop panics where the buffer ends, and otherwise reads what the buffer holds
beyond the frame. Python asks for the fields of a message by name and rejects
what it has not, but raises on a JSON value that is no object; Go and Rust read
a field that is missing as a zero, and such an order can change the book.

`Withstands` says of each engine, in terms of the frame and of the book before
it, which frames are survived, and `survives_iff_withstands` that it says so
exactly, whatever was sent before. Which calls change nothing is what
`Engine.Idle` is about.
-/

open PriceTime Wire

namespace Wire

/-- A loop that goes on survives the frame if the book stays where it has
to. -/
theorem FrameOutcome.survives_of_goesOn {β γ : Type} {o : FrameOutcome β γ} {book : β}
    {noOrder idle : Prop} (hgoes : o.goesOn = true) (hidle : o.book = book ↔ idle) :
    o.Survives book noOrder ↔ (noOrder → idle) := by
  rw [FrameOutcome.Survives, and_iff_right hgoes, hidle]

instance (r : Request) : Decidable r.Known :=
  inferInstanceAs (Decidable (r.mtype = 1 ∨ r.mtype = 2 ∨ r.mtype = 3))

/-- Where a message reads as zeros what it has not, it is served by its
call. -/
theorem Message.serve_eq {α : Type} (m : Message) (call : Call UInt64 → α)
    (limit : UInt64 → Bool → ℤ → ℤ → α) (market : Bool → ℤ → α) (cancel : UInt64 → α) (other : α)
    (hlimit : ∀ id side px qty, call (.limit id side px qty) = limit id (side == .bid) px qty)
    (hmarket : ∀ id side qty, call (.market id side qty) = market (side == .bid) qty)
    (hcancel : ∀ target, call (.cancel target) = cancel target) :
    (if m.t.getD "" = "limit" then
        limit (m.id.getD 0) (m.side == some "buy") (m.px.getD 0) (m.qty.getD 0)
      else if m.t.getD "" = "market" then market (m.side == some "buy") (m.qty.getD 0)
      else if m.t.getD "" = "cancel" then cancel (m.target.getD 0)
      else other) = m.call.elim other call := by
  have hbuy : ((if m.side = some "buy" then Side.bid else Side.ask) == .bid)
      = (m.side == some "buy") := by
    by_cases h : m.side = some "buy"
    · rw [if_pos h, h]
      rfl
    · rw [if_neg h, beq_false_of_ne h]
      rfl
  have ht : ∀ w, w ≠ "" → (m.t.getD "" = w ↔ m.t = some w) := fun w hw => by
    cases m.t with
    | none => exact iff_of_false hw.symm (fun h => by cases h)
    | some t => exact Option.some_inj.symm
  unfold Message.call
  simp only [ht "limit" (by decide), ht "market" (by decide), ht "cancel" (by decide)]
  by_cases h1 : m.t = some "limit"
  · rw [if_pos h1, if_pos h1, Option.elim_some, hlimit, hbuy]
  · by_cases h2 : m.t = some "market"
    · rw [if_neg h1, if_neg h1, if_pos h2, if_pos h2, Option.elim_some, hmarket, hbuy]
    · by_cases h3 : m.t = some "cancel"
      · rw [if_neg h1, if_neg h1, if_neg h2, if_neg h2, if_pos h3, if_pos h3, Option.elim_some,
          hcancel]
      · rw [if_neg h1, if_neg h1, if_neg h2, if_neg h2, if_neg h3, if_neg h3, Option.elim_none]

end Wire

/-! ## Go: `handle`

A panic ends the goroutine of the connection, which was holding no lock. What
is read of a binary frame may lie beyond its end, in the buffer. -/

namespace GoEngine

/-- **What `ReadMessage` returns**: the kind of a frame and its bytes, which
the library does not check to be text. A slice of them can reach beyond their
end, into what the buffer has room for, and what is there is anybody's guess:
`spare` is any bytes. -/
structure Delivered where
  now : Instant
  binary : Bool
  data : List UInt8
  spare : List UInt8

/-- A frame that is no order. -/
def Delivered.NoOrder (json : List UInt8 → Option JsonValue) (d : Delivered) : Prop :=
  if d.binary then d.data.length < 26 else ∀ v, json d.data = some v → ¬ v.HasFields

/-- **`handle`, for one frame.** -/
def Book.handle (json : List UInt8 → Option JsonValue) (fold : String → String) (b : Book UInt64)
    (d : Delivered) : FrameOutcome (Book UInt64) (List UInt8 ⊕ Reply) :=
  if d.binary then
    -- `data[0], data[1]`; the slices after them may end in the spare room
    if d.data.length < 2 then ⟨b, [], false⟩
    else
      match b.onBinary (d.now, d.data ++ d.spare) with
      | .ok (b', frames) => ⟨b', frames.map .inl, true⟩
      | .error _ => ⟨b, [], false⟩
  else
    match (json d.data).bind (JsonValue.unmarshal fold) with
    | none => ⟨b, [], true⟩
    | some m =>
      match b.onText (d.now, m) with
      | .ok (b', replies) => ⟨b', replies.map .inr, true⟩
      | .error _ => ⟨b, [], false⟩

/-- What is read of a frame: nothing where the handler panics, and else the
call that it makes, if it makes one. -/
def Delivered.reads (json : List UInt8 → Option JsonValue) (fold : String → String)
    (d : Delivered) : Option (Option (Call UInt64)) :=
  if d.binary then
    let r := requestOf (d.data ++ d.spare)
    if d.data.length < 2 ∨ (d.data ++ d.spare).length < 26 then none
    else some (if r.Known then some r.call else none)
  else some (((json d.data).bind (JsonValue.unmarshal fold)).bind Message.call)

/-- **The frames that a connection survives**: those that are read, and if they
are no orders make no call that changes the book. -/
def Book.Withstands (json : List UInt8 → Option JsonValue) (fold : String → String)
    (b : Book UInt64) (d : Delivered) : Prop :=
  ∃ c, d.reads json fold = some c ∧ (d.NoOrder json → ∀ c' ∈ c, b.Idle c')

/-- A message is acknowledged and makes its call, if it makes one. -/
theorem Book.onText_of_call {b b' : Book UInt64} (now : Instant) {m : Message}
    {fills : List (Fill UInt64)} (hcall : m.call.elim (.ok (b, [])) b.call = .ok (b', fills)) :
    ∃ replies, b.onText (now, m) = .ok (b', replies) := by
  have hserve := m.serve_eq b.call b.limit b.market (fun target => .ok (b.cancel target, []))
    (.ok (b, [])) (fun _ _ _ _ => rfl) (fun _ _ _ => rfl) (fun _ => rfl)
  unfold Book.onText
  dsimp only
  rw [hserve, hcall]
  exact ⟨_, rfl⟩

/-- So does a binary frame. -/
theorem Book.onBinary_of_call {b b' : Book UInt64} (now : Instant) {raw : List UInt8}
    (hlen : 26 ≤ raw.length) {fills : List (Fill UInt64)}
    (hcall : (if (requestOf raw).Known then some (requestOf raw).call else none).elim
      (.ok (b, [])) b.call = .ok (b', fills)) :
    ∃ frames, b.onBinary (now, raw) = .ok (b', frames) := by
  by_cases hknown : (requestOf raw).Known
  · rw [if_pos hknown] at hcall
    exact ⟨_, onBinary_eq hlen now hknown hcall⟩
  · rw [if_neg hknown] at hcall
    obtain ⟨rfl, -⟩ := Prod.mk.inj (Except.ok.inj hcall)
    exact ⟨_, onBinary_of_unknown b hlen now hknown⟩

/-- **A frame that is read** is survived by the loop, with the book after the
call that it makes. -/
theorem Book.handle_of_reads {json : List UInt8 → Option JsonValue} {fold : String → String}
    {b b' : Book UInt64} {d : Delivered} {c : Option (Call UInt64)}
    (hreads : d.reads json fold = some c) {fills : List (Fill UInt64)}
    (hcall : c.elim (.ok (b, [])) b.call = .ok (b', fills)) :
    ∃ sent, b.handle json fold d = ⟨b', sent, true⟩ := by
  unfold Delivered.reads at hreads
  unfold Book.handle
  by_cases hbin : d.binary = true
  · rw [if_pos hbin] at hreads ⊢
    dsimp only at hreads
    by_cases hshort : d.data.length < 2 ∨ (d.data ++ d.spare).length < 26
    · rw [if_pos hshort] at hreads
      cases hreads
    · rw [if_neg hshort, Option.some_inj] at hreads
      rw [if_neg (fun h => hshort (Or.inl h))]
      obtain ⟨frames, hframes⟩ := Book.onBinary_of_call d.now
        (not_lt.mp (fun h => hshort (Or.inr h))) (hreads ▸ hcall)
      rw [hframes]
      exact ⟨_, rfl⟩
  · rw [if_neg hbin] at hreads ⊢
    rw [Option.some_inj] at hreads
    cases hm : (json d.data).bind (JsonValue.unmarshal fold) with
    | none =>
      rw [hm] at hreads
      subst hreads
      obtain ⟨rfl, -⟩ := Prod.mk.inj (Except.ok.inj hcall)
      exact ⟨_, rfl⟩
    | some m =>
      rw [hm] at hreads
      obtain ⟨replies, hreplies⟩ := Book.onText_of_call d.now (m := m) (hreads ▸ hcall)
      dsimp only
      rw [hreplies]
      exact ⟨_, rfl⟩

/-- A frame that is not read ends the loop. -/
theorem Book.handle_of_not_reads {json : List UInt8 → Option JsonValue} {fold : String → String}
    (b : Book UInt64) {d : Delivered} (hreads : d.reads json fold = none) :
    b.handle json fold d = ⟨b, [], false⟩ := by
  unfold Delivered.reads at hreads
  unfold Book.handle
  by_cases hbin : d.binary = true
  · rw [if_pos hbin] at hreads ⊢
    dsimp only at hreads
    by_cases htwo : d.data.length < 2
    · rw [if_pos htwo]
    · rw [if_neg htwo]
      by_cases hshort : (d.data ++ d.spare).length < 26
      · unfold Book.onBinary decode
        dsimp only
        rw [if_pos hshort]
      · rw [if_neg (fun h => h.elim htwo hshort)] at hreads
        cases hreads
  · rw [if_neg hbin] at hreads
    cases hreads

/-- **A frame** leaves a sound book, and is survived by the condition. -/
theorem Book.Shows.handle (json : List UInt8 → Option JsonValue) (fold : String → String)
    {b : Book UInt64} {H : Handles UInt64} (h : b.Shows H) (d : Delivered) :
    (∃ H', (b.handle json fold d).book.Shows H')
      ∧ ((b.handle json fold d).Survives b (d.NoOrder json) ↔ b.Withstands json fold d) := by
  unfold Book.Withstands
  cases hreads : d.reads json fold with
  | none =>
    rw [b.handle_of_not_reads hreads]
    refine ⟨⟨H, h⟩, iff_of_false (fun hs => Bool.false_ne_true hs.1) ?_⟩
    rintro ⟨c, hc, -⟩
    cases hc
  | some c =>
    have hiff : ∀ P : Prop, (∃ c', some c = some c' ∧ (P → ∀ c'' ∈ c', b.Idle c''))
        ↔ (P → ∀ c' ∈ c, b.Idle c') := fun P => by simp
    rw [hiff]
    cases c with
    | none =>
      obtain ⟨sent, hhandle⟩ := Book.handle_of_reads (b := b) hreads rfl
      rw [hhandle]
      exact ⟨⟨H, h⟩, FrameOutcome.survives_of_goesOn rfl (by simp)⟩
    | some c =>
      obtain ⟨b', hcall, h'⟩ := h.call c
      obtain ⟨sent, hhandle⟩ := Book.handle_of_reads hreads hcall
      rw [hhandle]
      exact ⟨⟨_, h'⟩, FrameOutcome.survives_of_goesOn rfl ((h.call_self_iff hcall).trans (by simp))⟩

/-- **Any frames** leave a sound book. -/
theorem Book.Shows.foldl (json : List UInt8 → Option JsonValue) (fold : String → String)
    (past : List Delivered) {b : Book UInt64} (h : ∃ H, b.Shows H) :
    ∃ H, (past.foldl (fun b d => (b.handle json fold d).book) b).Shows H := by
  induction past generalizing b with
  | nil => exact h
  | cons d past ih =>
    obtain ⟨H, h⟩ := h
    exact ih (h.handle json fold d).1

end GoEngine

/-! ## Rust: `main`

Nothing ends this loop. What is left to ask is whether a frame that is no order
changes the book. -/

namespace RustEngine

/-- **The receive loop, for one frame.** -/
def Book.handle (json : String → Option JsonValue) (b : Book UInt64) (now : Instant) :
    Frame → FrameOutcome (Book UInt64) (List UInt8 ⊕ Reply)
  | .binary d =>
    match b.onBinary (now, d) with
    | .ok (b', frames) => ⟨b', frames.map .inl, true⟩
    | .error _ => ⟨b, [], false⟩
  | .text txt =>
    match json txt with
    | none => ⟨b, [], true⟩
    | some v =>
      match b.onText (now, v.lookUp) with
      | .ok (b', replies) => ⟨b', replies.map .inr, true⟩
      | .error _ => ⟨b, [], false⟩

/-- The call that a frame makes, if it makes one. -/
def reads (json : String → Option JsonValue) : Frame → Option (Call UInt64)
  | .binary d => if d.length < 26 then none else some (requestOf d).call
  | .text txt => (json txt).bind (fun v => v.lookUp.call)

/-- **The frames that a connection survives**: if they are no orders, they make
no call that changes the book. -/
def Book.Withstands (json : String → Option JsonValue) (b : Book UInt64) (f : Frame) : Prop :=
  NoOrder json f → ∀ c ∈ reads json f, b.Idle c

/-- A message is acknowledged and makes its call, if it makes one. -/
theorem Book.onText_of_call {b b' : Book UInt64} (now : Instant) {m : Message}
    {fills : List (Fill UInt64)} (hcall : m.call.elim (.ok (b, [])) b.call = .ok (b', fills)) :
    ∃ replies, b.onText (now, m) = .ok (b', replies) := by
  have hserve := m.serve_eq b.call b.limit b.market (fun target => .ok (b.cancel target, []))
    (.ok (b, [])) (fun _ _ _ _ => rfl) (fun _ _ _ => rfl) (fun _ => rfl)
  unfold Book.onText
  dsimp only
  rw [hserve, hcall]
  exact ⟨_, rfl⟩

/-- **Every frame** is survived by the loop, with the book after the call that
it makes. -/
theorem Book.handle_of_call {json : String → Option JsonValue} {b b' : Book UInt64} (now : Instant)
    {f : Frame} {fills : List (Fill UInt64)}
    (hcall : (reads json f).elim (.ok (b, [])) b.call = .ok (b', fills)) :
    ∃ sent, b.handle json now f = ⟨b', sent, true⟩ := by
  unfold reads at hcall
  unfold Book.handle
  cases f with
  | binary d =>
    dsimp only at hcall ⊢
    by_cases hlen : d.length < 26
    · rw [if_pos hlen] at hcall
      obtain ⟨rfl, -⟩ := Prod.mk.inj (Except.ok.inj hcall)
      unfold Book.onBinary decode
      dsimp only
      rw [if_pos hlen]
      exact ⟨_, rfl⟩
    · rw [if_neg hlen] at hcall
      rw [onBinary_eq (not_lt.mp hlen) now hcall]
      exact ⟨_, rfl⟩
  | text txt =>
    dsimp only at hcall ⊢
    cases hv : json txt with
    | none =>
      rw [hv] at hcall
      obtain ⟨rfl, -⟩ := Prod.mk.inj (Except.ok.inj hcall)
      exact ⟨_, rfl⟩
    | some v =>
      rw [hv] at hcall
      obtain ⟨replies, hreplies⟩ := Book.onText_of_call now hcall
      dsimp only
      rw [hreplies]
      exact ⟨_, rfl⟩

/-- **A frame** leaves a sound book, and is survived by the condition. -/
theorem Book.Shows.handle (json : String → Option JsonValue) {b : Book UInt64}
    {B : PriceTime.Book UInt64} (h : b.Shows B) (now : Instant) (f : Frame) :
    (∃ B', (b.handle json now f).book.Shows B')
      ∧ ((b.handle json now f).Survives b (NoOrder json f) ↔ b.Withstands json f) := by
  unfold Book.Withstands
  cases hreads : reads json f with
  | none =>
    have hcall : (reads json f).elim (.ok (b, [])) b.call = .ok (b, []) := by
      rw [hreads]
      rfl
    obtain ⟨sent, hhandle⟩ := Book.handle_of_call now hcall
    rw [hhandle]
    exact ⟨⟨B, h⟩, FrameOutcome.survives_of_goesOn rfl (by simp)⟩
  | some c =>
    obtain ⟨b', B', hcall, h'⟩ := h.call c
    have hmade : (reads json f).elim (.ok (b, [])) b.call = .ok (b', (B.step c).2) := by
      rw [hreads]
      exact hcall
    obtain ⟨sent, hhandle⟩ := Book.handle_of_call now hmade
    rw [hhandle]
    exact ⟨⟨B', h'⟩, FrameOutcome.survives_of_goesOn rfl ((h.call_self_iff hcall).trans (by simp))⟩

/-- **Any frames** leave a sound book. -/
theorem Book.Shows.foldl (json : String → Option JsonValue) (past : List (Instant × Frame))
    {b : Book UInt64} (h : ∃ B, b.Shows B) :
    ∃ B, (past.foldl (fun b x => (b.handle json x.1 x.2).book) b).Shows B := by
  induction past generalizing b with
  | nil => exact h
  | cons x past ih =>
    obtain ⟨B, h⟩ := h
    exact ih (h.handle json x.1 x.2).1

end RustEngine

/-! ## The three loops

After any frames, so that the book before the one in question is any that
frames can lead to. -/

namespace Wire

/-- **Which frames are survived**, after any frames and whatever the libraries
read in a text: in each of the three engines exactly those that its loop
withstands.

The C++ engine is not among them: what it does with a frame that is too short
is not defined. -/
theorem survives_iff_withstands {ι : Type} [DecidableEq ι] (P : PyEngine.PyJson ι)
    (goJson : List UInt8 → Option JsonValue) (fold : String → String)
    (rustJson : String → Option JsonValue) :
    (∀ (past : List (Instant × Frame)) (now : Instant) (f : Frame),
      let st := past.foldl (fun st x => (st.handle P x.1 x.2).book) PyEngine.PyState.init
      (st.handle P now f).Survives st (NoOrder P.json f) ↔ st.Withstands P f)
    ∧ (∀ (past : List GoEngine.Delivered) (d : GoEngine.Delivered),
      let b := past.foldl (fun b d => (b.handle goJson fold d).book) GoEngine.newBook
      (b.handle goJson fold d).Survives b (d.NoOrder goJson) ↔ b.Withstands goJson fold d)
    ∧ ∀ (past : List (Instant × Frame)) (now : Instant) (f : Frame),
      let b := past.foldl (fun b x => (b.handle rustJson x.1 x.2).book) RustEngine.Book.new
      (b.handle rustJson now f).Survives b (NoOrder rustJson f) ↔ b.Withstands rustJson f := by
  refine ⟨fun past now f => ?_, fun past d => ?_, fun past now f => ?_⟩
  · obtain ⟨-, hgoes, hsame⟩ :=
      (PyEngine.PyState.Sound.foldl past (PyEngine.PyState.sound_init P)).handle now f
    exact ⟨fun h => hgoes.mp h.1, fun h => ⟨hgoes.mpr h, hsame⟩⟩
  · obtain ⟨H, h⟩ := GoEngine.Book.Shows.foldl goJson fold past ⟨_, GoEngine.shows_newBook⟩
    exact (h.handle goJson fold d).2
  · obtain ⟨B, h⟩ := RustEngine.Book.Shows.foldl rustJson past ⟨_, RustEngine.shows_new⟩
    exact (h.handle rustJson now f).2

/-- `{"t":"limit","side":"buy","px":10,"qty":5}`: an order without an id. -/
def withoutId : JsonValue :=
  .object [("t", .string "limit"), ("side", .string "buy"), ("px", .int false 10),
    ("qty", .int false 5)]

/-- An empty binary frame ends the loop of the Python and of the Go engine, and
an order without an id comes to rest in the Rust book. -/
theorem not_survived :
    ¬ ((PyEngine.PyState.init : PyEngine.PyState ℤ).handle
        ⟨fun _ => .valueError, fun _ => 0, fun _ => none, fun _ => none⟩ 0 (.binary [])).Survives
      .init (NoOrder (fun _ => none) (.binary []))
    ∧ ¬ (GoEngine.newBook.handle (fun _ => none) id ⟨0, true, [], []⟩).Survives GoEngine.newBook
      (GoEngine.Delivered.NoOrder (fun _ => none) ⟨0, true, [], []⟩)
    ∧ ¬ (RustEngine.Book.new.handle (fun _ => some withoutId) 0
        (.text "\x7b\"t\":\"limit\",\"side\":\"buy\",\"px\":10,\"qty\":5\x7d")).Survives
      RustEngine.Book.new (NoOrder (fun _ => some withoutId)
        (.text "\x7b\"t\":\"limit\",\"side\":\"buy\",\"px\":10,\"qty\":5\x7d")) := by
  refine ⟨fun h => Bool.false_ne_true h.1, fun h => Bool.false_ne_true h.1, fun h => ?_⟩
  have hno : NoOrder (fun _ => some withoutId)
      (.text "\x7b\"t\":\"limit\",\"side\":\"buy\",\"px\":10,\"qty\":5\x7d") := by
    rintro v hv ⟨t, -, hall⟩
    obtain rfl := Option.some_inj.mp hv
    exact absurd (hall "id" List.mem_cons_self) (by decide)
  have hindex := congrArg (fun b => b.index.get? 0) (h.2 hno)
  revert hindex
  decide

end Wire
