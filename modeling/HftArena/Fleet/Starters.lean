import HftArena.Fleet.Serves

/-!
# The probe accepts the compiled engines

The starting points for C++, Go and Rust, with the probe as the peer of one of
their connections: whatever they have been through, as long as the probe's
prices and identifiers are not in use they pass every iteration, in JSON as
well as in the binary format, and show the same book afterwards
(`starters_accepted`).

How their libraries read JSON is a parameter, and all that is asked of it is
that it reads the probe's messages as they are written.
-/

open PriceTime Wire

/-! ## What the handlers send, as frames

The replies of the three handlers, written as their code writes them. -/

namespace Wire

/-- The text of a reply. A reject has a reason besides; the compiled engines
send none. -/
def Reply.text : Reply → Option String
  | .ack id ts => some ("\x7b\"ack\":" ++ toString id ++ ",\"ts\":" ++ toString ts ++ "\x7d")
  | .fill id px qty maker => some ("\x7b\"fill\":" ++ toString id ++ ",\"px\":" ++ toString px
      ++ ",\"qty\":" ++ toString qty ++ ",\"maker\":" ++ toString maker ++ "\x7d")
  | .reject _ => none

/-- The frames of what a handler sends. -/
def sentFrames (ms : List (List UInt8 ⊕ Reply)) : List Frame :=
  ms.filterMap (Sum.elim (fun data => some (.binary data)) (fun r => r.text.map .text))

/-- Binary frames are sent as they are. -/
theorem sentFrames_inl (ds : List (List UInt8)) :
    sentFrames (ds.map .inl) = ds.map .binary := by
  induction ds with
  | nil => rfl
  | cons d ds ih => exact congrArg (Frame.binary d :: ·) ih

/-- Fills in JSON are sent as the texts that the probe reads. -/
theorem sentFrames_fills (id : UInt64) (fills : List (Fill UInt64)) :
    sentFrames ((fills.map (fillReply id)).map .inr)
      = fills.map (fun f => .text (PyEngine.fillText (PyId.int (id.toNat : ℤ) : ℤ)
          ⟨f.px, f.qty, PyId.int f.maker.toNat⟩)) := by
  induction fills with
  | nil => rfl
  | cons f fills ih => exact congrArg (Frame.text _ :: ·) ih

/-- An answer in the binary format. -/
theorem sentFrames_answer (r : Request) (now : Instant) (fills : List (Fill UInt64)) :
    sentFrames ((answer r now fills).map .inl)
      = .binary (packed ackFormat [1, r.id.toNat, (now : ℕ)]) :: fills.map (fun f =>
        .binary (packed fillFormat [2, r.id.toNat, f.px, f.qty, f.maker.toNat])) := by
  rw [sentFrames_inl, answer, List.map_cons, List.map_map]
  rfl

/-- An answer in JSON. -/
theorem sentFrames_replies (id : UInt64) (now : Instant) (fills : List (Fill UInt64)) :
    ∃ ack, sentFrames ((.ack id.toNat (now : ℕ) :: fills.map (fillReply id)).map .inr)
      = ack :: fills.map (fun f => .text (PyEngine.fillText (PyId.int (id.toNat : ℤ) : ℤ)
          ⟨f.px, f.qty, PyId.int f.maker.toNat⟩)) := by
  rw [← sentFrames_fills]
  exact ⟨.text _, rfl⟩

/-- What there is of an outcome to hear, as long as the handler goes on. -/
def FrameOutcome.heard {β : Type} (o : FrameOutcome β (List UInt8 ⊕ Reply)) :
    Option (β × List Frame) :=
  if o.goesOn then some (o.book, sentFrames o.sent) else none

/-- What JSON makes of a field that is written. -/
def written : FlatJson.Scalar → JsonValue
  | .int n => .int (decide (n < 0)) n.natAbs
  | .str s => .string s

/-- A parser that reads flat objects as JSON says. Of everything else it may
make what it likes. -/
def Parses (json : String → Option JsonValue) : Prop :=
  ∀ s fs, FlatJson.read s = some fs →
    json s = some (.object (fs.map (fun f => (f.1, written f.2))))

namespace JsonValue

/-- A number is read as it is written. -/
theorem ofDigits_written (n : ℤ) : ofDigits (decide (n < 0)) n.natAbs = n := by
  unfold ofDigits
  split_ifs with h
  · have hneg := of_decide_eq_true h
    omega
  · have hpos := of_decide_eq_false (Bool.eq_false_iff.mpr h)
    omega

/-- Go takes it for an `int`, if it has room. -/
theorem goInt_written {n : ℤ} (h : -2 ^ 63 ≤ n ∧ n < 2 ^ 63) :
    goInt (written (.int n)) = some n := by
  show (if -2 ^ 63 ≤ ofDigits (decide (n < 0)) n.natAbs
    ∧ ofDigits (decide (n < 0)) n.natAbs < 2 ^ 63 then some _ else none) = _
  rw [ofDigits_written, if_pos h]

/-- An identifier is read as it is written. -/
theorem written_unsigned {n : ℤ} (h : 0 ≤ n ∧ n < 2 ^ 64) :
    goUint64 (written (.int n)) = some (.ofNat n.toNat)
      ∧ asU64 (written (.int n)) = some (.ofNat n.toNat) := by
  have hminus : decide (n < 0) = false := decide_eq_false (by omega)
  have hroom : n.natAbs < 2 ^ 64 := by omega
  have hnat : n.natAbs = n.toNat := by omega
  rw [written, hminus, goUint64, asU64, if_pos hroom, hnat]
  exact ⟨rfl, rfl⟩

/-- Rust takes it for an `i64`, if it has room. -/
theorem asI64_written {n : ℤ} (h : -2 ^ 63 ≤ n ∧ n < 2 ^ 63) :
    asI64 (written (.int n)) = some n := by
  rw [written]
  by_cases hneg : n < 0
  · rw [decide_eq_true hneg, asI64, if_pos (by omega)]
    exact congrArg some (by omega)
  · rw [decide_eq_false hneg, asI64, if_pos (by omega)]
    exact congrArg some (by omega)

/-- The names of the fields of `msg`. -/
def names : List String := ["t", "id", "side", "px", "qty", "target"]

/-- Case folding that keeps the names of the fields apart. -/
def FoldsApart (fold : String → String) : Prop :=
  ∀ a ∈ names, ∀ b ∈ names, fold a = fold b → a = b

/-- A field is assigned by its name. -/
theorem goAssign_of_foldsApart {fold : String → String} (h : FoldsApart fold) (m : Message)
    {f : String × JsonValue} (hf : f.1 ∈ names) : goAssign fold m f = goAssign id m f := by
  have heq : ∀ b ∈ names, (fold f.1 = fold b) = (id f.1 = id b) := fun b hb =>
    propext ⟨h _ hf _ hb, congrArg fold⟩
  unfold goAssign
  simp only [heq "t" (by decide), heq "id" (by decide), heq "side" (by decide),
    heq "px" (by decide), heq "qty" (by decide), heq "target" (by decide)]

/-- The fields are assigned as they are spelled. -/
theorem unmarshal_of_foldsApart {fold : String → String} (h : FoldsApart fold)
    {fs : List (String × JsonValue)} (hfs : ∀ f ∈ fs, f.1 ∈ names) :
    unmarshal fold (.object fs) = unmarshal id (.object fs) := by
  suffices hall : ∀ m, fs.foldlM (goAssign fold) m = fs.foldlM (goAssign id) m from hall _
  induction fs with
  | nil => exact fun m => rfl
  | cons f fs ih =>
    intro m
    rw [List.foldlM_cons, List.foldlM_cons, goAssign_of_foldsApart h m (hfs f List.mem_cons_self)]
    exact congrArg _ (funext (ih (fun g hg => hfs g (List.mem_cons_of_mem _ hg))))

end JsonValue

end Wire

namespace Fleet.Probe

/-! ## What the libraries read

The numbers of the probe have room in the types of the three languages. -/

/-- A message, as JSON has it. -/
def Msg.object (m : Msg) : JsonValue := .object (m.fields.map (fun f => (f.1, written f.2)))

/-- Go unmarshals the message. -/
theorem Msg.unmarshal_object {fold : String → String} (hfold : JsonValue.FoldsApart fold)
    {m : Msg} (hsmall : m.Small) : JsonValue.unmarshal fold m.object = some m.message := by
  have hnames : ∀ f ∈ m.fields.map (fun f => (f.1, written f.2)), f.1 ∈ JsonValue.names := by
    cases m <;> simp [Msg.fields, JsonValue.names]
  rw [Msg.object, JsonValue.unmarshal_of_foldsApart hfold hnames]
  cases m with
  | limit oid buy px qty =>
    obtain ⟨hoid, hpx, hqty⟩ := hsmall
    have hid := (JsonValue.written_unsigned hoid).1
    have hpx := JsonValue.goInt_written hpx
    have hqty := JsonValue.goInt_written hqty
    rw [written] at hid hpx hqty
    simp [JsonValue.unmarshal, Msg.fields, JsonValue.goAssign, JsonValue.goField, written,
      JsonValue.goString, hid, hpx, hqty, Msg.message]
  | cancel oid target =>
    obtain ⟨hoid, htarget⟩ := hsmall
    have hid := (JsonValue.written_unsigned hoid).1
    have htarget := (JsonValue.written_unsigned htarget).1
    rw [written] at hid htarget
    simp [JsonValue.unmarshal, Msg.fields, JsonValue.goAssign, JsonValue.goField, written,
      JsonValue.goString, hid, htarget, Msg.message]

/-- Rust finds its fields. -/
theorem Msg.lookUp_object {m : Msg} (hsmall : m.Small) : m.object.lookUp = m.message := by
  cases m with
  | limit oid buy px qty =>
    obtain ⟨hoid, hpx, hqty⟩ := hsmall
    have hid := (JsonValue.written_unsigned hoid).2
    have hpx := JsonValue.asI64_written hpx
    have hqty := JsonValue.asI64_written hqty
    rw [written] at hid hpx hqty
    simp [JsonValue.lookUp, Msg.object, Msg.fields, JsonValue.item, List.lookup_cons, written,
      JsonValue.asStr, hid, hpx, hqty, Msg.message]
  | cancel oid target =>
    obtain ⟨hoid, htarget⟩ := hsmall
    have hid := (JsonValue.written_unsigned hoid).2
    have htarget := (JsonValue.written_unsigned htarget).2
    rw [written] at hid htarget
    simp [JsonValue.lookUp, Msg.object, Msg.fields, JsonValue.item, List.lookup_cons, written,
      JsonValue.asStr, hid, htarget, Msg.message]

/-- The id of a message has room. -/
theorem Msg.small_oid {m : Msg} (h : m.Small) : ((UInt64.ofNat m.oid.toNat).toNat : ℤ) = m.oid := by
  cases m with
  | limit oid buy px qty => exact toNat_ofNat h.1
  | cancel oid target => exact toNat_ofNat h.1

/-- The fills of an answer, in the binary format. -/
theorem sent_answer {m : Msg} (h : m.Small) {data : List UInt8} (hdata : requestOf data = m.request)
    (now : Instant) (fills : List (PriceTime.Fill UInt64)) :
    ∃ ack, sentFrames ((answer (requestOf data) now fills).map .inl)
      = ack :: fills.map (fillSent .binary m.oid) := by
  have hid : ((requestOf data).id.toNat : ℤ) = m.oid := by
    rw [hdata, ← m.small_oid h]
    cases m <;> rfl
  exact ⟨_, by rw [sentFrames_answer, hid]; rfl⟩

/-- The fills of an answer, in JSON. -/
theorem sent_replies {m : Msg} (h : m.Small) (loads : Frame → Option Json) (now : Instant)
    (fills : List (PriceTime.Fill UInt64)) :
    ∃ ack, sentFrames ((.ack (m.message.id.getD 0).toNat (now : ℕ)
        :: fills.map (fillReply (m.message.id.getD 0))).map .inr)
      = ack :: fills.map (fillSent (.json loads) m.oid) := by
  have hid : ((m.message.id.getD 0).toNat : ℤ) = m.oid := by
    rw [← m.small_oid h]
    cases m <;> rfl
  obtain ⟨ack, hack⟩ := sentFrames_replies (m.message.id.getD 0) now fills
  refine ⟨ack, hack.trans ?_⟩
  rw [hid]
  rfl

/-- The types of the probe's messages are known to all handlers. -/
theorem Msg.known_request (m : Msg) : m.request.Known := by
  cases m with
  | limit oid buy px qty => exact .inl rfl
  | cancel oid target => exact .inr (.inr rfl)

end Fleet.Probe

/-! ## C++ -/

namespace CppEngine

open Fleet.Probe

/-- **`onmessage`**: a frame that is not read beyond its end, and a text with
the fields that are read; the others are not modelled. `load` is
`crow::json::load` with the getters. -/
def OrderBook.onFrame (load : String → Option Message) (b : OrderBook UInt64) (now : Instant) :
    Frame → Option (OrderBook UInt64 × List Frame)
  | .binary data =>
    if h : 26 ≤ data.length then
      ((b.handle (now, .binary data h)).map (fun r => (r.1, sentFrames r.2))).toOption
    else none
  | .text s =>
    if h : ∀ m ∈ load s, HasFields m then
      ((b.handle (now, .text (load s) h)).map (fun r => (r.1, sentFrames r.2))).toOption
    else none

theorem serves {load : String → Option Message} {wire : Wire.Mode}
    (hload : ∀ m : Msg, m.Small → load (FlatJson.write 1 m.fields) = some m.message) :
    Serves (OrderBook.onFrame load) (fun b B => ∃ H, b.Shows H ∧ H.Shows B) wire := by
  intro b B m now hrel hsettles hfits hsmall
  obtain ⟨b', hcall, hrel'⟩ := faithful.call b B m.bookCall hrel hsettles
  cases wire with
  | binary =>
    obtain ⟨data, hframe, hlen, hdata⟩ := Msg.frame_binary hfits hsmall
    obtain ⟨ack, hack⟩ := sent_answer hsmall hdata now (B.step m.bookCall).2
    have hbinary : b.onBinary (now, data)
        = .ok (b', answer (requestOf data) now (B.step m.bookCall).2) := by
      refine onBinary_eq hlen now ?_
      rw [hdata, Msg.call_request]
      exact hcall
    refine ⟨b', ack, ?_, hrel'⟩
    rw [hframe, OrderBook.onFrame, dif_pos hlen.ge, OrderBook.handle]
    dsimp only
    rw [hbinary, ← hack]
    rfl
  | json loads =>
    have hm := hload m hsmall
    have hfields : HasFields m.message := by cases m <;> rfl
    have hswitch : b.switch m.message = .ok (b', (B.step m.bookCall).2) := by
      rw [← hcall]
      cases m with
      | limit oid buy px qty => cases buy <;> rfl
      | cancel oid target => rfl
    obtain ⟨ack, hack⟩ := sent_replies hsmall loads now (B.step m.bookCall).2
    refine ⟨b', ack, ?_, hrel'⟩
    rw [Msg.frame, OrderBook.onFrame, dif_pos (by rw [hm]; rintro _ ⟨⟩; exact hfields),
      OrderBook.handle]
    simp only [hm]
    rw [OrderBook.onText_of_switch now hfields hswitch, ← hack]
    rfl

end CppEngine

/-! ## Go -/

namespace GoEngine

open Fleet.Probe

/-- What `ReadMessage` returns of a frame, with whatever the buffer has after
it. -/
def delivered (spare : Instant → Frame → List UInt8) (now : Instant) : Frame → Delivered
  | .binary data => ⟨now, true, data, spare now (.binary data)⟩
  | .text s => ⟨now, false, s.toByteArray.data.toList, spare now (.text s)⟩

/-- **`handle`**, as long as it goes on. -/
def Book.onFrame (json : List UInt8 → Option JsonValue) (fold : String → String)
    (spare : Instant → Frame → List UInt8) (b : Book UInt64) (now : Instant) (f : Frame) :
    Option (Book UInt64 × List Frame) :=
  (b.handle json fold (delivered spare now f)).heard

/-- The spare room of a whole frame is not read. -/
theorem requestOf_append {data : List UInt8} (h : data.length = 26) (spare : List UInt8) :
    requestOf (data ++ spare) = requestOf data := by
  have hslice : ∀ k n, k + n ≤ 26 → slice (data ++ spare) k n = slice data k n := by
    intro k n hkn
    rw [slice, slice, List.drop_append_of_le_length (by omega),
      List.take_append_of_le_length (by rw [List.length_drop]; omega)]
  rw [requestOf, requestOf]
  simp only [hslice _ _ (show 0 + 1 ≤ 26 by decide), hslice _ _ (show 1 + 1 ≤ 26 by decide),
    hslice _ _ (show 2 + 8 ≤ 26 by decide), hslice _ _ (show 10 + 4 ≤ 26 by decide),
    hslice _ _ (show 14 + 4 ≤ 26 by decide), hslice _ _ (show 18 + 8 ≤ 26 by decide)]

theorem serves {json : List UInt8 → Option JsonValue} {fold : String → String} {wire : Wire.Mode}
    (hjson : Parses (fun s => json s.toByteArray.data.toList)) (hfold : JsonValue.FoldsApart fold)
    (spare : Instant → Frame → List UInt8) :
    Serves (Book.onFrame json fold spare) (fun b B => ∃ H, b.Shows H ∧ H.Shows B) wire := by
  intro b B m now hrel hsettles hfits hsmall
  obtain ⟨b', hcall, hrel'⟩ := faithful.call b B m.bookCall hrel hsettles
  cases wire with
  | binary =>
    obtain ⟨data, hframe, hlen, hdata⟩ := Msg.frame_binary hfits hsmall
    obtain ⟨ack, hack⟩ := sent_answer hsmall
      ((requestOf_append hlen (spare now (.binary data))).trans hdata) now (B.step m.bookCall).2
    have hread := (requestOf_append hlen (spare now (.binary data))).trans hdata
    have hbinary : b.onBinary (now, data ++ spare now (.binary data))
        = .ok (b', answer (requestOf (data ++ spare now (.binary data))) now
          (B.step m.bookCall).2) := by
      refine onBinary_eq (by rw [List.length_append]; omega) now (hread ▸ m.known_request) ?_
      rw [hread, Msg.call_request]
      exact hcall
    have hhandle : b.handle json fold (delivered spare now (.binary data))
        = ⟨b', (answer (requestOf (data ++ spare now (.binary data))) now
          (B.step m.bookCall).2).map .inl, true⟩ := by
      rw [Book.handle, delivered]
      dsimp only
      rw [if_pos rfl, if_neg (by omega), hbinary]
    refine ⟨b', ack, ?_, hrel'⟩
    rw [hframe, Book.onFrame, hhandle, ← hack]
    rfl
  | json loads =>
    have hm : (json (FlatJson.write 1 m.fields).toByteArray.data.toList).bind
        (JsonValue.unmarshal fold) = some m.message := by
      rw [show json _ = _ from hjson _ _ (read_fields m)]
      exact Msg.unmarshal_object hfold hsmall
    have hswitch : b.switch m.message = .ok (b', (B.step m.bookCall).2) := by
      rw [Book.switch_eq, Msg.call_message]
      exact hcall
    obtain ⟨ack, hack⟩ := sent_replies hsmall loads now (B.step m.bookCall).2
    have hhandle : b.handle json fold (delivered spare now (.text (FlatJson.write 1 m.fields)))
        = ⟨b', (.ack (m.message.id.getD 0).toNat (now : ℕ)
          :: (B.step m.bookCall).2.map (fillReply (m.message.id.getD 0))).map .inr, true⟩ := by
      rw [Book.handle, delivered]
      dsimp only
      rw [if_neg Bool.false_ne_true, hm]
      dsimp only
      rw [Book.onText_of_switch now hswitch]
    refine ⟨b', ack, ?_, hrel'⟩
    rw [Msg.frame, Book.onFrame, hhandle, ← hack]
    rfl

end GoEngine

/-! ## Rust -/

namespace RustEngine

open Fleet.Probe

/-- **The loop over the frames**, as long as it goes on. -/
def Book.onFrame (json : String → Option JsonValue) (b : Book UInt64) (now : Instant) (f : Frame) :
    Option (Book UInt64 × List Frame) :=
  (b.handle json now f).heard

theorem serves {json : String → Option JsonValue} {wire : Wire.Mode} (hjson : Parses json) :
    Serves (Book.onFrame json) Book.Refines wire := by
  intro b B m now hrel hsettles hfits hsmall
  obtain ⟨b', hcall, hrel'⟩ := faithful.call b B m.bookCall hrel hsettles
  cases wire with
  | binary =>
    obtain ⟨data, hframe, hlen, hdata⟩ := Msg.frame_binary hfits hsmall
    obtain ⟨ack, hack⟩ := sent_answer hsmall hdata now (B.step m.bookCall).2
    have hbinary : b.onBinary (now, data)
        = .ok (b', answer (requestOf data) now (B.step m.bookCall).2) := by
      refine onBinary_eq hlen.ge now ?_
      rw [hdata, Msg.call_request]
      exact hcall
    have hhandle : b.handle json now (.binary data)
        = ⟨b', (answer (requestOf data) now (B.step m.bookCall).2).map .inl, true⟩ := by
      rw [Book.handle]
      rw [hbinary]
    refine ⟨b', ack, ?_, hrel'⟩
    rw [hframe, Book.onFrame, hhandle, ← hack]
    rfl
  | json loads =>
    have hm : json (FlatJson.write 1 m.fields) = some m.object := hjson _ _ (read_fields m)
    have hswitch : b.switch m.object.lookUp = .ok (b', (B.step m.bookCall).2) := by
      rw [Book.switch_eq, Msg.lookUp_object hsmall, Msg.call_message]
      exact hcall
    obtain ⟨ack, hack⟩ := sent_replies hsmall loads now (B.step m.bookCall).2
    have hhandle : b.handle json now (.text (FlatJson.write 1 m.fields))
        = ⟨b', (.ack (m.message.id.getD 0).toNat (now : ℕ)
          :: (B.step m.bookCall).2.map (fillReply (m.message.id.getD 0))).map .inr, true⟩ := by
      rw [Book.handle]
      rw [hm]
      dsimp only
      rw [Book.onText_of_switch now hswitch, Msg.lookUp_object hsmall]
    refine ⟨b', ack, ?_, hrel'⟩
    rw [Msg.frame, Book.onFrame, hhandle, ← hack]
    rfl

end RustEngine

/-! ## The three engines

Each serves the probe, and is accepted by the lemma about such engines. -/

namespace Fleet.Probe

/-- **The probe accepts the starting points for C++, Go and Rust**, in either
format: each of them on every quiet book that it can come to, for any number of
iterations that there is room for.

The book may be what any number of clients have made of it before, as long as
they kept their identifiers apart and left the probe's prices free. -/
theorem starters_accepted {load : String → Option Message}
    (hload : ∀ m : Msg, m.Small → load (FlatJson.write 1 m.fields) = some m.message)
    {goJson : List UInt8 → Option JsonValue} {fold : String → String}
    (hgo : Parses (fun s => goJson s.toByteArray.data.toList)) (hfold : JsonValue.FoldsApart fold)
    (spare : Instant → Frame → List UInt8) {rustJson : String → Option JsonValue}
    (hrust : Parses rustJson) {wire : Wire.Mode} (hwire : ReadsFlat wire) {n : ℕ}
    (hroom : Room wire n) :
    Accepts CppEngine.engine (CppEngine.OrderBook.onFrame load) wire n
      ∧ Accepts GoEngine.engine (GoEngine.Book.onFrame goJson fold spare) wire n
      ∧ Accepts RustEngine.engine (RustEngine.Book.onFrame rustJson) wire n :=
  ⟨(CppEngine.serves hload).accepts CppEngine.faithful (fun _ _ ⟨_, _, h⟩ => h.wf) hwire hroom,
    (GoEngine.serves hgo hfold spare).accepts GoEngine.faithful (fun _ _ ⟨_, _, h⟩ => h.wf) hwire
      hroom,
    (RustEngine.serves hrust).accepts RustEngine.faithful (fun _ _ h => h.wf) hwire hroom⟩

/-! ### A parser of flat objects -/

/-- What a library makes of a flat object. -/
def flatValue (s : String) : Option JsonValue :=
  (FlatJson.read s).map (fun fs => .object (fs.map (fun f => (f.1, written f.2))))

theorem parses_flatValue : Parses flatValue := by
  intro s fs h
  rw [flatValue, h]
  rfl

/-- The same of its bytes. -/
def flatBytes (bytes : List UInt8) : Option JsonValue :=
  (String.fromUTF8? ⟨bytes.toArray⟩).bind flatValue

theorem parses_flatBytes : Parses (fun s => flatBytes s.toByteArray.data.toList) := by
  intro s fs h
  have hbytes : String.fromUTF8? ⟨s.toByteArray.data.toList.toArray⟩ = some s := by
    rw [Array.toArray_toList]
    exact dif_pos s.isValidUTF8
  show (String.fromUTF8? _).bind flatValue = _
  rw [hbytes]
  exact parses_flatValue s fs h

/-- Two iterations in JSON, with the same parser in all the libraries; and a
book beside which they are run. -/
theorem starters_accepted_flat :
    (Accepts CppEngine.engine (CppEngine.OrderBook.onFrame
          (fun s => (flatValue s).map JsonValue.lookUp)) (.json flatJson) 2
        ∧ Accepts GoEngine.engine (GoEngine.Book.onFrame flatBytes id (fun _ _ => [0]))
          (.json flatJson) 2
        ∧ Accepts RustEngine.engine (RustEngine.Book.onFrame flatValue) (.json flatJson) 2)
      ∧ ∃ b, RustEngine.engine.Reaches [.limit 7 .bid 49000 3, .limit 8 .ask 60000 4] b
        ∧ Quiet (RustEngine.engine.depth b) 2 := by
  refine ⟨starters_accepted (fun m hm => ?_) parses_flatBytes (fun _ _ _ _ => id) _
    parses_flatValue readsFlat_flatJson (show 1000000000000004 + 10 * 2 < 2 ^ 64 by decide), ?_⟩
  · show (flatValue _).map JsonValue.lookUp = _
    rw [parses_flatValue _ _ (read_fields m)]
    exact congrArg some (Msg.lookUp_object hm)
  · refine ⟨_, ⟨by decide, _, rfl⟩, by decide, by decide, fun it h1 h2 => ?_⟩
    obtain rfl | rfl : it = 1 ∨ it = 2 := by omega
    · exact fun s => by cases s <;> decide
    · exact fun s => by cases s <;> decide

end Fleet.Probe
