import HftArena.Engine.PythonBook
import HftArena.Fleet.Probe
import HftArena.Telemetry.Priority
import HftArena.Wire.PyHandle

/-!
# The probe and a correct engine

The session of the probe with the Python engine, as one system: the engine
handles a frame when it is sent, and what it sends is heard in order
(`runWith`). With a peer that says nothing the session is the one of what is
still to hear (`runWith_silent`).

The probe accepts the engine on any reachable book whose bid prices are at most
50000, whose ask prices are above the probe's, and which none of the probe's
orders rests on (`accepted`): each iteration is passed and restores the book.
In binary mode the prices have to have room in a frame.

The prices of a book are those of its levels, and an order whose id has no hash
leaves a level behind that holds nothing. At one of the probe's prices such a
level does not bother the verdict, but the probe takes it away: the cancel at
the end of the iteration finds the level empty and removes it
(`emptyLevelBook`).
-/

open PriceTime Wire PyEngine

namespace Fleet

namespace Probe

/-! ## What is sent

The frames of the probe's messages, in either mode. -/

/-- The object that is written. -/
def Msg.fields : Msg → List (String × FlatJson.Scalar)
  | limit oid buy px qty => [("t", .str "limit"), ("id", .int oid),
      ("side", .str (if buy then "buy" else "sell")), ("px", .int px), ("qty", .int qty)]
  | cancel oid target => [("t", .str "cancel"), ("id", .int oid), ("target", .int target)]

/-- **`_limit` and `_cancel`**, for a message that fits: `json.dumps` puts a
blank after a comma and a colon. -/
def Msg.frame (wire : Wire.Mode) (m : Msg) : Frame :=
  match wire, m with
  | .binary, limit oid buy px qty => .binary ((encLimit oid buy px qty).getD [])
  | .binary, cancel oid target => .binary ((encCancel oid target).getD [])
  | .json _, m => .text (FlatJson.write 1 m.fields)

/-- The id it is sent under. -/
def Msg.oid : Msg → ℤ
  | limit oid _ _ _ => oid
  | cancel oid _ => oid

/-! ## The session with a peer

`run` once more, with a peer that answers in place of a list of what is heard.
The lines are the same. -/

section live

variable {σ : Type} (wire : Wire.Mode) (answer : Frame → σ → List (Heard Frame) × σ)

/-- To send a message, which the peer answers: its answer is heard after what
is still to hear. -/
def sayTo (m : Msg) : Live σ Frame Unit := do
  Live.hear (say wire m)
  Live.tell (answer (m.frame wire))

/-- An iteration up to its verdict. These are the lines of `exchange`, each
message with its answer. -/
def exchangeWith (it : ℕ) : Live σ Frame (List Fill) := do
  sayTo wire answer (.limit (makerA it) true (px it) 5)
  let _ ← Live.hear Session.recv
  sayTo wire answer (.limit (makerB it) true (px it) 5)
  let _ ← Live.hear Session.recv
  sayTo wire answer (.limit (taker it) false (px it) 6)
  let _ ← Live.hear Session.recv
  Live.hear (expectFills wire (taker it) 2 [])

/-- What is left of the second maker is cancelled. -/
def cleanUpWith (it : ℕ) : Live σ Frame Unit := do
  sayTo wire answer (.cancel (taker it + 1) (makerB it))
  let _ ← Live.hear Session.recvFor
  pure ()

/-- The iterations, with the verdicts. -/
def roundsWith : List ℕ → List (Heard Frame) → σ → (List Bool × Ending) × σ
  | [], _, st => (([], .completed), st)
  | it :: its, heard, st =>
    match exchangeWith wire answer it heard st with
    | (.waits, st) => (([], .waiting), st)
    | (.raises, st) => (([], .cut), st)
    | (.returns fills heard, st) =>
      let passed := decide (fills = expected it)
      match cleanUpWith wire answer it heard st with
      | (.waits, st) => (([passed], .waiting), st)
      | (.raises, st) => (([passed], .cut), st)
      | (.returns _ heard, st) =>
        ((passed :: (roundsWith its heard st).1.1, (roundsWith its heard st).1.2),
          (roundsWith its heard st).2)

/-- **`run` with a peer**: its verdicts, how it ends, and the peer
afterwards. -/
def runWith (iterations : ℕ) (heard : List (Heard Frame)) (st : σ) : (List Bool × Ending) × σ :=
  match Session.send heard with
  | .returns _ heard => roundsWith wire answer (List.range' 1 iterations) heard st
  | _ => (([], .cut), st)

/-- With nothing to hear before the first message. -/
theorem runWith_nil (n : ℕ) (st : σ) :
    runWith wire answer n [] st = roundsWith wire answer (List.range' 1 n) [] st := rfl

end live

/-! ### Orders that have no frame

`enc_limit` raises for a price that has no room, and nothing is sent. -/

section unsendable

variable {σ : Type} {wire : Wire.Mode} {answer : Frame → σ → List (Heard Frame) × σ}

/-- An iteration whose orders cannot be packed raises. -/
theorem exchangeWith_of_not_sendable {it : ℕ} (h : ¬ Sendable wire it) (heard : List (Heard Frame))
    (st : σ) : exchangeWith wire answer it heard st = (.raises, st) := by
  have hsay : say wire (.limit (makerA it) true (px it) 5) heard = .raises := by
    rw [say, Session.bind_apply]
    exact congrArg (Outcome.andThen · _) (Session.require_of_neg h heard)
  rw [exchangeWith, Live.bind_apply, sayTo, Live.bind_apply, Live.hear, hsay]
  rfl

/-- An iteration whose orders cannot be packed has no verdict. -/
theorem length_roundsWith_lt (answer : Frame → σ → List (Heard Frame) × σ) {its : List ℕ}
    (h : ∃ it ∈ its, ¬ Sendable wire it)
    (heard : List (Heard Frame)) (st : σ) :
    (roundsWith wire answer its heard st).1.1.length < its.length := by
  induction its generalizing heard st with
  | nil =>
    obtain ⟨it, hit, -⟩ := h
    cases hit
  | cons it its ih =>
    by_cases hfits : Sendable wire it
    · have hrest : ∃ it ∈ its, ¬ Sendable wire it := by
        obtain ⟨it', hit', hnot⟩ := h
        rcases List.mem_cons.mp hit' with rfl | hmem
        · exact absurd hfits hnot
        · exact ⟨it', hmem, hnot⟩
      have hpos : 0 < its.length := by
        obtain ⟨it', hit', -⟩ := hrest
        exact List.length_pos_of_mem hit'
      rw [roundsWith]
      split
      · exact Nat.succ_pos _
      · exact Nat.succ_pos _
      · dsimp only
        split
        · exact Nat.succ_lt_succ hpos
        · exact Nat.succ_lt_succ hpos
        · exact Nat.succ_lt_succ (ih hrest _ _)
    · rw [roundsWith, exchangeWith_of_not_sendable hfits]
      exact Nat.succ_pos _

end unsendable

/-! ### A peer that says nothing more

So the two forms of `run` are one session. -/

section silent

variable {σ : Type} {wire : Wire.Mode}

/-- To a peer that says nothing a message is only sent. -/
theorem sayTo_silent (m : Msg) :
    sayTo wire (fun _ (st : σ) => ([], st)) m = Live.hear (say wire m) := by
  rw [sayTo, Live.tell_nothing]
  exact Live.bind_pure_eq _

theorem exchangeWith_silent (it : ℕ) :
    exchangeWith wire (fun _ (st : σ) => ([], st)) it = Live.hear (exchange wire it) := by
  have hlast : (Live.hear (Session.recv >>= fun _ => expectFills wire (taker it) 2 []) : Live σ _ _)
      = Live.hear Session.recv >>= fun _ => Live.hear (expectFills wire (taker it) 2 []) :=
    Live.hear_bind _ _
  simp only [exchangeWith, sayTo_silent, exchange, Live.hear_bind, hlast]

theorem cleanUpWith_silent (it : ℕ) :
    cleanUpWith wire (fun _ (st : σ) => ([], st)) it = Live.hear (cleanUp wire it) := by
  simp only [cleanUpWith, sayTo_silent, cleanUp, Live.hear_bind]
  rfl

theorem roundsWith_silent (its : List ℕ) (heard : List (Heard Frame)) (st : σ) :
    roundsWith wire (fun _ (st : σ) => ([], st)) its heard st = (rounds wire its heard, st) := by
  induction its generalizing heard with
  | nil => rfl
  | cons it its ih =>
    rw [roundsWith, exchangeWith_silent, cleanUpWith_silent, rounds, Live.hear]
    cases exchange wire it heard with
    | waits => rfl
    | raises => rfl
    | returns fills heard =>
      dsimp only [Live.hear]
      cases cleanUp wire it heard with
      | waits => rfl
      | raises => rfl
      | returns _ heard => dsimp only; rw [ih]

/-- **The session with a peer that says nothing more** is the one of what is
still to hear. -/
theorem runWith_silent (n : ℕ) (heard : List (Heard Frame)) (st : σ) :
    runWith wire (fun _ (st : σ) => ([], st)) n heard st = (run wire n heard, st) := by
  unfold runWith run
  cases Session.send heard with
  | waits => rfl
  | raises => rfl
  | returns _ heard => exact roundsWith_silent _ heard st

end silent

/-! ## The Python engine as the peer

Its handler of well-formed frames, as the probe sends no others. What it sends
is read by the probe as the acknowledgement and the fills of the call. -/

section engine

variable {ι : Type} [PyId ι]

/-- **The engine**, with one connection: its book, the clock's index, and
whether the loop goes on. -/
structure Server (ι : Type) where
  book : OrderBook ι
  /-- The frames it has handled. -/
  handled : ℕ
  /-- `handle` has not raised. -/
  serving : Bool

/-- The call of the book that a message asks for. -/
def Msg.call : Msg → PyCall ι
  | limit oid buy px qty => .limit (PyId.int oid) (if buy then "buy" else "sell") px qty
  | cancel _ target => .cancel (PyId.int target)

/-- What a reader of JSON makes of a value. -/
def jsonValue : FlatJson.Scalar → Value
  | .int n => .num n
  | .str _ => .hashable

/-- A parser that reads flat objects as JSON says. -/
def ReadsFlat : Wire.Mode → Prop
  | .binary => True
  | .json loads => ∀ s fs, FlatJson.read s = some fs →
      loads (.text s) = some (.object (fs.map (fun f => (f.1, jsonValue f.2))))

/-- **The frames of some fills**, as the probe reads them: in their order, and
none besides. -/
def Shows (wire : Wire.Mode) (oid : ℤ) : List (PriceTime.Fill ι) → List Frame → Prop :=
  List.Forall₂ (fun f frame => ∃ maker, f.maker = PyId.int maker
    ∧ readFill oid wire frame = .fill (.num maker, .num f.qty))

/-- A fill in the binary format is read back. -/
theorem readFill_binary {oid px qty maker : ℤ} {data : List UInt8}
    (h : pack Wire.fillFormat [2, oid, px, qty, maker] = some data) :
    readFill oid .binary (.binary data) = .fill (.num maker, .num qty) := by
  have hdata : data = packed Wire.fillFormat [2, oid, px, qty, maker] :=
    Option.some_inj.mp (h.symm.trans
      (pack_of_holds (isSome_pack_iff.mp (Option.isSome_iff_exists.mpr ⟨data, h⟩))))
  have htype : replyType data = some fillTag := by
    rw [hdata]
    rfl
  have hdec : decFill data = some (oid, px, qty, maker) := by rw [decFill, unpack_pack h]
  rw [readFill, htype]
  dsimp only
  rw [if_neg (by simp), hdec]
  dsimp only
  rw [if_pos rfl]

/-- A fill in JSON is read back. -/
theorem readFill_json {loads : Frame → Option Json} (hloads : ReadsFlat (.json loads))
    (oid px qty maker : ℤ) :
    readFill oid (.json loads) (.text (fillText (PyId.int oid : ι) ⟨px, qty, PyId.int maker⟩))
      = .fill (.num maker, .num qty) := by
  rw [readFill, hloads _ _ (read_fillText oid px qty maker)]
  exact if_pos rfl

variable [DecidableEq ι]

/-- The engine gets a frame: what `handle` sends is what there is to hear. -/
def Server.answer (loads : String → Option (PyMessage ι)) (clock : ℕ → Instant) (f : Frame)
    (s : Server ι) : List (Heard Frame) × Server ι :=
  if s.serving then
    match s.book.onFrame loads (clock s.handled) f with
    | .ok (b, frames) => (frames.map .frame, ⟨b, s.handled + 1, true⟩)
    | .error _ => ([.closed], { s with serving := false })
  else ([], s)

/-- A message is read as its fields. -/
theorem read_fields (m : Msg) : FlatJson.read (FlatJson.write 1 m.fields) = some m.fields := by
  cases m with
  | limit oid buy px qty =>
    refine FlatJson.read_write 1 (List.cons_ne_nil _ _)
      (show ["t", "id", "side", "px", "qty"].Nodup by decide) ?_
    have hside : (FlatJson.Scalar.str (if buy then "buy" else "sell")).Plain := by
      cases buy <;> exact List.all_eq_true.mp (by decide)
    simp only [Msg.fields, List.forall_mem_cons]
    exact ⟨.of_key (by decide) (List.all_eq_true.mp (by decide)), .of_key (by decide) trivial,
      .of_key (by decide) hside, .of_key (by decide) trivial, .of_key (by decide) trivial,
      List.forall_mem_nil _⟩
  | cancel oid target =>
    refine FlatJson.read_write 1 (List.cons_ne_nil _ _)
      (show ["t", "id", "target"].Nodup by decide) ?_
    simp only [Msg.fields, List.forall_mem_cons]
    exact ⟨.of_key (by decide) (List.all_eq_true.mp (by decide)), .of_key (by decide) trivial,
      .of_key (by decide) trivial, List.forall_mem_nil _⟩

/-- **A message of the probe is acknowledged, and its fills are sent**, in
either mode. -/
theorem onFrame_frame {wire : Wire.Mode} {loads : String → Option (PyMessage ι)}
    (hloads : PyEngine.ReadsFlat loads) (hwire : ReadsFlat wire) {m : Msg} (hfits : m.Fits wire)
    (now : Instant) {b b' : OrderBook ι} {fills : List (PriceTime.Fill ι)}
    (hcall : b.call m.call = .ok (b', fills))
    (hfills : ∀ f ∈ fills, ∃ maker, f.maker = PyId.int maker
      ∧ (wire = .binary → (pack Wire.fillFormat [2, m.oid, f.px, f.qty, maker]).isSome)) :
    ∃ ack frames, b.onFrame loads now (m.frame wire) = .ok (b', ack :: frames)
      ∧ Shows wire m.oid fills frames := by
  cases wire with
  | binary =>
    obtain ⟨frames, hframes, hall⟩ := mapM_fillData (fun f hf =>
      (hfills f hf).imp (fun maker h => ⟨h.1, h.2 rfl⟩))
    have hshows : Shows .binary m.oid fills (frames.map .binary) := by
      rw [Shows, List.forall₂_map_right_iff]
      exact hall.imp (fun f data ⟨maker, hmaker, hdata⟩ => ⟨maker, hmaker, readFill_binary hdata⟩)
    cases m with
    | limit oid buy px qty =>
      obtain ⟨data, hdata⟩ := Option.isSome_iff_exists.mp hfits
      obtain ⟨-, hoid, -⟩ := decode_of_pack hdata
      have hserve : b.serveInt ⟨limitType, if buy then 0 else 1, .ofNat oid.toNat, px, qty,
          .ofNat (0 : ℤ).toNat⟩ = .ok (b', fills) := by
        rw [← hcall, OrderBook.serveInt]
        dsimp only
        rw [if_pos (show limitType = 1 from rfl), hoid]
        cases buy <;> rfl
      obtain ⟨ack, hack⟩ := OrderBook.onFrame_binary loads now hdata hserve hframes
      refine ⟨.binary ack, frames.map .binary, ?_, hshows⟩
      rw [Msg.frame, hdata]
      exact hack
    | cancel oid target =>
      obtain ⟨data, hdata⟩ := Option.isSome_iff_exists.mp hfits
      obtain ⟨-, -, htarget⟩ := decode_of_pack hdata
      have hserve : b.serveInt ⟨cancelType, 0, .ofNat oid.toNat, 0, 0, .ofNat target.toNat⟩
          = .ok (b', fills) := by
        rw [← hcall, OrderBook.serveInt]
        dsimp only
        rw [if_neg (show cancelType ≠ 1 by decide), if_neg (show cancelType ≠ 2 by decide), htarget]
        rfl
      obtain ⟨ack, hack⟩ := OrderBook.onFrame_binary loads now hdata hserve hframes
      refine ⟨.binary ack, frames.map .binary, ?_, hshows⟩
      rw [Msg.frame, hdata]
      exact hack
  | json parse =>
    obtain ⟨msg, hmsg, hhas⟩ := hloads _ _ (read_fields m)
    cases m with
    | limit oid buy px qty =>
      have honFrame := OrderBook.onFrame_limit (b := b) now hmsg (hhas.t _ rfl) (hhas.id _ rfl)
        (hhas.side _ rfl) (hhas.px _ rfl) (hhas.qty _ rfl) hcall
      refine ⟨_, _, honFrame, ?_⟩
      rw [Shows, List.forall₂_map_right_iff, List.forall₂_same]
      intro f hf
      obtain ⟨maker, hmaker, -⟩ := hfills f hf
      refine ⟨maker, hmaker, ?_⟩
      obtain ⟨px, qty, maker⟩ := f
      cases hmaker
      exact readFill_json hwire _ _ _ _
    | cancel oid target =>
      have honFrame := OrderBook.onFrame_cancel b now hmsg (hhas.t _ rfl) (hhas.id _ rfl)
        (hhas.target _ rfl)
      cases hcall
      exact ⟨_, _, honFrame, .nil⟩

/-- The same of the engine with its connection. -/
theorem answer_frame {wire : Wire.Mode} {loads : String → Option (PyMessage ι)}
    (hloads : PyEngine.ReadsFlat loads) (hwire : ReadsFlat wire) (clock : ℕ → Instant) {m : Msg}
    (hfits : m.Fits wire) (k : ℕ) {b b' : OrderBook ι} {fills : List (PriceTime.Fill ι)}
    (hcall : b.call m.call = .ok (b', fills))
    (hfills : ∀ f ∈ fills, ∃ maker, f.maker = PyId.int maker
      ∧ (wire = .binary → (pack Wire.fillFormat [2, m.oid, f.px, f.qty, maker]).isSome)) :
    ∃ ack frames, Server.answer loads clock (m.frame wire) ⟨b, k, true⟩
        = (.frame ack :: frames.map .frame, ⟨b', k + 1, true⟩)
      ∧ Shows wire m.oid fills frames := by
  obtain ⟨ack, frames, hframe, hshows⟩ :=
    onFrame_frame hloads hwire hfits (clock k) hcall hfills
  refine ⟨ack, frames, ?_, hshows⟩
  rw [Server.answer, if_pos rfl]
  dsimp only
  rw [hframe]
  rfl

/-! ## An iteration

Four calls of the book, of which the third gives the two fills that are
expected, and the last takes what is left. -/

/-- **A book that an iteration does not touch**: its price is on top of the
bids and below the asks, and its makers' ids are not in use. The price must not
be a level either, since a level without orders would be removed. -/
structure Clear (b : OrderBook ι) (it : ℕ) : Prop where
  bids : ∀ p ∈ b.bidPrices, p < px it
  level : px it ∉ b.bidLevels.keys
  asks : ∀ p ∈ b.askPrices, px it < p
  makerA : PyId.int (makerA it) ∉ b.resting.keys
  makerB : PyId.int (makerB it) ∉ b.resting.keys

omit [PyId ι] [DecidableEq ι] in
/-- A message that has a frame is answered. -/
theorem sayTo_apply {σ : Type} {wire : Wire.Mode} {answer : Frame → σ → List (Heard Frame) × σ}
    {m : Msg} (hfits : m.Fits wire) (st : σ) :
    sayTo wire answer m [] st
      = (.returns () (answer (m.frame wire) st).1, (answer (m.frame wire) st).2) := by
  rw [sayTo, Live.bind_apply, Live.hear, say_of_fits hfits]
  rfl

omit [PyId ι] [DecidableEq ι] in
/-- A message and the wait for its answer. -/
theorem askTo {σ α : Type} {wire : Wire.Mode} {answer : Frame → σ → List (Heard Frame) × σ} {m : Msg}
    (hfits : m.Fits wire) {st st' : σ} {f : Frame} {heard : List (Heard Frame)}
    (h : answer (m.frame wire) st = (.frame f :: heard, st')) (k : Live σ Frame α) :
    (sayTo wire answer m >>= fun _ => Live.hear Session.recv >>= fun _ => k) [] st
      = k heard st' := by
  rw [Live.bind_apply, sayTo_apply hfits, h]
  rfl

/-- The fills of an iteration have room where its price has. -/
theorem pack_fill {it : ℕ} (h : Sendable .binary it) {qty : ℤ} (hqty : 0 ≤ qty) (hqty' : qty ≤ 6)
    {maker : ℤ} (hmaker : maker = makerA it ∨ maker = makerB it) :
    (pack Wire.fillFormat [2, taker it, px it, qty, maker]).isSome := by
  have hpx := sendable_iff.mp h
  refine isSome_pack_iff.mpr ?_
  simp only [Wire.fillFormat, List.forall₂_cons, FieldKind.Holds, taker, px, scenIdBase]
  rcases hmaker with rfl | rfl
  · simp only [makerA, scenIdBase]
    norm_num
    omega
  · simp only [makerB, scenIdBase]
    norm_num
    omega

omit [DecidableEq ι] in
/-- The fills of a correct engine are what the probe waits for. -/
theorem passes_of_shows {wire : Wire.Mode} {it : ℕ} {frames : List Frame}
    (h : Shows wire (taker it) [(⟨px it, 5, PyId.int (makerA it)⟩ : PriceTime.Fill ι),
      ⟨px it, 6 - 5, PyId.int (makerB it)⟩] frames) :
    Passes wire (taker it) [] 0 (expected it) (frames.map .frame) := by
  cases h with
  | cons hA hB =>
    cases hB with
    | cons hB hnil =>
      cases hnil
      obtain ⟨maker, hmaker, hreadA⟩ := hA
      obtain rfl := int_injective hmaker
      obtain ⟨maker, hmaker, hreadB⟩ := hB
      obtain rfl := int_injective hmaker
      exact .fill _ hreadA (.fill _ hreadB .done)

/-- **An iteration is passed** if the calls of the book give its two fills; it
leaves the book that they lead to. -/
theorem iteration_of_calls {wire : Wire.Mode} {loads : String → Option (PyMessage ι)}
    (hloads : PyEngine.ReadsFlat loads) (hwire : ReadsFlat wire) (clock : ℕ → Instant) {it : ℕ}
    (hfits : Sendable wire it) {b b₁ b₂ b₃ b' : OrderBook ι}
    (hA : b.call (Msg.limit (makerA it) true (px it) 5).call = .ok (b₁, []))
    (hB : b₁.call (Msg.limit (makerB it) true (px it) 5).call = .ok (b₂, []))
    (hC : b₂.call (Msg.limit (taker it) false (px it) 6).call
      = .ok (b₃, [⟨px it, 5, PyId.int (makerA it)⟩, ⟨px it, 6 - 5, PyId.int (makerB it)⟩]))
    (hX : b₃.call (Msg.cancel (taker it + 1) (makerB it)).call = .ok (b', [])) (k : ℕ) :
    ∃ st, exchangeWith wire (Server.answer loads clock) it [] ⟨b, k, true⟩
        = (.returns (expected it) [], st)
      ∧ cleanUpWith wire (Server.answer loads clock) it [] st
        = (.returns () [], ⟨b', k + 4, true⟩) := by
  obtain ⟨hfitsB, hfitsC, hfitsX⟩ := hfits.fits
  have hnone : ∀ oid : ℤ, ∀ f ∈ ([] : List (PriceTime.Fill ι)), ∃ maker, f.maker = PyId.int maker
      ∧ (wire = .binary → (pack Wire.fillFormat [2, oid, f.px, f.qty, maker]).isSome) :=
    fun _ => List.forall_mem_nil _
  obtain ⟨ackA, _, hanswerA, hnilA⟩ := answer_frame hloads hwire clock hfits k hA (hnone _)
  obtain ⟨ackB, _, hanswerB, hnilB⟩ := answer_frame hloads hwire clock hfitsB (k + 1) hB (hnone _)
  have hroom : ∀ f ∈ [(⟨px it, 5, PyId.int (makerA it)⟩ : PriceTime.Fill ι),
      ⟨px it, 6 - 5, PyId.int (makerB it)⟩], ∃ maker, f.maker = PyId.int maker
      ∧ (wire = .binary → (pack Wire.fillFormat [2, taker it, f.px, f.qty, maker]).isSome) := by
    simp only [List.forall_mem_cons]
    refine ⟨⟨makerA it, rfl, ?_⟩, ⟨makerB it, rfl, ?_⟩, List.forall_mem_nil _⟩
    · rintro rfl
      exact pack_fill hfits (by decide) (by decide) (.inl rfl)
    · rintro rfl
      exact pack_fill hfits (by decide) (by decide) (.inr rfl)
  obtain ⟨ackC, frames, hanswerC, hfills⟩ :=
    answer_frame hloads hwire clock hfitsC (k + 1 + 1) hC hroom
  obtain ⟨ackX, _, hanswerX, hnilX⟩ :=
    answer_frame hloads hwire clock hfitsX (k + 1 + 1 + 1) hX (hnone _)
  cases hnilA
  cases hnilB
  cases hnilX
  refine ⟨⟨b₃, k + 1 + 1 + 1, true⟩, ?_, ?_⟩
  · rw [exchangeWith, askTo hfits hanswerA]
    show (sayTo wire _ _ >>= fun _ => _) [] _ = _
    rw [askTo hfitsB hanswerB]
    show (sayTo wire _ _ >>= fun _ => _) [] _ = _
    rw [askTo hfitsC hanswerC]
    show (expectFills wire (taker it) 2 [] _, _) = _
    have hread : expectFills wire (taker it) 2 [] (frames.map .frame)
        = .returns ([] ++ expected it) [] ↔ Passes wire (taker it) [] 0 (expected it) _ :=
      expectFills_returns_iff rfl
    exact congrArg (·, _) (hread.mpr (passes_of_shows hfills))
  · rw [cleanUpWith, Live.bind_apply, sayTo_apply hfitsX, hanswerX]
    rfl

/-- **On a book that it does not touch** it restores the book. -/
theorem iteration {wire : Wire.Mode} {loads : String → Option (PyMessage ι)}
    (hloads : PyEngine.ReadsFlat loads) (hwire : ReadsFlat wire) (clock : ℕ → Instant) {it : ℕ}
    (hfits : Sendable wire it) {b : OrderBook ι} (hclear : Clear b it) (k : ℕ) :
    ∃ st, exchangeWith wire (Server.answer loads clock) it [] ⟨b, k, true⟩
        = (.returns (expected it) [], st)
      ∧ cleanUpWith wire (Server.answer loads clock) it [] st
        = (.returns () [], ⟨b, k + 4, true⟩) := by
  have hne : (PyId.int (makerA it) : ι) ≠ PyId.int (makerB it) := fun heq => by
    have heq := int_injective heq
    simp only [makerA, makerB] at heq
    omega
  obtain ⟨b₁, b₂, b₃, hA, hB, hC, hcancel⟩ := roundTrip (PyId.int (taker it)) hne
    (show (0 : ℤ) < 5 by decide) (show (5 : ℤ) < 6 by decide) (show (6 : ℤ) < 5 + 5 by decide)
    hclear.asks hclear.bids hclear.level hclear.makerA hclear.makerB
  have hX : b₃.call (Msg.cancel (taker it + 1) (makerB it)).call = .ok (b, []) := by
    rw [← hcancel]
    rfl
  exact iteration_of_calls hloads hwire clock hfits hA hB hC hX k

/-! ## The run

By induction on the iterations, each of which finds the same book. -/

/-- **Iterations on a book that they do not touch** are all passed, and the
book is the same after each. -/
theorem roundsWith_clear {wire : Wire.Mode} {loads : String → Option (PyMessage ι)}
    (hloads : PyEngine.ReadsFlat loads) (hwire : ReadsFlat wire) (clock : ℕ → Instant)
    {b : OrderBook ι} (its : List ℕ) (hits : ∀ it ∈ its, Sendable wire it ∧ Clear b it) (k : ℕ) :
    ∃ k', roundsWith wire (Server.answer loads clock) its [] ⟨b, k, true⟩
      = ((List.replicate its.length true, .completed), ⟨b, k', true⟩) := by
  induction its generalizing k with
  | nil => exact ⟨k, rfl⟩
  | cons it its ih =>
    obtain ⟨⟨hfits, hclear⟩, hits⟩ := List.forall_mem_cons.mp hits
    obtain ⟨st, hexchange, hcleanUp⟩ := iteration hloads hwire clock hfits hclear k
    obtain ⟨k', hrounds⟩ := ih hits (k + 4)
    refine ⟨k', ?_⟩
    rw [roundsWith, hexchange]
    dsimp only
    rw [hcleanUp]
    dsimp only
    rw [hrounds, decide_eq_true rfl, List.length_cons, List.replicate_succ]

/-- **The probe accepts a correct engine**: it passes every iteration, and the
book is the one before. The book may be any that calls lead to, limit orders
without a hashable id among them: the price of a level that such an order has
left empty is one of the prices of the bids, or of the asks. -/
theorem accepted (wire : Wire.Mode) (n : ℕ) (loads : String → Option (PyMessage ι))
    (clock : ℕ → Instant) (stats : Stats) (b : OrderBook ι) (hreach : b.Reachable)
    (hbids : ∀ p ∈ b.bidPrices, p ≤ 50000) (hasks : ∀ p ∈ b.askPrices, 50000 + n < p)
    (hids : ∀ it, 1 ≤ it → it ≤ n →
      PyId.int (makerA it) ∉ b.resting.keys ∧ PyId.int (makerB it) ∉ b.resting.keys)
    (hloads : PyEngine.ReadsFlat loads) (hwire : ReadsFlat wire)
    (hroom : wire = .binary → 50000 + n < 2 ^ 31) :
    ∃ verdicts k, runWith wire (Server.answer loads clock) n [] ⟨b, 0, true⟩
        = ((verdicts, .completed), ⟨b, k, true⟩)
      ∧ (stats.probed verdicts).corrTotal = stats.corrTotal + n
      ∧ (stats.probed verdicts).corrPass = stats.corrPass + n := by
  have hclear : ∀ it ∈ List.range' 1 n, Sendable wire it ∧ Clear b it := by
    intro it hit
    obtain ⟨h1, hn⟩ : 1 ≤ it ∧ it ≤ n := by
      rw [List.mem_range'_1] at hit
      omega
    have hpx : px it = 50000 + it := rfl
    refine ⟨?_, fun p hp => ?_, fun hlevel => ?_, fun p hp => ?_, (hids it h1 hn).1,
      (hids it h1 hn).2⟩
    · cases wire with
      | binary =>
        have hroom := hroom rfl
        exact sendable_iff.mpr (by omega)
      | json parse => exact trivial
    · have := hbids p hp
      omega
    · -- the levels of a reachable book are those of its prices, also the empty ones
      have := hbids _ (((hreach.loose .bid).mem_prices _).mpr hlevel)
      omega
    · have := hasks p hp
      omega
  obtain ⟨k, hrun⟩ := roundsWith_clear hloads hwire clock (List.range' 1 n) hclear 0
  rw [List.length_range'] at hrun
  obtain ⟨hpass, htotal⟩ := stats.corr_probed (List.replicate n true)
  rw [List.count_replicate_self] at hpass
  rw [List.length_replicate] at htotal
  exact ⟨_, k, hrun, htotal, hpass⟩

/-! ### A parser of flat objects

An instance of the parameter, for runs on given books. -/

/-- A value that is a string. -/
def textOf : Option FlatJson.Scalar → Option String
  | some (.str s) => some s
  | _ => none

/-- A value that is an integer. -/
def numberOf : Option FlatJson.Scalar → Option ℤ
  | some (.int n) => some n
  | _ => none

/-- What `json.loads` makes of a flat object, as the engine looks at it. -/
def flatMessage (s : String) : Option (PyMessage ℤ) :=
  (FlatJson.read s).map (fun fs => ⟨textOf (fs.lookup "t"), numberOf (fs.lookup "id"),
    textOf (fs.lookup "side"), numberOf (fs.lookup "px"), numberOf (fs.lookup "qty"),
    numberOf (fs.lookup "target")⟩)

/-- What `json.loads` makes of a flat object, as the probe looks at it. -/
def flatJson : Frame → Option Json
  | .text s => (FlatJson.read s).map (fun fs => .object (fs.map (fun f => (f.1, jsonValue f.2))))
  | .binary _ => none

omit [PyId ι] [DecidableEq ι] in
theorem readsFlat_flatMessage : PyEngine.ReadsFlat flatMessage := by
  intro s fs h
  refine ⟨_, by rw [flatMessage, h]; rfl, ?_⟩
  exact ⟨fun _ => congrArg textOf, fun _ => congrArg numberOf, fun _ => congrArg textOf,
    fun _ => congrArg numberOf, fun _ => congrArg numberOf, fun _ => congrArg numberOf⟩

omit [PyId ι] [DecidableEq ι] in
theorem readsFlat_flatJson : ReadsFlat (.json flatJson) := by
  intro s fs h
  rw [flatJson, h]
  rfl

/-- A book with an order on each side, outside the probe's prices. -/
def quietBook : OrderBook ℤ :=
  ⟨Dict.empty.set 49000 (Dict.empty.set 7 3), Dict.empty.set 60000 (Dict.empty.set 8 4), [49000],
    [60000], (Dict.empty.set 7 ("buy", 49000)).set 8 ("sell", 60000)⟩

theorem reachable_quietBook : quietBook.Reachable := by
  have hbuy : OrderBook.init.limit (7 : ℤ) "buy" 49000 3
      = .ok (OrderBook.init.rest "buy" 49000 7 3, []) := rfl
  have hsell : (OrderBook.init.rest "buy" 49000 7 3).limit 8 "sell" 60000 4
      = .ok (quietBook, []) := rfl
  exact .limit (.limit .init hbuy) hsell

/-- Two iterations in JSON, beside two orders. -/
theorem accepted_quietBook :
    ∃ verdicts k, runWith (.json flatJson) (Server.answer flatMessage (fun _ => 0)) 2 []
        ⟨quietBook, 0, true⟩ = ((verdicts, .completed), ⟨quietBook, k, true⟩)
      ∧ (Stats.zero.probed verdicts).corrTotal = Stats.zero.corrTotal + 2
      ∧ (Stats.zero.probed verdicts).corrPass = Stats.zero.corrPass + 2 :=
  accepted (.json flatJson) 2 flatMessage (fun _ => 0) .zero quietBook reachable_quietBook
    (by decide) (by decide)
    (fun it h1 h2 => by
      obtain rfl | rfl : it = 1 ∨ it = 2 := by omega
      · decide
      · decide)
    readsFlat_flatMessage readsFlat_flatJson nofun

/-- **The prices run out of room**: in binary mode the last of 2147433648
iterations has a price of 32 bits, and no verdict. -/
theorem corrTotal_past_room (b : OrderBook ℤ) :
    (Stats.zero.probed (runWith .binary (Server.answer flatMessage (fun _ => 0)) 2147433648 []
      ⟨b, 0, true⟩).1.1).corrTotal ≠ Stats.zero.corrTotal + 2147433648 := by
  have hlast : ∃ it ∈ List.range' 1 2147433648, ¬ Sendable .binary it := by
    refine ⟨2147433648, ?_, ?_⟩
    · rw [List.mem_range'_1]
      decide
    · rw [sendable_iff]
      decide
  have hlen := length_roundsWith_lt (Server.answer flatMessage (fun _ => 0)) hlast []
    ⟨b, 0, true⟩
  rw [List.length_range'] at hlen
  rw [runWith_nil, (Stats.corr_probed _ _).2, Ne, Nat.add_right_inj]
  exact hlen.ne

/-- What `limit` with an id without a hash leaves of the empty book: to buy
eight at 50001 opens the level, and nothing rests there. -/
def emptyLevelBook : OrderBook ℤ := ⟨Dict.empty.set 50001 .empty, .empty, [50001], [], .empty⟩

/-- **The level is gone afterwards**: one iteration on that book is passed and
ends with the empty one. -/
theorem runWith_emptyLevelBook :
    ∃ k, runWith (.json flatJson) (Server.answer flatMessage (fun _ => 0)) 1 []
      ⟨emptyLevelBook, 0, true⟩ = (([true], .completed), ⟨.init, k, true⟩) := by
  let b₁ : OrderBook ℤ := emptyLevelBook.rest "buy" 50001 (makerA 1) 5
  let b₂ : OrderBook ℤ := b₁.rest "buy" 50001 (makerB 1) 5
  let b₃ : OrderBook ℤ := OrderBook.init.rest "buy" 50001 (makerB 1) 4
  have hA : emptyLevelBook.call (Msg.limit (makerA 1) true (px 1) 5).call = .ok (b₁, []) := rfl
  have hB : b₁.call (Msg.limit (makerB 1) true (px 1) 5).call = .ok (b₂, []) := rfl
  have hC : b₂.call (Msg.limit (taker 1) false (px 1) 6).call
      = .ok (b₃, [⟨px 1, 5, makerA 1⟩, ⟨px 1, 6 - 5, makerB 1⟩]) := rfl
  have hX : b₃.call (Msg.cancel (taker 1 + 1) (makerB 1)).call = .ok (.init, []) := rfl
  have hfits : Sendable (.json flatJson) 1 := trivial
  obtain ⟨st, hexchange, hcleanUp⟩ := iteration_of_calls readsFlat_flatMessage readsFlat_flatJson
    (fun _ => 0) hfits hA hB hC hX 0
  refine ⟨4, ?_⟩
  rw [runWith_nil, List.range'_succ, roundsWith, hexchange]
  dsimp only
  rw [hcleanUp]
  rfl

/-- **Not every reachable book is restored, and not every run has its
verdicts**: in binary mode the prices run out of room, from the empty book on;
and in JSON an empty level at 50001, on a book that nothing rests on, is gone
after one iteration. -/
theorem not_accepted :
    ((OrderBook.init : OrderBook ℤ).Reachable
      ∧ (Stats.zero.probed (runWith .binary (Server.answer flatMessage (fun _ => 0)) 2147433648 []
        ⟨.init, 0, true⟩).1.1).corrTotal ≠ Stats.zero.corrTotal + 2147433648)
    ∧ emptyLevelBook.Reachable
      ∧ (∀ i, ¬ emptyLevelBook.Resting i)
      ∧ (runWith (.json flatJson) (Server.answer flatMessage (fun _ => 0)) 1 []
        ⟨emptyLevelBook, 0, true⟩).2.book ≠ emptyLevelBook := by
  refine ⟨⟨.init, corrTotal_past_room _⟩, ?_, ?_, ?_⟩
  · have hlimit : OrderBook.init.limitUnhashed "buy" 50001 8 = .ok emptyLevelBook := rfl
    exact .limitUnhashed .init hlimit
  · rintro i ⟨level, hlevel, hi⟩
    obtain rfl : level = .empty := List.mem_singleton.mp hlevel
    cases hi
  · obtain ⟨k, hrun⟩ := runWith_emptyLevelBook
    rw [hrun]
    intro heq
    cases congrArg OrderBook.bidPrices heq

end engine

end Probe

end Fleet
