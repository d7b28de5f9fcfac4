import HftArena.Lib.Session
import HftArena.Fleet.RunLoad

/-!
# The correctness probe: `scenarios.py`

`run` of `bot_fleet/scenarios.py` as a session with an engine that can reply
anything or nothing, and close the connection at any time. An iteration rests
two orders, aggresses them with a third, and comes to a verdict on the fills;
the verdicts are counted as they come, and whatever raises ends the probe with
what has been counted until then.

What an engine does to be found correct in an iteration is `Passes`, and what
it does to get out of one is `CutOff`; an engine that `Dodges` passes some of
the iterations and gets out of the next. Each is a condition on what is heard
alone, and each has its theorem that the session does what it says
(`exchange_returns_iff`, `exchange_raises_iff`, `run_dodges_iff`).
-/

open Wire

namespace Fleet

/-- A fill as the probe sees it: the maker and the quantity, of whatever kind
the engine's JSON has them. -/
abbrev Fill := Value × Value

/-- **What the probe makes of a frame** while it waits for a taker's fills. -/
inductive FillReading where
  /-- Not a fill of the taker. -/
  | ignored
  | fill (f : Fill)
  /-- The probe raises. -/
  | raises
deriving DecidableEq

/-- The lines of `_expect_fills` after `ws.recv()`. In binary mode a frame is
indexed by its first byte, and so a text that is not empty is no fill. -/
def readFill (taker : ℤ) : Wire.Mode → Frame → FillReading
  | .binary, .text s => if s = "" then .raises else .ignored
  | .binary, .binary data =>
    match replyType data with
    | none => .raises
    | some t =>
      if t ≠ fillTag then .ignored
      else
        match decFill data with
        | some (oid, _, qty, maker) => if oid = taker then .fill (.num maker, .num qty) else .ignored
        | none => .raises
  | .json loads, frame =>
    match loads frame with
    | none => .raises
    | some m =>
      match m.has "fill" with
      | none => .raises
      | some false => .ignored
      | some true =>
        match m.item "fill" with
        | none => .raises
        | some v =>
          if v = .num taker then
            match m.item "maker", m.item "qty" with
            | some maker, some qty => .fill (maker, qty)
            | _, _ => .raises
          else .ignored

/-- `_expect_fills`, after it has got some fills: it goes on until it has as
many as it wants, or nothing has come for a while. The wait raises nothing when
it is over. -/
def expectFills (wire : Wire.Mode) (taker : ℤ) (n : ℕ) :
    List Fill → List (Heard Frame) → Outcome Frame (List Fill)
  | got, [] => .returns got []
  | got, h :: heard =>
    if n ≤ got.length then .returns got (h :: heard)
    else
      match h with
      | .silence => .returns got heard
      | .closed => .raises
      | .frame raw =>
        match readFill taker wire raw with
        | .ignored => expectFills wire taker n got heard
        | .fill f => expectFills wire taker n (got ++ [f]) heard
        | .raises => .raises

namespace Probe

/-- **What the probe sends**: limit orders and cancels, and no market order. -/
inductive Msg where
  | limit (oid : ℤ) (buy : Bool) (px qty : ℤ)
  | cancel (oid target : ℤ)
deriving DecidableEq

/-- Whether `_limit` and `_cancel` make a frame of it: a number that a binary
field has no room for raises. -/
def Msg.Fits (wire : Wire.Mode) (m : Msg) : Prop :=
  match wire, m with
  | .binary, limit oid buy px qty => (encLimit oid buy px qty).isSome
  | .binary, cancel oid target => (encCancel oid target).isSome
  | .json _, _ => True

instance (wire : Wire.Mode) (m : Msg) : Decidable (m.Fits wire) := by
  unfold Msg.Fits
  split <;> infer_instance

/-- `SCEN_ID_BASE`. -/
def scenIdBase : ℤ := 1000000000000000

/-- The price of an iteration. -/
def px (it : ℕ) : ℤ := 50000 + it

/-- The first maker of an iteration. -/
def makerA (it : ℕ) : ℤ := scenIdBase + it * 10 + 1

/-- The second maker, behind the first. -/
def makerB (it : ℕ) : ℤ := scenIdBase + it * 10 + 2

/-- The taker. -/
def taker (it : ℕ) : ℤ := scenIdBase + it * 10 + 3

/-- The fills of a correct engine. -/
def expected (it : ℕ) : List Fill := [(.num (makerA it), .num 5), (.num (makerB it), .num 1)]

/-- To send a message. An order that has no frame raises before it is sent. -/
def say (wire : Wire.Mode) (m : Msg) : Session Frame Unit := do
  Session.require (m.Fits wire)
  Session.send

/-- **An iteration up to its verdict**: the fills of the taker. Between the
orders it waits for one frame, which it takes for the acknowledgement. -/
def exchange (wire : Wire.Mode) (it : ℕ) : Session Frame (List Fill) := do
  say wire (.limit (makerA it) true (px it) 5)
  let _ ← Session.recv
  say wire (.limit (makerB it) true (px it) 5)
  let _ ← Session.recv
  say wire (.limit (taker it) false (px it) 6)
  let _ ← Session.recv
  expectFills wire (taker it) 2 []

/-- What is left of the second maker is cancelled, and one frame is waited for,
if any comes. -/
def cleanUp (wire : Wire.Mode) (it : ℕ) : Session Frame Unit := do
  say wire (.cancel (taker it + 1) (makerB it))
  let _ ← Session.recvFor
  pure ()

/-- How the probe ends. -/
inductive Ending where
  /-- After the last iteration. -/
  | completed
  /-- Something raised, and it returned. -/
  | cut
  /-- Not at all: it waits for the engine. -/
  | waiting
deriving DecidableEq

/-- The iterations, with the verdict on each that comes to one. The verdict is
counted before the cancel. -/
def rounds (wire : Wire.Mode) : List ℕ → List (Heard Frame) → List Bool × Ending
  | [], _ => ([], .completed)
  | it :: its, heard =>
    match exchange wire it heard with
    | .waits => ([], .waiting)
    | .raises => ([], .cut)
    | .returns fills heard =>
      let passed := decide (fills = expected it)
      match cleanUp wire it heard with
      | .waits => ([passed], .waiting)
      | .raises => ([passed], .cut)
      | .returns _ heard => (passed :: (rounds wire its heard).1, (rounds wire its heard).2)

/-- **`run`**: its verdicts and how it ends. The connection may be closed
before the first order. -/
def run (wire : Wire.Mode) (iterations : ℕ) (heard : List (Heard Frame)) : List Bool × Ending :=
  match Session.send heard with
  | .returns _ heard => rounds wire (List.range' 1 iterations) heard
  | _ => ([], .cut)

/-! ## What an engine can do

Three conditions on what is heard. None of them mentions the probe's code. -/

/-- **The engine gets out of an iteration** before its verdict, with so many
answers and fills still to come: it closes the connection, or sends a frame
that the probe raises on. -/
inductive CutOff (wire : Wire.Mode) (taker : ℤ) : ℕ → ℕ → List (Heard Frame) → Prop where
  | closed {answers fills : ℕ} {heard : List (Heard Frame)} : 0 < answers + fills →
    CutOff wire taker answers fills (.closed :: heard)
  | quiet {answers fills : ℕ} {heard : List (Heard Frame)} :
    CutOff wire taker (answers + 1) fills heard →
    CutOff wire taker (answers + 1) fills (.silence :: heard)
  | answer {answers fills : ℕ} {heard : List (Heard Frame)} (f : Frame) :
    CutOff wire taker answers fills heard →
    CutOff wire taker (answers + 1) fills (.frame f :: heard)
  | other {fills : ℕ} {heard : List (Heard Frame)} (f : Frame) :
    readFill taker wire f = .ignored → CutOff wire taker 0 (fills + 1) heard →
    CutOff wire taker 0 (fills + 1) (.frame f :: heard)
  | fill {fills : ℕ} {heard : List (Heard Frame)} (f : Frame) (g : Fill) :
    readFill taker wire f = .fill g → CutOff wire taker 0 fills heard →
    CutOff wire taker 0 (fills + 1) (.frame f :: heard)
  | bad {fills : ℕ} {heard : List (Heard Frame)} (f : Frame) :
    readFill taker wire f = .raises → CutOff wire taker 0 (fills + 1) (.frame f :: heard)

/-- **The engine answers and sends exactly the fills that are expected**, with
other frames before and between them, and the given list is what it does
next. -/
inductive Passes (wire : Wire.Mode) (taker : ℤ) (rest : List (Heard Frame)) :
    ℕ → List Fill → List (Heard Frame) → Prop where
  | done : Passes wire taker rest 0 [] rest
  | quiet {answers : ℕ} {fills : List Fill} {heard : List (Heard Frame)} :
    Passes wire taker rest (answers + 1) fills heard →
    Passes wire taker rest (answers + 1) fills (.silence :: heard)
  | answer {answers : ℕ} {fills : List Fill} {heard : List (Heard Frame)} (f : Frame) :
    Passes wire taker rest answers fills heard →
    Passes wire taker rest (answers + 1) fills (.frame f :: heard)
  | other {g : Fill} {fills : List Fill} {heard : List (Heard Frame)} (f : Frame) :
    readFill taker wire f = .ignored → Passes wire taker rest 0 (g :: fills) heard →
    Passes wire taker rest 0 (g :: fills) (.frame f :: heard)
  | fill {g : Fill} {fills : List Fill} {heard : List (Heard Frame)} (f : Frame) :
    readFill taker wire f = .fill g → Passes wire taker rest 0 fills heard →
    Passes wire taker rest 0 (g :: fills) (.frame f :: heard)

/-- The first order of an iteration fits, and then all its messages do. -/
def Sendable (wire : Wire.Mode) (it : ℕ) : Prop :=
  (Msg.limit (makerA it) true (px it) 5).Fits wire

instance (wire : Wire.Mode) (it : ℕ) : Decidable (Sendable wire it) :=
  inferInstanceAs (Decidable (Msg.Fits wire _))

/-- **The engine dodges**: it passes some of the iterations – or none – and
gets out before the verdict on the next; or the probe comes to an iteration
whose orders it cannot pack. -/
inductive Dodges (wire : Wire.Mode) : List ℕ → List (Heard Frame) → Prop where
  | tooBig {it : ℕ} {its : List ℕ} {heard : List (Heard Frame)} : ¬ Sendable wire it →
    Dodges wire (it :: its) heard
  | cut {it : ℕ} {its : List ℕ} {heard : List (Heard Frame)} :
    CutOff wire (taker it) 3 2 heard → Dodges wire (it :: its) heard
  | leaves {it it' : ℕ} {its : List ℕ} {heard rest : List (Heard Frame)} :
    Passes wire (taker it) (.closed :: rest) 3 (expected it) heard →
    Dodges wire (it :: it' :: its) heard
  | goesOn {it : ℕ} {its : List ℕ} {heard rest : List (Heard Frame)} :
    Passes wire (taker it) rest 3 (expected it) heard → rest.head? ≠ some .closed →
    Dodges wire its rest.tail → Dodges wire (it :: its) heard

/-! ## What the probe makes of it

First the wait for the fills, where frames of all kinds may come. -/

variable {wire : Wire.Mode}

/-- The first order of an iteration is the one with the largest numbers. -/
theorem Sendable.fits {it : ℕ} (h : Sendable wire it) :
    (Msg.limit (makerB it) true (px it) 5).Fits wire
      ∧ (Msg.limit (taker it) false (px it) 6).Fits wire
      ∧ (Msg.cancel (taker it + 1) (makerB it)).Fits wire := by
  cases wire with
  | json loads => exact ⟨trivial, trivial, trivial⟩
  | binary =>
    have hpx : 2 * px it < (256 ^ 4 : ℕ) := by
      have hholds := isSome_pack_iff.mp h
      simp only [reqFormat, List.forall₂_cons] at hholds
      exact hholds.2.2.2.1.2
    unfold px at hpx
    have hpack : ∀ {vs : List ℤ}, List.Forall₂ FieldKind.Holds reqFormat vs →
        (pack reqFormat vs).isSome := isSome_pack_iff.mpr
    refine ⟨hpack ?_, hpack ?_, hpack ?_⟩ <;>
    · simp only [reqFormat, List.forall₂_cons, FieldKind.Holds, limitType, cancelType, makerB, taker,
        px, scenIdBase]
      norm_num
      omega

/-- How many iterations have orders that fit: all of them in JSON. -/
theorem sendable_iff {it : ℕ} : Sendable .binary it ↔ it + 50000 < 2 ^ 31 := by
  have hiff : Sendable .binary it ↔ List.Forall₂ FieldKind.Holds reqFormat _ := isSome_pack_iff
  rw [hiff]
  simp only [reqFormat, List.forall₂_cons, FieldKind.Holds, limitType, makerA, px, scenIdBase]
  norm_num
  omega

section expectFills

variable {tk : ℤ} {n : ℕ} {got : List Fill}

/-- With enough fills nothing more is heard. -/
theorem expectFills_of_le (h : n ≤ got.length) (heard : List (Heard Frame)) :
    expectFills wire tk n got heard = .returns got heard := by
  cases heard with
  | nil => rfl
  | cons hd heard => cases hd <;> rw [expectFills, if_pos h]

/-- When nothing comes, what there is has to do. -/
theorem expectFills_silence (h : got.length < n) (heard : List (Heard Frame)) :
    expectFills wire tk n got (.silence :: heard) = .returns got heard := by
  rw [expectFills, if_neg h.not_ge]

/-- When the connection closes, it raises. -/
theorem expectFills_closed (h : got.length < n) (heard : List (Heard Frame)) :
    expectFills wire tk n got (.closed :: heard) = .raises := by
  rw [expectFills, if_neg h.not_ge]

/-- A frame is read, and ignored, kept, or raised on. -/
theorem expectFills_frame (h : got.length < n) (f : Frame) (heard : List (Heard Frame)) :
    expectFills wire tk n got (.frame f :: heard) =
      match readFill tk wire f with
      | .ignored => expectFills wire tk n got heard
      | .fill g => expectFills wire tk n (got ++ [g]) heard
      | .raises => .raises := by
  rw [expectFills, if_neg h.not_ge]

/-- It keeps what it has got, and never waits for ever. -/
theorem expectFills_spec (got : List Fill) (heard : List (Heard Frame)) :
    expectFills wire tk n got heard = .raises
      ∨ ∃ fills rest, expectFills wire tk n got heard = .returns fills rest ∧ got <+: fills := by
  induction heard generalizing got with
  | nil => exact Or.inr ⟨got, [], rfl, List.prefix_refl _⟩
  | cons hd heard ih =>
    rcases le_or_gt n got.length with hle | hlt
    · exact Or.inr ⟨got, hd :: heard, expectFills_of_le hle _, List.prefix_refl _⟩
    · cases hd with
      | silence => exact Or.inr ⟨got, heard, expectFills_silence hlt heard, List.prefix_refl _⟩
      | closed => exact Or.inl (expectFills_closed hlt heard)
      | frame f =>
        rw [expectFills_frame hlt]
        cases readFill tk wire f with
        | ignored => exact ih got
        | fill g =>
          refine (ih (got ++ [g])).imp_right (fun ⟨fills, rest, hret, hpre⟩ => ?_)
          exact ⟨fills, rest, hret, (List.prefix_append _ _).trans hpre⟩
        | raises => exact Or.inl rfl

/-- It raises if and only if the engine gets out before the fills that are
missing. -/
theorem expectFills_raises_iff {k : ℕ} {heard : List (Heard Frame)} (hk : got.length + k = n) :
    expectFills wire tk n got heard = .raises ↔ CutOff wire tk 0 k heard := by
  induction heard generalizing got k with
  | nil => exact ⟨nofun, nofun⟩
  | cons hd heard ih =>
    cases k with
    | zero =>
      rw [expectFills_of_le hk.ge]
      exact ⟨nofun, fun h => by cases h with | closed hpos => exact absurd hpos (lt_irrefl 0)⟩
    | succ k =>
      have hlt : got.length < n := by omega
      cases hd with
      | silence =>
        rw [expectFills_silence hlt]
        exact ⟨nofun, nofun⟩
      | closed => exact ⟨fun _ => .closed (by omega), fun _ => expectFills_closed hlt heard⟩
      | frame f =>
        rw [expectFills_frame hlt]
        cases hread : readFill tk wire f with
        -- A frame that is passed over changes nothing of what is expected.
        | ignored =>
          refine (ih hk).trans ⟨.other f hread, fun h => ?_⟩
          cases h with
          | other _ _ h => exact h
          | fill _ g hread' => rw [hread] at hread'; cases hread'
          | bad _ hread' => rw [hread] at hread'; cases hread'
        | fill g =>
          have hk' : (got ++ [g]).length + k = n := by
            rw [List.length_append, List.length_singleton]
            omega
          refine (ih hk').trans ⟨.fill f g hread, fun h => ?_⟩
          cases h with
          | other _ hread' => rw [hread] at hread'; cases hread'
          | fill _ g _ h => exact h
          | bad _ hread' => rw [hread] at hread'; cases hread'
        | raises => exact ⟨fun _ => .bad f hread, fun _ => rfl⟩

/-- It gets the fills that are missing if and only if the engine sends them. -/
theorem expectFills_returns_iff {fills : List Fill} {heard rest : List (Heard Frame)}
    (hn : got.length + fills.length = n) :
    expectFills wire tk n got heard = .returns (got ++ fills) rest
      ↔ Passes wire tk rest 0 fills heard := by
  -- it does not return without a fill that is missing
  have hshort : ∀ {got : List Fill} {g : Fill} {fills : List Fill} {heard' : List (Heard Frame)},
      Outcome.returns got heard' ≠ .returns (got ++ g :: fills) rest := by
    intro got g fills heard' h
    have hlen := congrArg List.length (Outcome.returns.inj h).1
    rw [List.length_append, List.length_cons] at hlen
    omega
  induction heard generalizing got fills with
  | nil =>
    cases fills with
    | nil =>
      rw [List.append_nil]
      exact ⟨fun h => by cases h; exact .done, fun h => by cases h; rfl⟩
    | cons g fills => exact ⟨fun h => absurd h hshort, nofun⟩
  | cons hd heard ih =>
    cases fills with
    | nil =>
      rw [List.append_nil, expectFills_of_le hn.ge]
      exact ⟨fun h => by cases h; exact .done, fun h => by cases h; rfl⟩
    | cons g fills =>
      have hlt : got.length < n := by rw [← hn, List.length_cons]; omega
      cases hd with
      | silence =>
        rw [expectFills_silence hlt]
        exact ⟨fun h => absurd h hshort, nofun⟩
      | closed =>
        rw [expectFills_closed hlt]
        exact ⟨nofun, nofun⟩
      | frame f =>
        rw [expectFills_frame hlt]
        cases hread : readFill tk wire f with
        | ignored =>
          refine (ih hn).trans ⟨.other f hread, fun h => ?_⟩
          cases h with
          | other _ _ h => exact h
          | fill _ hread' => rw [hread] at hread'; cases hread'
        | fill g' =>
          have hn' : (got ++ [g']).length + fills.length = n := by
            rw [← hn, List.length_append, List.length_singleton, List.length_cons]
            omega
          dsimp only
          constructor
          · intro h
            -- the fill it got is the one expected
            have hg : g' = g := by
              rcases expectFills_spec (got ++ [g']) heard with hr | ⟨fs, r, hr, hpre⟩
              · rw [hr] at h
                cases h
              · cases hr.symm.trans h
                rw [List.prefix_append_right_inj, List.cons_prefix_cons] at hpre
                exact hpre.1
            subst hg
            rw [List.append_cons got g' fills] at h
            exact .fill f hread ((ih hn').mp h)
          · intro h
            cases h with
            | other _ hread' => rw [hread] at hread'; cases hread'
            | fill _ hread' h =>
              cases hread.symm.trans hread'
              rw [List.append_cons got g fills]
              exact (ih hn').mpr h
        | raises =>
          refine ⟨nofun, fun h => ?_⟩
          cases h with
          | other _ hread' => rw [hread] at hread'; cases hread'
          | fill _ hread' => rw [hread] at hread'; cases hread'

end expectFills

/-! ### Iterations

Then an iteration as a whole, and the iterations one after the other. -/

/-- To send an order and wait for its answer is one way more to get out. -/
theorem ask_raises_iff {α : Type} {tk : ℤ} {answers fills : ℕ} {k : Session Frame α}
    (hk : ∀ heard, k heard = .raises ↔ CutOff wire tk answers fills heard)
    (heard : List (Heard Frame)) :
    Session.ask k heard = .raises ↔ CutOff wire tk (answers + 1) fills heard := by
  induction heard with
  | nil => exact ⟨nofun, nofun⟩
  | cons hd heard ih =>
    cases hd with
    | frame f =>
      rw [Session.ask_frame, hk]
      exact ⟨.answer f, fun h => by cases h with | answer _ h => exact h⟩
    | silence =>
      rw [Session.ask_silence, ih]
      exact ⟨.quiet, fun h => by cases h with | quiet h => exact h⟩
    | closed => exact ⟨fun _ => .closed (by omega), fun _ => rfl⟩

/-- And one answer more to wait for. -/
theorem ask_returns_iff {tk : ℤ} {answers : ℕ} {fills : List Fill} {rest : List (Heard Frame)}
    {k : Session Frame (List Fill)}
    (hk : ∀ heard, k heard = .returns fills rest ↔ Passes wire tk rest answers fills heard)
    (heard : List (Heard Frame)) :
    Session.ask k heard = .returns fills rest ↔ Passes wire tk rest (answers + 1) fills heard := by
  induction heard with
  | nil => exact ⟨nofun, nofun⟩
  | cons hd heard ih =>
    cases hd with
    | frame f =>
      rw [Session.ask_frame, hk]
      exact ⟨.answer f, fun h => by cases h with | answer _ h => exact h⟩
    | silence =>
      rw [Session.ask_silence, ih]
      exact ⟨.quiet, fun h => by cases h with | quiet h => exact h⟩
    | closed => exact ⟨nofun, nofun⟩

/-- An order that has a frame is sent. -/
theorem say_of_fits {m : Msg} (h : m.Fits wire) : say wire m = Session.send := by
  funext heard
  rw [say, Session.bind_apply, Session.require_of_pos h]
  rfl

/-- An iteration whose orders have frames waits for three answers and the
fills. -/
theorem exchange_of_sendable {it : ℕ} (h : Sendable wire it) :
    exchange wire it
      = Session.ask (Session.ask (Session.ask (expectFills wire (taker it) 2 []))) := by
  obtain ⟨hb, hc, -⟩ := h.fits
  unfold exchange
  rw [say_of_fits h, say_of_fits hb, say_of_fits hc]
  rfl

/-- One whose orders have none raises at once. -/
theorem exchange_of_not_sendable {it : ℕ} (h : ¬ Sendable wire it) (heard : List (Heard Frame)) :
    exchange wire it heard = .raises := by
  have hsay : say wire (.limit (makerA it) true (px it) 5) heard = .raises := by
    rw [say, Session.bind_apply]
    exact congrArg (Outcome.andThen · _) (Session.require_of_neg h heard)
  rw [exchange, Session.bind_apply, hsay]
  rfl

/-- **An iteration raises** if and only if the engine gets out of it. -/
theorem exchange_raises_iff {it : ℕ} (h : Sendable wire it) (heard : List (Heard Frame)) :
    exchange wire it heard = .raises ↔ CutOff wire (taker it) 3 2 heard := by
  have hfills : ∀ heard, expectFills wire (taker it) 2 [] heard = .raises
      ↔ CutOff wire (taker it) 0 2 heard := fun _ => expectFills_raises_iff rfl
  rw [exchange_of_sendable h]
  exact ask_raises_iff (ask_raises_iff (ask_raises_iff hfills)) heard

/-- **An iteration is passed** if and only if the engine passes it. -/
theorem exchange_returns_iff {it : ℕ} (h : Sendable wire it) (heard rest : List (Heard Frame)) :
    exchange wire it heard = .returns (expected it) rest
      ↔ Passes wire (taker it) rest 3 (expected it) heard := by
  have hfills : ∀ heard, expectFills wire (taker it) 2 [] heard = .returns ([] ++ expected it) rest
      ↔ Passes wire (taker it) rest 0 (expected it) heard := fun _ => expectFills_returns_iff rfl
  rw [exchange_of_sendable h]
  exact ask_returns_iff (ask_returns_iff (ask_returns_iff hfills)) heard

/-- The cancel takes the next frame away, whatever it is. -/
theorem cleanUp_of_sendable {it : ℕ} (h : Sendable wire it) (heard : List (Heard Frame)) :
    cleanUp wire it heard
      = if heard.head? = some .closed then .raises else .returns () heard.tail := by
  obtain ⟨-, -, hcancel⟩ := h.fits
  unfold cleanUp
  rw [say_of_fits hcancel]
  cases heard with
  | nil => rfl
  | cons hd heard => cases hd <;> rfl

/-- **The probe's end**: it ends before the last verdict, with all verdicts
passed, if and only if the engine dodges. -/
theorem rounds_dodges_iff (its : List ℕ) (heard : List (Heard Frame)) :
    (rounds wire its heard).2 ≠ .waiting ∧ (∀ v ∈ (rounds wire its heard).1, v = true)
        ∧ (rounds wire its heard).1.length < its.length
      ↔ Dodges wire its heard := by
  induction its generalizing heard with
  | nil => exact ⟨fun h => absurd h.2.2 (lt_irrefl 0), nofun⟩
  | cons it its ih =>
    by_cases hfits : Sendable wire it
    · rw [rounds]
      cases hex : exchange wire it heard with
      | waits =>
        refine ⟨fun h => absurd rfl h.1, fun h => ?_⟩
        cases h with
        | tooBig h => exact absurd hfits h
        | cut h => rw [(exchange_raises_iff hfits heard).mpr h] at hex; cases hex
        | leaves h => rw [(exchange_returns_iff hfits heard _).mpr h] at hex; cases hex
        | goesOn h => rw [(exchange_returns_iff hfits heard _).mpr h] at hex; cases hex
      | raises =>
        refine ⟨fun _ => .cut ((exchange_raises_iff hfits heard).mp hex), fun _ => ?_⟩
        exact ⟨nofun, nofun, Nat.succ_pos _⟩
      | returns fills rest =>
        dsimp only
        rw [cleanUp_of_sendable hfits]
        by_cases hpass : fills = expected it
        · subst hpass
          have hpasses := (exchange_returns_iff hfits heard rest).mp hex
          -- what the engine does next is what decides
          have hnext : ∀ {rest'}, Passes wire (taker it) rest' 3 (expected it) heard
            → rest' = rest :=
            fun h => (Outcome.returns.inj
              (((exchange_returns_iff hfits heard _).mpr h).symm.trans hex)).2
          by_cases hclosed : rest.head? = some .closed
          · rw [if_pos hclosed]
            obtain ⟨rest, rfl⟩ : ∃ rest', rest = .closed :: rest' := by
              cases rest with
              | nil => cases hclosed
              | cons hd rest => cases hclosed; exact ⟨rest, rfl⟩
            constructor
            · rintro ⟨-, -, hlen⟩
              cases its with
              | nil => exact absurd hlen (lt_irrefl 1)
              | cons it' its => exact .leaves hpasses
            · intro h
              refine ⟨nofun, fun v hv => ?_, ?_⟩
              · rw [List.mem_singleton.mp hv]
                exact decide_eq_true rfl
              · cases h with
                | tooBig h => exact absurd hfits h
                | cut h => rw [(exchange_raises_iff hfits heard).mpr h] at hex; cases hex
                | leaves h => exact Nat.succ_lt_succ (Nat.succ_pos _)
                | goesOn h hopen =>
                  rw [hnext h] at hopen
                  exact absurd rfl hopen
          · rw [if_neg hclosed]
            dsimp only
            rw [List.forall_mem_cons, List.length_cons, List.length_cons, Nat.succ_lt_succ_iff]
            refine Iff.trans ⟨fun h => ⟨h.1, h.2.1.2, h.2.2⟩,
              fun h => ⟨h.1, ⟨decide_eq_true rfl, h.2.1⟩, h.2.2⟩⟩ ((ih rest.tail).trans ?_)
            refine ⟨.goesOn hpasses hclosed, fun h => ?_⟩
            cases h with
            | tooBig h => exact absurd hfits h
            | cut h => rw [(exchange_raises_iff hfits heard).mpr h] at hex; cases hex
            | leaves h =>
              rw [← hnext h] at hclosed
              exact absurd rfl hclosed
            | goesOn h _ hdodges =>
              rw [hnext h] at hdodges
              exact hdodges
        · -- a verdict that the engine failed
          have hfalse : decide (fills = expected it) = false := decide_eq_false hpass
          have hnot : ¬ Dodges wire (it :: its) heard := by
            intro h
            cases h with
            | tooBig h => exact absurd hfits h
            | cut h => rw [(exchange_raises_iff hfits heard).mpr h] at hex; cases hex
            | leaves h =>
              rw [(exchange_returns_iff hfits heard _).mpr h] at hex
              exact hpass (Outcome.returns.inj hex).1.symm
            | goesOn h =>
              rw [(exchange_returns_iff hfits heard _).mpr h] at hex
              exact hpass (Outcome.returns.inj hex).1.symm
          refine ⟨fun h => ?_, fun h => absurd h hnot⟩
          have hv : decide (fills = expected it) = true := by
            refine h.2.1 _ ?_
            split_ifs <;> exact List.mem_cons_self
          rw [hfalse] at hv
          cases hv
    · rw [rounds, exchange_of_not_sendable hfits]
      exact ⟨fun _ => .tooBig hfits, fun _ => ⟨nofun, nofun, Nat.succ_pos _⟩⟩

/-- No more verdicts than iterations. -/
theorem length_rounds_le (its : List ℕ) (heard : List (Heard Frame)) :
    (rounds wire its heard).1.length ≤ its.length := by
  induction its generalizing heard with
  | nil => exact le_rfl
  | cons it its ih =>
    rw [rounds]
    split
    · exact Nat.zero_le _
    · exact Nat.zero_le _
    · dsimp only
      split
      · exact Nat.succ_le_succ (Nat.zero_le _)
      · exact Nat.succ_le_succ (Nat.zero_le _)
      · exact Nat.succ_le_succ (ih _)

/-- **`run` ends before the last verdict, with all verdicts passed**, if and
only if the engine dodges. -/
theorem run_dodges_iff (n : ℕ) (heard : List (Heard Frame)) :
    (run wire n heard).2 ≠ .waiting ∧ (∀ v ∈ (run wire n heard).1, v = true)
        ∧ (run wire n heard).1.length < n
      ↔ Dodges wire (List.range' 1 n) heard := by
  have hrounds : _ ∧ (∀ v ∈ (rounds wire (List.range' 1 n) heard).1, v = true) ∧ _
      ↔ Dodges wire (List.range' 1 n) heard := rounds_dodges_iff _ heard
  rw [List.length_range'] at hrounds
  cases heard with
  | nil => exact hrounds
  | cons hd heard =>
    cases hd with
    | frame f => exact hrounds
    | silence => exact hrounds
    | closed =>
      refine ⟨fun h => ?_, fun h => ⟨nofun, nofun, ?_⟩⟩
      · cases n with
        | zero => exact absurd h.2.2 (lt_irrefl 0)
        | succ n => exact .cut (.closed (Nat.succ_pos _))
      · cases n with
        | zero => cases h
        | succ n => exact Nat.succ_pos n

/-- Nor in a whole run. -/
theorem length_run_le (n : ℕ) (heard : List (Heard Frame)) : (run wire n heard).1.length ≤ n := by
  have hle : ∀ heard, (rounds wire (List.range' 1 n) heard).1.length ≤ n :=
    fun heard => (length_rounds_le _ heard).trans_eq List.length_range'
  unfold run
  split
  · exact hle _
  · exact Nat.zero_le n

end Probe

/-- The counters after the probe: each verdict as it came. -/
def Stats.probed (s : Stats) (verdicts : List Bool) : Stats := verdicts.foldl Stats.verdict s

end Fleet
