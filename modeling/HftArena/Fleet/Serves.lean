import HftArena.Engine.Laws
import HftArena.Fleet.Peers
import HftArena.Wire.Served

/-!
# The probe and an engine that serves it

What the probe needs of an engine, said once for all of them: the handler
acknowledges a message of the probe and sends the fills of the abstract book
(`Probe.Serves`). An engine that does passes every iteration and shows the same
book afterwards, whatever it has been through, as long as the probe's prices
and identifiers are not in use (`Serves.accepts`).

In JSON the numbers have 64 bits, in the binary format a price has 32. The
messages of the probe are small in this sense for as many iterations as there
is `Room` for.
-/

open PriceTime Wire

namespace Fleet

namespace Probe

/-! ## The messages, as the engines read them

Each message is one call, in the fields of JSON as well as in the layout of the
binary format. -/

/-- The fields of a message. -/
def Msg.message : Msg → Message
  | .limit oid buy px qty => ⟨some "limit", some (.ofNat oid.toNat),
      some (if buy then "buy" else "sell"), some px, some qty, none⟩
  | .cancel oid target => ⟨some "cancel", some (.ofNat oid.toNat), none, none, none,
      some (.ofNat target.toNat)⟩

/-- The call of the book that a message asks for. -/
def Msg.bookCall : Msg → Call UInt64
  | .limit oid buy px qty => .limit (.ofNat oid.toNat) (if buy then .bid else .ask) px qty
  | .cancel _ target => .cancel (.ofNat target.toNat)

/-- Its numbers have room in 64 bits. -/
def Msg.Small : Msg → Prop
  | .limit oid _ px qty => (0 ≤ oid ∧ oid < 2 ^ 64) ∧ (-2 ^ 63 ≤ px ∧ px < 2 ^ 63)
      ∧ -2 ^ 63 ≤ qty ∧ qty < 2 ^ 63
  | .cancel oid target => (0 ≤ oid ∧ oid < 2 ^ 64) ∧ 0 ≤ target ∧ target < 2 ^ 64

/-- An identifier that has 64 bits is what it was made of. -/
theorem toNat_ofNat {oid : ℤ} (h : 0 ≤ oid ∧ oid < 2 ^ 64) :
    ((UInt64.ofNat oid.toNat).toNat : ℤ) = oid := by
  rw [UInt64.toNat_ofNat', Nat.mod_eq_of_lt (by omega)]
  omega

/-- The message asks for its call. -/
theorem Msg.call_message (m : Msg) : m.message.call = some m.bookCall := by
  cases m with
  | limit oid buy px qty => cases buy <;> rfl
  | cancel oid target => rfl

/-- **The request that a message is in the binary format.** -/
def Msg.request : Msg → Request
  | .limit oid buy px qty => ⟨limitType, if buy then 0 else 1, .ofNat oid.toNat, px, qty, 0⟩
  | .cancel oid target => ⟨cancelType, 0, .ofNat oid.toNat, 0, 0, .ofNat target.toNat⟩

/-- So does its binary request. -/
theorem Msg.call_request (m : Msg) : m.request.call = m.bookCall := by
  cases m with
  | limit oid buy px qty => cases buy <;> rfl
  | cancel oid target => rfl

/-- **A message that has room is the frame of its request.** -/
theorem Msg.frame_binary {m : Msg} (hfits : m.Fits .binary) (hsmall : m.Small) :
    ∃ data, m.frame .binary = .binary data ∧ data.length = 26 ∧ requestOf data = m.request := by
  obtain ⟨data, hdata, hframe⟩ : ∃ data, pack reqFormat m.request.values = some data
      ∧ m.frame .binary = .binary data := by
    cases m with
    | limit oid buy px qty =>
      obtain ⟨data, hdata⟩ := Option.isSome_iff_exists.mp hfits
      refine ⟨data, ?_, ?_⟩
      · show pack reqFormat
          [limitType, if buy then 0 else 1, (UInt64.ofNat oid.toNat).toNat, px, qty, 0] = some data
        rw [toNat_ofNat hsmall.1]
        exact hdata
      · show Frame.binary ((encLimit oid buy px qty).getD []) = .binary data
        rw [hdata]
        rfl
    | cancel oid target =>
      obtain ⟨data, hdata⟩ := Option.isSome_iff_exists.mp hfits
      refine ⟨data, ?_, ?_⟩
      · show pack reqFormat [cancelType, 0, (UInt64.ofNat oid.toNat).toNat, 0, 0,
          (UInt64.ofNat target.toNat).toNat] = some data
        rw [toNat_ofNat hsmall.1, toNat_ofNat hsmall.2]
        exact hdata
      · show Frame.binary ((encCancel oid target).getD []) = .binary data
        rw [hdata]
        rfl
  have hholds := isSome_pack_iff.mp (Option.isSome_iff_exists.mpr ⟨data, hdata⟩)
  have hpacked : data = packed reqFormat m.request.values :=
    Option.some_inj.mp (hdata.symm.trans (pack_of_holds hholds))
  have hroom : m.request.Fits := by
    simp only [reqFormat, Request.values, List.forall₂_cons] at hholds
    exact ⟨hholds.1, hholds.2.1, hholds.2.2.2.1, hholds.2.2.2.2.1⟩
  obtain ⟨hlen, hmtype, hside, hid, hpx, hqty, htarget⟩ := hroom.slices
  refine ⟨data, hframe, hpacked ▸ hlen, ?_⟩
  rw [hpacked, requestOf, hmtype, hside, hid, hpx, hqty, htarget]

/-! ## What is asked of an engine

To acknowledge, and to send the fills of an abstract book that it shows.
Nothing is asked of it for other messages. -/

/-- **The frame of a fill**, in the format of the wire: what a handler of any
of the engines sends for it. -/
def fillSent (wire : Wire.Mode) (oid : ℤ) (f : PriceTime.Fill UInt64) : Frame :=
  match wire with
  | .binary => .binary (packed Wire.fillFormat [2, oid, f.px, f.qty, f.maker.toNat])
  | .json _ => .text (PyEngine.fillText (PyId.int oid : ℤ) ⟨f.px, f.qty, PyId.int f.maker.toNat⟩)

/-- **A handler serves the probe**: it acknowledges a message and sends the
fills of the abstract book, which it goes on showing. It is asked for messages
only that have room, and on books on which they do not merge two orders. -/
def Serves {β : Type} (onFrame : β → Instant → Frame → Option (β × List Frame))
    (Rel : β → Book UInt64 → Prop) (wire : Wire.Mode) : Prop :=
  ∀ (b : β) (B : Book UInt64) (m : Msg) (now : Instant), Rel b B → B.Settles m.bookCall →
    m.Fits wire → m.Small →
    ∃ b' ack, onFrame b now (m.frame wire)
        = some (b', ack :: (B.step m.bookCall).2.map (fillSent wire m.oid))
      ∧ Rel b' (B.step m.bookCall).1

/-- An engine with one connection, and what its handler makes of a frame. -/
structure Peer (β : Type) where
  book : β
  /-- The frames it has handled. -/
  handled : ℕ
  serving : Bool

/-- The engine gets a frame: what the handler sends is what there is to
hear. -/
def Peer.answer {β : Type} (onFrame : β → Instant → Frame → Option (β × List Frame))
    (clock : ℕ → Instant) (f : Frame) (s : Peer β) : List (Heard Frame) × Peer β :=
  if s.serving then
    match onFrame s.book (clock s.handled) f with
    | some (b, frames) => (frames.map .frame, ⟨b, s.handled + 1, true⟩)
    | none => ([.closed], { s with serving := false })
  else ([], s)

/-- An engine that answers goes on. -/
theorem Peer.answer_of_some {β : Type} {onFrame : β → Instant → Frame → Option (β × List Frame)}
    (clock : ℕ → Instant) {f : Frame} {b b' : β} {k : ℕ} {frames : List Frame}
    (h : onFrame b (clock k) f = some (b', frames)) :
    Peer.answer onFrame clock f ⟨b, k, true⟩ = (frames.map .frame, ⟨b', k + 1, true⟩) := by
  rw [Peer.answer, if_pos rfl]
  dsimp only
  rw [h]

/-- **The probe's prices and identifiers are not in use**: the bids are at most
at 50000, the asks above the prices of all iterations, and no maker's id
rests. -/
structure Quiet (levels : Side → Ladder UInt64) (n : ℕ) : Prop where
  bids : ∀ p ∈ (levels .bid).prices, p ≤ 50000
  asks : ∀ p ∈ (levels .ask).prices, 50000 + n < p
  makers : ∀ it, 1 ≤ it → it ≤ n → ∀ s, UInt64.ofNat (makerA it).toNat ∉ Ladder.ids (levels s)
    ∧ UInt64.ofNat (makerB it).toNat ∉ Ladder.ids (levels s)

/-- There is room for what the iterations send. -/
def Room (wire : Wire.Mode) (n : ℕ) : Prop :=
  match wire with
  | .binary => 50000 + n < 2 ^ 31
  | .json _ => 1000000000000004 + 10 * n < 2 ^ 64

/-- In either format there is room for the identifiers. -/
theorem Room.le {wire : Wire.Mode} {n : ℕ} (h : Room wire n) :
    1000000000000004 + 10 * n < 2 ^ 64 := by
  cases wire with
  | binary =>
    have h : 50000 + n < 2 ^ 31 := h
    omega
  | json loads => exact h

/-- The fills of an iteration are read back. -/
theorem readFill_fillSent {wire : Wire.Mode} (hwire : ReadsFlat wire) {it : ℕ}
    (hfits : Sendable wire it) {qty : ℤ} (hqty : 0 ≤ qty) (hqty' : qty ≤ 6) {maker : ℤ}
    (hmaker : maker = makerA it ∨ maker = makerB it) (hsmall : 0 ≤ maker ∧ maker < 2 ^ 64) :
    readFill (taker it) wire (fillSent wire (taker it) ⟨px it, qty, .ofNat maker.toNat⟩)
      = .fill (.num maker, .num qty) := by
  cases wire with
  | binary =>
    obtain ⟨data, hdata⟩ := Option.isSome_iff_exists.mp (pack_fill hfits hqty hqty' hmaker)
    have hpacked : data = packed Wire.fillFormat [2, taker it, px it, qty, maker] :=
      Option.some_inj.mp (hdata.symm.trans
        (pack_of_holds (isSome_pack_iff.mp (Option.isSome_iff_exists.mpr ⟨data, hdata⟩))))
    rw [fillSent]
    dsimp only
    rw [toNat_ofNat hsmall, ← hpacked]
    exact readFill_binary hdata
  | json loads =>
    rw [fillSent]
    dsimp only
    rw [toNat_ofNat hsmall]
    exact readFill_json hwire (taker it) (px it) qty maker

/-- **An iteration with an engine that serves the probe** goes the way of the
abstract book. -/
theorem Serves.answers {β : Type} {onFrame : β → Instant → Frame → Option (β × List Frame)}
    {Rel : β → Book UInt64 → Prop} {wire : Wire.Mode} (h : Serves onFrame Rel wire)
    (hwire : ReadsFlat wire) (clock : ℕ → Instant) {n it : ℕ} (hit : 1 ≤ it) (hn : it ≤ n)
    (hroom : Room wire n) (hfits : Sendable wire it) {B : Book UInt64} (hwf : B.WF)
    (hquiet : Quiet B.ladder n) {b : β} (hrel : Rel b B) (k : ℕ) :
    ∃ b', Answers wire (Peer.answer onFrame clock) it ⟨b, k, true⟩ ⟨b', k + 4, true⟩
        (.num (makerA it), .num 5) (.num (makerB it), .num 1)
      ∧ Rel b' B := by
  have hle := hroom.le
  have hbase : ∀ d : ℤ, 0 ≤ d → d ≤ 4 →
      0 ≤ scenIdBase + it * 10 + d ∧ scenIdBase + it * 10 + d < 2 ^ 64 := by
    intro d hd hd'
    rw [scenIdBase]
    omega
  have hmakerA : 0 ≤ makerA it ∧ makerA it < 2 ^ 64 := hbase 1 (by decide) (by decide)
  have hmakerB : 0 ≤ makerB it ∧ makerB it < 2 ^ 64 := hbase 2 (by decide) (by decide)
  have htaker : 0 ≤ taker it ∧ taker it < 2 ^ 64 := hbase 3 (by decide) (by decide)
  have hlast : 0 ≤ taker it + 1 ∧ taker it + 1 < 2 ^ 64 := by
    rw [taker, add_assoc]
    exact hbase (3 + 1) (by decide) (by decide)
  have hpx : -2 ^ 63 ≤ px it ∧ px it < 2 ^ 63 := by
    rw [px]
    omega
  have hne : UInt64.ofNat (makerA it).toNat ≠ UInt64.ofNat (makerB it).toNat := by
    intro heq
    have hids := congrArg (fun i : UInt64 => (i.toNat : ℤ)) heq
    rw [toNat_ofNat hmakerA, toNat_ofNat hmakerB] at hids
    simp only [makerA, makerB] at hids
    omega
  obtain ⟨hmakersA, hmakersB⟩ : (∀ s, UInt64.ofNat (makerA it).toNat ∉ Ladder.ids (B.ladder s))
      ∧ ∀ s, UInt64.ofNat (makerB it).toNat ∉ Ladder.ids (B.ladder s) :=
    ⟨fun s => (hquiet.makers it hit hn s).1, fun s => (hquiet.makers it hit hn s).2⟩
  -- What the probe does to the abstract book, call by call.
  obtain ⟨B₁, B₂, B₃, hA, hB, hC, hX, hsettlesA, hsettlesB, hsettlesC⟩ := hwf.probe hne
    (UInt64.ofNat (taker it).toNat) (show (0 : ℤ) < 5 by decide) (show (5 : ℤ) < 6 by decide)
    (show (6 : ℤ) < 5 + 5 by decide)
    (fun p hp => by
      have hbid := hquiet.bids p hp
      show p < px it
      rw [px]
      omega)
    (fun p hp => by
      have hask := hquiet.asks p hp
      show px it < p
      rw [px]
      omega)
    (fun hrests => hrests.elim hmakersA) (fun hrests => hrests.elim hmakersB)
  obtain ⟨hfitsB, hfitsC, hfitsX⟩ := hfits.fits
  obtain ⟨b₁, ackA, hframeA, hrel₁⟩ := h b B (.limit (makerA it) true (px it) 5) (clock k) hrel
    hsettlesA hfits ⟨hmakerA, hpx, by decide, by decide⟩
  rw [show B.step (Msg.limit (makerA it) true (px it) 5).bookCall = _ from hA] at hframeA hrel₁
  obtain ⟨b₂, ackB, hframeB, hrel₂⟩ := h b₁ B₁ (.limit (makerB it) true (px it) 5) (clock (k + 1))
    hrel₁ hsettlesB hfitsB ⟨hmakerB, hpx, by decide, by decide⟩
  rw [show B₁.step (Msg.limit (makerB it) true (px it) 5).bookCall = _ from hB] at hframeB hrel₂
  obtain ⟨b₃, ackC, hframeC, hrel₃⟩ := h b₂ B₂ (.limit (taker it) false (px it) 6)
    (clock (k + 1 + 1)) hrel₂ hsettlesC hfitsC ⟨htaker, hpx, by decide, by decide⟩
  rw [show B₂.step (Msg.limit (taker it) false (px it) 6).bookCall = _ from hC] at hframeC hrel₃
  obtain ⟨b₄, ackX, hframeX, hrel₄⟩ := h b₃ B₃ (.cancel (taker it + 1) (makerB it))
    (clock (k + 1 + 1 + 1)) hrel₃ trivial hfitsX ⟨hlast, hmakerB⟩
  rw [show B₃.step (Msg.cancel (taker it + 1) (makerB it)).bookCall = _ from hX] at hframeX hrel₄
  have hreadA := readFill_fillSent hwire hfits (show (0 : ℤ) ≤ 5 by decide) (by decide) (.inl rfl)
    hmakerA
  have hreadB := readFill_fillSent hwire hfits (show (0 : ℤ) ≤ 6 - 5 by decide) (by decide)
    (.inr rfl) hmakerB
  exact ⟨b₄, ⟨⟨_, _, _, _, _, _, _, _, Peer.answer_of_some clock hframeA,
    Peer.answer_of_some clock hframeB, Peer.answer_of_some clock hframeC, hreadA, hreadB, _,
    Peer.answer_of_some clock hframeX⟩⟩, hrel₄⟩

/-- **The probe accepts an engine**: it passes every iteration, and shows the
same book afterwards, on every quiet book that the engine can come to. -/
def Accepts {β ε : Type} (E : BookEngine β ε)
    (onFrame : β → Instant → Frame → Option (β × List Frame)) (wire : Wire.Mode) (n : ℕ) : Prop :=
  ∀ (clock : ℕ → Instant) ops b, E.Reaches ops b → Quiet (E.depth b) n → ∃ b' k,
    runWith wire (Peer.answer onFrame clock) n [] ⟨b, 0, true⟩
        = ((List.replicate n true, .completed), ⟨b', k, true⟩)
      ∧ ∀ s, E.depth b' s = E.depth b s

/-- **An engine that serves the probe is accepted**: by induction on the
iterations, with the abstract book as what stays the same. -/
theorem Serves.accepts {β ε : Type} {E : BookEngine β ε}
    {onFrame : β → Instant → Frame → Option (β × List Frame)} {Rel : β → Book UInt64 → Prop}
    {wire : Wire.Mode} (h : Serves onFrame Rel wire) (hE : E.Faithful Rel)
    (hrelwf : ∀ b B, Rel b B → B.WF) (hwire : ReadsFlat wire) {n : ℕ} (hroom : Room wire n) :
    Accepts E onFrame wire n := by
  intro clock ops b hb hdepth
  obtain ⟨B, hrel, hwf⟩ := hE.reached hb hrelwf
  have hquiet : Quiet B.ladder n := by
    have hperm : ∀ s, (E.depth b s).Perm (B.ladder s) := fun s => by
      rw [hE.depth b B hrel]
      exact Ladder.ascending_perm s (B.ladder s)
    refine ⟨fun p hp => hdepth.bids p (((hperm _).map _).mem_iff.mpr hp),
      fun p hp => hdepth.asks p (((hperm _).map _).mem_iff.mpr hp), fun it h1 hn s => ?_⟩
    have hids : ∀ i, i ∈ Ladder.ids (E.depth b s) ↔ i ∈ Ladder.ids (B.ladder s) := fun i => by
      rw [hE.depth b B hrel, Ladder.mem_ids_ascending]
    rw [← hids, ← hids]
    exact hdepth.makers it h1 hn s
  have hsendable : ∀ it ∈ List.range' 1 n, Sendable wire it := by
    intro it hit
    rw [List.mem_range'_1] at hit
    cases wire with
    | binary =>
      have hroom : 50000 + n < 2 ^ 31 := hroom
      exact sendable_iff.mpr (by omega)
    | json loads => exact trivial
  have hpeer : ∀ it (st : Peer β), it < 1 + n →
      (1 ≤ it ∧ ∃ b k, st = ⟨b, k, true⟩ ∧ Rel b B) → Sendable wire it →
      ∃ st', Answers wire (Peer.answer onFrame clock) it st st' (.num (makerA it), .num 5)
          (.num (makerB it), .num 1)
        ∧ 1 ≤ it + 1 ∧ ∃ b k, st' = ⟨b, k, true⟩ ∧ Rel b B := by
    rintro it _ hn ⟨h1, b, k, rfl, hrel⟩ hfits
    obtain ⟨b', hanswers, hrel'⟩ :=
      h.answers hwire clock h1 (by omega) hroom hfits hwf hquiet hrel k
    exact ⟨_, hanswers, by omega, b', k + 4, rfl, hrel'⟩
  obtain ⟨_, hrounds, -, b', k, rfl, hrel'⟩ := roundsWith_peer _
    (fun it => ((.num (makerA it), .num 5), (.num (makerB it), .num 1))) hpeer n rfl
    ⟨le_rfl, b, 0, rfl, hrel⟩ hsendable
  have hverdicts : (List.range' 1 n).map (fun it =>
      decide ([((.num (makerA it), .num 5) : Fill), (.num (makerB it), .num 1)] = expected it))
      = List.replicate n true := by
    refine List.eq_replicate_iff.mpr ⟨by rw [List.length_map, List.length_range'], ?_⟩
    intro v hv
    obtain ⟨it, -, rfl⟩ := List.mem_map.mp hv
    exact decide_eq_true rfl
  dsimp only at hrounds
  rw [hverdicts] at hrounds
  refine ⟨b', k, hrounds, fun s => ?_⟩
  rw [hE.depth b' B hrel', hE.depth b B hrel]

end Probe

end Fleet
