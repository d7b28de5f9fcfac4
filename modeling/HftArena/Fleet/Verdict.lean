import HftArena.Fleet.Probe

/-!
# What a verdict of the probe says

An iteration is passed on two fills: the probe reads no further, and takes any
frame for the answer to an order or to the cancel. Fills of the taker that come
with the answers or after those two are in the session without its noticing.

A passed iteration says that the two expected fills are among the taker's, in
order (`sublist_of_passed`); they are all of them if and only if there are no
more than two (`fillsOf_eq_iff`).
-/

open Wire

namespace Fleet

namespace Probe

variable {wire : Wire.Mode}

/-- **The fills of a taker** that the engine emits in a session, as the probe
would read them, whenever they come. -/
def fillsOf (wire : Wire.Mode) (taker : ℤ) (heard : List (Heard Frame)) : List Fill :=
  heard.filterMap (fun h =>
    match h with
    | .frame f =>
      match readFill taker wire f with
      | .fill g => some g
      | _ => none
    | _ => none)

/-- What is passed is among what is emitted, before what comes next. -/
theorem Passes.sublist {tk : ℤ} {rest heard : List (Heard Frame)} {answers : ℕ} {fills : List Fill}
    (h : Passes wire tk rest answers fills heard) :
    (fills ++ fillsOf wire tk rest).Sublist (fillsOf wire tk heard) := by
  have hcons : ∀ (h : Heard Frame) (heard : List (Heard Frame)),
      (fillsOf wire tk heard).Sublist (fillsOf wire tk (h :: heard)) := fun h heard =>
    (List.sublist_cons_self h heard).filterMap _
  induction h with
  | done => exact List.Sublist.refl _
  | quiet _ ih => exact ih.trans (hcons _ _)
  | answer f _ ih => exact ih.trans (hcons _ _)
  | other f _ _ ih => exact ih.trans (hcons _ _)
  | @fill g fills heard f hread _ ih =>
    have hemits : fillsOf wire tk (.frame f :: heard) = g :: fillsOf wire tk heard := by
      unfold fillsOf
      rw [List.filterMap_cons_some (by dsimp only; rw [hread])]
    rw [hemits]
    exact ih.cons_cons g

/-- Each part of a session hears in order what there is, and skips nothing for
later. -/
theorem inOrder_say (m : Msg) : Session.InOrder (say wire m) :=
  (Session.InOrder.require _).bind (fun _ => .send)

theorem inOrder_expectFills (tk : ℤ) (n : ℕ) (got : List Fill) :
    Session.InOrder (expectFills wire tk n got) := by
  intro heard fills rest h
  induction heard generalizing got with
  | nil => cases h; exact List.suffix_refl _
  | cons hd heard ih =>
    -- With enough fills it hears nothing more.
    rcases le_or_gt n got.length with hle | hlt
    · rw [expectFills_of_le hle] at h
      cases h
      exact List.suffix_refl _
    · cases hd with
      | silence =>
        rw [expectFills_silence hlt] at h
        cases h
        exact List.suffix_cons _ _
      | closed =>
        rw [expectFills_closed hlt] at h
        cases h
      | frame f =>
        rw [expectFills_frame hlt] at h
        cases hread : readFill tk wire f with
        | ignored =>
          rw [hread] at h
          exact (ih got h).trans (List.suffix_cons _ _)
        | fill g =>
          rw [hread] at h
          exact (ih (got ++ [g]) h).trans (List.suffix_cons _ _)
        | raises =>
          rw [hread] at h
          cases h

theorem inOrder_exchange (it : ℕ) : Session.InOrder (exchange wire it) :=
  (inOrder_say _).bind fun _ => Session.InOrder.recv.bind fun _ =>
    (inOrder_say _).bind fun _ => Session.InOrder.recv.bind fun _ =>
      (inOrder_say _).bind fun _ => Session.InOrder.recv.bind fun _ => inOrder_expectFills _ _ _

theorem inOrder_cleanUp (it : ℕ) : Session.InOrder (cleanUp wire it) :=
  (inOrder_say _).bind fun _ => Session.InOrder.recvFor.bind fun _ => .pure ()

/-- An iteration with the verdict passed was passed by the engine, at some
point of the session. -/
theorem passes_of_rounds {its : List ℕ} {heard : List (Heard Frame)} {k : ℕ}
    (h : (rounds wire its heard).1[k]? = some true) :
    ∃ it, its[k]? = some it ∧ ∃ start rest, start <:+ heard
      ∧ Passes wire (taker it) rest 3 (expected it) start := by
  induction its generalizing heard k with
  | nil => cases h
  | cons it its ih =>
    rw [rounds] at h
    cases hex : exchange wire it heard with
    | waits => rw [hex] at h; cases h
    | raises => rw [hex] at h; cases h
    | returns fills rest =>
      rw [hex] at h
      dsimp only at h
      cases k with
      | zero =>
        -- the verdict of this iteration
        have hpass : fills = expected it := by
          have hv : decide (fills = expected it) = true := by
            split at h <;> exact Option.some.inj h
          exact of_decide_eq_true hv
        subst hpass
        have hfits : Sendable wire it := by
          by_contra hnot
          rw [exchange_of_not_sendable hnot] at hex
          cases hex
        exact ⟨it, rfl, heard, rest, List.suffix_refl _,
          (exchange_returns_iff hfits heard rest).mp hex⟩
      | succ k =>
        split at h
        · cases h
        · cases h
        · rename_i u rest' hclean
          obtain ⟨it', hit', start, next, hstart, hpasses⟩ := ih h
          refine ⟨it', hit', start, next, hstart.trans ?_, hpasses⟩
          exact (inOrder_cleanUp it _ _ _ hclean).trans (inOrder_exchange it _ _ _ hex)

/-- **What a passed iteration says**: the expected fills are among those of its
taker, in order. -/
theorem sublist_of_passed {n : ℕ} {heard : List (Heard Frame)} {k : ℕ}
    (h : (run wire n heard).1[k]? = some true) :
    (expected (k + 1)).Sublist (fillsOf wire (taker (k + 1)) heard) := by
  have hrounds : (rounds wire (List.range' 1 n) heard).1[k]? = some true := by
    cases heard with
    | nil => exact h
    | cons hd heard =>
      cases hd with
      | frame f => exact h
      | silence => exact h
      | closed => cases h
  obtain ⟨it, hit, start, rest, hstart, hpasses⟩ := passes_of_rounds hrounds
  have hk : it = k + 1 := by
    rw [List.getElem?_eq_some_iff] at hit
    obtain ⟨hlt, rfl⟩ := hit
    rw [List.getElem_range']
    omega
  subst hk
  exact (List.sublist_append_left _ _).trans (hpasses.sublist.trans (hstart.sublist.filterMap _))

/-- **When a passed iteration had exactly the right fills**: the engine emits
no more than two for its taker in the whole session. It emits two at least, or
it would not have passed.

The session is all that is heard, from the first iteration to the last and
after it, since a fill may come at any time. -/
theorem fillsOf_eq_iff (wire : Wire.Mode) (n : ℕ) (heard : List (Heard Frame)) (k : ℕ)
    (hpassed : (run wire n heard).1[k]? = some true) :
    fillsOf wire (taker (k + 1)) heard = expected (k + 1)
      ↔ (fillsOf wire (taker (k + 1)) heard).length ≤ 2 := by
  constructor
  · intro h
    rw [h]
    exact le_rfl
  · intro hlen
    exact ((sublist_of_passed hpassed).eq_of_length_le hlen).symm

/-- A fill in the binary format. -/
def fillFrame (taker px qty maker : ℤ) : Frame :=
  .binary ((pack fillFormat [2, taker, px, qty, maker]).getD [])

/-- The answers and the two fills of a correct engine in the first
iteration. -/
def firstReplies : List (Heard Frame) :=
  [.frame (.binary [1]), .frame (.binary [1]), .frame (.binary [1]),
    .frame (fillFrame (taker 1) (px 1) 5 (makerA 1)),
    .frame (fillFrame (taker 1) (px 1) 1 (makerB 1))]

/-- The engine sends the two fills and answers the cancel. -/
theorem fillsOf_firstReplies :
    fillsOf .binary (taker 1) (firstReplies ++ [.frame (.binary [1])]) = expected 1 :=
  (fillsOf_eq_iff .binary 1 (firstReplies ++ [.frame (.binary [1])]) 0 (by decide +kernel)).mpr
    (by decide +kernel)

/-- **A third fill goes unnoticed**: the engine fills the taker once more,
against the second maker, and the probe takes that for the answer to the
cancel. -/
theorem passed_with_third_fill :
    (run .binary 1 (firstReplies ++ [.frame (fillFrame (taker 1) (px 1) 4 (makerB 1))])).1[0]?
        = some true
      ∧ fillsOf .binary (taker 1)
        (firstReplies ++ [.frame (fillFrame (taker 1) (px 1) 4 (makerB 1))]) ≠ expected 1 := by
  decide +kernel

end Probe

end Fleet
