import HftArena.PriceTime.Depth

/-!
# Identifiers that are used again

No engine checks that an identifier is unused, so a limit order can be
submitted under one that rests. It does no harm as long as the order is filled,
or as the other order is filled by it; it does where both rest in the end.
`Reuses` is that case, read off the book before the call: what rests on the
other side within the limit is less than what the order wants, and its
identifier rests on its own side or beyond its limit. On a well-formed book it
is the opposite of `Book.Settles` (`Book.WF.settles_iff`), which is all the
steps of an implementation need.
-/

namespace PriceTime

variable {ι : Type}

open Ladder

/-- The identifiers that rest at the prices of a kind. -/
def Ladder.idsAt (P : ℤ → Bool) (L : Ladder ι) : List ι := ids (L.filter (fun l => P l.1))

/-- **A limit order reuses an identifier**: it is not filled, and an order
under its identifier rests that it does not reach. An order that it reaches is
used up if it is not filled, so that one does not count. The ladders may be
given in any order of their levels. -/
def Reuses (ladder : Side → Ladder ι) : Call ι → Prop
  | .limit oid side px qty =>
    amount (side.opp.reaches (some px)) (ladder side.opp) < qty
      ∧ (oid ∈ ids (ladder side) ∨ oid ∈ idsAt (fun p => !side.opp.reaches (some px) p)
          (ladder side.opp))
  | _ => False

instance [DecidableEq ι] (ladder : Side → Ladder ι) (c : Call ι) : Decidable (Reuses ladder c) :=
  match c with
  | .limit _ _ _ _ => inferInstanceAs (Decidable (_ ∧ _))
  | .market _ _ _ => isFalse id
  | .cancel _ => isFalse id

/-- The order of the levels does not matter. -/
theorem reuses_congr {ladder ladder' : Side → Ladder ι} (h : ∀ s, (ladder s).Perm (ladder' s))
    (c : Call ι) : Reuses ladder c ↔ Reuses ladder' c := by
  have hids : ∀ {L L' : Ladder ι}, L.Perm L' → ∀ i, i ∈ ids L ↔ i ∈ ids L' := fun hperm i =>
    (hperm.flatMap_right _).mem_iff
  cases c with
  | limit oid side px qty =>
    have hfilter : ∀ P : ℤ → Bool, ((ladder side.opp).filter (fun l => P l.1)).Perm
        ((ladder' side.opp).filter (fun l => P l.1)) := fun P => (h side.opp).filter _
    show amount _ _ < qty ∧ (_ ∨ oid ∈ ids _) ↔ amount _ _ < qty ∧ (_ ∨ oid ∈ ids _)
    rw [amount_congr (h side.opp), hids (h side) oid,
      hids (hfilter fun p => !side.opp.reaches (some px) p) oid]
  | market oid side qty => exact Iff.rfl
  | cancel target => exact Iff.rfl

/-- **On a well-formed book, a call keeps identifiers apart exactly if it does
not reuse one.** The one is said of the book after the order has traded, the
other of the book as it is. -/
theorem Book.WF.settles_iff {b : Book ι} (h : b.WF) (c : Call ι) :
    b.Settles c ↔ ¬ Reuses b.ladder c := by
  cases c with
  | limit oid side px qty =>
    have hun := (h.side side.opp).unfilled_pos_iff (some px) qty
    show (0 < (b.sweep side (some px) qty).unfilled → ¬ (b.put side.opp _).Resting oid)
      ↔ ¬ (amount _ _ < qty ∧ (_ ∨ oid ∈ idsAt _ _))
    rw [Book.sweep, hun, not_and]
    refine imp_congr_right (fun hpos => not_congr ?_)
    rw [sweep_left_of_unfilled_pos (hun.mpr hpos), idsAt,
      ← ((h.side side.opp).filter_reaches (some px)).2]
    constructor
    · rintro ⟨s, hs⟩
      by_cases hside : s = side.opp
      · subst hside
        rw [Book.ladder_put_self] at hs
        exact Or.inr hs
      · have hown : s = side := by
          cases s <;> cases side <;> first | rfl | exact absurd rfl hside
        subst hown
        rw [Book.ladder_put_opp] at hs
        exact Or.inl hs
    · rintro (hs | hs)
      · exact ⟨side, by rwa [Book.ladder_put_opp]⟩
      · exact ⟨side.opp, by rwa [Book.ladder_put_self]⟩
  | market oid side qty => exact iff_of_true trivial id
  | cancel target => exact iff_of_true trivial id

end PriceTime
