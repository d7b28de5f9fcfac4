import HftArena.Adversarial.CheatBook
import HftArena.PriceTime.Volume

/-!
# The cheat is in who trades, and nowhere else

As long as nothing is cancelled, `cheater.py` cannot be told from the reference
engine by prices and quantities: order by order, both trade as much at each
price, and both books hold as much at each (`same_volumes`). Only the makers of
the fills differ, which is why the probe asks for these.

Its match is the reference engine's in the mirror, and a level and its mirror
image have the same volume; what is traded where depends on the volumes only.
Cancels are left out, because an id can stand for different amounts on the two
books: which order of a price is gone depends on who was served first.
-/

open PriceTime PyEngine

namespace Cheater

variable {ι : Type}

/-- The queue at a price is turned round. -/
theorem queue_mirrorHalf (h : Half ι) (p : ℤ) : (mirrorHalf h).queue p = (h.queue p).reverse := by
  unfold Half.queue mirrorHalf
  dsimp only
  rw [get?_mirrorLevels]
  cases h.levels.get? p <;> rfl

/-- A side of the mirrored book is the side in the mirror. -/
theorem half_mirror (b : OrderBook ι) (side : String) :
    (mirror b).half side = mirrorHalf (b.half side) := by
  unfold OrderBook.half
  split_ifs <;> rfl

/-- The mirror image of a sound side is sound. -/
theorem wf_mirrorHalf {h : Half ι} (hwf : h.WF) : (mirrorHalf h).WF := by
  have hkeys : (mirrorLevels h.levels).keys = h.levels.keys := List.map_map
  have hentry : ∀ e ∈ (mirrorLevels h.levels).entries,
      ∃ e' ∈ h.levels.entries, e.2.entries = e'.2.entries.reverse := by
    intro e he
    obtain ⟨e', he', rfl⟩ := List.mem_map.mp he
    exact ⟨e', he', rfl⟩
  refine ⟨hwf.sorted, fun p => ?_, fun e he => ?_, fun e he => ?_⟩
  · show p ∈ h.prices ↔ p ∈ (mirrorLevels h.levels).keys
    rw [hkeys]
    exact hwf.mem_prices p
  · obtain ⟨e', he', heq⟩ := hentry e he
    rw [heq]
    exact fun hnil => hwf.nonempty e' he' (List.reverse_eq_nil_iff.mp hnil)
  · obtain ⟨e', he', heq⟩ := hentry e he
    rw [heq]
    exact fun x hx => hwf.positive e' he' x (List.mem_reverse.mp hx)

/-- The mirror image of a sound book is sound. -/
theorem halvesWF_mirror {b : OrderBook ι} (hb : b.HalvesWF) : (mirror b).HalvesWF := by
  intro s
  rw [half_mirror]
  exact wf_mirrorHalf (hb s)

/-- A book is the mirror image of its own. -/
theorem mirror_mirror (b : OrderBook ι) : mirror (mirror b) = b := by
  unfold mirror
  dsimp only
  rw [mirrorLevels_mirrorLevels, mirrorLevels_mirrorLevels]

/-- **A book and its mirror image have the same volumes.** -/
theorem volume_mirror {b : OrderBook ι} (hb : b.HalvesWF) (s : Side) (p : ℤ) :
    Ladder.volume ((mirror b).ladder s) p = Ladder.volume (b.ladder s) p := by
  have hqueue : Ladder.queueAt ((mirror b).ladder s) p = (Ladder.queueAt (b.ladder s) p).reverse := by
    show Ladder.queueAt (((mirror b).half s.word).ladder s) p = _
    rw [(halvesWF_mirror hb s).queueAt, half_mirror, queue_mirrorHalf]
    exact congrArg List.reverse ((hb s).queueAt s p).symm
  rw [Ladder.volume, hqueue, PriceTime.total, List.map_reverse, List.sum_reverse]
  rfl

variable [DecidableEq ι]

/-- **`_match` of the cheat**: it makes the fills of the mirror image's sweep,
and at each price as much is left as after that sweep. -/
theorem match_spec {c : CheatBook ι} (hc : OrderBook.HalvesWF c) (side : String)
    (limitPx : Option ℤ) (qty : ℤ) :
    ∃ c' : CheatBook ι, c.match side limitPx qty
        = .ok (((mirror c).book.sweep (sideOf side) limitPx qty).fills,
            ((mirror c).book.sweep (sideOf side) limitPx qty).unfilled, c')
      ∧ OrderBook.HalvesWF c'
      ∧ ∀ s p, Ladder.volume (OrderBook.ladder c' s) p
        = Ladder.volume (((mirror c).book.put (sideOf side).opp
            ((mirror c).book.sweep (sideOf side) limitPx qty).left).ladder s) p := by
  obtain ⟨m, hmatch, hm, hbook, -⟩ := OrderBook.match_eq_sweep (halvesWF_mirror hc) side limitPx qty
  have hcheat := match_mirror (mirror c) side limitPx qty
  rw [mirror_mirror, hmatch] at hcheat
  refine ⟨mirror m, hcheat, halvesWF_mirror hm, fun s p => ?_⟩
  rw [volume_mirror hm, ← hbook]
  rfl

omit [DecidableEq ι] in
/-- The amounts of a level after one is written. -/
theorem total_setEntries [DecidableEq ι] (i : ι) (a : ℤ) (l : List (ι × ℤ)) :
    PriceTime.total (Dict.setEntries i a l) + (Entries.lookup l i).getD 0
      = PriceTime.total l + a := by
  induction l with
  | nil => exact (add_comm _ _).trans (congrArg (0 + ·) (add_zero a))
  | cons e l ih =>
    unfold Entries.lookup at ih ⊢
    rw [Dict.setEntries, List.find?_cons]
    by_cases he : e.1 = i
    · rw [if_pos he, decide_eq_true he, total_cons, total_cons]
      show a + PriceTime.total l + e.2 = _
      omega
    · rw [if_neg he, decide_eq_false he, total_cons, total_cons, add_assoc, add_assoc]
      exact congrArg (e.2 + ·) ih

/-- **What rests adds to the volume of its price**, whoever's it is. -/
theorem volume_rest {b : OrderBook ι} (hb : b.HalvesWF) (side : String) (px : ℤ) (oid : ι) {qty : ℤ}
    (hqty : 0 < qty) (s : Side) (p : ℤ) :
    Ladder.volume ((b.rest side px oid qty).ladder s) p
      = Ladder.volume (b.ladder s) p + if s = sideOf side ∧ p = px then qty else 0 := by
  obtain ⟨level, hlevel, -, -, hqueue⟩ := OrderBook.rest_spec hb side px oid hqty
  rw [Ladder.volume, hqueue]
  split_ifs with h
  · obtain ⟨rfl, rfl⟩ := h
    have htotal := total_setEntries oid ((level.get? oid).getD 0 + qty) level.entries
    rw [Ladder.volume, ← hlevel]
    show PriceTime.total (Dict.setEntries _ _ _) = _
    unfold Dict.get? at htotal ⊢
    omega
  · exact (add_zero _).symm

/-- **Both books hold as much at each price**, and both are sound. This is the
invariant of a run without cancels. -/
structure SameVolumes (b : OrderBook ι) (c : CheatBook ι) : Prop where
  honest : b.HalvesWF
  cheat : OrderBook.HalvesWF c
  volume : ∀ s p, Ladder.volume (b.ladder s) p = Ladder.volume (OrderBook.ladder c s) p

/-- **A match** trades as much at each price, and as much of it stays
unfilled. -/
theorem SameVolumes.match {b : OrderBook ι} {c : CheatBook ι} (h : SameVolumes b c) (side : String)
    (limitPx : Option ℤ) (qty : ℤ) :
    ∃ b' c' fills fills' rem, b.match side limitPx qty = .ok (fills, rem, b')
      ∧ c.match side limitPx qty = .ok (fills', rem, c')
      ∧ (∀ p, Ladder.tradedAt p fills = Ladder.tradedAt p fills') ∧ SameVolumes b' c' := by
  obtain ⟨b', hmatch, hb', hbook, -⟩ := OrderBook.match_eq_sweep h.honest side limitPx qty
  obtain ⟨c', hcheat, hc', hvolume'⟩ := match_spec h.cheat side limitPx qty
  have hvolume : ∀ s p, Ladder.volume (b.ladder s) p = Ladder.volume ((mirror c).ladder s) p :=
    fun s p => (h.volume s p).trans (volume_mirror h.cheat s p).symm
  have hwf := h.honest.ladder (sideOf side).opp
  have hwf' := (halvesWF_mirror h.cheat).ladder (sideOf side).opp
  -- how much is traded at a price depends on the volumes only
  have htraded := fun p => hwf.tradedAt_congr hwf' (hvolume _) limitPx qty p
  have hunfilled := hwf.unfilled_congr hwf' (hvolume _) limitPx qty
  refine ⟨b', c', _, _, _, hmatch, hcheat.trans ?_, htraded, hb', hc', fun s p => ?_⟩
  · exact congrArg (fun rem => Except.ok (_, rem, c')) hunfilled.symm
  · rw [hvolume' s p]
    show Ladder.volume (b'.book.ladder s) p = _
    rw [hbook]
    -- what is traded is gone from the other side, on both books
    by_cases hs : s = (sideOf side).opp
    · subst hs
      rw [Book.ladder_put_self, Book.ladder_put_self]
      show Ladder.volume (Ladder.sweep _ _ _).left p = Ladder.volume (Ladder.sweep _ _ _).left p
      rw [Ladder.volume_sweep, Ladder.volume_sweep]
      exact congrArg₂ (· - ·) (hvolume _ p) (htraded p)
    · rw [Book.ladder_put_of_ne hs, Book.ladder_put_of_ne hs]
      exact hvolume s p

/-- **An order that is not a cancel.** -/
theorem SameVolumes.call {b : OrderBook ι} {c : CheatBook ι} (h : SameVolumes b c) {op : PyCall ι}
    (hop : ∀ target, op ≠ .cancel target) :
    ∃ b' c' fills fills', b.call op = .ok (b', fills) ∧ c.call op = .ok (c', fills')
      ∧ (∀ p, Ladder.tradedAt p fills = Ladder.tradedAt p fills') ∧ SameVolumes b' c' := by
  cases op with
  | limit oid side px qty =>
    obtain ⟨b', c', fills, fills', rem, hmatch, hcheat, htraded, h'⟩ := h.match side (some px) qty
    refine ⟨if 0 < rem then b'.rest side px oid rem else b',
      if 0 < rem then OrderBook.rest c' side px oid rem else c', fills, fills', ?_, ?_, htraded, ?_⟩
    · show b.limit oid side px qty = _
      rw [OrderBook.limit, hmatch]
      rfl
    · show c.limit oid side px qty = _
      rw [CheatBook.limit, hcheat]
      rfl
    · split_ifs with hrem
      · obtain ⟨-, -, hhonest, -⟩ := OrderBook.rest_spec h'.honest side px oid hrem
        obtain ⟨-, -, hcheat, -⟩ := OrderBook.rest_spec h'.cheat side px oid hrem
        refine ⟨hhonest, hcheat, fun s p => ?_⟩
        rw [volume_rest h'.honest side px oid hrem, volume_rest h'.cheat side px oid hrem, h'.volume]
      · exact h'
  | market oid side qty =>
    obtain ⟨b', c', fills, fills', rem, hmatch, hcheat, htraded, h'⟩ := h.match side none qty
    refine ⟨b', c', fills, fills', ?_, ?_, htraded, h'⟩
    · show b.market side qty = _
      rw [OrderBook.market, hmatch]
      rfl
    · show c.market side qty = _
      rw [CheatBook.market, hcheat]
      rfl
  | cancel target => exact absurd rfl (hop target)

/-- **The cheat cannot be told by prices and quantities**: along any orders of
which none is a cancel, each trades as much at each price as with the reference
engine, and the books hold as much at each.

So a check that adds up volumes passes it. What gives it away is whose orders
are filled, and that is what the probe looks at. -/
theorem same_volumes (ops : List (PyCall ι)) (hops : ∀ op ∈ ops, ∀ target, op ≠ .cancel target) :
    ∃ b outs c outs', run OrderBook.call .init ops = .ok (b, outs)
      ∧ run CheatBook.call (OrderBook.init : CheatBook ι) ops = .ok (c, outs')
      ∧ List.Forall₂ (fun fills fills' => ∀ p, Ladder.tradedAt p fills = Ladder.tradedAt p fills')
        outs outs'
      ∧ ∀ s p, Ladder.volume (b.ladder s) p = Ladder.volume (OrderBook.ladder c s) p := by
  have hinit : SameVolumes (OrderBook.init : OrderBook ι) OrderBook.init :=
    ⟨sound_init.half, sound_init.half, fun _ _ => rfl⟩
  have hstep : ∀ (b : OrderBook ι) (c : CheatBook ι), ∀ op ∈ ops, SameVolumes b c →
      ∃ b' c' fills fills', OrderBook.call b op = .ok (b', fills)
        ∧ CheatBook.call c op = .ok (c', fills')
        ∧ (∀ p, Ladder.tradedAt p fills = Ladder.tradedAt p fills') ∧ SameVolumes b' c' :=
    fun _ _ op hop h => h.call (hops op hop)
  obtain ⟨b, c, outs, outs', hrun, hcheat, houts, h⟩ := run_related SameVolumes
    (fun fills fills' => ∀ p, Ladder.tradedAt p fills = Ladder.tradedAt p fills') hstep hinit
  exact ⟨b, outs, c, outs', hrun, hcheat, houts, h.volume⟩

/-- Two makers and a taker: the same volumes from other makers. -/
theorem same_volumes_of_probe :
    ∃ b outs c outs', run OrderBook.call .init
        [.limit 1 "buy" 10 5, .limit (2 : ℤ) "buy" 10 5, .limit 3 "sell" 10 6] = .ok (b, outs)
      ∧ run CheatBook.call (OrderBook.init : CheatBook ℤ)
        [.limit 1 "buy" 10 5, .limit 2 "buy" 10 5, .limit 3 "sell" 10 6] = .ok (c, outs')
      ∧ List.Forall₂ (fun fills fills' => ∀ p, Ladder.tradedAt p fills = Ladder.tradedAt p fills')
        outs outs'
      ∧ ∀ s p, Ladder.volume (b.ladder s) p = Ladder.volume (OrderBook.ladder c s) p :=
  same_volumes _ (by simp)

end Cheater
