import HftArena.PriceTime.Handles

/-!
# What fills are bounded by

A book trades at prices that orders brought to it and for no more than a taker
wants. So if every limit price satisfies some condition (`Call.Priced`), so do
all prices of the book (`Book.Priced`) and of its fills (`Fill.Within`), for
identifiers of any kind: neither needs the other orders to be told apart.
-/

namespace PriceTime

variable {ι : Type}

/-- A limit order at a price that satisfies `P`, or another call. A condition
on prices that come from outside, such as those of a range that a format has
room for. -/
def Call.Priced (P : ℤ → Prop) : Call ι → Prop
  | .limit _ _ px _ => P px
  | _ => True

/-- What a call wants; a cancel wants nothing. -/
def Call.want : Call ι → ℤ
  | .limit _ _ _ qty => qty
  | .market _ _ qty => qty
  | .cancel _ => 0

/-- A fill at a price that satisfies `P`, of at least one and at most
`want`. -/
structure Fill.Within (P : ℤ → Prop) (want : ℤ) (f : Fill ι) : Prop where
  px : P f.px
  pos : 0 < f.qty
  le : f.qty ≤ want

/-- The maker of a fill does not matter for it. -/
theorem Fill.Within.rename {κ : Type} {P : ℤ → Prop} {want : ℤ} {f : Fill κ} (g : κ → ι)
    (h : f.Within P want) : (f.rename g).Within P want :=
  ⟨h.px, h.pos, h.le⟩

/-- **An implementation of the book keeps within `P`**: from a state in which
`Inv` holds, a call at a price that satisfies `P` returns, with fills within
`P`, and `Inv` holds again. The four engines are instances, each with an
invariant of its own. -/
def KeepsWithin {ε σ : Type} (call : σ → Call ι → Except ε (σ × List (Fill ι))) (P : ℤ → Prop)
    (Inv : σ → Prop) : Prop :=
  ∀ b c, Inv b → c.Priced P →
    ∃ b' fills, call b c = .ok (b', fills) ∧ Inv b' ∧ ∀ f ∈ fills, f.Within P c.want

/-- A ladder that has an order only at prices where another has one, or at `P`,
has no other prices. -/
theorem Ladder.WF.prices_of_queueAt {s : Side} {L L' : Ladder ι} (h : Ladder.WF s L)
    (h' : Ladder.WF s L') {Q : ℤ → Prop}
    (hqueue : ∀ p, Ladder.queueAt L p = [] → Ladder.queueAt L' p ≠ [] → Q p) :
    ∀ p ∈ L'.prices, Q p ∨ p ∈ L.prices := by
  intro p hp
  rw [h'.mem_prices_iff] at hp
  rw [h.mem_prices_iff]
  by_cases hnil : Ladder.queueAt L p = []
  · exact Or.inl (hqueue p hnil hp)
  · exact Or.inr hnil

/-- **A book all of whose prices satisfy `P`.** -/
def Book.Priced (P : ℤ → Prop) (b : Book ι) : Prop := ∀ s, ∀ p ∈ (b.ladder s).prices, P p

namespace Book

variable {P : ℤ → Prop} {b b' : Book ι}

/-- There are none to begin with. -/
theorem priced_empty : (empty : Book ι).Priced P := fun _ _ hp => absurd hp (by simp [empty])

/-- A book that lost prices. -/
theorem Priced.mono (h : b.Priced P)
    (hprices : ∀ s, (b'.ladder s).prices ⊆ (b.ladder s).prices) : b'.Priced P :=
  fun s p hp => h s p (hprices s hp)

/-- A side is replaced by one with such prices. -/
theorem Priced.put (h : b.Priced P) {s : Side} {L : Ladder ι} (hL : ∀ p ∈ L.prices, P p) :
    (b.put s L).Priced P := by
  intro s' p hp
  by_cases hs : s' = s
  · subst hs
    rw [ladder_put_self] at hp
    exact hL p hp
  · rw [ladder_put_of_ne hs] at hp
    exact h s' p hp

/-- Trading brings no prices. -/
theorem Priced.put_sweep (h : b.Priced P) (side : Side) (limit : Option ℤ) (qty : ℤ) :
    (b.put side.opp (b.sweep side limit qty).left).Priced P :=
  h.put (fun p hp => h side.opp p ((Ladder.prices_sweep_sublist _ _ _).subset hp))

/-- An order that comes to rest brings its own price. -/
theorem Priced.put_rest (h : b.Priced P) (side : Side) {px : ℤ} (hpx : P px) (e : ι × ℤ) :
    (b.put side (Ladder.rest side px e (b.ladder side))).Priced P := by
  refine h.put (fun p hp => ?_)
  rcases Ladder.mem_prices_rest.mp hp with rfl | hp
  · exact hpx
  · exact h side p hp

/-- A cancel brings no prices. -/
theorem Priced.cancel [DecidableEq ι] (h : b.Priced P) (target : ι) :
    (b.cancel target).Priced P :=
  h.mono (fun s => (Ladder.prices_remove_sublist target (b.ladder s)).subset)

/-- **Fills are at prices of the book and for no more than is wanted.** -/
theorem Priced.sweep_within (h : b.Priced P) {side : Side}
    (hwf : Ladder.WF side.opp (b.ladder side.opp)) (limit : Option ℤ) (qty : ℤ) :
    ∀ f ∈ (b.sweep side limit qty).fills, f.Within P qty := by
  intro f hf
  obtain ⟨hpx, -, hpos, hle⟩ := Ladder.fill_bounds hwf _ _ f hf
  exact ⟨h _ _ hpx, hpos, hle⟩

end Book

namespace Handles

variable [DecidableEq ι] {P : ℤ → Prop}

/-- **A call of a book of nodes** keeps its prices within `P`, and its fills
too. -/
theorem step_within {H : Handles ι} (h : H.book.Priced P) {c : Call ι} (hc : c.Priced P) :
    (H.step c).1.book.Priced P ∧ ∀ f ∈ (H.step c).2, f.Within P c.want := by
  have hfills : ∀ side limit qty,
      ∀ f ∈ (H.book.sweep side limit qty).fills.map (Fill.rename Prod.snd), f.Within P qty := by
    intro side limit qty f hf
    obtain ⟨g, hg, rfl⟩ := List.mem_map.mp hf
    exact (h.sweep_within (H.wf.side _) limit qty g hg).rename _
  cases c with
  | limit oid side px qty =>
    refine ⟨?_, hfills side (some px) qty⟩
    show (H.limit oid side px qty).book.Priced P
    unfold limit
    split_ifs with hun
    · exact (h.put_sweep side (some px) qty).put_rest side hc _
    · exact h.put_sweep side (some px) qty
  | market oid side qty => exact ⟨h.put_sweep side none qty, hfills side none qty⟩
  | cancel target =>
    refine ⟨?_, fun f hf => absurd hf List.not_mem_nil⟩
    show (H.cancel target).book.Priced P
    unfold cancel
    split
    · exact h
    · exact h.cancel _

end Handles

end PriceTime
