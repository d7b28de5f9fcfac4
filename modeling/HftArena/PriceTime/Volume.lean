import HftArena.PriceTime.Depth

/-!
# What is traded at which price

How much a sweep trades at each price, in closed form: nothing beyond its
limit, and within it the smaller of what rests there and of what the better
prices leave of the request (`WF.tradedAt_sweep`). It depends on how much rests
at each price and on nothing else, neither on whose the orders are nor on the
order in which they are served – so that two ladders with the same volumes are
swept alike (`WF.tradedAt_congr`, `WF.unfilled_congr`), whatever the
identifiers of their orders are.

An engine that breaks time priority can therefore not be told from one that
keeps it by prices and quantities alone.
-/

namespace PriceTime

variable {ι κ : Type}

/-- What stays unfilled is what is wanted beyond what the queue holds. -/
theorem unfilled_eq {want : ℤ} {q : List (ι × ℤ)} (hq : Positive q) :
    (serve want q).unfilled = min want (max 0 (want - total q)) := by
  have hnonneg := total_nonneg hq
  have htrades := total_trades_add_unfilled want q
  have hleft := total_trades_add_left want q
  rcases le_or_gt want 0 with hw | hw
  · rw [serve_of_nonpos hw]
    show want = _
    omega
  · have hunfilled := unfilled_nonneg hw.le q
    rcases hunfilled.eq_or_lt with h | h
    · have hposleft := total_nonneg (positive_left hq : Positive (serve want q).left)
      omega
    · rw [left_eq_nil_of_unfilled_pos h, total_nil] at hleft
      omega

namespace Ladder

/-- How much rests at a price. -/
def volume (L : Ladder ι) (p : ℤ) : ℤ := total (queueAt L p)

/-- How much is traded at a price. -/
def tradedAt (p : ℤ) (fills : List (Fill ι)) : ℤ :=
  ((fills.filter (fun f => f.px = p)).map Fill.qty).sum

@[simp] theorem tradedAt_nil (p : ℤ) : tradedAt p ([] : List (Fill ι)) = 0 := rfl

@[simp] theorem tradedAt_append (p : ℤ) (fills fills' : List (Fill ι)) :
    tradedAt p (fills ++ fills') = tradedAt p fills + tradedAt p fills' := by
  unfold tradedAt
  rw [List.filter_append, List.map_append, List.sum_append]

/-- What the fills of one level trade at a price. -/
theorem tradedAt_fillsAt (p p' : ℤ) (trades : List (ι × ℤ)) :
    tradedAt p (fillsAt p' trades) = if p' = p then total trades else 0 := by
  induction trades with
  | nil => exact (ite_self 0).symm
  | cons t trades ih =>
    show tradedAt p ([⟨p', t.2, t.1⟩] ++ fillsAt p' trades) = _
    rw [tradedAt_append, ih, total_cons]
    by_cases hp : p' = p
    · simp [hp, tradedAt]
    · simp [hp, tradedAt]

/-- Nothing rests on an empty side. -/
theorem volume_nil (p : ℤ) : volume ([] : Ladder ι) p = 0 := rfl

/-- Level by level. -/
theorem volume_cons (l : ℤ × List (ι × ℤ)) (L : Ladder ι) (p : ℤ) :
    volume (l :: L) p = (if l.1 = p then total l.2 else 0) + volume L p := by
  rw [volume, queueAt_cons, total_append]
  split_ifs <;> rfl

/-- Nothing rests at a price that is no level. -/
theorem volume_of_notMem {L : Ladder ι} {p : ℤ} (h : p ∉ L.prices) : volume L p = 0 := by
  rw [volume, queueAt_of_notMem h, total_nil]

/-- The order in which the levels are listed does not matter. -/
theorem volume_perm {L L' : Ladder ι} (h : L.Perm L') (p : ℤ) : volume L p = volume L' p := by
  induction h with
  | nil => rfl
  | cons l _ ih => rw [volume_cons, volume_cons, ih]
  | swap l l' L => simp only [volume_cons, add_left_comm]
  | trans _ _ ih ih' => exact ih.trans ih'

/-! ## Sweeping

By induction on the levels: what rests at better prices is used up before
anything is traded at a price. -/

/-- **How much a sweep trades at a price.** -/
theorem WF.tradedAt_sweep {s : Side} {L : Ladder ι} (h : WF s L) (limit : Option ℤ) (want p' : ℤ) :
    tradedAt p' (Ladder.sweep (s.reaches limit) want L).fills
      = if s.reaches limit p' = true then
          max 0 (min (volume L p') (want - amount (fun p => decide (s.better p p')) L))
        else 0 := by
  induction want, L using sweep_induction (s.reaches limit) with
  | nil want =>
    rw [sweep_nil, tradedAt_nil, volume_nil, max_eq_left (min_le_left _ _), ite_self]
  | stop want p q L hstop =>
    have hamount := h.amount_nonneg (fun p => decide (s.better p p'))
    rw [sweep_of_stop hstop, tradedAt_nil]
    split_ifs with hreach
    · rcases hstop with hw | hp
      · omega
      · -- what is within the limit is better than all there is
        have hnot : p' ∉ Ladder.prices ((p, q) :: L) := by
          intro hmem
          rcases List.mem_cons.mp hmem with rfl | hmem
          · exact Bool.false_ne_true (hp.symm.trans hreach)
          · exact Bool.false_ne_true
              (hp.symm.trans (Side.reaches_of_better (h.better_of_mem p' hmem) hreach))
        rw [volume_of_notMem hnot]
        omega
    · rfl
  | whole want p q L hw hp hq ih =>
    have hleft := total_trades_add_left want q
    have hwant := total_trades_add_unfilled want q
    have hnonneg : 0 ≤ total q := total_nonneg (h.positive _ List.mem_cons_self)
    rw [hq, total_nil] at hleft
    rw [sweep_of_nil hw hp hq, tradedAt_append, tradedAt_fillsAt, ih h.tail, volume_cons,
      amount_cons]
    dsimp only
    by_cases hpp : p = p'
    · subst hpp
      have hunfilled := unfilled_nonneg hw.le q
      rw [volume_of_notMem (fun hmem => s.better_irrefl p (h.better_of_mem p hmem)),
        h.amount_better_head]
      simp only [if_pos hp, if_true, decide_eq_true_eq, if_neg (s.better_irrefl p)]
      omega
    · rw [if_neg hpp, if_neg hpp, zero_add, zero_add]
      by_cases hmem : p' ∈ Ladder.prices L
      · rw [if_pos (decide_eq_true (h.better_of_mem p' hmem))]
        congr 3
        omega
      · rw [volume_of_notMem hmem, max_eq_left (min_le_left _ _), max_eq_left (min_le_left _ _)]
  | part want p q L hw hp hq =>
    have hwant := total_trades_add_unfilled want q
    have hleft := total_trades_add_left want q
    have hpos : Positive q := h.positive _ List.mem_cons_self
    have hleftpos := total_nonneg (positive_left hpos : Positive (serve want q).left)
    have hun : (serve want q).unfilled = 0 :=
      le_antisymm (not_lt.mp (fun hlt => hq (left_eq_nil_of_unfilled_pos hlt)))
        (unfilled_nonneg hw.le q)
    rw [sweep_of_ne_nil hw hp hq, tradedAt_fillsAt, volume_cons, amount_cons]
    dsimp only
    by_cases hpp : p = p'
    · subst hpp
      rw [volume_of_notMem (fun hmem => s.better_irrefl p (h.better_of_mem p hmem)),
        h.amount_better_head]
      simp only [if_pos hp, if_true, decide_eq_true_eq, if_neg (s.better_irrefl p)]
      omega
    · rw [if_neg hpp, if_neg hpp, zero_add]
      by_cases hmem : p' ∈ Ladder.prices L
      · have hamount := h.tail.amount_nonneg (fun p => decide (s.better p p'))
        rw [if_pos (decide_eq_true (h.better_of_mem p' hmem)), max_eq_left, ite_self]
        exact (min_le_right _ _).trans (by omega)
      · rw [volume_of_notMem hmem, max_eq_left (min_le_left _ _), ite_self]

/-- **What is traded no longer rests.** -/
theorem volume_sweep (reach : ℤ → Bool) (want : ℤ) (L : Ladder ι) (p' : ℤ) :
    volume (sweep reach want L).left p' = volume L p' - tradedAt p' (sweep reach want L).fills := by
  induction want, L using sweep_induction reach with
  | nil want => rfl
  | stop want p q L hstop => rw [sweep_of_stop hstop, tradedAt_nil, sub_zero]
  | whole want p q L hw hp hq ih =>
    have hleft := total_trades_add_left want q
    rw [hq, total_nil] at hleft
    rw [sweep_of_nil hw hp hq, tradedAt_append, tradedAt_fillsAt, ih, volume_cons]
    dsimp only
    split_ifs <;> omega
  | part want p q L hw hp hq =>
    have hleft := total_trades_add_left want q
    rw [sweep_of_ne_nil hw hp hq, tradedAt_fillsAt, volume_cons, volume_cons]
    dsimp only
    split_ifs <;> omega

/-- **What stays unfilled** is what is wanted beyond what rests within the
limit. -/
theorem WF.unfilled_sweep {s : Side} {L : Ladder ι} (h : WF s L) (limit : Option ℤ) (want : ℤ) :
    (Ladder.sweep (s.reaches limit) want L).unfilled
      = min want (max 0 (want - amount (s.reaches limit) L)) := by
  have hpos : Positive (flat (L.takeWhile (fun l => s.reaches limit l.1))) :=
    positive_within h.positive
  rw [(sweep_eq_serve _ _ _).2.2.1, unfilled_eq hpos, total_flat, amount,
    (h.filter_reaches limit).1]

/-! ## Two ladders with the same volumes

They are compared through the ladder in which each level is one order: that
ladder is determined by the volumes, and is swept as they are. -/

/-- The orders of each level made one. -/
def merged (L : Ladder ι) : Ladder Unit := L.map (fun l => (l.1, [((), total l.2)]))

theorem WF.total_pos {s : Side} {L : Ladder ι} (h : WF s L) : ∀ l ∈ L, 0 < total l.2 := by
  intro l hl
  obtain ⟨e, q, hq⟩ := List.exists_cons_of_ne_nil (h.nonempty l hl)
  have hpos := h.positive l hl
  rw [hq] at hpos ⊢
  rw [total_cons]
  exact add_pos_of_pos_of_nonneg (hpos e List.mem_cons_self)
    (total_nonneg (fun e' he' => hpos e' (List.mem_cons_of_mem _ he')))

theorem WF.merged {s : Side} {L : Ladder ι} (h : WF s L) : WF s (merged L) := by
  refine ⟨?_, fun l hl => ?_, fun l hl => ?_⟩
  · have hprices : (Ladder.merged L).prices = L.prices := List.map_map
    rw [hprices]
    exact h.sorted
  · obtain ⟨l, -, rfl⟩ := List.mem_map.mp hl
    exact List.cons_ne_nil _ _
  · obtain ⟨l₀, hl₀, rfl⟩ := List.mem_map.mp hl
    intro e he
    rw [List.mem_singleton.mp he]
    exact h.total_pos l₀ hl₀

theorem WF.queueAt_merged {s : Side} {L : Ladder ι} (h : WF s L) (p : ℤ) :
    queueAt (Ladder.merged L) p = if volume L p = 0 then [] else [((), volume L p)] := by
  by_cases hp : p ∈ L.prices
  · obtain ⟨l, hl, rfl⟩ := List.mem_map.mp hp
    have hqueue : queueAt L l.1 = l.2 := (h.mem_iff.mp hl).2
    have hvolume : volume L l.1 = total l.2 := congrArg total hqueue
    have hpos := h.total_pos l hl
    rw [hvolume, if_neg hpos.ne']
    exact (h.merged.mem_iff.mp (List.mem_map_of_mem hl)).2
  · have hprices : (Ladder.merged L).prices = L.prices := List.map_map
    rw [volume_of_notMem hp, if_pos rfl, queueAt_of_notMem (hprices ▸ hp)]

theorem amount_merged (P : ℤ → Bool) (L : Ladder ι) : amount P (merged L) = amount P L := by
  induction L with
  | nil => rfl
  | cons l L ih =>
    show amount P ((l.1, [((), total l.2)]) :: merged L) = _
    rw [amount_cons, amount_cons, ih, total_cons, total_nil, add_zero]

/-- **The volumes say how much rests at the prices of a kind.** -/
theorem WF.amount_congr {s : Side} {L : Ladder ι} {L' : Ladder κ} (h : WF s L) (h' : WF s L')
    (hvolume : ∀ p, volume L p = volume L' p) (P : ℤ → Bool) : amount P L = amount P L' := by
  have hmerged : Ladder.merged L = Ladder.merged L' := by
    refine h.merged.ext h'.merged (fun p => ?_)
    rw [h.queueAt_merged, h'.queueAt_merged, hvolume]
  rw [← amount_merged, hmerged, amount_merged]

/-- **Ladders with the same volumes are swept alike**: as much is traded at
each price. -/
theorem WF.tradedAt_congr {s : Side} {L : Ladder ι} {L' : Ladder κ} (h : WF s L) (h' : WF s L')
    (hvolume : ∀ p, volume L p = volume L' p) (limit : Option ℤ) (want p : ℤ) :
    tradedAt p (Ladder.sweep (s.reaches limit) want L).fills
      = tradedAt p (Ladder.sweep (s.reaches limit) want L').fills := by
  rw [h.tradedAt_sweep, h'.tradedAt_sweep, hvolume, h.amount_congr h' hvolume]

/-- **Ladders with the same volumes are swept alike**: as much stays
unfilled. -/
theorem WF.unfilled_congr {s : Side} {L : Ladder ι} {L' : Ladder κ} (h : WF s L) (h' : WF s L')
    (hvolume : ∀ p, volume L p = volume L' p) (limit : Option ℤ) (want : ℤ) :
    (Ladder.sweep (s.reaches limit) want L).unfilled
      = (Ladder.sweep (s.reaches limit) want L').unfilled := by
  rw [h.unfilled_sweep, h'.unfilled_sweep, h.amount_congr h' hvolume]

end Ladder

end PriceTime
