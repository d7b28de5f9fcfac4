import HftArena.PriceTime.Book

/-!
# How deep a sweep goes

What a sweep does to a side can be read off the side before it, from how much
rests at which prices: it leaves something unfilled exactly if more is wanted
than rests within the limit (`WF.unfilled_pos_iff`), it trades at a price
exactly if an order rests there, within the limit, and more is wanted than
rests at better prices (`WF.exists_fill_iff`), and it trades with an order
within the limit exactly if more is wanted than is ahead of it
(`forall_fills_iff`).

These are the conditions that claims about engines are stated in: they speak of
the book before the call and of the call, and of no fill. Each is an
equivalence, so that a claim that fails can be given its exact condition.

A call that changes nothing is the limiting case. A limit order for something
always changes a side, since it trades or comes to rest, and a market order
changes the other side unless that is empty.
-/

namespace PriceTime

variable {ι : Type}

/-- A queue of positive quantities does not hold less than nothing. -/
theorem total_nonneg {κ : Type} {q : List (κ × ℤ)} (hq : Positive q) : 0 ≤ total q := by
  induction q with
  | nil => exact le_rfl
  | cons e q ih =>
    have hhead := hq e List.mem_cons_self
    have htail := ih (fun e he => hq e (List.mem_cons_of_mem _ he))
    rw [total_cons]
    omega

/-- **What a walk does not fill** is positive exactly if more is wanted than
the queue holds. -/
theorem unfilled_pos_iff {κ : Type} {want : ℤ} {q : List (κ × ℤ)} (hq : Positive q) :
    0 < (serve want q).unfilled ↔ total q < want := by
  induction want, q using serve_induction with
  | nil want => exact Iff.rfl
  | stop want e q hw =>
    have hnonneg := total_nonneg hq
    rw [serve_of_nonpos hw]
    dsimp only
    omega
  | whole want k a q hw ha ih =>
    rw [serve_cons_of_le hw ha, total_cons]
    dsimp only
    rw [ih (fun e he => hq e (List.mem_cons_of_mem _ he))]
    omega
  | part want k a q hw ha =>
    have hnonneg := total_nonneg (fun e he => hq e (List.mem_cons_of_mem _ he))
    rw [serve_cons_of_lt hw ha, total_cons]
    dsimp only
    omega

/-- What a queue holds is traded or left. -/
theorem total_trades_add_left {κ : Type} (want : ℤ) (q : List (κ × ℤ)) :
    total (serve want q).trades + total (serve want q).left = total q := by
  induction want, q using serve_induction with
  | nil want => rfl
  | stop want e q hw => rw [serve_of_nonpos hw, total_nil, zero_add]
  | whole want k a q hw ha ih =>
    rw [serve_cons_of_le hw ha, total_cons, total_cons]
    dsimp only
    omega
  | part want k a q hw ha =>
    rw [serve_cons_of_lt hw ha, total_cons, total_cons, total_cons, total_nil]
    dsimp only
    omega

/-- Where something is wanted and something is there, something is traded. -/
theorem trades_ne_nil {κ : Type} {want : ℤ} (hw : 0 < want) {q : List (κ × ℤ)} (hq : q ≠ []) :
    (serve want q).trades ≠ [] := by
  cases q with
  | nil => exact absurd rfl hq
  | cons e q =>
    rcases le_or_gt e.2 want with ha | ha
    · rw [serve_cons_of_le hw ha]
      exact List.cons_ne_nil _ _
    · rw [serve_cons_of_lt hw ha]
      exact List.cons_ne_nil _ _

/-- **Whom a walk trades with**: those with less ahead of them than is
wanted. -/
theorem exists_trade_iff {κ : Type} {want : ℤ} {q : List (κ × ℤ)} (hq : Positive q) {k : κ} :
    (∃ t ∈ (serve want q).trades, t.1 = k)
      ↔ ∃ ahead a behind, q = ahead ++ (k, a) :: behind ∧ total ahead < want := by
  have htail : ∀ {e : κ × ℤ} {q : List (κ × ℤ)}, Positive (e :: q) → Positive q := fun h e he =>
    h e (List.mem_cons_of_mem _ he)
  -- the first of a queue has nothing ahead of it, and is ahead of the others
  have hcons : ∀ {e : κ × ℤ} {q : List (κ × ℤ)} {want : ℤ},
      (∃ ahead a behind, e :: q = ahead ++ (k, a) :: behind ∧ total ahead < want)
        ↔ (e.1 = k ∧ 0 < want)
          ∨ ∃ ahead a behind, q = ahead ++ (k, a) :: behind ∧ total ahead < want - e.2 := by
    intro e q want
    constructor
    · rintro ⟨_ | ⟨e', ahead⟩, a, behind, heq, hlt⟩
      · cases heq
        exact Or.inl ⟨rfl, hlt⟩
      · obtain ⟨rfl, rfl⟩ := List.cons.inj heq
        rw [total_cons] at hlt
        exact Or.inr ⟨ahead, a, behind, rfl, by omega⟩
    · rintro (⟨rfl, hlt⟩ | ⟨ahead, a, behind, rfl, hlt⟩)
      · exact ⟨[], e.2, q, rfl, hlt⟩
      · exact ⟨e :: ahead, a, behind, rfl, by rw [total_cons]; omega⟩
  induction want, q using serve_induction with
  | nil want => simp
  | stop want e q hw =>
    rw [serve_of_nonpos hw]
    refine iff_of_false (by simp) ?_
    rintro ⟨ahead, a, behind, heq, hlt⟩
    have hnonneg := total_nonneg
      (fun e he => hq e (heq ▸ List.mem_append_left _ he) : Positive ahead)
    omega
  | whole want k' a q hw ha ih =>
    have hrest := ih (htail hq)
    rw [serve_cons_of_le hw ha, hcons]
    refine Iff.trans ?_ (or_congr_right hrest)
    simp [hw]
  | part want k' a q hw ha =>
    rw [serve_cons_of_lt hw ha, hcons]
    have hnone : ¬ ∃ ahead a' behind, q = ahead ++ (k, a') :: behind ∧ total ahead < want - a := by
      rintro ⟨ahead, a', behind, heq, hlt⟩
      have hnonneg := total_nonneg
        (fun e he => htail hq e (heq ▸ List.mem_append_left _ he) : Positive ahead)
      omega
    rw [or_iff_left hnone]
    simp [hw]

namespace Ladder

/-- **The orders within reach**, in the order in which a sweep comes to them,
each with its price. -/
def within (reach : ℤ → Bool) (L : Ladder ι) : List ((ℤ × ι) × ℤ) :=
  flat (L.takeWhile (fun l => reach l.1))

/-- They are for something. -/
theorem positive_within {reach : ℤ → Bool} {L : Ladder ι} (h : ∀ l ∈ L, Positive l.2) :
    Positive (within reach L) :=
  positive_flat (fun l hl => h l ((List.takeWhile_sublist _).subset hl))

/-- **Whom a sweep trades with**: whatever holds of the price and the order of
every fill holds of the orders within reach that have less ahead of them than
is wanted. -/
theorem forall_fills_iff {L : Ladder ι} (h : ∀ l ∈ L, Positive l.2) (reach : ℤ → Bool) (want : ℤ)
    (P : ℤ → ι → Prop) : (∀ f ∈ (sweep reach want L).fills, P f.px f.maker)
      ↔ ∀ ahead o behind, within reach L = ahead ++ o :: behind → total ahead < want →
        P o.1.1 o.1.2 := by
  have htrades : ∀ k, (∃ t ∈ (serve want (within reach L)).trades, t.1 = k)
      ↔ ∃ ahead a behind, within reach L = ahead ++ (k, a) :: behind ∧ total ahead < want :=
    fun k => exists_trade_iff (positive_within h)
  rw [(sweep_eq_serve reach want L).1]
  constructor
  · intro hfills ahead o behind heq hlt
    obtain ⟨t, ht, hkey⟩ := (htrades o.1).mpr ⟨ahead, o.2, behind, heq, hlt⟩
    exact hkey ▸ hfills (fillOf t) (List.mem_map_of_mem ht)
  · intro horders f hf
    obtain ⟨t, ht, rfl⟩ := List.mem_map.mp hf
    obtain ⟨ahead, a, behind, heq, hlt⟩ := (htrades t.1).mp ⟨t, ht, rfl⟩
    exact horders ahead (t.1, a) behind heq hlt

/-- **A sweep that changes nothing** fills nothing. -/
theorem unfilled_of_left_eq {reach : ℤ → Bool} {want : ℤ} {L : Ladder ι}
    (h : (sweep reach want L).left = L) : (sweep reach want L).unfilled = want := by
  obtain ⟨-, hleft, hunfilled, -⟩ := sweep_eq_serve reach want L
  have htotal := total_trades_add_left want (within reach L)
  have hwant := total_trades_add_unfilled want (within reach L)
  have hsame : total (serve want (within reach L)).left = total (within reach L) := by
    have heq := congrArg total (h ▸ hleft)
    rw [total_append] at heq
    have hall : total (flat L)
        = total (within reach L) + total (flat (L.dropWhile (fun l => reach l.1))) := by
      rw [← total_append, within, ← flat_append, List.takeWhile_append_dropWhile]
    rw [hall] at heq
    exact (add_right_cancel heq).symm
  rw [hunfilled]
  show (serve want (within reach L)).unfilled = want
  omega

/-- An order that comes to rest changes the side. -/
theorem WF.rest_ne {s : Side} {L : Ladder ι} (h : WF s L) (px : ℤ) (e : ι × ℤ) :
    Ladder.rest s px e L ≠ L := by
  intro heq
  have hqueue := h.queueAt_rest px e px
  rw [heq, if_pos rfl] at hqueue
  exact absurd (congrArg List.length hqueue) (by rw [List.length_append]; simp)

/-- How much rests at the prices of a kind, on a side as a whole. -/
def amount (P : ℤ → Bool) (L : Ladder ι) : ℤ :=
  ((L.filter (fun l => P l.1)).map (fun l => total l.2)).sum

/-- Level by level. -/
theorem amount_cons (P : ℤ → Bool) (l : ℤ × List (ι × ℤ)) (L : Ladder ι) :
    amount P (l :: L) = (if P l.1 then total l.2 else 0) + amount P L := by
  unfold amount
  rw [List.filter_cons]
  split_ifs
  · rw [List.map_cons, List.sum_cons]
  · rw [zero_add]

/-- Nothing rests at prices that the side does not have. -/
theorem amount_eq_zero {P : ℤ → Bool} {L : Ladder ι} (h : ∀ p ∈ L.prices, P p = false) :
    amount P L = 0 := by
  unfold amount
  rw [List.filter_eq_nil_iff.mpr (fun l hl => by simp [h l.1 (List.mem_map_of_mem hl)])]
  rfl

/-- No amount is negative. -/
theorem WF.amount_nonneg {s : Side} {L : Ladder ι} (h : WF s L) (P : ℤ → Bool) :
    0 ≤ amount P L := by
  induction L with
  | nil => exact le_rfl
  | cons l L ih =>
    have hlevel := total_nonneg (h.positive l List.mem_cons_self)
    have htail := ih h.tail
    rw [amount_cons]
    split_ifs <;> omega

/-- **Only amounts count**, not the order of the levels. -/
theorem amount_congr {L L' : Ladder ι} (h : L.Perm L') (P : ℤ → Bool) : amount P L = amount P L' :=
  ((h.filter _).map _).sum_eq

/-- Laid end to end the levels hold what they hold together. -/
theorem total_flat (L : Ladder ι) : total (flat L) = (L.map (fun l => total l.2)).sum := by
  induction L with
  | nil => rfl
  | cons l L ih =>
    have hlevel : total (l.2.map (Prod.map (l.1, ·) id)) = total l.2 := by
      unfold total
      rw [List.map_map]
      rfl
    rw [flat_cons, total_append, ih, hlevel, List.map_cons, List.sum_cons]

/-- **The levels within a limit are the first ones.** -/
theorem WF.filter_reaches {s : Side} {L : Ladder ι} (h : WF s L) (limit : Option ℤ) :
    L.filter (fun l => s.reaches limit l.1) = L.takeWhile (fun l => s.reaches limit l.1)
      ∧ L.filter (fun l => !s.reaches limit l.1) = L.dropWhile (fun l => s.reaches limit l.1) := by
  induction L with
  | nil => exact ⟨rfl, rfl⟩
  | cons l L ih =>
    obtain ⟨hwithin, hbeyond⟩ := ih h.tail
    by_cases hl : s.reaches limit l.1 = true
    · simp only [List.filter_cons, List.takeWhile_cons, List.dropWhile_cons, hl, hwithin, hbeyond,
        Bool.not_true, Bool.false_eq_true, if_true, if_false, and_self]
    · -- a worse price is not within a limit that a better one is beyond
      have hnone : ∀ l' ∈ L, s.reaches limit l'.1 = false := fun l' hl' => by
        by_contra hreach
        exact hl (Side.reaches_of_better (h.better_of_mem l'.1 (List.mem_map_of_mem hl'))
          (by simpa using hreach))
      have hwithin' : L.filter (fun l => s.reaches limit l.1) = [] :=
        List.filter_eq_nil_iff.mpr (fun l' hl' => by simp [hnone l' hl'])
      have hbeyond' : L.filter (fun l => !s.reaches limit l.1) = L :=
        List.filter_eq_self.mpr (fun l' hl' => by simp [hnone l' hl'])
      rw [Bool.not_eq_true] at hl
      simp only [List.filter_cons, List.takeWhile_cons, List.dropWhile_cons, hl, hwithin', hbeyond',
        Bool.not_false, Bool.false_eq_true, if_true, if_false, and_self]

/-- **What a sweep does not fill** is positive exactly if more is wanted than
rests within the limit. -/
theorem WF.unfilled_pos_iff {s : Side} {L : Ladder ι} (h : WF s L) (limit : Option ℤ) (want : ℤ) :
    0 < (Ladder.sweep (s.reaches limit) want L).unfilled ↔ amount (s.reaches limit) L < want := by
  have hpos : Positive (flat (L.takeWhile (fun l => s.reaches limit l.1))) :=
    positive_within h.positive
  rw [(sweep_eq_serve _ _ _).2.2.1, PriceTime.unfilled_pos_iff hpos, total_flat, amount,
    (h.filter_reaches limit).1]

/-- The fills of a level are at its price. -/
theorem exists_mem_fillsAt {p p' : ℤ} {trades : List (ι × ℤ)} (h : trades ≠ []) :
    (∃ f ∈ fillsAt p trades, f.px = p') ↔ p' = p := by
  constructor
  · rintro ⟨f, hf, rfl⟩
    obtain ⟨t, -, rfl⟩ := List.mem_map.mp hf
    rfl
  · rintro rfl
    obtain ⟨t, ht⟩ := List.exists_mem_of_ne_nil _ h
    exact ⟨_, List.mem_map_of_mem ht, rfl⟩

/-- Nothing is better than the best price. -/
theorem WF.amount_better_head {s : Side} {p : ℤ} {q : List (ι × ℤ)} {L : Ladder ι}
    (h : WF s ((p, q) :: L)) : amount (fun p' => decide (s.better p' p)) L = 0 :=
  amount_eq_zero (fun p' hp' => decide_eq_false (fun hb =>
    s.better_irrefl _ (s.better_trans (h.better_of_mem p' hp') hb)))

/-- **Where a sweep trades**: at the prices within its limit where more is
wanted than rests at better ones. Which orders rest there does not matter for
that, nor how they are shared out. -/
theorem WF.exists_fill_iff {s : Side} {L : Ladder ι} (hwf : WF s L) (limit : Option ℤ)
    (want p' : ℤ) :
    (∃ f ∈ (Ladder.sweep (s.reaches limit) want L).fills, f.px = p')
      ↔ p' ∈ L.prices ∧ s.reaches limit p' = true
        ∧ amount (fun p => decide (s.better p p')) L < want := by
  induction want, L using sweep_induction (s.reaches limit) with
  | nil want => simp
  | stop want p q L hstop =>
    rw [sweep_of_stop hstop]
    refine iff_of_false (by simp) ?_
    rintro ⟨hp', hreach, hamount⟩
    rcases hstop with hw | hp
    · have hnonneg := hwf.amount_nonneg (fun p => decide (s.better p p'))
      omega
    · rcases List.mem_cons.mp hp' with rfl | hp'
      · rw [hp] at hreach
        cases hreach
      · have hreach' := Side.reaches_of_better (hwf.better_of_mem p' hp') hreach
        rw [hp] at hreach'
        cases hreach'
  | whole want p q L hw hp hq ih =>
    have htotal := total_trades_add_left want q
    have hwant := total_trades_add_unfilled want q
    have htrades := trades_ne_nil hw (hwf.nonempty _ List.mem_cons_self)
    rw [hq, total_nil] at htotal
    have happend : ∀ fills : List (Fill ι),
        (∃ f ∈ fillsAt p (serve want q).trades ++ fills, f.px = p')
          ↔ p' = p ∨ ∃ f ∈ fills, f.px = p' := fun fills => by
      simp only [List.mem_append, or_and_right, exists_or, exists_mem_fillsAt htrades]
    rw [sweep_of_nil hw hp hq, happend, ih hwf.tail, prices_cons, List.mem_cons, amount_cons]
    simp only [decide_eq_true_eq]
    constructor
    · rintro (rfl | ⟨hp', hreach, hamount⟩)
      · rw [if_neg (s.better_irrefl p'), hwf.amount_better_head]
        exact ⟨Or.inl rfl, hp, by omega⟩
      · rw [if_pos (hwf.better_of_mem p' hp')]
        exact ⟨Or.inr hp', hreach, by omega⟩
    · rintro ⟨rfl | hp', hreach, hamount⟩
      · exact Or.inl rfl
      · rw [if_pos (hwf.better_of_mem p' hp')] at hamount
        exact Or.inr ⟨hp', hreach, by omega⟩
  | part want p q L hw hp hq =>
    have htotal := total_trades_add_left want q
    have hwant := total_trades_add_unfilled want q
    have htrades := trades_ne_nil hw (hwf.nonempty _ List.mem_cons_self)
    have hleft : 0 ≤ total (serve want q).left :=
      total_nonneg (positive_left (hwf.positive _ List.mem_cons_self))
    have hun := not_lt.mp (fun h => hq (left_eq_nil_of_unfilled_pos h))
    rw [sweep_of_ne_nil hw hp hq]
    simp only [exists_mem_fillsAt htrades, prices_cons, List.mem_cons, amount_cons,
      decide_eq_true_eq]
    constructor
    · rintro rfl
      rw [if_neg (s.better_irrefl p'), hwf.amount_better_head]
      exact ⟨Or.inl rfl, hp, by omega⟩
    · rintro ⟨rfl | hp', -, hamount⟩
      · rfl
      · have hnonneg := hwf.tail.amount_nonneg (fun p => decide (s.better p p'))
        rw [if_pos (hwf.better_of_mem p' hp')] at hamount
        omega

end Ladder

/-! ## Calls that change nothing

Of such calls the engines tell their callers what they tell them of all others,
which is why it matters which they are. -/

/-- **A limit order that is for something changes a side.** -/
theorem Book.not_forall_ladder_limit {B : Book ι} (h : ∀ s, Ladder.WF s (B.ladder s)) (oid : ι)
    (side : Side) (px : ℤ) {qty : ℤ} (hqty : 0 < qty) :
    ¬ ∀ s, (B.limit oid side px qty).1.ladder s = B.ladder s := by
  intro hsame
  have hopp := hsame side.opp
  have hown := hsame side
  unfold Book.limit at hopp hown
  dsimp only at hopp hown
  have hleft : (B.sweep side (some px) qty).left = B.ladder side.opp := by
    split_ifs at hopp
    · rwa [Book.ladder_put_opp', Book.ladder_put_self] at hopp
    · rwa [Book.ladder_put_self] at hopp
  have hunfilled : (B.sweep side (some px) qty).unfilled = qty := Ladder.unfilled_of_left_eq hleft
  rw [hunfilled, if_pos hqty, Book.ladder_put_self] at hown
  exact (h side).rest_ne px _ hown

/-- **A market order that is for something** changes the other side unless it
is empty. -/
theorem Book.ladder_market_eq_iff {B : Book ι} (side : Side) {qty : ℤ} (hqty : 0 < qty) :
    (∀ s, (B.market side qty).1.ladder s = B.ladder s) ↔ B.ladder side.opp = [] := by
  have hall : ∀ L : Ladder ι, L.dropWhile (fun l => side.opp.reaches none l.1) = [] := fun L =>
    List.dropWhile_eq_nil_iff.mpr (fun l _ => rfl)
  constructor
  · intro hsame
    have hleft : (B.sweep side none qty).left = B.ladder side.opp := by
      rw [← hsame side.opp]
      exact (Book.ladder_put_self _ _ _).symm
    have hunfilled : (B.sweep side none qty).unfilled = qty := Ladder.unfilled_of_left_eq hleft
    rw [← hleft, ← hall (B.ladder side.opp)]
    exact Ladder.sweep_left_of_unfilled_pos (by
      show 0 < (B.sweep side none qty).unfilled
      omega)
  · intro hempty s
    show (B.put side.opp (B.sweep side none qty).left).ladder s = B.ladder s
    by_cases hs : s = side.opp
    · subst hs
      rw [Book.ladder_put_self, Book.sweep, hempty]
      rfl
    · exact Book.ladder_put_of_ne hs _ _

end PriceTime
