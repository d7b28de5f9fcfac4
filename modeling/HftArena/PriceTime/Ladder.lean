import Mathlib.Data.List.TakeWhile
import HftArena.Lib.Loop
import HftArena.PriceTime.Serve

/-!
# Ladders: one side of a book, level by level

One side of a price-time-priority book is a *ladder*: its price levels, best
price first, each with the queue of the orders resting there, oldest first. An
aggressive order *sweeps* the ladder: it is served from the first level, and
from the next one when that is used up, as long as the prices are within its
limit.

Two facts carry everything above. A sweep is one walk along the queues laid end
to end (`sweep_eq_serve`), so what `PriceTime.Serve` says of a queue holds of a
ladder. And a well-formed ladder is determined by the queues it holds at each
price (`WF.ext`), so two representations of a side agree as soon as their
levels do.

The side is a parameter throughout: bids and asks differ in which of two prices
is better (`Side.better`) and in which prices a limit reaches (`Side.reaches`),
and nothing that is proved of ladders looks further than the few lemmas about
these two.

What a sweep conserves is said three times, for three uses: of the orders
(`gone_append_ids`), for an engine's index; of the quantity under each
identifier (`taken_add_held`), which holds even where identifiers are not kept
apart; and of the request (`filled_add_unfilled`).
-/

namespace PriceTime

/-- The two sides of a book. -/
inductive Side where
  | bid
  | ask
deriving DecidableEq, Repr

namespace Side

/-- The side an order of this side trades against. -/
def opp : Side → Side
  | bid => ask
  | ask => bid

/-- The sides are two. -/
theorem ne_opp (s : Side) : s ≠ s.opp := by
  cases s <;> decide

/-- **One price is better than another** for the orders that rest on a side:
higher for bids, lower for asks. -/
def better : Side → ℤ → ℤ → Prop
  | bid, p, p' => p' < p
  | ask, p, p' => p < p'

instance (s : Side) (p p' : ℤ) : Decidable (s.better p p') :=
  match s with
  | bid => inferInstanceAs (Decidable (p' < p))
  | ask => inferInstanceAs (Decidable (p < p'))

/-- **Whether a limit lets an order trade** at a price of the side it trades
against: asks up to the limit, bids from it on. An order without a limit trades
at any price. -/
def reaches (s : Side) (limit : Option ℤ) (p : ℤ) : Bool :=
  match limit, s with
  | none, _ => true
  | some px, ask => decide (p ≤ px)
  | some px, bid => decide (px ≤ p)

/-- No price is better than itself. -/
theorem better_irrefl (s : Side) (p : ℤ) : ¬ s.better p p := by
  cases s <;> exact lt_irrefl p

/-- Better than better is better. -/
theorem better_trans {s : Side} {p p' p'' : ℤ} (h : s.better p p')
    (h' : s.better p' p'') : s.better p p'' := by
  cases s
  · exact lt_trans (α := ℤ) h' h
  · exact lt_trans (α := ℤ) h h'

/-- Of two different prices one is better. -/
theorem better_of_not {s : Side} {p p' : ℤ} (hne : p ≠ p') (h : ¬ s.better p p') :
    s.better p' p := by
  cases s
  · exact lt_of_le_of_ne (not_lt.mp h) hne
  · exact lt_of_le_of_ne (not_lt.mp h) (Ne.symm hne)

/-- A better price is within any limit a worse one is within. -/
theorem reaches_of_better {s : Side} {limit : Option ℤ} {p p' : ℤ}
    (h : s.better p p') (hp' : s.reaches limit p' = true) : s.reaches limit p = true := by
  cases limit with
  | none => rfl
  | some px =>
    cases s <;> simp only [reaches, better, decide_eq_true_eq] at h hp' ⊢ <;> omega

end Side

/-- **A fill**: at the maker's price, this much, from this maker. It does not
name the taker, who is the one to whom it is returned. -/
structure Fill (ι : Type) where
  px : ℤ
  qty : ℤ
  maker : ι
deriving DecidableEq, Repr

/-- **A ladder**: the levels of one side, best price first, each with its queue
of orders, oldest first. -/
abbrev Ladder (ι : Type) := List (ℤ × List (ι × ℤ))

namespace Ladder

variable {ι : Type}

/-- The prices of a ladder, best first. -/
def prices (L : Ladder ι) : List ℤ := L.map Prod.fst

/-- The queues of a ladder laid end to end, each entry under its price and its
order's identifier. -/
def flat (L : Ladder ι) : List ((ℤ × ι) × ℤ) :=
  L.flatMap (fun l => l.2.map (Prod.map (l.1, ·) id))

/-- The queue at a price: empty if there is no such level. -/
def queueAt (L : Ladder ι) (p : ℤ) : List (ι × ℤ) :=
  L.flatMap (fun l => if l.1 = p then l.2 else [])

/-- The identifiers resting on a ladder. -/
def ids (L : Ladder ι) : List ι := L.flatMap (fun l => l.2.map Prod.fst)

/-- **A well-formed ladder**: prices strictly worsen, no level is empty and
every order has something left. Identifiers are not mentioned; whether they are
kept apart is a matter of the book. -/
structure WF (s : Side) (L : Ladder ι) : Prop where
  sorted : L.prices.Pairwise s.better
  nonempty : ∀ l ∈ L, l.2 ≠ []
  positive : ∀ l ∈ L, Positive l.2

@[simp] theorem flat_nil : flat ([] : Ladder ι) = [] := rfl

@[simp] theorem flat_cons (l : ℤ × List (ι × ℤ)) (L : Ladder ι) :
    flat (l :: L) = l.2.map (Prod.map (l.1, ·) id) ++ flat L := rfl

@[simp] theorem flat_append (L L' : Ladder ι) : flat (L ++ L') = flat L ++ flat L' :=
  List.flatMap_append

@[simp] theorem queueAt_nil (p : ℤ) : queueAt ([] : Ladder ι) p = [] := rfl

@[simp] theorem queueAt_cons (l : ℤ × List (ι × ℤ)) (L : Ladder ι) (p : ℤ) :
    queueAt (l :: L) p = (if l.1 = p then l.2 else []) ++ queueAt L p := rfl

@[simp] theorem ids_nil : ids ([] : Ladder ι) = [] := rfl

@[simp] theorem ids_cons (l : ℤ × List (ι × ℤ)) (L : Ladder ι) :
    ids (l :: L) = l.2.map Prod.fst ++ ids L := rfl

@[simp] theorem prices_nil : prices ([] : Ladder ι) = [] := rfl

@[simp] theorem prices_cons (l : ℤ × List (ι × ℤ)) (L : Ladder ι) :
    prices (l :: L) = l.1 :: prices L := rfl

theorem wf_nil (s : Side) : WF s ([] : Ladder ι) :=
  ⟨List.Pairwise.nil, by simp, by simp⟩

/-- Without its best level a ladder stays in order. -/
theorem WF.tail {s : Side} {l : ℤ × List (ι × ℤ)} {L : Ladder ι} (h : WF s (l :: L)) :
    WF s L :=
  ⟨(List.pairwise_cons.mp h.sorted).2,
    fun l' hl' => h.nonempty l' (List.mem_cons_of_mem _ hl'),
    fun l' hl' => h.positive l' (List.mem_cons_of_mem _ hl')⟩

/-- The best level is better than all others. -/
theorem WF.better_of_mem {s : Side} {l : ℤ × List (ι × ℤ)} {L : Ladder ι}
    (h : WF s (l :: L)) : ∀ p ∈ L.prices, s.better l.1 p :=
  (List.pairwise_cons.mp h.sorted).1

/-- **A level in front**: better than what follows, with a queue of its own. -/
theorem WF.cons {s : Side} {p : ℤ} {q : List (ι × ℤ)} {L : Ladder ι} (h : WF s L)
    (hp : ∀ p' ∈ L.prices, s.better p p') (hne : q ≠ []) (hpos : Positive q) :
    WF s ((p, q) :: L) := by
  refine ⟨List.pairwise_cons.mpr ⟨hp, h.sorted⟩, fun l hl => ?_, fun l hl => ?_⟩
  · rcases List.mem_cons.mp hl with rfl | hl
    · exact hne
    · exact h.nonempty l hl
  · rcases List.mem_cons.mp hl with rfl | hl
    · exact hpos
    · exact h.positive l hl

/-- Laid end to end the queues have the entries that they have one by one. -/
theorem mem_flat_iff {L : Ladder ι} {p : ℤ} {i : ι} {a : ℤ} :
    ((p, i), a) ∈ flat L ↔ (i, a) ∈ queueAt L p := by
  induction L with
  | nil => simp
  | cons l L ih =>
    rw [flat_cons, queueAt_cons, List.mem_append, List.mem_append, ih]
    by_cases h : l.1 = p <;> simp [h]

/-- An identifier rests on a ladder if it rests at some price. -/
theorem mem_ids_iff {L : Ladder ι} {i : ι} :
    i ∈ ids L ↔ ∃ p, i ∈ (queueAt L p).map Prod.fst := by
  induction L with
  | nil => simp
  | cons l L ih =>
    rw [ids_cons, List.mem_append, ih]
    constructor
    · rintro (h | ⟨p, h⟩)
      · exact ⟨l.1, by rw [queueAt_cons, if_pos rfl, List.map_append]; exact
          List.mem_append_left _ h⟩
      · exact ⟨p, by rw [queueAt_cons, List.map_append]; exact List.mem_append_right _ h⟩
    · rintro ⟨p, h⟩
      rw [queueAt_cons, List.map_append, List.mem_append] at h
      rcases h with h | h
      · by_cases hp : l.1 = p
        · rw [if_pos hp] at h; exact Or.inl h
        · rw [if_neg hp] at h; simp at h
      · exact Or.inr ⟨p, h⟩

/-- A price that is no level has no queue. -/
theorem queueAt_of_notMem {L : Ladder ι} {p : ℤ} (h : p ∉ L.prices) : queueAt L p = [] := by
  induction L with
  | nil => rfl
  | cons l L ih =>
    rw [prices_cons, List.mem_cons, not_or] at h
    rw [queueAt_cons, if_neg (Ne.symm h.1), ih h.2, List.nil_append]

/-- **A level is what the ladder holds at its price.** -/
theorem WF.mem_iff {s : Side} {L : Ladder ι} (h : WF s L) {p : ℤ} {q : List (ι × ℤ)} :
    (p, q) ∈ L ↔ q ≠ [] ∧ queueAt L p = q := by
  induction L with
  | nil => simp [eq_comm]
  | cons l L ih =>
    obtain ⟨p', q'⟩ := l
    have hnot : p' ∉ prices L := fun hmem => s.better_irrefl p' (h.better_of_mem p' hmem)
    rw [List.mem_cons, ih h.tail, queueAt_cons]
    by_cases hp : p' = p
    · subst hp
      rw [if_pos rfl, queueAt_of_notMem hnot, List.append_nil]
      constructor
      · rintro (heq | ⟨hne, heq⟩)
        · cases heq
          exact ⟨h.nonempty _ List.mem_cons_self, rfl⟩
        · exact absurd heq.symm hne
      · rintro ⟨-, rfl⟩
        exact Or.inl rfl
    · rw [if_neg hp, List.nil_append]
      constructor
      · rintro (heq | hq)
        · cases heq; exact absurd rfl hp
        · exact hq
      · exact Or.inr

/-- **A well-formed ladder is determined by its queues**: the prices are those
that have one, and their order is that of the side. -/
theorem WF.ext {s : Side} {L L' : Ladder ι} (h : WF s L) (h' : WF s L')
    (heq : ∀ p, queueAt L p = queueAt L' p) : L = L' := by
  have hpair : ∀ {M : Ladder ι}, WF s M → M.Pairwise (fun l l' => s.better l.1 l'.1) :=
    fun hM => List.pairwise_map.mp hM.sorted
  have hnodup : ∀ {M : Ladder ι}, WF s M → M.Nodup := by
    intro M hM
    refine (hpair hM).imp ?_
    rintro l l' hb rfl
    exact s.better_irrefl _ hb
  refine List.Perm.eq_of_pairwise
    (fun l l' _ _ hb hb' => absurd (s.better_trans hb hb') (s.better_irrefl _))
    (hpair h) (hpair h') ?_
  refine (List.perm_ext_iff_of_nodup (hnodup h) (hnodup h')).mpr ?_
  rintro ⟨p, q⟩
  rw [h.mem_iff, h'.mem_iff, heq]

theorem WF.positive_queueAt {s : Side} {L : Ladder ι} (h : WF s L) (p : ℤ) :
    Positive (queueAt L p) := by
  intro e he
  unfold queueAt at he
  obtain ⟨l, hl, hmem⟩ := List.mem_flatMap.mp he
  by_cases hp : l.1 = p
  · rw [if_pos hp] at hmem; exact h.positive l hl e hmem
  · rw [if_neg hp] at hmem; simp at hmem

theorem positive_flat {L : Ladder ι} (h : ∀ l ∈ L, Positive l.2) : Positive (flat L) := by
  intro e he
  obtain ⟨l, hl, he⟩ := List.mem_flatMap.mp he
  obtain ⟨e', he', rfl⟩ := List.mem_map.mp he
  exact h l hl e' he'

theorem WF.positive_flat {s : Side} {L : Ladder ι} (h : WF s L) : Positive (flat L) :=
  Ladder.positive_flat h.positive

/-- A price is one of the ladder's if and only if something rests there. -/
theorem WF.mem_prices_iff {s : Side} {L : Ladder ι} (h : WF s L) {p : ℤ} :
    p ∈ L.prices ↔ queueAt L p ≠ [] := by
  unfold prices
  rw [List.mem_map]
  constructor
  · rintro ⟨⟨p', q⟩, hmem, rfl⟩
    obtain ⟨hne, hq⟩ := h.mem_iff.mp hmem
    exact hq ▸ hne
  · intro hne
    exact ⟨(p, queueAt L p), h.mem_iff.mpr ⟨hne, rfl⟩, rfl⟩

/-- An order rests at one price, when no identifier rests twice. -/
theorem price_unique {L : Ladder ι} (hnodup : (ids L).Nodup) {i : ι} {p p' : ℤ}
    (h : i ∈ (queueAt L p).map Prod.fst) (h' : i ∈ (queueAt L p').map Prod.fst) : p = p' := by
  induction L with
  | nil => simp at h
  | cons l L ih =>
    rw [ids_cons, List.nodup_append] at hnodup
    obtain ⟨-, htail, hdisj⟩ := hnodup
    rw [queueAt_cons, List.map_append, List.mem_append] at h h'
    have hhead : ∀ {p}, i ∈ (if l.1 = p then l.2 else []).map Prod.fst →
        l.1 = p ∧ i ∈ l.2.map Prod.fst := by
      intro p hp
      split_ifs at hp with hl
      · exact ⟨hl, hp⟩
      · simp at hp
    have hrest : ∀ {p}, i ∈ (queueAt L p).map Prod.fst → i ∈ ids L :=
      fun {p} hp => mem_ids_iff.mpr ⟨p, hp⟩
    rcases h with h | h <;> rcases h' with h' | h'
    · exact (hhead h).1.symm.trans (hhead h').1
    · exact absurd rfl (hdisj i (hhead h).2 i (hrest h'))
    · exact absurd rfl (hdisj i (hhead h').2 i (hrest h))
    · exact ih htail h h'

/-- The identifiers in the order of the ladder. -/
theorem map_fst_flat (L : Ladder ι) : ((flat L).map Prod.fst).map Prod.snd = ids L := by
  induction L with
  | nil => rfl
  | cons l L ih =>
    rw [flat_cons, List.map_append, List.map_append, ih, ids_cons, List.map_map, List.map_map]
    rfl

/-- Where no identifier rests twice, an identifier has one entry in a queue. -/
theorem entry_unique {L : Ladder ι} (hnodup : (ids L).Nodup) {p : ℤ} {e e' : ι × ℤ}
    (h : e ∈ queueAt L p) (h' : e' ∈ queueAt L p) (hkey : e.1 = e'.1) : e = e' := by
  have hflat : ((flat L).map (fun f => f.1.2)).Nodup := by
    have hmap : (flat L).map (fun f => f.1.2) = ids L := by
      rw [← map_fst_flat, List.map_map]
      rfl
    rwa [hmap]
  have hmem := List.inj_on_of_nodup_map hflat (mem_flat_iff.mpr h) (mem_flat_iff.mpr h') hkey
  exact Prod.ext hkey (Prod.mk.inj hmem).2

/-! ## Sweeping

The recursion goes down the levels and stops at the first one that is out of
reach, or is not used up. Its induction principle has these cases. -/

/-- **What a sweep leaves.** -/
structure Swept (ι : Type) where
  /-- The fills, first made first. -/
  fills : List (Fill ι)
  /-- The ladder after them. -/
  left : Ladder ι
  /-- What stays unfilled. -/
  unfilled : ℤ
  /-- The orders that are fully filled. -/
  gone : List ι

/-- The fills of trades made at one price. -/
def fillsAt (p : ℤ) (trades : List (ι × ℤ)) : List (Fill ι) :=
  trades.map (fun t => ⟨p, t.2, t.1⟩)

/-- **Sweeping a ladder**: served from the best level, and from the next one
when that is used up, as long as the prices are within reach. A level that is
used up is left out, and one that is not ends the sweep, since nothing is
wanted then. -/
def sweep (reach : ℤ → Bool) (want : ℤ) : Ladder ι → Swept ι
  | [] => ⟨[], [], want, []⟩
  | (p, q) :: L =>
    if want ≤ 0 ∨ reach p = false then ⟨[], (p, q) :: L, want, []⟩
    else
      let r := serve want q
      if r.left.isEmpty then
        let t := sweep reach r.unfilled L
        ⟨fillsAt p r.trades ++ t.fills, t.left, t.unfilled, r.gone ++ t.gone⟩
      else ⟨fillsAt p r.trades, (p, r.left) :: L, r.unfilled, r.gone⟩

@[simp] theorem sweep_nil (reach : ℤ → Bool) (want : ℤ) :
    sweep reach want ([] : Ladder ι) = ⟨[], [], want, []⟩ := rfl

/-- Where nothing is wanted, or the best price is out of reach, nothing
happens. -/
theorem sweep_of_stop {reach : ℤ → Bool} {want p : ℤ} (h : want ≤ 0 ∨ reach p = false)
    (q : List (ι × ℤ)) (L : Ladder ι) :
    sweep reach want ((p, q) :: L) = ⟨[], (p, q) :: L, want, []⟩ := by
  rw [sweep, if_pos h]

/-- A level that is used up leads on to the next. -/
theorem sweep_of_nil {reach : ℤ → Bool} {want p : ℤ} (hw : 0 < want) (hp : reach p = true)
    {q : List (ι × ℤ)} (hq : (serve want q).left = []) (L : Ladder ι) :
    sweep reach want ((p, q) :: L)
      = ⟨fillsAt p (serve want q).trades ++ (sweep reach (serve want q).unfilled L).fills,
          (sweep reach (serve want q).unfilled L).left,
          (sweep reach (serve want q).unfilled L).unfilled,
          (serve want q).gone ++ (sweep reach (serve want q).unfilled L).gone⟩ := by
  rw [sweep, if_neg (by simp [hw, hp])]
  dsimp only
  rw [hq, List.isEmpty_nil, if_pos rfl]

/-- A level that is not used up ends the sweep. -/
theorem sweep_of_ne_nil {reach : ℤ → Bool} {want p : ℤ} (hw : 0 < want)
    (hp : reach p = true) {q : List (ι × ℤ)} (hq : (serve want q).left ≠ [])
    (L : Ladder ι) :
    sweep reach want ((p, q) :: L)
      = ⟨fillsAt p (serve want q).trades, (p, (serve want q).left) :: L,
          (serve want q).unfilled, (serve want q).gone⟩ := by
  rw [sweep, if_neg (by simp [hw, hp])]
  dsimp only
  rw [if_neg (by simpa using hq)]

/-- **Induction along a sweep**: the ladder is used up, the sweep stops at its
first level, uses that level up, or ends inside it. -/
theorem sweep_induction (reach : ℤ → Bool) {P : ℤ → Ladder ι → Prop}
    (nil : ∀ want, P want [])
    (stop : ∀ want p q L, want ≤ 0 ∨ reach p = false → P want ((p, q) :: L))
    (whole : ∀ want p q L, 0 < want → reach p = true → (serve want q).left = [] →
      P (serve want q).unfilled L → P want ((p, q) :: L))
    (part : ∀ want p q L, 0 < want → reach p = true → (serve want q).left ≠ [] →
      P want ((p, q) :: L)) : ∀ want L, P want L := by
  intro want L
  induction L generalizing want with
  | nil => exact nil want
  | cons l L ih =>
    obtain ⟨p, q⟩ := l
    by_cases hstop : want ≤ 0 ∨ reach p = false
    · exact stop want p q L hstop
    · rw [not_or, not_le, Bool.not_eq_false] at hstop
      by_cases hq : (serve want q).left = []
      · exact whole want p q L hstop.1 hstop.2 hq (ih _)
      · exact part want p q L hstop.1 hstop.2 hq

/-- A level is one piece of the walk along the ladder. -/
theorem serve_level (want p : ℤ) (q : List (ι × ℤ)) :
    serve want (q.map (Prod.map (p, ·) id))
      = ⟨(serve want q).trades.map (Prod.map (p, ·) id),
          (serve want q).left.map (Prod.map (p, ·) id),
          (serve want q).unfilled, (serve want q).gone.map (p, ·)⟩ :=
  serve_map (p, ·) want q

/-- The fill of a trade made on a ladder. -/
def fillOf (t : (ℤ × ι) × ℤ) : Fill ι := ⟨t.1.1, t.2, t.1.2⟩

/-- The fills of a level are the fills of its trades. -/
theorem map_fillOf (p : ℤ) (trades : List (ι × ℤ)) :
    (trades.map (Prod.map (p, ·) id)).map fillOf = fillsAt p trades := by
  unfold fillsAt
  rw [List.map_map]
  rfl

/-- **A sweep is one walk along the queues within reach**, laid end to end: its
fills are the walk's trades, and what it leaves is what the walk leaves
followed by the levels beyond reach. -/
theorem sweep_eq_serve (reach : ℤ → Bool) (want : ℤ) (L : Ladder ι) :
    (sweep reach want L).fills
        = (serve want (flat (L.takeWhile (fun l => reach l.1)))).trades.map fillOf
      ∧ flat (sweep reach want L).left
        = (serve want (flat (L.takeWhile (fun l => reach l.1)))).left
          ++ flat (L.dropWhile (fun l => reach l.1))
      ∧ (sweep reach want L).unfilled
        = (serve want (flat (L.takeWhile (fun l => reach l.1)))).unfilled
      ∧ (sweep reach want L).gone
        = (serve want (flat (L.takeWhile (fun l => reach l.1)))).gone.map Prod.snd := by
  induction want, L using sweep_induction reach with
  | nil want => exact ⟨rfl, rfl, rfl, rfl⟩
  | stop want p q L hstop =>
    rw [sweep_of_stop hstop]
    by_cases hp : reach p = true
    · rw [serve_of_nonpos (hstop.resolve_right (by simp [hp]))]
      refine ⟨rfl, ?_, rfl, rfl⟩
      dsimp only
      rw [← flat_append, List.takeWhile_append_dropWhile]
    · rw [List.takeWhile_cons_of_neg (by simpa using hp),
        List.dropWhile_cons_of_neg (by simpa using hp)]
      exact ⟨rfl, rfl, rfl, rfl⟩
  | whole want p q L hw hp hq ih =>
    obtain ⟨hfills, hleft, hunfilled, hgone⟩ := ih
    have hmap : (serve want q).left.map (Prod.map (p, ·) id) = [] := by rw [hq, List.map_nil]
    rw [sweep_of_nil hw hp hq, List.takeWhile_cons_of_pos (by simpa using hp),
      List.dropWhile_cons_of_pos (by simpa using hp), flat_cons, serve_append, serve_level]
    dsimp only
    rw [if_pos hmap, List.map_append, map_fillOf, ← hfills]
    refine ⟨rfl, hleft, hunfilled, ?_⟩
    rw [List.map_append, ← hgone, List.map_map]
    exact congrArg (· ++ _) (List.map_id _).symm
  | part want p q L hw hp hq =>
    have hmap : (serve want q).left.map (Prod.map (p, ·) id) ≠ [] := by simpa using hq
    rw [sweep_of_ne_nil hw hp hq, List.takeWhile_cons_of_pos (by simpa using hp),
      List.dropWhile_cons_of_pos (by simpa using hp), flat_cons, serve_append, serve_level]
    dsimp only
    rw [if_neg hmap]
    refine ⟨(map_fillOf p _).symm, ?_, rfl, ?_⟩
    · rw [flat_cons, List.append_assoc, ← flat_append, List.takeWhile_append_dropWhile]
    · rw [List.map_map]
      exact (List.map_id _).symm

/-- The prices a sweep leaves are prices it found, in their order. -/
theorem prices_sweep_sublist (reach : ℤ → Bool) (want : ℤ) (L : Ladder ι) :
    (sweep reach want L).left.prices.Sublist L.prices := by
  induction want, L using sweep_induction reach with
  | nil want => exact List.Sublist.refl _
  | stop want p q L hstop => rw [sweep_of_stop hstop]
  | whole want p q L hw hp hq ih => rw [sweep_of_nil hw hp hq]; exact ih.cons p
  | part want p q L hw hp hq => rw [sweep_of_ne_nil hw hp hq]; exact List.Sublist.refl _

/-- **A sweep leaves a well-formed ladder**: no level is left empty, and what
is left of an order is positive. -/
theorem WF.sweep {s : Side} {L : Ladder ι} (h : WF s L) (reach : ℤ → Bool) (want : ℤ) :
    WF s (sweep reach want L).left := by
  induction want, L using sweep_induction reach with
  | nil want => exact h
  | stop want p q L hstop => rw [sweep_of_stop hstop]; exact h
  | whole want p q L hw hp hq ih => rw [sweep_of_nil hw hp hq]; exact ih h.tail
  | part want p q L hw hp hq =>
    rw [sweep_of_ne_nil hw hp hq]
    exact h.tail.cons h.better_of_mem hq
      (positive_left (h.positive _ List.mem_cons_self))

/-- **Something unfilled, nothing within reach**: what the sweep leaves is what
was beyond its limit from the start. -/
theorem sweep_left_of_unfilled_pos {reach : ℤ → Bool} {want : ℤ} {L : Ladder ι}
    (h : 0 < (sweep reach want L).unfilled) :
    (sweep reach want L).left = L.dropWhile (fun l => reach l.1) := by
  induction want, L using sweep_induction reach with
  | nil want => rfl
  | stop want p q L hstop =>
    rw [sweep_of_stop hstop] at h ⊢
    have hp : reach p = false := hstop.resolve_left (not_le.mpr h)
    rw [List.dropWhile_cons_of_neg (by simpa using hp)]
  | whole want p q L hw hp hq ih =>
    rw [sweep_of_nil hw hp hq] at h ⊢
    rw [List.dropWhile_cons_of_pos (by simpa using hp)]
    exact ih h
  | part want p q L hw hp hq =>
    rw [sweep_of_ne_nil hw hp hq] at h
    exact absurd (left_eq_nil_of_unfilled_pos h) hq

/-- **What is left is out of reach** when something stays unfilled, if the
prices are in order. -/
theorem not_reaches_of_sorted {s : Side} {L : Ladder ι} (hsorted : L.prices.Pairwise s.better)
    {limit : Option ℤ} {want : ℤ}
    (h : 0 < (Ladder.sweep (s.reaches limit) want L).unfilled) :
    ∀ p ∈ (Ladder.sweep (s.reaches limit) want L).left.prices,
      s.reaches limit p = false := by
  rw [sweep_left_of_unfilled_pos h]
  clear h
  induction L with
  | nil => simp
  | cons l L ih =>
    obtain ⟨hbetter, htail⟩ := List.pairwise_cons.mp hsorted
    by_cases hl : s.reaches limit l.1 = true
    · rw [List.dropWhile_cons_of_pos (by simpa using hl)]
      exact ih htail
    · rw [List.dropWhile_cons_of_neg (by simpa using hl)]
      intro p hp
      rcases List.mem_cons.mp hp with rfl | hp
      · simpa using hl
      · by_contra hne
        exact hl (Side.reaches_of_better (hbetter p hp) (by simpa using hne))

/-- **An order that is not filled does not cross what is left**, so it can come
to rest on its own side without crossing the book. -/
theorem not_reaches_of_unfilled_pos {s : Side} {L : Ladder ι} (hwf : WF s L)
    {limit : Option ℤ} {want : ℤ}
    (h : 0 < (Ladder.sweep (s.reaches limit) want L).unfilled) :
    ∀ p ∈ (Ladder.sweep (s.reaches limit) want L).left.prices,
      s.reaches limit p = false :=
  not_reaches_of_sorted hwf.sorted h

/-! ## What a sweep conserves

Nothing is lost and nothing made: identifiers, quantities and the request
itself are each accounted for by what was filled and what is left. -/

/-- Every price with its orders, in order: what the walk along the ladder
splits into what goes and what stays. -/
theorem keys_sweep (reach : ℤ → Bool) (want : ℤ) (L : Ladder ι) :
    (serve want (flat (L.takeWhile (fun l => reach l.1)))).gone
        ++ (flat (sweep reach want L).left).map Prod.fst
      = (flat L).map Prod.fst := by
  rw [(sweep_eq_serve reach want L).2.1, List.map_append, ← List.append_assoc,
    gone_append_left, ← List.map_append, ← flat_append, List.takeWhile_append_dropWhile]

/-- **The orders that go and the orders that stay** are the orders there were,
in their order. -/
theorem gone_append_ids (reach : ℤ → Bool) (want : ℤ) (L : Ladder ι) :
    (sweep reach want L).gone ++ ids (sweep reach want L).left = ids L := by
  rw [(sweep_eq_serve reach want L).2.2.2, ← map_fst_flat, ← map_fst_flat,
    ← List.map_append, keys_sweep]

/-- Laid end to end an order is under the price at which it rests. -/
theorem mem_map_fst_flat_iff {L : Ladder ι} {p : ℤ} {i : ι} :
    (p, i) ∈ (flat L).map Prod.fst ↔ i ∈ (queueAt L p).map Prod.fst := by
  simp only [List.mem_map, Prod.exists, exists_and_right, exists_eq_right, mem_flat_iff]

/-- **An order stays where it was unless it goes**, when no identifier rests
twice. -/
theorem mem_queueAt_sweep {L : Ladder ι} (hnodup : (ids L).Nodup) (reach : ℤ → Bool)
    (want p : ℤ) (i : ι) :
    i ∈ (queueAt (sweep reach want L).left p).map Prod.fst
      ↔ i ∈ (queueAt L p).map Prod.fst ∧ i ∉ (sweep reach want L).gone := by
  rw [← mem_map_fst_flat_iff, ← mem_map_fst_flat_iff, ← keys_sweep reach want L,
    List.mem_append]
  constructor
  · intro h
    refine ⟨Or.inr h, fun hgone => ?_⟩
    rw [← gone_append_ids reach want L] at hnodup
    refine (List.nodup_append.mp hnodup).2.2 i hgone i ?_ rfl
    rw [← map_fst_flat]
    exact List.mem_map_of_mem (f := Prod.snd) h
  · rintro ⟨h | h, hgone⟩
    · rw [(sweep_eq_serve reach want L).2.2.2] at hgone
      exact absurd (List.mem_map_of_mem (f := Prod.snd) h) hgone
    · exact h

/-- What is left was there before, whether identifiers are kept apart or
not. -/
theorem mem_queueAt_of_sweep {reach : ℤ → Bool} {want p : ℤ} {L : Ladder ι} {i : ι}
    (h : i ∈ (queueAt (sweep reach want L).left p).map Prod.fst) :
    i ∈ (queueAt L p).map Prod.fst := by
  rw [← mem_map_fst_flat_iff, ← keys_sweep reach want L]
  exact List.mem_append_right _ (mem_map_fst_flat_iff.mpr h)

/-- **Every fill is of an order** that rests at its price, of at least one and
no more than was wanted. The prices need not be in order for this. -/
theorem fill_of_resting {L : Ladder ι} (h : ∀ l ∈ L, Positive l.2) (reach : ℤ → Bool)
    (want : ℤ) : ∀ f ∈ (sweep reach want L).fills,
      f.maker ∈ (queueAt L f.px).map Prod.fst ∧ 0 < f.qty ∧ f.qty ≤ want := by
  intro f hf
  rw [(sweep_eq_serve reach want L).1] at hf
  obtain ⟨⟨⟨p, i⟩, a⟩, ht, rfl⟩ := List.mem_map.mp hf
  have hsub : flat (L.takeWhile (fun l => reach l.1)) ⊆ flat L := by
    intro e he
    rw [← List.takeWhile_append_dropWhile (p := fun l => reach l.1) (l := L), flat_append]
    exact List.mem_append_left _ he
  have hbounds := trades_bounds (fun e he => positive_flat h e (hsub he)) _ ht
  have hkey : (p, i) ∈ (flat L).map Prod.fst :=
    List.map_subset _ hsub (map_fst_trades_subset _ _ (List.mem_map_of_mem ht))
  exact ⟨mem_map_fst_flat_iff.mp hkey, hbounds⟩

/-- **Every fill is an honest one**: at a price of the ladder, from an order
resting there, of at least one and no more than was wanted. -/
theorem fill_bounds {s : Side} {L : Ladder ι} (hwf : WF s L) (reach : ℤ → Bool)
    (want : ℤ) : ∀ f ∈ (sweep reach want L).fills,
      f.px ∈ L.prices ∧ f.maker ∈ ids L ∧ 0 < f.qty ∧ f.qty ≤ want := by
  intro f hf
  obtain ⟨hqueue, hbounds⟩ := fill_of_resting hwf.positive reach want f hf
  refine ⟨hwf.mem_prices_iff.mpr ?_, mem_ids_iff.mpr ⟨f.px, hqueue⟩, hbounds⟩
  intro hnil
  rw [hnil] at hqueue
  simp at hqueue

section Held

variable [DecidableEq ι]

/-- What a ladder holds under an identifier, over all its levels. -/
def held (i : ι) (L : Ladder ι) : ℤ := (L.map (fun l => amountOf i l.2)).sum

/-- What fills take from an identifier. -/
def taken (i : ι) (fills : List (Fill ι)) : ℤ :=
  ((fills.filter (fun f => f.maker = i)).map Fill.qty).sum

@[simp] theorem held_cons (i : ι) (l : ℤ × List (ι × ℤ)) (L : Ladder ι) :
    held i (l :: L) = amountOf i l.2 + held i L := by
  simp [held]

@[simp] theorem taken_nil (i : ι) : taken i [] = 0 := rfl

@[simp] theorem taken_append (i : ι) (fills fills' : List (Fill ι)) :
    taken i (fills ++ fills') = taken i fills + taken i fills' := by
  simp [taken]

/-- What the fills of a level take from an identifier is what its trades
take. -/
theorem taken_fillsAt (i : ι) (p : ℤ) (trades : List (ι × ℤ)) :
    taken i (fillsAt p trades) = amountOf i trades := by
  unfold taken fillsAt amountOf total
  rw [List.filter_map, List.map_map]
  rfl

/-- What is held apart from one price, and what is held there. -/
theorem held_filter_add (i : ι) (L : Ladder ι) (px : ℤ) :
    held i (L.filter (fun l => l.1 ≠ px)) + amountOf i (queueAt L px) = held i L := by
  induction L with
  | nil => rfl
  | cons l L ih =>
    rw [queueAt_cons, amountOf_append, held_cons]
    by_cases hp : l.1 = px
    · rw [List.filter_cons_of_neg (by simpa using hp), if_pos hp]
      omega
    · rw [List.filter_cons_of_pos (by simpa using hp), if_neg hp, held_cons, amountOf_nil]
      omega

omit [DecidableEq ι] in
/-- The other prices keep their queues when one is left out. -/
theorem queueAt_filter (L : Ladder ι) (px p : ℤ) :
    queueAt (L.filter (fun l => l.1 ≠ px)) p = if p = px then [] else queueAt L p := by
  induction L with
  | nil => rw [List.filter_nil, queueAt_nil, ite_self]
  | cons l L ih =>
    by_cases hl : l.1 = px
    · rw [List.filter_cons_of_neg (by simpa using hl), ih, queueAt_cons]
      by_cases hp : p = px
      · rw [if_pos hp, if_pos hp]
      · rw [if_neg hp, if_neg hp, if_neg (fun h => hp (h.symm.trans hl)), List.nil_append]
    · rw [List.filter_cons_of_pos (by simpa using hl), queueAt_cons, queueAt_cons, ih]
      by_cases hp : p = px
      · rw [if_pos hp, if_pos hp, if_neg (fun h => hl (h.trans hp)), List.nil_append]
      · rw [if_neg hp, if_neg hp]

/-- **Only what is held at one price changes** when only its queue does. -/
theorem WF.held_of_queueAt {s : Side} {L L' : Ladder ι} (h : WF s L) (h' : WF s L') (px : ℤ)
    (heq : ∀ p, p ≠ px → queueAt L' p = queueAt L p) (i : ι) :
    held i L' - amountOf i (queueAt L' px) = held i L - amountOf i (queueAt L px) := by
  have hfilter : ∀ {M : Ladder ι}, WF s M → WF s (M.filter (fun l => l.1 ≠ px)) := fun hM =>
    ⟨hM.sorted.sublist (List.filter_sublist.map Prod.fst),
      fun l hl => hM.nonempty l (List.mem_of_mem_filter hl),
      fun l hl => hM.positive l (List.mem_of_mem_filter hl)⟩
  have hsame : L'.filter (fun l => l.1 ≠ px) = L.filter (fun l => l.1 ≠ px) := by
    refine WF.ext (hfilter h') (hfilter h) (fun p => ?_)
    rw [queueAt_filter, queueAt_filter]
    split_ifs with hp
    · rfl
    · exact heq p hp
  rw [← held_filter_add i L px, ← held_filter_add i L' px, hsame]
  omega

/-- **What an identifier held is taken or still held.** The identifier may rest
several times: then it is the sum of what rests under it. -/
theorem taken_add_held (i : ι) (reach : ℤ → Bool) (want : ℤ) (L : Ladder ι) :
    taken i (sweep reach want L).fills + held i (sweep reach want L).left = held i L := by
  induction want, L using sweep_induction reach with
  | nil want => simp
  | stop want p q L hstop => rw [sweep_of_stop hstop]; simp
  | whole want p q L hw hp hq ih =>
    have hlevel := amountOf_serve i want q
    rw [hq, amountOf_nil] at hlevel
    rw [sweep_of_nil hw hp hq, taken_append, taken_fillsAt, held_cons]
    dsimp only
    omega
  | part want p q L hw hp hq =>
    have hlevel := amountOf_serve i want q
    rw [sweep_of_ne_nil hw hp hq, taken_fillsAt, held_cons, held_cons]
    dsimp only
    omega

end Held

/-- What fills come to. -/
def filled (fills : List (Fill ι)) : ℤ := (fills.map Fill.qty).sum

/-- Nothing wanted, nothing filled. -/
theorem sweep_of_nonpos (reach : ℤ → Bool) {want : ℤ} (h : want ≤ 0) (L : Ladder ι) :
    sweep reach want L = ⟨[], L, want, []⟩ := by
  cases L with
  | nil => rfl
  | cons l L => exact sweep_of_stop (Or.inl h) l.2 L

/-- **What is wanted is filled or unfilled.** -/
theorem filled_add_unfilled (reach : ℤ → Bool) (want : ℤ) (L : Ladder ι) :
    filled (sweep reach want L).fills + (sweep reach want L).unfilled = want := by
  obtain ⟨hfills, -, hunfilled, -⟩ := sweep_eq_serve reach want L
  rw [hfills, hunfilled]
  unfold filled
  rw [List.map_map]
  exact total_trades_add_unfilled want _

/-- A request is not overfilled. -/
theorem sweep_unfilled_nonneg (reach : ℤ → Bool) {want : ℤ} (h : 0 ≤ want)
    (L : Ladder ι) : 0 ≤ (sweep reach want L).unfilled := by
  rw [(sweep_eq_serve reach want L).2.2.1]
  exact unfilled_nonneg h _

end Ladder

end PriceTime
