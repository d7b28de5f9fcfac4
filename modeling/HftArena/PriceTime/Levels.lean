import HftArena.Lib.SortedMap
import HftArena.PriceTime.Book

/-!
# Sides kept as prices and queues

However an engine stores a side – a sorted list of prices beside a dictionary
of levels, an ordered map, a tree – it can be read as two things: which prices
have a level, in ascending order, and what queue each of them has. `ofPrices`
is the ladder of such a side, and since ladders are determined by their queues
(`WF.ext`), what an engine does to a level is all there is to say of it.

The invariant of such a side is `Levels`: the prices ascend, and a price is
listed exactly if it has a queue. `Levels.update` is the one lemma by which an
engine's operations keep it, whether they write a queue, remove a level or make
one. Two of the engines keep their sides in ordered maps; what they share is in
the section about these.

The two loops of matching have a rule each. `loop_serve` is the rule of the
loop over the orders of a level: a body that at each turn either stops where a
walk stops or trades with the first order computes the walk. `loop_sweep` is
the rule of the loop over the levels: a body that at each turn either stops
where a sweep stops or serves the best level computes the sweep. Both are rules
of total correctness, with a bound on the number of turns.
-/

namespace PriceTime

namespace Ladder

variable {ι : Type}

/-- Ascending prices in the order of a side, best first. -/
def orient : Side → List ℤ → List ℤ
  | .bid, prices => prices.reverse
  | .ask, prices => prices

/-- **The ladder of a side kept as prices and queues.** The prices are in
ascending order whichever side it is. -/
def ofPrices (s : Side) (prices : List ℤ) (queue : ℤ → List (ι × ℤ)) : Ladder ι :=
  (orient s prices).map (fun p => (p, queue p))

@[simp] theorem mem_orient {s : Side} {prices : List ℤ} {p : ℤ} :
    p ∈ orient s prices ↔ p ∈ prices := by
  cases s <;> simp [orient]

/-- There are as many. -/
theorem length_orient (s : Side) (ps : List ℤ) : (orient s ps).length = ps.length := by
  cases s
  · exact List.length_reverse
  · rfl

/-- None is doubled. -/
theorem nodup_orient {s : Side} {ps : List ℤ} (h : ps.Nodup) : (orient s ps).Nodup := by
  cases s
  · exact List.nodup_reverse.mpr h
  · exact h

/-- Without the first price the others are as they were. -/
theorem orient_erase {s : Side} {ps ps' : List ℤ} {p : ℤ} (h : ps.Nodup)
    (hps : orient s ps = p :: ps') : orient s (ps.erase p) = ps' := by
  have hnodup := nodup_orient (s := s) h
  rw [hps, List.nodup_cons] at hnodup
  cases s with
  | bid =>
    have heq : ps = ps'.reverse ++ [p] := by
      rw [← List.reverse_reverse ps]
      show (orient .bid ps).reverse = _
      rw [hps, List.reverse_cons]
    rw [heq, List.erase_append_right _ (by simpa using hnodup.1), List.erase_cons_head,
      List.append_nil]
    exact List.reverse_reverse ps'
  | ask =>
    have heq : ps = p :: ps' := hps
    rw [heq, List.erase_cons_head]
    rfl

/-- Its prices are those that are listed, best first. -/
theorem prices_ofPrices (s : Side) (ps : List ℤ) (queue : ℤ → List (ι × ℤ)) :
    (ofPrices s ps queue).prices = orient s ps := by
  unfold prices ofPrices
  rw [List.map_map]
  exact List.map_id _

/-- A price is one of the ladder's if it is listed. -/
theorem mem_prices_ofPrices {s : Side} {ps : List ℤ} {f : ℤ → List (ι × ℤ)} {p : ℤ} :
    p ∈ (ofPrices s ps f).prices ↔ p ∈ ps := by
  rw [prices_ofPrices, mem_orient]

/-- There is a level for each price. -/
theorem length_ofPrices (s : Side) (ps : List ℤ) (queue : ℤ → List (ι × ℤ)) :
    (ofPrices s ps queue).length = ps.length := by
  rw [ofPrices, List.length_map, length_orient]

/-- A side without prices is an empty ladder. -/
theorem ofPrices_eq_nil_iff {s : Side} {ps : List ℤ} {queue : ℤ → List (ι × ℤ)} :
    ofPrices s ps queue = [] ↔ ps = [] := by
  rw [← List.length_eq_zero_iff, length_ofPrices, List.length_eq_zero_iff]

/-- A price that is listed has its queue. -/
theorem queueAt_ofPrices (s : Side) {ps : List ℤ} (hsorted : ps.Pairwise (· < ·))
    (queue : ℤ → List (ι × ℤ)) (p : ℤ) :
    queueAt (ofPrices s ps queue) p = if p ∈ ps then queue p else [] := by
  have hnodup : (orient s ps).Nodup := nodup_orient (hsorted.imp ne_of_lt)
  have hgen : ∀ qs : List ℤ, qs.Nodup →
      queueAt (qs.map (fun p => (p, queue p))) p = if p ∈ qs then queue p else [] := by
    intro qs hqs
    induction qs with
    | nil => rfl
    | cons p' qs ih =>
      rw [List.nodup_cons] at hqs
      rw [List.map_cons, queueAt_cons, ih hqs.2]
      by_cases hp : p' = p
      · subst hp
        simp [hqs.1]
      · simp [hp, Ne.symm hp]
  rw [ofPrices, hgen _ hnodup]
  exact if_congr mem_orient rfl rfl

/-- **Levels in order**: the prices ascend strictly, a price is one of them
exactly if it has a queue, and every order has something left. The queue of a
price that is not listed is empty, so no order is hidden. -/
structure Levels (ps : List ℤ) (queue : ℤ → List (ι × ℤ)) : Prop where
  sorted : ps.Pairwise (· < ·)
  mem : ∀ p, p ∈ ps ↔ queue p ≠ []
  positive : ∀ p, Positive (queue p)

theorem Levels.nil : Levels [] (fun _ => ([] : List (ι × ℤ))) :=
  ⟨List.Pairwise.nil, by simp, fun _ e he => by simp at he⟩

/-- The ladder of levels in order holds their queues. -/
theorem Levels.queueAt {ps : List ℤ} {queue : ℤ → List (ι × ℤ)} (h : Levels ps queue) (s : Side)
    (p : ℤ) : queueAt (ofPrices s ps queue) p = queue p := by
  rw [queueAt_ofPrices s h.sorted]
  split_ifs with hp
  · rfl
  · by_contra hne
    exact hp ((h.mem p).mpr (Ne.symm hne))

/-- **The ladder of levels in order is well formed.** -/
theorem Levels.wf {ps : List ℤ} {queue : ℤ → List (ι × ℤ)} (h : Levels ps queue) (s : Side) :
    WF s (ofPrices s ps queue) := by
  have hmem : ∀ l ∈ ofPrices s ps queue, ∃ p ∈ ps, l = (p, queue p) := by
    intro l hl
    obtain ⟨p, hp, rfl⟩ := List.mem_map.mp hl
    exact ⟨p, mem_orient.mp hp, rfl⟩
  refine ⟨?_, fun l hl => ?_, fun l hl => ?_⟩
  · rw [prices_ofPrices]
    cases s with
    | bid => exact List.pairwise_reverse.mpr h.sorted
    | ask => exact h.sorted
  · obtain ⟨p, hp, rfl⟩ := hmem l hl
    exact (h.mem p).mp hp
  · obtain ⟨p, -, rfl⟩ := hmem l hl
    exact h.positive p

/-- **Changing one level**: the prices are kept in step with the queue. The
price comes in with the first order of a level and goes out with the last; the
other queues stay as they are. -/
theorem Levels.update {ps ps' : List ℤ} {queue queue' : ℤ → List (ι × ℤ)} {px : ℤ}
    {q : List (ι × ℤ)} (h : Levels ps queue) (hsorted : ps'.Pairwise (· < ·))
    (hmem : ∀ p, p ∈ ps' ↔ if p = px then q ≠ [] else p ∈ ps) (hpos : Positive q)
    (hqueue : ∀ p, queue' p = if p = px then q else queue p) : Levels ps' queue' := by
  refine ⟨hsorted, fun p => ?_, fun p => ?_⟩
  · rw [hmem, hqueue]
    split_ifs
    · exact Iff.rfl
    · exact h.mem p
  · rw [hqueue]
    split_ifs
    · exact hpos
    · exact h.positive p

/-- The levels in ascending order of their prices, whichever side they are
of. -/
def ascending : Side → Ladder ι → Ladder ι
  | .bid, L => L.reverse
  | .ask, L => L

/-- They are the prices as they are listed, each with its queue. -/
theorem ascending_ofPrices (s : Side) (ps : List ℤ) (queue : ℤ → List (ι × ℤ)) :
    ascending s (ofPrices s ps queue) = ps.map (fun p => (p, queue p)) := by
  cases s
  · show (ps.reverse.map _).reverse = _
    rw [← List.map_reverse, List.reverse_reverse]
  · rfl

/-- They are the same levels. -/
theorem ascending_perm (s : Side) (L : Ladder ι) : (ascending s L).Perm L := by
  cases s
  · exact List.reverse_perm L
  · exact List.Perm.refl L

/-- They have the same orders. -/
theorem mem_ids_ascending {s : Side} {L : Ladder ι} {i : ι} : i ∈ ids (ascending s L) ↔ i ∈ ids L :=
  ((ascending_perm s L).flatMap_right _).mem_iff

/-! ### Ordered maps of queues

The maps of two of the engines, which keep their prices in order by themselves. -/

section OrderedMap

variable {N : Type} {entry : N → ι × ℤ}

/-- The queue of a price in an ordered map, read entry by entry. -/
def mapQueue (entry : N → ι × ℤ) (m : SortedMap ℤ (List N)) (p : ℤ) : List (ι × ℤ) :=
  ((m.get? p).getD []).map entry

/-- An ordered map whose queues are levels in order. -/
def MapLevels (entry : N → ι × ℤ) (m : SortedMap ℤ (List N)) : Prop :=
  Levels m.keys (mapQueue entry m)

/-- The ladder of an ordered map of queues. -/
def ofMap (s : Side) (entry : N → ι × ℤ) (m : SortedMap ℤ (List N)) : Ladder ι :=
  ofPrices s m.keys (mapQueue entry m)

theorem mapLevels_empty : MapLevels entry (.empty : SortedMap ℤ (List N)) := Levels.nil

/-- It has the map's queues. -/
theorem MapLevels.queueAt_ofMap {m : SortedMap ℤ (List N)} (h : MapLevels entry m) (s : Side)
    (p : ℤ) : Ladder.queueAt (ofMap s entry m) p = mapQueue entry m p :=
  Levels.queueAt h s p

/-- **The ladder of such a map is well formed.** -/
theorem MapLevels.wf_ofMap {m : SortedMap ℤ (List N)} (h : MapLevels entry m) (s : Side) :
    WF s (ofMap s entry m) :=
  Levels.wf h s

/-- The queue of a price that the map has. -/
theorem mapQueue_of_get? {m : SortedMap ℤ (List N)} {p : ℤ} {q : List N}
    (h : m.get? p = some q) : mapQueue entry m p = q.map entry := by
  rw [mapQueue, h, Option.getD_some]

/-- **Writing a queue to an ordered map**, and taking its price out if it is
empty, as an engine does after it has served a level. -/
theorem MapLevels.write {m : SortedMap ℤ (List N)} (h : MapLevels entry m) (px : ℤ) (q : List N)
    (hpos : Positive (q.map entry)) :
    MapLevels entry (if q.isEmpty then (m.set px q).erase px else m.set px q)
      ∧ ∀ p, mapQueue entry (if q.isEmpty then (m.set px q).erase px else m.set px q) p
        = if p = px then q.map entry else mapQueue entry m p := by
  have hqueue : ∀ p, mapQueue entry (if q.isEmpty then (m.set px q).erase px else m.set px q) p
      = if p = px then q.map entry else mapQueue entry m p := by
    intro p
    unfold mapQueue
    by_cases hq : q = []
    · rw [if_pos (List.isEmpty_iff.mpr hq), SortedMap.get?_erase, SortedMap.get?_set]
      split_ifs
      · rw [hq]
        rfl
      · rfl
    · rw [if_neg (fun h => hq (List.isEmpty_iff.mp h)), SortedMap.get?_set]
      split_ifs
      · rfl
      · rfl
  refine ⟨h.update (SortedMap.sorted_keys _) (fun p => ?_) hpos hqueue, hqueue⟩
  by_cases hq : q = []
  · rw [if_pos (List.isEmpty_iff.mpr hq), SortedMap.mem_keys_erase, SortedMap.mem_keys_set]
    split_ifs with hp
    · simp [hp, hq]
    · simp [hp]
  · rw [if_neg (fun h => hq (List.isEmpty_iff.mp h)), SortedMap.mem_keys_set]
    split_ifs with hp
    · simp [hp, hq]
    · simp [hp]

/-- **Appending to a queue of an ordered map**, which is made if there is none,
as an engine does when an order comes to rest. -/
theorem MapLevels.push {m : SortedMap ℤ (List N)} (h : MapLevels entry m) (px : ℤ) {n : N}
    (hpos : 0 < (entry n).2) :
    MapLevels entry (m.set px ((m.get? px).getD [] ++ [n]))
      ∧ ∀ p, mapQueue entry (m.set px ((m.get? px).getD [] ++ [n])) p
        = if p = px then mapQueue entry m p ++ [entry n] else mapQueue entry m p := by
  have hpos' : Positive (((m.get? px).getD [] ++ [n]).map entry) := by
    intro e he
    rw [List.map_append, List.mem_append] at he
    rcases he with he | he
    · exact h.positive px e he
    · rw [List.map_singleton, List.mem_singleton] at he
      exact he ▸ hpos
  obtain ⟨hlevels, hqueue⟩ := h.write px _ hpos'
  rw [if_neg (by simp)] at hlevels
  refine ⟨hlevels, fun p => ?_⟩
  have := hqueue p
  rw [if_neg (by simp)] at this
  rw [this]
  split_ifs with hp
  · rw [List.map_append, hp]
    rfl
  · rfl

/-- The levels of an ordered map, read as they stand. -/
theorem map_keys_mapQueue (m : SortedMap ℤ (List N)) :
    m.keys.map (fun p => (p, mapQueue entry m p))
      = m.entries.map (fun l => (l.1, l.2.map entry)) := by
  rw [SortedMap.keys, List.map_map]
  refine List.map_congr_left (fun e he => ?_)
  show (e.1, mapQueue entry m e.1) = _
  rw [mapQueue_of_get? (SortedMap.get?_eq_some_iff.mpr he)]

theorem ascending_ofMap (s : Side) (m : SortedMap ℤ (List N)) :
    ascending s (ofMap s entry m) = m.entries.map (fun l => (l.1, l.2.map entry)) := by
  rw [ofMap, ascending_ofPrices, map_keys_mapQueue]

/-- The best level of an ordered map: the last of the bids, the first of the
asks. -/
def bestEntry (s : Side) (m : SortedMap ℤ (List N)) : Option (ℤ × List N) :=
  match s with
  | .bid => m.entries.getLast?
  | .ask => m.entries.head?

/-- **The best level heads the ladder.** -/
theorem head?_ofMap (entry : N → ι × ℤ) (m : SortedMap ℤ (List N)) (s : Side) :
    (ofMap s entry m).head? = (bestEntry s m).map (fun l => (l.1, l.2.map entry)) := by
  cases s
  · show (m.keys.reverse.map _).head? = _
    rw [List.map_reverse, map_keys_mapQueue, List.head?_reverse, List.getLast?_map]
    rfl
  · show (m.keys.map _).head? = _
    rw [map_keys_mapQueue, List.head?_map]
    rfl

end OrderedMap

/-! ## What the engines do to a side

One update for all: a price is given a queue, and has a level from then on if
the queue is not empty. -/

/-- The ladder after its best level was served. -/
def turn (p : ℤ) (left : List (ι × ℤ)) (L : Ladder ι) : Ladder ι :=
  if left = [] then L else (p, left) :: L

/-- After a turn the best level has what is left of it, and the others have
what they had. -/
theorem WF.queueAt_turn {s : Side} {p : ℤ} {q left : List (ι × ℤ)} {L : Ladder ι}
    (h : WF s ((p, q) :: L)) (p' : ℤ) :
    queueAt (turn p left L) p' = if p' = p then left else queueAt ((p, q) :: L) p' := by
  have hnot : p ∉ prices L := fun hmem => s.better_irrefl p (h.better_of_mem p hmem)
  unfold turn
  by_cases hp : p' = p
  · subst hp
    by_cases hleft : left = []
    · rw [if_pos hleft, if_pos rfl, queueAt_of_notMem hnot, hleft]
    · rw [if_neg hleft, if_pos rfl, queueAt_cons, if_pos rfl, queueAt_of_notMem hnot,
        List.append_nil]
  · rw [if_neg hp, queueAt_cons, if_neg (Ne.symm hp), List.nil_append]
    by_cases hleft : left = []
    · rw [if_pos hleft]
    · rw [if_neg hleft, queueAt_cons, if_neg (Ne.symm hp), List.nil_append]

/-- It is in order. -/
theorem WF.turn {s : Side} {p : ℤ} {q left : List (ι × ℤ)} {L : Ladder ι}
    (h : WF s ((p, q) :: L)) (hleft : Positive left) : WF s (turn p left L) := by
  unfold Ladder.turn
  split_ifs with hnil
  · exact h.tail
  · exact h.tail.cons h.better_of_mem hnil hleft

/-- **Serving the best level**: a ladder whose queue there is what is left of
it, and whose other queues are as they were, is the ladder after the turn. -/
theorem WF.eq_turn {s : Side} {p : ℤ} {q left : List (ι × ℤ)} {L L' : Ladder ι}
    (h : WF s ((p, q) :: L)) (h' : WF s L') (hleft : Positive left)
    (hqueue : ∀ p', queueAt L' p' = if p' = p then left else queueAt ((p, q) :: L) p') :
    L' = Ladder.turn p left L := by
  refine WF.ext h' (h.turn hleft) (fun p' => ?_)
  rw [hqueue, h.queueAt_turn]

/-! ## The matching loop

What the loop has still to do is a sweep, of what is left with what is still
wanted; a turn takes the best level off it. So the result of the whole does not
change from turn to turn. -/

/-- What a sweep that has got this far ends with: its fills so far and those
that are still to come, and what these leave. -/
def Swept.resume (reach : ℤ → Bool) (t : Swept ι) : Swept ι :=
  ⟨t.fills ++ (sweep reach t.unfilled t.left).fills, (sweep reach t.unfilled t.left).left,
    (sweep reach t.unfilled t.left).unfilled, t.gone ++ (sweep reach t.unfilled t.left).gone⟩

/-- A sweep that has got this far, after one more level. -/
def Swept.serveLevel (t : Swept ι) (p : ℤ) (q : List (ι × ℤ)) (L : Ladder ι) : Swept ι :=
  ⟨t.fills ++ fillsAt p (serve t.unfilled q).trades, turn p (serve t.unfilled q).left L,
    (serve t.unfilled q).unfilled, t.gone ++ (serve t.unfilled q).gone⟩

/-- It ends here if nothing is wanted, or nothing is within reach. -/
theorem Swept.resume_of_stop {reach : ℤ → Bool} {t : Swept ι}
    (h : t.unfilled ≤ 0 ∨ ∀ l ∈ t.left.head?, reach l.1 = false) : t.resume reach = t := by
  have hsweep : sweep reach t.unfilled t.left = ⟨[], t.left, t.unfilled, []⟩ := by
    cases hL : t.left with
    | nil => rfl
    | cons l L =>
      rw [hL] at h
      exact sweep_of_stop (h.imp_right (fun h => h l rfl)) l.2 L
  rw [Swept.resume, hsweep, List.append_nil, List.append_nil]

/-- Otherwise it serves the level it has come to and goes on from there. -/
theorem Swept.resume_of_level {reach : ℤ → Bool} {t : Swept ι} {p : ℤ} {q : List (ι × ℤ)}
    {L : Ladder ι} (hL : t.left = (p, q) :: L) (hw : 0 < t.unfilled) (hp : reach p = true) :
    t.resume reach = (t.serveLevel p q L).resume reach := by
  by_cases hq : (serve t.unfilled q).left = []
  · simp only [Swept.resume, Swept.serveLevel, hL, sweep_of_nil hw hp hq, turn, if_pos hq,
      List.append_assoc]
  · have hun : (serve t.unfilled q).unfilled ≤ 0 :=
      not_lt.mp (fun h => hq (left_eq_nil_of_unfilled_pos h))
    simp only [Swept.resume, Swept.serveLevel, hL, sweep_of_ne_nil hw hp hq, turn, if_neg hq,
      sweep_of_stop (Or.inl hun), List.append_nil]

/-- A sweep stops here, or serves the level it has come to. -/
theorem Swept.stop_or_level (reach : ℤ → Bool) (t : Swept ι) :
    (t.unfilled ≤ 0 ∨ ∀ l ∈ t.left.head?, reach l.1 = false)
      ∨ ∃ p q L, t.left = (p, q) :: L ∧ 0 < t.unfilled ∧ reach p = true := by
  rcases le_or_gt t.unfilled 0 with hw | hw
  · exact Or.inl (Or.inl hw)
  · cases hL : t.left with
    | nil => exact Or.inl (Or.inr (by simp))
    | cons l L =>
      cases hp : reach l.1 with
      | true => exact Or.inr ⟨l.1, l.2, L, rfl, hw, hp⟩
      | false => exact Or.inl (Or.inr (fun l' hl' => by
          rw [List.head?_cons, Option.mem_some_iff] at hl'
          exact hl' ▸ hp))

/-- **The rule of the matching loop.** `At s t` says that the loop's state `s`
shows a sweep that has got as far as `t`. If the body stops where a sweep
stops, and otherwise serves the best level, then the loop ends with the sweep,
and one turn for each level and one to stop are turns enough. -/
theorem loop_sweep {ε σ : Type} (diverges : ε) (body : σ → Except ε (Turn σ σ))
    (reach : ℤ → Bool) (At : σ → Swept ι → Prop)
    (hstop : ∀ s t, At s t → (t.unfilled ≤ 0 ∨ ∀ l ∈ t.left.head?, reach l.1 = false) →
      body s = .ok (.done s))
    (hlevel : ∀ s t p q L, At s t → t.left = (p, q) :: L → 0 < t.unfilled → reach p = true →
      ∃ s', body s = .ok (.again s') ∧ At s' (t.serveLevel p q L))
    {n : ℕ} {s : σ} {t : Swept ι} (h : At s t) (hn : t.left.length < n) :
    ∃ r, loop diverges body n s = .ok r ∧ At r (t.resume reach) := by
  -- as many turns as there are levels are needed, or none but the last if
  -- nothing more is wanted: a level that is not used up leaves nothing wanted
  refine loop_ok
    (fun m s => ∃ t', At s t' ∧ t'.resume reach = t.resume reach
      ∧ (t'.left.length ≤ m ∨ t'.unfilled ≤ 0))
    (fun r => At r (t.resume reach)) ?_ ⟨t, h, rfl, Or.inl le_rfl⟩ hn
  rintro m s ⟨t', hat, hresume, hbound⟩
  rcases t'.stop_or_level reach with hcase | ⟨p, q, L, hL, hw, hp⟩
  · rw [Swept.resume_of_stop hcase] at hresume
    exact Or.inl ⟨s, hstop s t' hat hcase, hresume ▸ hat⟩
  · have hlen : L.length + 1 ≤ m := by
      rw [hL, List.length_cons] at hbound
      exact hbound.resolve_right (not_le.mpr hw)
    obtain ⟨s', hs', hat'⟩ := hlevel s t' p q L hat hL hw hp
    refine Or.inr ⟨s', m - 1, by omega, hs', _, hat', ?_, ?_⟩
    · rw [← Swept.resume_of_level hL hw hp, hresume]
    · by_cases hq : (serve t'.unfilled q).left = []
      · refine Or.inl ?_
        rw [Swept.serveLevel, turn, if_pos hq]
        show L.length ≤ m - 1
        omega
      · exact Or.inr (not_lt.mp (fun h => hq (left_eq_nil_of_unfilled_pos h)))

end Ladder

/-! ## The loop over the orders of a level

The same for the inner loop, with a walk along a queue in place of the sweep. -/

variable {κ : Type}

/-- What a walk that has got this far ends with. -/
def Served.resume (t : Served κ) : Served κ :=
  ⟨t.trades ++ (serve t.unfilled t.left).trades, (serve t.unfilled t.left).left,
    (serve t.unfilled t.left).unfilled, t.gone ++ (serve t.unfilled t.left).gone⟩

/-- A walk that has got this far, after one more trade. -/
def Served.trade (t : Served κ) (k : κ) (a : ℤ) (q : List (κ × ℤ)) : Served κ :=
  if a ≤ t.unfilled then ⟨t.trades ++ [(k, a)], q, t.unfilled - a, t.gone ++ [k]⟩
  else ⟨t.trades ++ [(k, t.unfilled)], (k, a - t.unfilled) :: q, 0, t.gone⟩

/-- It ends here if nothing is wanted, or nothing is left. -/
theorem Served.resume_of_stop {t : Served κ} (h : t.unfilled ≤ 0 ∨ t.left = []) :
    t.resume = t := by
  have hserve : serve t.unfilled t.left = ⟨[], t.left, t.unfilled, []⟩ := by
    rcases h with h | h
    · exact serve_of_nonpos h _
    · rw [h]
      rfl
  rw [Served.resume, hserve, List.append_nil, List.append_nil]

/-- Otherwise it trades with the first order and goes on from there. -/
theorem Served.resume_trade {t : Served κ} {k : κ} {a : ℤ} {q : List (κ × ℤ)}
    (hL : t.left = (k, a) :: q) (hw : 0 < t.unfilled) :
    (t.trade k a q).resume = t.resume := by
  unfold Served.trade
  split_ifs with ha
  · simp only [Served.resume, hL, serve_cons_of_le hw ha, List.append_assoc, List.singleton_append]
  · simp only [Served.resume, hL, serve_cons_of_lt hw (not_le.mp ha), serve_of_nonpos le_rfl,
      List.append_nil]

/-- **The rule of the loop over the orders of a level.** If the body stops
where nothing is wanted or nothing is left, and otherwise trades with the first
order, then the loop ends with the walk, and one turn for each order and one to
stop are turns enough. -/
theorem loop_serve {ε σ : Type} (diverges : ε) (body : σ → Except ε (Turn σ σ))
    (At : σ → Served κ → Prop)
    (hstop : ∀ s t, At s t → (t.unfilled ≤ 0 ∨ t.left = []) → body s = .ok (.done s))
    (htrade : ∀ s t k a q, At s t → t.left = (k, a) :: q → 0 < t.unfilled →
      ∃ s', body s = .ok (.again s') ∧ At s' (t.trade k a q))
    {n : ℕ} {s : σ} {t : Served κ} (h : At s t) (hn : t.left.length < n) :
    ∃ r, loop diverges body n s = .ok r ∧ At r t.resume := by
  refine loop_ok
    (fun m s => ∃ t', At s t' ∧ t'.resume = t.resume ∧ (t'.left.length ≤ m ∨ t'.unfilled ≤ 0))
    (fun r => At r t.resume) ?_ ⟨t, h, rfl, Or.inl le_rfl⟩ hn
  rintro m s ⟨t', hat, hresume, hbound⟩
  by_cases hcase : t'.unfilled ≤ 0 ∨ t'.left = []
  · rw [Served.resume_of_stop hcase] at hresume
    exact Or.inl ⟨s, hstop s t' hat hcase, hresume ▸ hat⟩
  · rw [not_or, not_le] at hcase
    obtain ⟨⟨k, a⟩, q, hL⟩ := List.exists_cons_of_ne_nil hcase.2
    obtain ⟨s', hs', hat'⟩ := htrade s t' k a q hat hL hcase.1
    have hlen : q.length + 1 ≤ m := by
      rw [hL, List.length_cons] at hbound
      exact hbound.resolve_right (not_le.mpr hcase.1)
    refine Or.inr ⟨s', m - 1, by omega, hs', _, hat',
      (Served.resume_trade hL hcase.1).trans hresume, ?_⟩
    have hshorter : q.length ≤ m - 1 := by omega
    unfold Served.trade
    split_ifs
    · exact Or.inl hshorter
    · exact Or.inr le_rfl

end PriceTime
