import HftArena.PriceTime.Book

/-!
# Orders with handles

An engine that keeps its queues in linked lists knows an order by more than its
identifier: by the node it is in. Nodes are made once and are all different, so
a book of nodes is a price-time-priority book in which no order is ever
submitted under an identifier that is resting – whatever the callers do.

`Handles` is that book, with the index that the engine keeps from identifiers
to nodes: what an entry of the index names is always a node that rests where
the entry says, under the entry's identifier (`live`), so a cancel never
reaches for a node that is gone. The structure carries this, and every
operation keeps it, with no assumption on identifiers: `trade`, `rest` and
`remove` have the proof of each field with the field.

What the index cannot say is whether it names every node. If an identifier is
used again its entry names the newer node only, and the older one stays when
the identifier is cancelled (`resting_cancel_rest`). Where callers do keep
identifiers apart, forgetting the nodes gives the book of `PriceTime.Book`
(`Handles.Shows`).
-/

namespace PriceTime

variable {κ ι : Type}

/-! ## Renaming orders

Nothing that a book does looks at what its orders are called. Orders can
therefore be renamed before a call or after it, as long as different orders
keep different names. -/

/-- A fill under another name for its maker. -/
def Fill.rename (f : κ → ι) (x : Fill κ) : Fill ι := ⟨x.px, x.qty, f x.maker⟩

namespace Ladder

/-- The ladder under other names for its orders. -/
def rename (f : κ → ι) (L : Ladder κ) : Ladder ι :=
  L.map (fun l => (l.1, l.2.map (Prod.map f id)))

@[simp] theorem rename_cons (f : κ → ι) (l : ℤ × List (κ × ℤ)) (L : Ladder κ) :
    rename f (l :: L) = (l.1, l.2.map (Prod.map f id)) :: rename f L := rfl

@[simp] theorem prices_rename (f : κ → ι) (L : Ladder κ) : (rename f L).prices = L.prices := by
  unfold prices rename
  rw [List.map_map]
  rfl

/-- The queue of a price, under other names. -/
theorem queueAt_rename (f : κ → ι) (L : Ladder κ) (p : ℤ) :
    queueAt (rename f L) p = (queueAt L p).map (Prod.map f id) := by
  induction L with
  | nil => rfl
  | cons l L ih =>
    rw [rename_cons, queueAt_cons, queueAt_cons, List.map_append, ih]
    dsimp only
    split_ifs <;> rfl

theorem keys_rename (f : κ → ι) (q : List (κ × ℤ)) :
    (q.map (Prod.map f id)).map Prod.fst = (q.map Prod.fst).map f := by
  rw [List.map_map, List.map_map]
  rfl

/-- The orders under their other names. -/
theorem ids_rename (f : κ → ι) (L : Ladder κ) : ids (rename f L) = (ids L).map f := by
  induction L with
  | nil => rfl
  | cons l L ih => rw [rename_cons, ids_cons, ids_cons, List.map_append, ih, keys_rename]

/-- A ladder is in order under any names. -/
theorem WF.rename {s : Side} {L : Ladder κ} (h : WF s L) (f : κ → ι) : WF s (rename f L) := by
  refine ⟨by rw [prices_rename]; exact h.sorted, fun l hl => ?_, fun l hl => ?_⟩
  · obtain ⟨l', hl', rfl⟩ := List.mem_map.mp hl
    simpa using h.nonempty l' hl'
  · obtain ⟨l', hl', rfl⟩ := List.mem_map.mp hl
    intro e he
    obtain ⟨e', he', rfl⟩ := List.mem_map.mp he
    exact h.positive l' hl' e' he'

theorem fillsAt_rename (f : κ → ι) (p : ℤ) (trades : List (κ × ℤ)) :
    fillsAt p (trades.map (Prod.map f id)) = (fillsAt p trades).map (Fill.rename f) := by
  unfold fillsAt
  rw [List.map_map, List.map_map]
  rfl

/-- One more trade is one more fill, under the other name. -/
theorem fillsAt_concat_rename (f : κ → ι) (p : ℤ) (trades : List (κ × ℤ)) (k : κ) (a : ℤ) :
    (fillsAt p (trades ++ [(k, a)])).map (Fill.rename f)
      = (fillsAt p trades).map (Fill.rename f) ++ [⟨p, a, f k⟩] := by
  simp [fillsAt, Fill.rename]

/-- **A sweep does not look at names**: under others it trades the same, with
the makers renamed. -/
theorem sweep_rename (f : κ → ι) (reach : ℤ → Bool) (want : ℤ) (L : Ladder κ) :
    sweep reach want (rename f L)
      = ⟨(sweep reach want L).fills.map (Fill.rename f), rename f (sweep reach want L).left,
          (sweep reach want L).unfilled, (sweep reach want L).gone.map f⟩ := by
  induction want, L using sweep_induction reach with
  | nil want => rfl
  | stop want p q L hstop => rw [rename_cons, sweep_of_stop hstop, sweep_of_stop hstop]; rfl
  | whole want p q L hw hp hq ih =>
    have hq' : (serve want (q.map (Prod.map f id))).left = [] := by rw [serve_map, hq]; rfl
    rw [rename_cons, sweep_of_nil hw hp hq, sweep_of_nil hw hp hq', serve_map]
    dsimp only
    rw [ih, fillsAt_rename, List.map_append, List.map_append]
  | part want p q L hw hp hq =>
    have hq' : (serve want (q.map (Prod.map f id))).left ≠ [] := by
      rw [serve_map]
      simpa using hq
    rw [rename_cons, sweep_of_ne_nil hw hp hq, sweep_of_ne_nil hw hp hq', serve_map,
      fillsAt_rename]
    rfl

/-- Nor does an order that comes to rest. -/
theorem rest_rename (f : κ → ι) (s : Side) (px : ℤ) (k : κ) (qty : ℤ) (L : Ladder κ) :
    rename f (rest s px (k, qty) L) = rest s px (f k, qty) (rename f L) := by
  induction L with
  | nil => rfl
  | cons l L ih =>
    obtain ⟨p, q⟩ := l
    rw [rename_cons, rest, rest]
    split_ifs
    · rw [rename_cons, List.map_append]
      rfl
    · rfl
    · rw [rename_cons, ih]

end Ladder

open Ladder

/-- The book under other names for its orders. -/
def Book.rename (f : κ → ι) (b : Book κ) : Book ι := ⟨fun s => Ladder.rename f (b.ladder s)⟩

theorem Book.rename_put (f : κ → ι) (b : Book κ) (s : Side) (L : Ladder κ) :
    (b.put s L).rename f = (b.rename f).put s (Ladder.rename f L) := by
  refine Book.ext (fun s' => ?_)
  show Ladder.rename f ((b.put s L).ladder s') = _
  by_cases hs : s' = s
  · subst hs
    rw [Book.ladder_put_self, Book.ladder_put_self]
  · rw [Book.ladder_put_of_ne hs, Book.ladder_put_of_ne hs]
    rfl

theorem Book.sweep_rename (f : κ → ι) (b : Book κ) (side : Side) (limit : Option ℤ) (qty : ℤ) :
    (b.rename f).sweep side limit qty
      = ⟨(b.sweep side limit qty).fills.map (Fill.rename f),
          Ladder.rename f (b.sweep side limit qty).left, (b.sweep side limit qty).unfilled,
          (b.sweep side limit qty).gone.map f⟩ :=
  Ladder.sweep_rename f _ _ _

/-! ## Books of nodes

The operations are those of the book, with an index beside it. What the index
names is always there; what is there may not be named. -/

/-- **A book of nodes with its index.** A node is an order's address and its
identifier; two nodes may have the same identifier. -/
structure Handles (ι : Type) where
  /-- The nodes that rest. -/
  book : Book (ℕ × ι)
  /-- For an identifier, the side, the price and the address of a node. -/
  index : ι → Option (Side × ℤ × ℕ)
  /-- The address of the next node. -/
  next : ℕ
  wf : book.WF
  /-- Addresses are given out once. -/
  bound : ∀ s, ∀ n ∈ ids (book.ladder s), n.1 < next
  /-- A node is known by its address. -/
  addr : ∀ n n', book.Resting n → book.Resting n' → n.1 = n'.1 → n = n'
  /-- An entry of the index names a node that rests where it says. -/
  live : ∀ i s p a, index i = some (s, p, a) →
    (a, i) ∈ (queueAt (book.ladder s) p).map Prod.fst

namespace Handles

/-- No nodes. -/
def empty : Handles ι where
  book := .empty
  index _ := none
  next := 0
  wf := Book.wf_empty
  bound s n hn := absurd hn (by simp [Book.empty])
  addr n n' hn := absurd hn (by simp [Book.Resting, Book.empty])
  live i s p a h := absurd h (by simp)

/-- A new node is not resting: its address was not given out before. -/
theorem not_resting_next (H : Handles ι) (i : ι) : ¬ H.book.Resting (H.next, i) := by
  rintro ⟨s, hs⟩
  exact absurd (H.bound s _ hs) (lt_irrefl _)

/-- **A node is in one place**: its address is the address of no other. -/
theorem node_unique (H : Handles ι) {s s' : Side} {p p' : ℤ} {e e' : (ℕ × ι) × ℤ}
    (h : e ∈ Ladder.queueAt (H.book.ladder s) p) (h' : e' ∈ Ladder.queueAt (H.book.ladder s') p')
    (haddr : e.1.1 = e'.1.1) : s = s' ∧ p = p' ∧ e = e' := by
  have hmem := List.mem_map_of_mem (f := Prod.fst) h
  have hmem' := List.mem_map_of_mem (f := Prod.fst) h'
  have hkey : e.1 = e'.1 :=
    H.addr _ _ ⟨s, Ladder.mem_ids_iff.mpr ⟨p, hmem⟩⟩ ⟨s', Ladder.mem_ids_iff.mpr ⟨p', hmem'⟩⟩ haddr
  obtain ⟨rfl, rfl⟩ := H.wf.place_unique hmem (hkey ▸ hmem')
  exact ⟨rfl, rfl, Ladder.entry_unique (H.wf.nodup s) h h' hkey⟩

section Operations

variable [DecidableEq ι]

/-- **After a trade**: the makers that are gone are out of the index, under
their identifiers. An engine erases by identifier, so an entry goes even if it
names another node that is still there; it may name fewer nodes than it could,
but none that is gone. -/
def trade (H : Handles ι) (side : Side) (limit : Option ℤ) (qty : ℤ) : Handles ι where
  book := H.book.put side.opp (H.book.sweep side limit qty).left
  index i := if i ∈ (H.book.sweep side limit qty).gone.map Prod.snd then none else H.index i
  next := H.next
  wf := H.wf.put_sweep side limit qty
  bound s n hn := by
    refine H.bound s n ?_
    by_cases hs : s = side.opp
    · subst hs
      rw [Book.ladder_put_self] at hn
      exact (H.book.ids_sweep_sublist side limit qty).subset hn
    · rwa [Book.ladder_put_of_ne hs] at hn
  addr n n' hn hn' := by
    have hold := fun m => mt (H.book.not_resting_put_sweep (i := m) · side limit qty)
    exact H.addr n n' (not_not.mp (hold n (not_not.mpr hn))) (not_not.mp (hold n' (not_not.mpr hn')))
  live i s p a h := by
    split_ifs at h with hgone
    have hnode := H.live i s p a h
    by_cases hs : s = side.opp
    · subst hs
      rw [Book.ladder_put_self, Book.sweep, mem_queueAt_sweep (H.wf.nodup _)]
      exact ⟨hnode, fun hmem => hgone (List.mem_map_of_mem (f := Prod.snd) hmem)⟩
    · rwa [Book.ladder_put_of_ne hs]

/-- **After an order came to rest**: in a new node, which the index names. An
entry that was there for the identifier is overwritten. -/
def rest (H : Handles ι) (side : Side) (px : ℤ) (oid : ι) (qty : ℤ) (hqty : 0 < qty)
    (hcross : ∀ p ∈ (H.book.ladder side.opp).prices, side.opp.reaches (some px) p = false) :
    Handles ι where
  book := H.book.put side (Ladder.rest side px ((H.next, oid), qty) (H.book.ladder side))
  index i := if i = oid then some (side, px, H.next) else H.index i
  next := H.next + 1
  wf := H.wf.put_rest side px (H.not_resting_next oid) hqty hcross
  bound s n hn := by
    by_cases hs : s = side
    · subst hs
      rw [Book.ladder_put_self, (Book.ids_rest_perm s px _ _).mem_iff, List.mem_cons] at hn
      rcases hn with rfl | hn
      · exact Nat.lt_succ_self _
      · exact Nat.lt_succ_of_lt (H.bound s n hn)
    · rw [Book.ladder_put_of_ne hs] at hn
      exact Nat.lt_succ_of_lt (H.bound s n hn)
  addr n n' hn hn' := by
    have hold := fun m (hm : (H.book.put side _).Resting m) =>
      H.book.resting_put_rest side px ((H.next, oid), qty) hm
    rcases hold n hn with rfl | hn <;> rcases hold n' hn' with rfl | hn'
    · exact fun _ => rfl
    · obtain ⟨s, hs⟩ := hn'
      exact fun h => absurd (H.bound s n' hs) (by rw [← h]; exact lt_irrefl _)
    · obtain ⟨s, hs⟩ := hn
      exact fun h => absurd (H.bound s n hs) (by rw [h]; exact lt_irrefl _)
    · exact H.addr n n' hn hn'
  live i s p a h := by
    split_ifs at h with hi
    · cases h
      subst hi
      rw [Book.ladder_put_self, (H.wf.side _).queueAt_rest, if_pos rfl, List.map_append]
      exact List.mem_append_right _ List.mem_cons_self
    · have hnode := H.live i s p a h
      by_cases hs : s = side
      · subst hs
        rw [Book.ladder_put_self, (H.wf.side s).queueAt_rest]
        split_ifs
        · rw [List.map_append]
          exact List.mem_append_left _ hnode
        · exact hnode
      · rwa [Book.ladder_put_of_ne hs]

/-- **After the node that the index names was taken out**, with its entry. -/
def remove (H : Handles ι) (target : ι) (a : ℕ) : Handles ι where
  book := H.book.cancel (a, target)
  index i := if i = target then none else H.index i
  next := H.next
  wf := H.wf.step (c := .cancel (a, target)) trivial
  bound s n hn := by
    refine H.bound s n ?_
    have hn' : n ∈ ids (Ladder.remove (a, target) (H.book.ladder s)) := hn
    rw [ids_remove] at hn'
    exact List.mem_of_mem_filter hn'
  addr n n' hn hn' :=
    H.addr n n' (H.book.resting_of_cancel hn) (H.book.resting_of_cancel hn')
  live i s p a' h := by
    split_ifs at h with hi
    obtain ⟨e, he, hkey⟩ := List.mem_map.mp (H.live i s p a' h)
    show _ ∈ (queueAt (Ladder.remove (a, target) (H.book.ladder s)) p).map Prod.fst
    rw [Ladder.queueAt_remove]
    refine List.mem_map.mpr ⟨e, List.mem_filter.mpr ⟨he, ?_⟩, hkey⟩
    have hne : e.1 ≠ (a, target) := by
      rw [hkey]
      exact fun heq => hi (congrArg Prod.snd heq)
    simpa using hne

/-- **Taking out the node that the index names** changes the level it is in,
where it is the only one with its address, and no other. -/
theorem queueAt_remove (H : Handles ι) {target : ι} {side : Side} {price : ℤ} {a : ℕ}
    (hindex : H.index target = some (side, price, a)) (s : Side) (p : ℤ) :
    queueAt ((H.remove target a).book.ladder s) p
      = if s = side ∧ p = price then
          (queueAt (H.book.ladder s) p).filter (fun e => e.1.1 ≠ a)
        else queueAt (H.book.ladder s) p := by
  have hlive := H.live target side price a hindex
  show queueAt (Ladder.remove (a, target) (H.book.ladder s)) p = _
  rw [Ladder.queueAt_remove]
  split_ifs with hplace
  · refine List.filter_congr (fun e he => ?_)
    have hiff : e.1 ≠ (a, target) ↔ e.1.1 ≠ a := by
      refine not_congr ⟨fun heq => congrArg Prod.fst heq, fun heq => ?_⟩
      exact H.addr _ _ ⟨s, mem_ids_iff.mpr ⟨p, List.mem_map_of_mem he⟩⟩
        ⟨side, mem_ids_iff.mpr ⟨price, hlive⟩⟩ heq
    exact decide_eq_decide.mpr hiff
  · rw [List.filter_eq_self]
    intro e he
    have hne : e.1 ≠ (a, target) := by
      intro heq
      have hmem : (a, target) ∈ (queueAt (H.book.ladder s) p).map Prod.fst :=
        heq ▸ List.mem_map_of_mem he
      exact hplace (H.wf.place_unique hmem hlive)
    simpa using hne

/-- A limit order: it trades, and what stays unfilled comes to rest in a node
of its own. -/
def limit (H : Handles ι) (oid : ι) (side : Side) (px qty : ℤ) : Handles ι :=
  if h : 0 < (H.book.sweep side (some px) qty).unfilled then
    (H.trade side (some px) qty).rest side px oid (H.book.sweep side (some px) qty).unfilled h
      (by
        show ∀ p ∈ ((H.book.put side.opp _).ladder side.opp).prices, _
        rw [Book.ladder_put_self]
        exact not_reaches_of_unfilled_pos (H.wf.side _) h)
  else H.trade side (some px) qty

/-- A cancel: of the node that the index names, if it names one. -/
def cancel (H : Handles ι) (target : ι) : Handles ι :=
  match H.index target with
  | none => H
  | some (_, _, a) => H.remove target a

/-- One call, with the fills it returns. -/
def step (H : Handles ι) : Call ι → Handles ι × List (Fill ι)
  | .limit oid side px qty =>
    (H.limit oid side px qty,
      (H.book.sweep side (some px) qty).fills.map (Fill.rename Prod.snd))
  | .market _ side qty =>
    (H.trade side none qty, (H.book.sweep side none qty).fills.map (Fill.rename Prod.snd))
  | .cancel target => (H.cancel target, [])

/-- **An older node stays** under the identifier of an order that came to rest,
when the identifier is cancelled: the entry names the newer node. -/
theorem resting_cancel_rest (H : Handles ι) {side : Side} {px : ℤ} {oid : ι} {qty : ℤ}
    (hqty : 0 < qty)
    (hcross : ∀ p ∈ (H.book.ladder side.opp).prices, side.opp.reaches (some px) p = false)
    (hold : ∃ a, H.book.Resting (a, oid)) :
    ∃ a, ((H.rest side px oid qty hqty hcross).cancel oid).book.Resting (a, oid) := by
  obtain ⟨a, s, hs⟩ := hold
  have hne : (a, oid) ≠ (H.next, oid) := fun heq => H.not_resting_next oid (heq ▸ ⟨s, hs⟩)
  have hindex : (H.rest side px oid qty hqty hcross).index oid = some
    (side, px, H.next) := if_pos rfl
  refine ⟨a, s, ?_⟩
  rw [Handles.cancel, hindex]
  show (a, oid) ∈ ids (Ladder.remove (H.next, oid)
    ((H.rest side px oid qty hqty hcross).book.ladder s))
  rw [ids_remove, List.mem_filter]
  refine ⟨?_, by simpa using hne⟩
  show (a, oid) ∈ ids ((H.book.put side _).ladder s)
  by_cases hside : s = side
  · subst hside
    rw [Book.ladder_put_self, (Book.ids_rest_perm s px _ _).mem_iff]
    exact List.mem_cons_of_mem _ hs
  · rwa [Book.ladder_put_of_ne hside]

/-- **A cancel takes out the node that the index names** and no other. -/
theorem mem_queueAt_cancel (H : Handles ι) {target : ι} {side : Side} {price : ℤ}
    {a : ℕ} (hindex : H.index target = some (side, price, a)) (s : Side) (p : ℤ)
    (e : (ℕ × ι) × ℤ) :
    e ∈ Ladder.queueAt ((H.cancel target).book.ladder s) p
      ↔ e ∈ Ladder.queueAt (H.book.ladder s) p ∧ e.1.1 ≠ a := by
  obtain ⟨e', he', hkey⟩ := List.mem_map.mp (H.live target side price a hindex)
  rw [Handles.cancel, hindex]
  dsimp only
  rw [H.queueAt_remove hindex]
  by_cases hplace : s = side ∧ p = price
  · rw [if_pos hplace, List.mem_filter]
    exact and_congr_right (fun _ => by simp)
  · rw [if_neg hplace]
    refine ⟨fun he => ⟨he, fun ha => ?_⟩, And.left⟩
    have haddr : e.1.1 = e'.1.1 := by rw [ha, hkey]
    obtain ⟨hs, hp, -⟩ := H.node_unique he he' haddr
    exact hplace ⟨hs, hp⟩

end Operations

/-! ## Forgetting the nodes

To forget a node is to rename it by its identifier. If no two nodes that rest
have one identifier, the book of nodes is the book of identifiers, call by
call. -/

/-- **Nodes that show a book**: without the addresses they are its orders, and
the index names every one of them. The last is what fails once an identifier
rests twice. -/
structure Shows (H : Handles ι) (B : Book ι) : Prop where
  book : H.book.rename Prod.snd = B
  wf : B.WF
  indexed : ∀ s p a i, (a, i) ∈ (queueAt (H.book.ladder s) p).map Prod.fst →
    H.index i = some (s, p, a)

/-- No nodes show the book with no order. -/
theorem shows_empty : (empty : Handles ι).Shows .empty :=
  ⟨rfl, Book.wf_empty, fun s p a i h => absurd h (by simp [empty, Book.empty])⟩

theorem Shows.ladder {H : Handles ι} {B : Book ι} (h : H.Shows B) (s : Side) :
    B.ladder s = Ladder.rename Prod.snd (H.book.ladder s) := by
  rw [← h.book]
  rfl

theorem Shows.resting_iff {H : Handles ι} {B : Book ι} (h : H.Shows B) {i : ι} :
    B.Resting i ↔ ∃ a, H.book.Resting (a, i) := by
  have hside : ∀ s, i ∈ ids (B.ladder s) ↔ ∃ a, (a, i) ∈ ids (H.book.ladder s) := fun s => by
    rw [h.ladder, ids_rename]
    simp
  unfold Book.Resting
  simp only [hside]
  exact exists_comm

theorem Shows.mem_queueAt_iff {H : Handles ι} {B : Book ι} (h : H.Shows B) {s : Side} {p : ℤ}
    {i : ι} : i ∈ (queueAt (B.ladder s) p).map Prod.fst
      ↔ ∃ a, (a, i) ∈ (queueAt (H.book.ladder s) p).map Prod.fst := by
  rw [h.ladder, queueAt_rename, keys_rename]
  simp

/-- The index is right, addresses apart. -/
theorem Shows.located {H : Handles ι} {B : Book ι} (h : H.Shows B) :
    B.Located (fun i => (H.index i).map (fun l => (l.1, l.2.1))) := by
  intro i s p
  rw [h.mem_queueAt_iff, Option.map_eq_some_iff]
  constructor
  · rintro ⟨⟨s', p', a⟩, hindex, heq⟩
    cases heq
    exact ⟨a, H.live _ _ _ _ hindex⟩
  · rintro ⟨a, ha⟩
    exact ⟨(s, p, a), h.indexed s p a i ha, rfl⟩

theorem Shows.sweep {H : Handles ι} {B : Book ι} (h : H.Shows B) (side : Side)
    (limit : Option ℤ) (qty : ℤ) :
    B.sweep side limit qty
      = ⟨(H.book.sweep side limit qty).fills.map (Fill.rename Prod.snd),
          Ladder.rename Prod.snd (H.book.sweep side limit qty).left,
          (H.book.sweep side limit qty).unfilled,
          (H.book.sweep side limit qty).gone.map Prod.snd⟩ := by
  rw [← h.book]
  exact Book.sweep_rename _ _ _ _ _

variable [DecidableEq ι]

theorem Shows.trade {H : Handles ι} {B : Book ι} (h : H.Shows B) (side : Side)
    (limit : Option ℤ) (qty : ℤ) :
    (H.trade side limit qty).Shows (B.put side.opp (B.sweep side limit qty).left) := by
  refine ⟨?_, h.wf.put_sweep side limit qty, fun s p a i hi => ?_⟩
  · show (H.book.put _ _).rename Prod.snd = _
    rw [Book.rename_put, h.book, h.sweep]
  · show (if i ∈ (H.book.sweep side limit qty).gone.map Prod.snd then none else H.index i) = _
    have hi' : (a, i) ∈ (queueAt ((H.book.put side.opp
        (H.book.sweep side limit qty).left).ladder s) p).map Prod.fst := hi
    have hold : (a, i) ∈ (queueAt (H.book.ladder s) p).map Prod.fst := by
      by_cases hs : s = side.opp
      · subst hs
        rw [Book.ladder_put_self, Book.sweep, mem_queueAt_sweep (H.wf.nodup _)] at hi'
        exact hi'.1
      · rwa [Book.ladder_put_of_ne hs] at hi'
    have hindex := h.indexed s p a i hold
    rw [if_neg, hindex]
    -- a maker under this identifier would be this very node, which stays
    intro hgone
    obtain ⟨⟨a', i'⟩, hmem, rfl⟩ := List.mem_map.mp hgone
    have hids : (a', i') ∈ ids (H.book.ladder side.opp) := by
      rw [← gone_append_ids (side.opp.reaches limit) qty]
      exact List.mem_append_left _ hmem
    obtain ⟨p', hp'⟩ := mem_ids_iff.mp hids
    have hsame := (h.indexed _ _ _ _ hp').symm.trans hindex
    cases hsame
    rw [Book.ladder_put_self, Book.sweep, mem_queueAt_sweep (H.wf.nodup _)] at hi'
    exact hi'.2 hmem

theorem Shows.rest {H : Handles ι} {B : Book ι} (h : H.Shows B) (side : Side) (px : ℤ) {oid : ι}
    {qty : ℤ} (hfresh : ¬ B.Resting oid) (hqty : 0 < qty)
    (hcross : ∀ p ∈ (H.book.ladder side.opp).prices, side.opp.reaches (some px) p = false) :
    (H.rest side px oid qty hqty hcross).Shows
      (B.put side (Ladder.rest side px (oid, qty) (B.ladder side))) := by
  have hcross' : ∀ p ∈ (B.ladder side.opp).prices, side.opp.reaches (some px) p = false := by
    rw [h.ladder, prices_rename]
    exact hcross
  refine ⟨?_, h.wf.put_rest side px hfresh hqty hcross', fun s p a i hi => ?_⟩
  · show (H.book.put _ _).rename Prod.snd = _
    rw [Book.rename_put, rest_rename, h.book, h.ladder]
  · show (if i = oid then some (side, px, H.next) else H.index i) = _
    have hi' : (a, i) ∈ (queueAt ((H.book.put side (Ladder.rest side px ((H.next, oid), qty)
        (H.book.ladder side))).ladder s) p).map Prod.fst := hi
    have hother : (a, i) ∈ (queueAt (H.book.ladder s) p).map Prod.fst → i ≠ oid := by
      rintro hmem rfl
      exact hfresh ⟨s, mem_ids_iff.mpr ⟨p, h.mem_queueAt_iff.mpr ⟨a, hmem⟩⟩⟩
    by_cases hnew : s = side ∧ p = px
    · obtain ⟨rfl, rfl⟩ := hnew
      rw [Book.ladder_put_self, (H.wf.side s).queueAt_rest, if_pos rfl, List.map_append,
        List.mem_append] at hi'
      rcases hi' with hi' | hi'
      · rw [if_neg (hother hi'), h.indexed s p a i hi']
      · rw [List.map_cons, List.map_nil, List.mem_singleton] at hi'
        cases hi'
        rw [if_pos rfl]
    · have hold : (a, i) ∈ (queueAt (H.book.ladder s) p).map Prod.fst := by
        by_cases hs : s = side
        · subst hs
          rw [Book.ladder_put_self, (H.wf.side s).queueAt_rest,
            if_neg (fun hp => hnew ⟨rfl, hp⟩)] at hi'
          exact hi'
        · rwa [Book.ladder_put_of_ne hs] at hi'
      rw [if_neg (hother hold), h.indexed s p a i hold]

theorem Shows.cancel {H : Handles ι} {B : Book ι} (h : H.Shows B) (target : ι) :
    (H.cancel target).Shows (B.cancel target) := by
  have hlocated := h.located
  unfold Handles.cancel
  cases hindex : H.index target with
  | none =>
    rw [hlocated.cancel_eq_self (by rw [hindex]; rfl) h.wf]
    exact h
  | some l =>
    obtain ⟨s, p, a⟩ := l
    have hwf : (B.cancel target).WF := h.wf.step (c := .cancel target) trivial
    have hqueue : ∀ s p, queueAt (Ladder.remove (a, target) (H.book.ladder s)) p
        = (queueAt (H.book.ladder s) p).filter (fun e => e.1.2 ≠ target) := by
      intro s' p'
      rw [Ladder.queueAt_remove]
      refine List.filter_congr (fun e he => ?_)
      -- the only node with this identifier is the one the index names
      have hiff : e.1 ≠ (a, target) ↔ e.1.2 ≠ target := by
        refine not_congr ⟨fun heq => congrArg Prod.snd heq, fun heq => ?_⟩
        have hmem : (e.1.1, target) ∈ (queueAt (H.book.ladder s') p').map Prod.fst := by
          rw [← heq]
          exact List.mem_map_of_mem he
        have hsame := (h.indexed s' p' e.1.1 target hmem).symm.trans hindex
        cases hsame
        rw [← heq]
      exact decide_eq_decide.mpr hiff
    refine ⟨Book.ext (fun s' => ?_), hwf, fun s' p' a' i hi => ?_⟩
    · refine WF.ext (((H.wf.side s').remove (a, target)).rename _) (hwf.side s') (fun p' => ?_)
      show queueAt (Ladder.rename Prod.snd (Ladder.remove (a, target) (H.book.ladder s'))) p'
        = queueAt (Ladder.remove target (B.ladder s')) p'
      rw [queueAt_rename, hqueue, Ladder.queueAt_remove, h.ladder, queueAt_rename, List.filter_map]
      rfl
    · show (if i = target then none else H.index i) = _
      have hi' : (a', i) ∈ (queueAt (Ladder.remove (a, target) (H.book.ladder s')) p').map
          Prod.fst := hi
      rw [hqueue] at hi'
      obtain ⟨e, he, hkey⟩ := List.mem_map.mp hi'
      obtain ⟨he, hne⟩ := List.mem_filter.mp he
      rw [if_neg (by rw [hkey] at hne; simpa using hne)]
      exact h.indexed s' p' a' i (hkey ▸ List.mem_map_of_mem he)

/-- **Without the addresses, the fills are those of the orders**, also where
the index does not name them all. -/
theorem fills_step (H : Handles ι) (c : Call ι) :
    (H.step c).2 = ((H.book.rename Prod.snd).step c).2 := by
  cases c with
  | limit oid side px qty =>
    exact congrArg Ladder.Swept.fills (H.book.sweep_rename Prod.snd side (some px) qty).symm
  | market oid side qty =>
    exact congrArg Ladder.Swept.fills (H.book.sweep_rename Prod.snd side none qty).symm
  | cancel target => rfl

/-- **Without the addresses, every call is the call of the book**, whatever its
identifier. -/
theorem Shows.step_book {H : Handles ι} {B : Book ι} (h : H.Shows B) (c : Call ι) :
    (H.step c).1.book.rename Prod.snd = (B.step c).1 ∧ (H.step c).2 = (B.step c).2 := by
  refine ⟨?_, h.book ▸ H.fills_step c⟩
  cases c with
  | limit oid side px qty =>
    have htrade := (h.trade side (some px) qty).book
    have hun : (B.sweep side (some px) qty).unfilled
        = (H.book.sweep side (some px) qty).unfilled := by rw [h.sweep side (some px) qty]
    show (H.limit oid side px qty).book.rename Prod.snd
      = if 0 < (B.sweep side (some px) qty).unfilled then _ else _
    rw [hun]
    unfold Handles.limit
    split_ifs with hpos
    · show ((H.trade side (some px) qty).book.put side (Ladder.rest side px _
        ((H.trade side (some px) qty).book.ladder side))).rename Prod.snd = _
      have hown : Ladder.rename Prod.snd ((H.trade side (some px) qty).book.ladder side)
          = B.ladder side := by
        rw [h.ladder]
        exact congrArg (Ladder.rename Prod.snd) (Book.ladder_put_opp _ _ _)
      rw [Book.rename_put, rest_rename, htrade, hown]
    · exact htrade
  | market oid side qty => exact (h.trade side none qty).book
  | cancel target => exact (h.cancel target).book

/-- **Every call that keeps identifiers apart keeps the nodes showing the
book**, with the same fills. -/
theorem Shows.step_of_settles {H : Handles ι} {B : Book ι} (h : H.Shows B) {c : Call ι}
    (hsettles : B.Settles c) :
    (H.step c).1.Shows (B.step c).1 ∧ (H.step c).2 = (B.step c).2 := by
  refine ⟨?_, (h.step_book c).2⟩
  cases c with
  | limit oid side px qty =>
    have htrade := h.trade side (some px) qty
    have hun : (B.sweep side (some px) qty).unfilled
        = (H.book.sweep side (some px) qty).unfilled := by rw [h.sweep side (some px) qty]
    show (H.limit oid side px qty).Shows
      (if 0 < (B.sweep side (some px) qty).unfilled then _ else _)
    rw [hun]
    unfold Handles.limit
    split_ifs with hpos
    · have hrest := htrade.rest side px (hsettles (hun ▸ hpos)) hpos (by
          show ∀ p ∈ ((H.book.put side.opp _).ladder side.opp).prices, _
          rw [Book.ladder_put_self]
          exact not_reaches_of_unfilled_pos (H.wf.side _) hpos)
      rwa [Book.ladder_put_opp] at hrest
    · exact htrade
  | market oid side qty => exact h.trade side none qty
  | cancel target => exact h.cancel target

/-- The same, as long as no limit order reuses an identifier that is
resting. -/
theorem Shows.step {H : Handles ι} {B : Book ι} (h : H.Shows B) {c : Call ι} (hfresh : B.Fresh c) :
    (H.step c).1.Shows (B.step c).1 ∧ (H.step c).2 = (B.step c).2 :=
  h.step_of_settles hfresh.settles

end Handles

end PriceTime
