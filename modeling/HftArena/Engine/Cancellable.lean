import HftArena.Engine.Agreement
import HftArena.PriceTime.Reuse

/-!
# Which orders can be cancelled

Each book keeps an index with one entry for an id, and a cancel follows it. As
long as the orders that rest have different ids, the index names every one of
them and a cancel leaves none under its id (`Cancellable`). It fails as soon as
an order comes to rest under an id that still rests elsewhere: the newer one
takes the entry, and a cancel of the id leaves the older one behind. So the
four books keep every order cancellable exactly along the runs in which no
limit order reuses an id (`every_order_cancellable_iff`).

One direction goes through the abstract book: an engine that shows it with an
index that is right has every order cancellable (`cancellable_of_shows`). The
other is shown of the C++ book, where the nodes tell the two orders apart; a
property of all four fails if it fails of one.
-/

open PriceTime

variable {ι : Type}

/-- **Every resting order can be cancelled**: its id is in the index, and after
a cancel of an id no order rests under it. The structure is about what an
engine stores – its depth and the keys of its index – and is the same for the
four. -/
structure PriceTime.Cancellable {σ ε α : Type} (call : σ → α → Except ε (σ × List (Fill ι)))
    (cancel : ι → α) (depth : σ → Side → Ladder ι) (index : σ → List ι) (b : σ) : Prop where
  indexed : ∀ s, ∀ i ∈ Ladder.ids (depth b s), i ∈ index b
  cancelled : ∀ x, ∃ b' fills, call b (cancel x) = .ok (b', fills)
    ∧ ∀ s, x ∉ Ladder.ids (depth b' s)

section Engines

variable [DecidableEq ι]

/-- Every order that rests on the Python book can be cancelled. -/
def PyEngine.OrderBook.Cancellable (b : PyEngine.OrderBook ι) : Prop :=
  PriceTime.Cancellable OrderBook.call .cancel OrderBook.depth (fun b => b.resting.keys) b

/-- Every order that rests on the C++ book can be cancelled. -/
def CppEngine.OrderBook.Cancellable (b : CppEngine.OrderBook ι) : Prop :=
  PriceTime.Cancellable OrderBook.call .cancel OrderBook.depth (fun b => b.index.keys) b

/-- Every order that rests on the Go book can be cancelled. -/
def GoEngine.Book.Cancellable (b : GoEngine.Book ι) : Prop :=
  PriceTime.Cancellable Book.call .cancel Book.depth (fun b => b.index.keys) b

/-- Every order that rests on the Rust book can be cancelled. -/
def RustEngine.Book.Cancellable (b : RustEngine.Book ι) : Prop :=
  PriceTime.Cancellable Book.call .cancel Book.depth (fun b => b.index.keys) b

end Engines

/-! ## Books that show the abstract one

In the abstract book a cancel leaves no order under the id. What is left to say
of an engine is that it has an entry for every order that rests. -/

section Abstract

variable [DecidableEq ι]

/-- A cancel of the abstract book leaves no order under the id. -/
theorem PriceTime.Book.notMem_cancel (B : PriceTime.Book ι) (x : ι) (s : Side) :
    x ∉ Ladder.ids ((B.cancel x).ladder s) := by
  show x ∉ Ladder.ids (Ladder.remove x (B.ladder s))
  rw [Ladder.ids_remove]
  simp

/-- **A book that shows the abstract one, with an index that is right, keeps
every order cancellable.** -/
theorem PriceTime.cancellable_of_shows {σ ε α : Type} {call : σ → α → Except ε (σ × List (Fill ι))}
    {cancel : ι → α} {depth : σ → Side → Ladder ι} {index : σ → List ι} {b : σ} {B : Book ι}
    {loc : ι → Option (Side × ℤ)} (hdepth : ∀ s, depth b s = Ladder.ascending s (B.ladder s))
    (hloc : B.Located loc) (hindex : ∀ i, (loc i).isSome → i ∈ index b)
    (hcancel : ∀ x, ∃ b' fills, call b (cancel x) = .ok (b', fills)
      ∧ ∀ s, depth b' s = Ladder.ascending s ((B.cancel x).ladder s)) :
    PriceTime.Cancellable call cancel depth index b := by
  refine ⟨fun s i hi => hindex i ?_, fun x => ?_⟩
  · rw [hdepth, Ladder.mem_ids_ascending] at hi
    obtain ⟨s', p, hp⟩ := hloc.resting_iff.mp ⟨s, hi⟩
    rw [hp]
    rfl
  · obtain ⟨b', fills, hb', hdepth'⟩ := hcancel x
    refine ⟨b', fills, hb', fun s hx => B.notMem_cancel x s ?_⟩
    rwa [hdepth', Ladder.mem_ids_ascending] at hx

/-- An entry of a dictionary, whatever is read of it. -/
theorem Dict.mem_keys_of_map {κ ν μ : Type} [DecidableEq κ] {d : Dict κ ν} {f : ν → μ} {k : κ}
    (h : ((d.get? k).map f).isSome) : k ∈ d.keys := by
  rw [Option.isSome_map] at h
  obtain ⟨v, hv⟩ := Option.isSome_iff_exists.mp h
  exact mem_keys_of_get? hv

/-- The Python book, where it refines the abstract one. -/
theorem PyEngine.OrderBook.Refines.cancellable {b : PyEngine.OrderBook ι} {B : Book ι}
    (h : b.Refines B) : b.Cancellable :=
  cancellable_of_shows h.depth_eq h.located (fun _ hi => Dict.mem_keys_of_map hi)
    (fun x => ⟨_, [], rfl, (h.cancel x).depth_eq⟩)

/-- The Rust book, where it refines the abstract one. -/
theorem RustEngine.Book.Refines.cancellable {b : RustEngine.Book ι} {B : PriceTime.Book ι}
    (h : b.Refines B) : b.Cancellable :=
  cancellable_of_shows h.depth_eq h.located (fun _ hi => Dict.mem_keys_of_map hi)
    (fun x => ⟨_, [], rfl, (h.cancel x).depth_eq⟩)

/-- The C++ book, where its nodes show the abstract one. -/
theorem CppEngine.OrderBook.Shows.cancellable {b : CppEngine.OrderBook ι} {H : Handles ι}
    {B : Book ι} (h : b.Shows H) (hB : H.Shows B) : b.Cancellable := by
  refine cancellable_of_shows (h.depth_eq hB) hB.located (fun i hi => ?_) (fun x => ?_)
  · rw [← h.index, Option.isSome_map] at hi
    exact Dict.mem_keys_of_map hi
  · obtain ⟨b', hb', h'⟩ := h.call (.cancel x)
    exact ⟨b', [], hb', h'.depth_eq (hB.cancel x)⟩

/-- The Go book, where its elements show the abstract one. -/
theorem GoEngine.Book.Shows.cancellable {b : GoEngine.Book ι} {H : Handles ι}
    {B : PriceTime.Book ι} (h : b.Shows H) (hB : H.Shows B) : b.Cancellable := by
  refine cancellable_of_shows (h.depth_eq hB) hB.located (fun i hi => ?_) (fun x => ?_)
  · rw [← h.index, Option.isSome_map] at hi
    exact Dict.mem_keys_of_map hi
  · exact ⟨_, [], rfl, (h.cancel x).depth_eq (hB.cancel x)⟩

/-! ## An id that is reused

Two nodes rest under one id, and the index has one entry. Whichever it names, a
cancel leaves the other one. -/

/-- What a call reuses, read off the C++ book. -/
theorem CppEngine.OrderBook.Shows.settles_iff {b : CppEngine.OrderBook ι} {H : Handles ι}
    {B : Book ι} (h : b.Shows H) (hB : H.Shows B) (c : Call ι) :
    B.Settles c ↔ ¬ Reuses b.depth c := by
  rw [hB.wf.settles_iff, reuses_congr (fun s => (Ladder.ascending_perm s (B.ladder s)).symm)]
  exact not_congr (iff_of_eq (congrArg (fun D => Reuses D c) (funext (h.depth_eq hB)).symm))

/-- **After an order came to rest under an id that still rests, a cancel leaves
one of the two behind**: the entry names the newer node, and the older one is
not reached by any cancel. -/
theorem CppEngine.OrderBook.Shows.not_cancellable {b b' : CppEngine.OrderBook ι} {H : Handles ι}
    {B : Book ι} (h : b.Shows H) (hB : H.Shows B) {c : Call ι} (hreuse : ¬ B.Settles c)
    {fills : List (Fill ι)} (hcall : b.call c = .ok (b', fills)) : ¬ b'.Cancellable := by
  obtain ⟨b₁, hb₁, h₁⟩ := h.call c
  cases hb₁.symm.trans hcall
  cases c with
  | limit oid side px qty =>
    unfold Book.Settles at hreuse
    simp only [Classical.not_imp, not_not] at hreuse
    obtain ⟨hun, hrests⟩ := hreuse
    have hsweep : (H.book.sweep side (some px) qty).unfilled
        = (B.sweep side (some px) qty).unfilled := by rw [hB.sweep]
    have hold := (hB.trade side (some px) qty).resting_iff.mp hrests
    intro hcan
    obtain ⟨b₂, fills₂, hb₂, hnone⟩ := hcan.cancelled oid
    obtain ⟨b₃, hb₃, h₃⟩ := h₁.call (.cancel oid)
    cases hb₃.symm.trans hb₂
    have hcross : ∀ p ∈ ((H.trade side (some px) qty).book.ladder side.opp).prices,
        side.opp.reaches (some px) p = false := by
      show ∀ p ∈ ((H.book.put side.opp _).ladder side.opp).prices, _
      rw [Book.ladder_put_self]
      exact Ladder.not_reaches_of_unfilled_pos (H.wf.side _) (hsweep ▸ hun)
    have hstep : (H.step (.limit oid side px qty)).1
        = (H.trade side (some px) qty).rest side px oid _ (hsweep ▸ hun) hcross :=
      dif_pos (hsweep ▸ hun)
    have hstay := (H.trade side (some px) qty).resting_cancel_rest (hsweep ▸ hun) hcross hold
    rw [← hstep] at hstay
    obtain ⟨a, s, hs⟩ := hstay
    refine hnone s ?_
    rw [h₃.depth_nodes, Ladder.mem_ids_ascending, Ladder.ids_rename]
    exact List.mem_map_of_mem (f := Prod.snd) hs
  | market oid side qty => exact absurd trivial hreuse
  | cancel target => exact absurd trivial hreuse

/-- **Every resting order can be cancelled exactly if no limit order reuses an
id**: in each of the four books, after every call of a sequence, all orders can
be cancelled, if and only if no limit order of the sequence wants more than
rests on the other side within its limit while an order with its id rests on
its own side or on the other side beyond its limit. -/
theorem every_order_cancellable_iff (ops : List (PyEngine.PyCall ι)) :
    (Throughout PyEngine.OrderBook.call PyEngine.OrderBook.Cancellable .init ops
        ∧ Throughout CppEngine.OrderBook.call CppEngine.OrderBook.Cancellable .init
          (ops.map PyEngine.PyCall.toCall)
        ∧ Throughout GoEngine.Book.call GoEngine.Book.Cancellable GoEngine.newBook
          (ops.map PyEngine.PyCall.toCall)
        ∧ Throughout RustEngine.Book.call RustEngine.Book.Cancellable .new
          (ops.map PyEngine.PyCall.toCall))
      ↔ Allowed CppEngine.OrderBook.call (fun b c => ¬ Reuses b.depth c) .init
        (ops.map PyEngine.PyCall.toCall) := by
  constructor
  · rintro ⟨-, hcpp, -, -⟩
    refine allowed_of_throughout (fun b => ∃ H B, b.Shows H ∧ H.Shows B)
      (fun b c b' fills hinv hvalid hcall => ?_) (fun b c b' fills hinv hreuse hcall => ?_)
      ⟨_, _, CppEngine.shows_init, Handles.shows_empty⟩ hcpp
    · obtain ⟨H, B, h, hB⟩ := hinv
      obtain ⟨b₁, hb₁, h₁⟩ := h.call c
      cases hb₁.symm.trans hcall
      exact ⟨_, _, h₁, (hB.step_of_settles ((h.settles_iff hB c).mpr hvalid)).1⟩
    · obtain ⟨H, B, h, hB⟩ := hinv
      exact h.not_cancellable hB (fun hsettles => hreuse ((h.settles_iff hB c).mp hsettles)) hcall
  · intro hallowed
    have hspec : Allowed (always Book.step) Book.Settles .empty
      (ops.map PyEngine.PyCall.toCall) := by
      refine allowed_of_sim CppEngine.OrderBook.call _ (fun b B => ∃ H, b.Shows H ∧ H.Shows B)
        (fun b B c ⟨H, h, hB⟩ hvalid => (h.settles_iff hB c).mpr hvalid)
        (fun b B c ⟨H, h, hB⟩ hvalid => ?_) ⟨_, CppEngine.shows_init, Handles.shows_empty⟩ hallowed
      obtain ⟨b', hb', h'⟩ := h.call c
      obtain ⟨hB', hfills⟩ := hB.step_of_settles ((h.settles_iff hB c).mpr hvalid)
      exact ⟨b', _, _, hb', hfills ▸ rfl, _, h', hB'⟩
    refine ⟨?_, ?_, ?_, ?_⟩
    · refine throughout_of_sim (fun B c => always Book.step B (PyEngine.PyCall.toCall c))
        (fun b B => b.Refines B) (fun b B c h hsettles => ?_) (fun b B h => h.cancellable)
        PyEngine.refines_init (allowed_map.mp hspec)
      obtain ⟨b', hb', h'⟩ := h.call_of_settles hsettles
      exact ⟨b', _, _, hb', rfl, h'⟩
    · refine throughout_of_sim _ (fun b B => ∃ H, b.Shows H ∧ H.Shows B)
        (fun b B c ⟨H, h, hB⟩ hsettles => ?_) (fun b B ⟨H, h, hB⟩ => h.cancellable hB)
        ⟨_, CppEngine.shows_init, Handles.shows_empty⟩ hspec
      obtain ⟨b', hb', h'⟩ := h.call c
      obtain ⟨hB', hfills⟩ := hB.step_of_settles hsettles
      exact ⟨b', _, _, hb', hfills ▸ rfl, _, h', hB'⟩
    · refine throughout_of_sim _ (fun b B => ∃ H, b.Shows H ∧ H.Shows B)
        (fun b B c ⟨H, h, hB⟩ hsettles => ?_) (fun b B ⟨H, h, hB⟩ => h.cancellable hB)
        ⟨_, GoEngine.shows_newBook, Handles.shows_empty⟩ hspec
      obtain ⟨b', hb', h'⟩ := h.call c
      obtain ⟨hB', hfills⟩ := hB.step_of_settles hsettles
      exact ⟨b', _, _, hb', hfills ▸ rfl, _, h', hB'⟩
    · refine throughout_of_sim _ (fun b B => b.Refines B) (fun b B c h hsettles => ?_)
        (fun b B h => h.cancellable) RustEngine.refines_new hspec
      obtain ⟨b', hb', h'⟩ := h.call_of_settles hsettles
      exact ⟨b', _, _, hb', rfl, h'⟩

end Abstract

/-- Two bids under one id: a cancel of it takes the newer one off each of the
four books, and no cancel takes the older one. -/
theorem orphaned_by_second_bid :
    ¬ Throughout PyEngine.OrderBook.call PyEngine.OrderBook.Cancellable .init
        [.limit (1 : UInt64) "buy" 10 5, .limit 1 "buy" 11 5]
      ∧ ¬ Throughout CppEngine.OrderBook.call CppEngine.OrderBook.Cancellable .init
        [.limit (1 : UInt64) .bid 10 5, .limit 1 .bid 11 5]
      ∧ ¬ Throughout GoEngine.Book.call GoEngine.Book.Cancellable GoEngine.newBook
        [.limit (1 : UInt64) .bid 10 5, .limit 1 .bid 11 5]
      ∧ ¬ Throughout RustEngine.Book.call RustEngine.Book.Cancellable .new
        [.limit (1 : UInt64) .bid 10 5, .limit 1 .bid 11 5] := by
  refine ⟨fun h => ?_, fun h => ?_, fun h => ?_, fun h => ?_⟩
  all_goals
    obtain ⟨b', fills, hb', hnone⟩ := (h.last rfl).cancelled 1
    cases hb'
    exact hnone .bid (by decide)
