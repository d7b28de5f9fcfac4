import HftArena.Engine.Cpp
import HftArena.Engine.Go
import HftArena.Engine.PythonBook
import HftArena.Engine.Rust

/-!
# The four reference engines implement one book

Each of the four books is a price-time-priority book as long as no limit order
reuses an id that is resting: the Python and the Rust book directly
(`PyEngine.OrderBook.Refines`, `RustEngine.Book.Refines`), the C++ and the Go
book by way of the nodes of their lists (`PriceTime.Handles`). So they give the
same fills, call by call, and hold the same levels (`four_engines_agree`).

Levels are compared as each engine stores them, in ascending order of their
prices (`depth`): the definitions read the engines' own structures, and the
lemmas `depth_eq` say that what is read is the ladder of the abstract book.

What the callers owe is stated once, as a condition on the Python book, and
carried over to the abstract book by the simulation (`allowed_of_sim`); from
there each engine takes it.
-/

open PriceTime

variable {ι : Type}

/-- A call as the Python book takes it: a side is a word. Only the words
`"buy"` and `"sell"` occur. -/
def PriceTime.Call.toPy : Call ι → PyEngine.PyCall ι
  | .limit oid side px qty => .limit oid side.word px qty
  | .market oid side qty => .market oid side.word qty
  | .cancel target => .cancel target

/-- Reading the word gives the side back. -/
theorem PriceTime.Call.toCall_toPy (c : Call ι) : c.toPy.toCall = c := by
  cases c <;> simp [Call.toPy, PyEngine.PyCall.toCall]

/-! ## What the books hold

The depth of each engine, read from its own containers, and the lemma that it
is the ladder that the engine shows. -/

/-- The levels of a side, price by price, with their orders. -/
def PyEngine.OrderBook.depth (b : PyEngine.OrderBook ι) (s : Side) : List (ℤ × List (ι × ℤ)) :=
  (b.half s.word).prices.map (fun p => (p, (b.half s.word).queue p))

/-- The levels of a side, price by price, with their orders. -/
def CppEngine.OrderBook.depth (b : CppEngine.OrderBook ι) (s : Side) : List (ℤ × List (ι × ℤ)) :=
  (b.own (CppEngine.buys s)).entries.map (fun l => (l.1, l.2.map (fun m => (m.id, m.qty))))

/-- The levels of a side, price by price, with their orders. -/
def GoEngine.Book.depth (b : GoEngine.Book ι) (s : Side) : List (ℤ × List (ι × ℤ)) :=
  (b.own (GoEngine.buys s)).prices.map (fun p =>
    (p, (((b.own (GoEngine.buys s)).levels.get? p).getD []).map (fun e => (e.id, e.qty))))

/-- The levels of a side, price by price, with their orders. -/
def RustEngine.Book.depth (b : RustEngine.Book ι) (s : Side) : List (ℤ × List (ι × ℤ)) :=
  (b.own (RustEngine.buys s)).entries

/-- What is read off the Python book is its ladder, in ascending order. -/
theorem PyEngine.OrderBook.depth_eq_ladder (b : PyEngine.OrderBook ι) (s : Side) :
    b.depth s = Ladder.ascending s (b.ladder s) :=
  (Ladder.ascending_ofPrices s _ _).symm

/-- Where it refines an abstract book, it is the ladder of that. -/
theorem PyEngine.OrderBook.Refines.depth_eq [DecidableEq ι] {b : PyEngine.OrderBook ι} {B : Book ι}
    (h : b.Refines B) (s : Side) : b.depth s = Ladder.ascending s (B.ladder s) := by
  rw [← h.book, b.depth_eq_ladder]
  rfl

/-- What is read off the Rust book is the ladder that it shows. -/
theorem RustEngine.Book.Shows.depth_eq {b : RustEngine.Book ι} {B : PriceTime.Book ι}
    (h : b.Shows B) (s : Side) : b.depth s = Ladder.ascending s (B.ladder s) := by
  rw [← h.ladder, Ladder.ascending_ofMap]
  simp [RustEngine.Book.depth, RustEngine.map_entry]

/-- So it is where the index is right as well. -/
theorem RustEngine.Book.Refines.depth_eq [DecidableEq ι] {b : RustEngine.Book ι}
    {B : PriceTime.Book ι}
    (h : b.Refines B) (s : Side) : b.depth s = Ladder.ascending s (B.ladder s) :=
  h.shows'.depth_eq s

/-- Renaming orders does not change the order of the levels. -/
theorem ascending_rename {κ : Type} (f : κ → ι) (s : Side) (L : Ladder κ) :
    Ladder.ascending s (Ladder.rename f L) = Ladder.rename f (Ladder.ascending s L) := by
  cases s
  · exact List.map_reverse.symm
  · rfl

/-- What is read off the C++ book is the ladder of its nodes, without the
addresses. -/
theorem CppEngine.OrderBook.Shows.depth_nodes [DecidableEq ι] {b : CppEngine.OrderBook ι}
    {H : Handles ι} (h : b.Shows H) (s : Side) :
    b.depth s = Ladder.ascending s (Ladder.rename Prod.snd (H.book.ladder s)) := by
  rw [← h.ladder, ascending_rename, Ladder.ascending_ofMap]
  unfold CppEngine.OrderBook.depth Ladder.rename
  rw [List.map_map]
  refine List.map_congr_left (fun l _ => ?_)
  show _ = (l.1, (l.2.map _).map _)
  rw [List.map_map]
  rfl

/-- It is the ladder of the book that the nodes show. -/
theorem CppEngine.OrderBook.Shows.depth_eq [DecidableEq ι] {b : CppEngine.OrderBook ι}
    {H : Handles ι} {B : Book ι}
    (h : b.Shows H) (hB : H.Shows B) (s : Side) :
    b.depth s = Ladder.ascending s (B.ladder s) := by
  rw [hB.ladder, h.depth_nodes]

/-- What is read off the Go book is the ladder of its nodes, without the
addresses. -/
theorem GoEngine.Book.Shows.depth_nodes [DecidableEq ι] {b : GoEngine.Book ι} {H : Handles ι}
    (h : b.Shows H) (s : Side) :
    b.depth s = Ladder.ascending s (Ladder.rename Prod.snd (H.book.ladder s)) := by
  rw [← h.ladder, ascending_rename, GoEngine.Half.ladder, Ladder.ascending_ofPrices]
  unfold GoEngine.Book.depth Ladder.rename
  rw [List.map_map]
  refine List.map_congr_left (fun p _ => ?_)
  show _ = (p, (List.map _ _).map _)
  rw [List.map_map]
  rfl

/-- It is the ladder of the book that the nodes show. -/
theorem GoEngine.Book.Shows.depth_eq [DecidableEq ι] {b : GoEngine.Book ι} {H : Handles ι}
    {B : PriceTime.Book ι}
    (h : b.Shows H) (hB : H.Shows B) (s : Side) :
    b.depth s = Ladder.ascending s (B.ladder s) := by
  rw [hB.ladder, h.depth_nodes]

/-! ## One book

The four simulations are put side by side: one abstract run, which each of the
engines follows. -/

/-- **A component that keeps showing the abstract book gives its fills** along
every run in which callers keep identifiers apart. Each engine is an instance,
with its own way of showing the book. -/
theorem run_of_refines [DecidableEq ι] {ε σ : Type}
    (call : σ → Call ι → Except ε (σ × List (Fill ι))) (Refines : σ → Book ι → Prop)
    (hcall : ∀ b B c, Refines b B → B.Fresh c →
      ∃ b', call b c = .ok (b', (B.step c).2) ∧ Refines b' (B.step c).1)
    {init : σ} (hinit : Refines init .empty) {ops : List (Call ι)}
    (hops : Allowed (always Book.step) Book.Fresh .empty ops) :
    ∃ B outs, run (always Book.step) .empty ops = .ok (B, outs)
      ∧ ∃ b, run call init ops = .ok (b, outs) ∧ Refines b B := by
  obtain ⟨B, b, outs, hB, hb, hrel⟩ := run_sim call (fun B b => Refines b B)
    (fun B b c hrel hfresh => by
      obtain ⟨b', hb', hrel'⟩ := hcall b B c hrel hfresh
      exact ⟨_, b', _, rfl, hb', hrel'⟩)
    hinit hops
  exact ⟨B, outs, hB, b, hb, hrel⟩

/-- **The four books after the same calls are one book**, call by call with the
same fills. It says more than that the engines agree: which book it is, and how
each of them shows it, so that what is proved of the book is had of all
four. -/
theorem engines_show_one_book (ops : List (Call UInt64))
    (hops : Allowed PyEngine.OrderBook.call PyEngine.OrderBook.FreshId .init
      (ops.map Call.toPy)) :
    ∃ py cpp go rust outs B H G,
      (run PyEngine.OrderBook.call .init (ops.map Call.toPy) = .ok (py, outs) ∧ py.Refines B)
      ∧ (run CppEngine.OrderBook.call .init ops = .ok (cpp, outs) ∧ cpp.Shows H ∧ H.Shows B)
      ∧ (run GoEngine.Book.call GoEngine.newBook ops = .ok (go, outs) ∧ go.Shows G ∧ G.Shows B)
      ∧ run RustEngine.Book.call .new ops = .ok (rust, outs) ∧ rust.Refines B := by
  have hpy : ∀ (b : PyEngine.OrderBook UInt64) (B : Book UInt64) (c : Call UInt64), b.Refines B →
      B.Fresh c → ∃ b', b.call c.toPy = .ok (b', (B.step c).2) ∧ b'.Refines (B.step c).1 := by
    intro b B c hrel hfresh
    obtain ⟨b', hb', hrel'⟩ := hrel.call (c := c.toPy) (by rwa [Call.toCall_toPy])
    rw [Call.toCall_toPy] at hb' hrel'
    exact ⟨b', hb', hrel'⟩
  have hfresh : Allowed (always Book.step) Book.Fresh .empty ops := by
    refine allowed_of_sim (fun b (c : Call UInt64) => PyEngine.OrderBook.call b c.toPy)
      (fun b c => PyEngine.OrderBook.FreshId b c.toPy) (fun b B => b.Refines B)
      (fun b B c hrel hid => ?_) (fun b B c hrel hid => ?_) PyEngine.refines_init
      (allowed_map.mp hops)
    · have := hrel.fresh_iff.mp hid
      rwa [Call.toCall_toPy] at this
    · have hc := hrel.fresh_iff.mp hid
      rw [Call.toCall_toPy] at hc
      obtain ⟨b', hb', hrel'⟩ := hpy b B c hrel hc
      exact ⟨b', _, _, hb', rfl, hrel'⟩
  obtain ⟨B, outs, hB, py, hpyrun, hpyB⟩ := run_of_refines
    (fun (b : PyEngine.OrderBook UInt64) (c : Call UInt64) => b.call c.toPy) (fun b B => b.Refines B)
    hpy PyEngine.refines_init hfresh
  obtain ⟨B₁, outs₁, hB₁, cpp, hcpprun, H, hcpp, hH⟩ := run_of_refines
    CppEngine.OrderBook.call (fun b B => ∃ H, b.Shows H ∧ H.Shows B)
    (fun b B c ⟨H, hb, hH⟩ hfresh => by
      obtain ⟨b', hb', hshows⟩ := hb.call c
      obtain ⟨hH', hfills⟩ := hH.step hfresh
      exact ⟨b', hfills ▸ hb', _, hshows, hH'⟩)
    ⟨_, CppEngine.shows_init, Handles.shows_empty⟩ hfresh
  obtain ⟨B₂, outs₂, hB₂, go, hgorun, G, hgo, hG⟩ := run_of_refines
    GoEngine.Book.call (fun b B => ∃ H, b.Shows H ∧ H.Shows B)
    (fun b B c ⟨H, hb, hH⟩ hfresh => by
      obtain ⟨b', hb', hshows⟩ := hb.call c
      obtain ⟨hH', hfills⟩ := hH.step hfresh
      exact ⟨b', hfills ▸ hb', _, hshows, hH'⟩)
    ⟨_, GoEngine.shows_newBook, Handles.shows_empty⟩ hfresh
  obtain ⟨B₃, outs₃, hB₃, rust, hrustrun, hrust⟩ := run_of_refines
    RustEngine.Book.call (fun b B => b.Refines B) (fun b B c hrel hfresh => hrel.call hfresh)
    RustEngine.refines_new hfresh
  -- one abstract run, so one abstract book and one list of fills
  obtain ⟨rfl, rfl⟩ := Prod.mk.inj (Except.ok.inj (hB.symm.trans hB₁))
  obtain ⟨rfl, rfl⟩ := Prod.mk.inj (Except.ok.inj (hB.symm.trans hB₂))
  obtain ⟨rfl, rfl⟩ := Prod.mk.inj (Except.ok.inj (hB.symm.trans hB₃))
  exact ⟨py, cpp, go, rust, outs, B, H, G, ⟨by rw [run_map]; exact hpyrun, hpyB⟩,
    ⟨hcpprun, hcpp, hH⟩, ⟨hgorun, hgo, hG⟩, hrustrun, hrust⟩

/-- **The four reference engines implement one book.** Along every sequence of
calls in which no limit order is submitted under an id that is resting, with
any prices and quantities, all four return the same fills in the same order,
call by call, and in the end hold the same levels with the same orders in the
same order. -/
theorem four_engines_agree (ops : List (Call UInt64))
    (hops : Allowed PyEngine.OrderBook.call PyEngine.OrderBook.FreshId .init
      (ops.map Call.toPy)) :
    ∃ py cpp go rust outs,
      run PyEngine.OrderBook.call .init (ops.map Call.toPy) = .ok (py, outs)
      ∧ run CppEngine.OrderBook.call .init ops = .ok (cpp, outs)
      ∧ run GoEngine.Book.call GoEngine.newBook ops = .ok (go, outs)
      ∧ run RustEngine.Book.call .new ops = .ok (rust, outs)
      ∧ ∀ s, py.depth s = cpp.depth s ∧ cpp.depth s = go.depth s ∧ go.depth s = rust.depth s := by
  obtain ⟨py, cpp, go, rust, outs, B, H, G, ⟨hpyrun, hpy⟩, ⟨hcpprun, hcpp, hH⟩, ⟨hgorun, hgo, hG⟩,
    hrustrun, hrust⟩ := engines_show_one_book ops hops
  refine ⟨py, cpp, go, rust, outs, hpyrun, hcpprun, hgorun, hrustrun, fun s => ?_⟩
  rw [hpy.depth_eq, hcpp.depth_eq hH, hgo.depth_eq hG, hrust.depth_eq]
  exact ⟨rfl, rfl, rfl⟩

/-- A maker partly filled, its neighbour cancelled, a level used up and made
again, and an order of no quantity. -/
theorem four_engines_agree_at_reused_level :
    ∃ py cpp go rust outs,
      run PyEngine.OrderBook.call .init ([.limit 1 .ask 10 5, .limit 2 .ask 10 4, .market 3 .bid 2,
          .cancel 2, .limit 4 .bid 12 9, .limit 5 .ask 12 1, .limit 6 .bid 12 (-3)].map
            (Call.toPy (ι := UInt64))) = .ok (py, outs)
      ∧ run CppEngine.OrderBook.call .init [.limit 1 .ask 10 5, .limit 2 .ask 10 4, .market 3 .bid 2,
          .cancel 2, .limit 4 .bid 12 9, .limit 5 .ask 12 1, .limit 6 .bid 12 (-3)] = .ok (cpp, outs)
      ∧ run GoEngine.Book.call GoEngine.newBook [.limit 1 .ask 10 5, .limit 2 .ask 10 4,
          .market 3 .bid 2, .cancel 2, .limit 4 .bid 12 9, .limit 5 .ask 12 1,
          .limit 6 .bid 12 (-3)] = .ok (go, outs)
      ∧ run RustEngine.Book.call .new [.limit 1 .ask 10 5, .limit 2 .ask 10 4, .market 3 .bid 2,
          .cancel 2, .limit 4 .bid 12 9, .limit 5 .ask 12 1, .limit 6 .bid 12 (-3)]
            = .ok (rust, outs)
      ∧ ∀ s, py.depth s = cpp.depth s ∧ cpp.depth s = go.depth s ∧ go.depth s = rust.depth s :=
  four_engines_agree [.limit 1 .ask 10 5, .limit 2 .ask 10 4, .market 3 .bid 2, .cancel 2,
    .limit 4 .bid 12 9, .limit 5 .ask 12 1, .limit 6 .bid 12 (-3)] (by decide)

/-! ## One more call under any id

Along a run with different ids the engines are one book. A call that follows it
may reuse an id: the C++, the Go and the Rust book still do what the abstract
book does, and the Python book does unless the order comes to rest at a level
where its id rests already. There Python adds to the quantity of the older
order. -/

section AnyId

variable [DecidableEq ι]

/-- **The C++ book does what the abstract book does**, under any id. -/
theorem CppEngine.OrderBook.Shows.depth_call {b : CppEngine.OrderBook ι} {H : Handles ι} {B : Book ι}
    (h : b.Shows H) (hB : H.Shows B) (c : Call ι) :
    ∃ b', b.call c = .ok (b', (B.step c).2)
      ∧ ∀ s, b'.depth s = Ladder.ascending s ((B.step c).1.ladder s) := by
  obtain ⟨b', hb', h'⟩ := h.call c
  obtain ⟨hbook, hfills⟩ := hB.step_book c
  refine ⟨b', hfills ▸ hb', fun s => ?_⟩
  rw [h'.depth_nodes, ← hbook]
  rfl

/-- **So does the Go book.** -/
theorem GoEngine.Book.Shows.depth_call {b : GoEngine.Book ι} {H : Handles ι} {B : PriceTime.Book ι}
    (h : b.Shows H) (hB : H.Shows B) (c : Call ι) :
    ∃ b', b.call c = .ok (b', (B.step c).2)
      ∧ ∀ s, b'.depth s = Ladder.ascending s ((B.step c).1.ladder s) := by
  obtain ⟨b', hb', h'⟩ := h.call c
  obtain ⟨hbook, hfills⟩ := hB.step_book c
  refine ⟨b', hfills ▸ hb', fun s => ?_⟩
  rw [h'.depth_nodes, ← hbook]
  rfl

/-- **So does the Rust book.** -/
theorem RustEngine.Book.Refines.depth_call {b : RustEngine.Book ι} {B : PriceTime.Book ι}
    (h : b.Refines B) (c : Call ι) :
    ∃ b', b.call c = .ok (b', (B.step c).2)
      ∧ ∀ s, b'.depth s = Ladder.ascending s ((B.step c).1.ladder s) := by
  cases c with
  | limit oid side px qty =>
    obtain ⟨b', hb', h'⟩ := h.shows'.limit oid side px qty
    exact ⟨b', hb', h'.depth_eq⟩
  | market oid side qty =>
    obtain ⟨b', hb', h'⟩ := h.call (c := .market oid side qty) trivial
    exact ⟨b', hb', h'.depth_eq⟩
  | cancel target =>
    obtain ⟨b', hb', h'⟩ := h.call (c := .cancel target) trivial
    exact ⟨b', hb', h'.depth_eq⟩

/-- A limit order comes to rest at a level where its id rests: on the same side
and at the same price. -/
def PriceTime.Book.Merges (B : Book ι) : Call ι → Prop
  | .limit oid side px qty =>
    0 < (B.sweep side (some px) qty).unfilled
      ∧ oid ∈ (Ladder.queueAt (B.ladder side) px).map Prod.fst
  | _ => False

omit [DecidableEq ι] in
/-- Ladders are told apart by their levels in ascending order. -/
theorem ascending_injective (s : Side) :
    Function.Injective (Ladder.ascending s : Ladder ι → Ladder ι) := by
  cases s
  · exact List.reverse_injective
  · exact Function.injective_id

/-- **Coming to rest on the Python book** is coming to rest, exactly if the id
does not rest at the level already. -/
theorem PyEngine.OrderBook.Refines.depth_rest {b : PyEngine.OrderBook ι} {B : Book ι}
    (h : b.Refines B) (side : String) (px : ℤ) (oid : ι) {qty : ℤ} (hqty : 0 < qty) :
    (∀ s, (b.rest side px oid qty).depth s = Ladder.ascending s ((B.put (PyEngine.sideOf side)
        (Ladder.rest (PyEngine.sideOf side) px (oid, qty)
          (B.ladder (PyEngine.sideOf side)))).ladder s))
      ↔ oid ∉ (Ladder.queueAt (B.ladder (PyEngine.sideOf side)) px).map Prod.fst := by
  have hladder : ∀ s, b.ladder s = B.ladder s := fun s => congrFun (congrArg Book.ladder h.book) s
  obtain ⟨level, hlevel, hhalf, -, hqueue⟩ := PyEngine.OrderBook.rest_spec h.half side px oid hqty
  rw [hladder] at hlevel
  rw [← hlevel]
  constructor
  · intro hdepth hmem
    have hsame := hdepth (PyEngine.sideOf side)
    rw [PyEngine.OrderBook.depth_eq_ladder, Book.ladder_put_self] at hsame
    have hat := congrArg (Ladder.queueAt · px) (ascending_injective _ hsame)
    rw [hqueue, if_pos ⟨rfl, rfl⟩, (h.wf.side _).queueAt_rest, if_pos rfl, ← hlevel] at hat
    -- a Python level has an id once, the other engines' would have it twice
    have hnodup := (PyEngine.addTo oid qty level).nodup
    rw [hat, List.map_append, List.nodup_append] at hnodup
    exact hnodup.2.2 oid hmem oid List.mem_cons_self rfl
  · intro hnot s
    have hback : (PyEngine.addTo oid qty level).entries = level.entries ++ [(oid, qty)] := by
      rw [PyEngine.addTo, Dict.entries_set_of_notMem hnot, Dict.get?_eq_none_iff.mpr hnot,
        Option.getD_none, zero_add]
    rw [PyEngine.OrderBook.depth_eq_ladder]
    refine congrArg _ ?_
    by_cases hs : s = PyEngine.sideOf side
    · subst hs
      rw [Book.ladder_put_self]
      refine Ladder.WF.ext (hhalf.ladder _) ((h.wf.side _).rest px hqty) (fun p => ?_)
      rw [hqueue, (h.wf.side _).queueAt_rest, hback, hlevel, hladder]
      by_cases hp : p = px
      · rw [if_pos ⟨rfl, hp⟩, if_pos hp, hp]
      · rw [if_neg (fun h => hp h.2), if_neg hp]
    · rw [Book.ladder_put_of_ne hs]
      refine Ladder.WF.ext (hhalf.ladder s) (h.wf.side s) (fun p => ?_)
      rw [hqueue, if_neg (fun h => hs h.1), hladder]

/-- **The Python book does what the abstract book does** under an id that does
not rest at the level where the order comes to rest, and only then. The fills
are those of the abstract book in any case. -/
theorem PyEngine.OrderBook.Refines.depth_call {b : PyEngine.OrderBook ι} {B : Book ι}
    (h : b.Refines B) (c : Call ι) :
    ∃ b', b.call c.toPy = .ok (b', (B.step c).2)
      ∧ ((∀ s, b'.depth s = Ladder.ascending s ((B.step c).1.ladder s)) ↔ ¬ B.Merges c) := by
  have hsettled : B.Settles c → ∃ b', b.call c.toPy = .ok (b', (B.step c).2)
      ∧ ∀ s, b'.depth s = Ladder.ascending s ((B.step c).1.ladder s) := fun hsettles => by
    obtain ⟨b', hb', h'⟩ := h.call_of_settles (c := c.toPy) (by rwa [Call.toCall_toPy])
    rw [Call.toCall_toPy] at hb' h'
    exact ⟨b', hb', h'.depth_eq⟩
  cases c with
  | limit oid side px qty =>
    obtain ⟨b₁, hb₁, h₁⟩ := h.match side.word (some px) qty
    rw [PyEngine.sideOf_word] at hb₁ h₁
    have hcall : b.call (Call.toPy (.limit oid side px qty))
        = .ok (if 0 < (B.sweep side (some px) qty).unfilled then
              b₁.rest side.word px oid (B.sweep side (some px) qty).unfilled else b₁,
            (B.step (.limit oid side px qty)).2) := by
      show b.limit oid side.word px qty = _
      unfold PyEngine.OrderBook.limit
      rw [hb₁]
      rfl
    refine ⟨_, hcall, ?_⟩
    by_cases hun : 0 < (B.sweep side (some px) qty).unfilled
    · have hrest := h₁.depth_rest side.word px oid hun
      rw [PyEngine.sideOf_word, Book.ladder_put_opp] at hrest
      have hstep : (B.step (.limit oid side px qty)).1
          = (B.put side.opp (B.sweep side (some px) qty).left).put side (Ladder.rest side px
            (oid, (B.sweep side (some px) qty).unfilled) (B.ladder side)) := if_pos hun
      rw [if_pos hun, hstep, hrest]
      exact not_congr ⟨fun hmem => ⟨hun, hmem⟩, And.right⟩
    · have hstep : (B.step (.limit oid side px qty)).1
          = B.put side.opp (B.sweep side (some px) qty).left := if_neg hun
      rw [if_neg hun, hstep]
      exact iff_of_true h₁.depth_eq (fun hmerges => hun hmerges.1)
  | market oid side qty =>
    obtain ⟨b', hb', h'⟩ := hsettled trivial
    exact ⟨b', hb', iff_of_true h' id⟩
  | cancel target =>
    obtain ⟨b', hb', h'⟩ := hsettled trivial
    exact ⟨b', hb', iff_of_true h' id⟩

end AnyId
