import Mathlib.Data.List.Forall2
import Mathlib.Logic.Basic

/-!
# Runs of a component driven by calls

A component with a state takes one call after the other; a call gives a result
and a next state, or fails. `run` is the whole sequence, with the results in
order, and it stops at the first call that fails.

What callers promise is a condition on each call in the state it is made in,
and `Allowed` is that condition along a run. It is decidable by running, so
that a promise can be checked on a concrete sequence of calls. The two rules
are the ones every argument about a run uses: an invariant that each allowed
call keeps makes every allowed run succeed (`run_inv`), and a relation that
each allowed call keeps between two components makes them give the same results
(`run_sim`). What is promised to one component is then promised to one that
simulates it (`allowed_of_sim`), which is how a condition that is stated over
an abstract component is used for an implementation.

Two things are kept of a run beside its results: its `history`, each call with
the state it was made in, and what holds `Throughout` it, in its first state
and after every call. A property that a call breaks exactly when the callers
break their promise holds throughout exactly the allowed runs
(`allowed_of_throughout`).
-/

variable {ε ε' σ τ α β : Type}

/-- **A run**: the calls one after the other, from a state, with the results in
order. A call that fails ends the run with its error, and nothing is said of
the results before it. -/
def run (step : σ → α → Except ε (σ × β)) : σ → List α → Except ε (σ × List β)
  | s, [] => .ok (s, [])
  | s, a :: as =>
    match step s a with
    | .error e => .error e
    | .ok (s', b) =>
      match run step s' as with
      | .error e => .error e
      | .ok (t, bs) => .ok (t, b :: bs)

/-- Calls that are translated one by one: the run of the translated calls is
the run of the calls under the translated step. -/
theorem run_map {γ : Type} (step : σ → α → Except ε (σ × β)) (f : γ → α) (s : σ) (cs : List γ) :
    run step s (cs.map f) = run (fun s c => step s (f c)) s cs := by
  induction cs generalizing s with
  | nil => rfl
  | cons c cs ih =>
    rw [List.map_cons, run, run]
    cases step s (f c) with
    | error e => rfl
    | ok r =>
      dsimp only
      rw [ih]

/-- **The callers keep their promise** along a run: each call is valid in the
state it is made in. After a call that fails there is nothing left to
promise. -/
def Allowed (step : σ → α → Except ε (σ × β)) (valid : σ → α → Prop) : σ → List α → Prop
  | _, [] => True
  | s, a :: as => valid s a ∧ ∀ s' b, step s a = .ok (s', b) → Allowed step valid s' as

/-- So are promises: what the translated calls owe is what the calls owe under
the translated condition. -/
theorem allowed_map {γ : Type} {step : σ → α → Except ε (σ × β)} {valid : σ → α → Prop}
    {f : γ → α} {s : σ} {cs : List γ} : Allowed step valid s (cs.map f)
      ↔ Allowed (fun s c => step s (f c)) (fun s c => valid s (f c)) s cs := by
  induction cs generalizing s with
  | nil => exact Iff.rfl
  | cons c cs ih => exact and_congr_right (fun _ => forall₃_congr (fun _ _ _ => ih))

/-- Whether the callers keep their promise can be found out by running: each
call is checked in the state that the calls before it lead to. -/
instance Allowed.decidable {step : σ → α → Except ε (σ × β)} {valid : σ → α → Prop}
    [∀ s a, Decidable (valid s a)] : ∀ s as, Decidable (Allowed step valid s as)
  | _, [] => isTrue trivial
  | s, a :: as =>
    match h : step s a with
    | .error _ =>
      decidable_of_iff (valid s a) ⟨fun hv => ⟨hv, fun _ _ hb =>
        by rw [h] at hb; cases hb⟩, And.left⟩
    | .ok (s', b) =>
      have : Decidable (Allowed step valid s' as) := Allowed.decidable s' as
      decidable_of_iff (valid s a ∧ Allowed step valid s' as)
        ⟨fun hv => ⟨hv.1, fun _ _ hb => by rw [h] at hb; cases hb; exact hv.2⟩,
          fun hv => ⟨hv.1, hv.2 s' b h⟩⟩

/-- A run that begins with a call that succeeds. -/
theorem run_cons_of_ok {step : σ → α → Except ε (σ × β)} {s s' t : σ} {a : α}
    {as : List α} {b : β} {bs : List β} (h : step s a = .ok (s', b))
    (hrun : run step s' as = .ok (t, bs)) : run step s (a :: as) = .ok (t, b :: bs) := by
  rw [run, h]
  dsimp only
  rw [hrun]

/-- A run goes on where another ended. -/
theorem run_append_of_ok {step : σ → α → Except ε (σ × β)} {s t u : σ} {as as' : List α}
    {bs bs' : List β} (hrun : run step s as = .ok (t, bs)) (hrun' : run step t as' = .ok (u, bs')) :
    run step s (as ++ as') = .ok (u, bs ++ bs') := by
  induction as generalizing s bs with
  | nil =>
    cases hrun
    exact hrun'
  | cons a as ih =>
    rw [run] at hrun
    split at hrun
    · cases hrun
    · rename_i s' b hstep
      split at hrun
      · cases hrun
      · rename_i t' bs₀ hrest
        cases hrun
        exact run_cons_of_ok hstep (ih hrest)

/-- A run with one more call at its end. -/
theorem run_concat_of_ok {step : σ → α → Except ε (σ × β)} {s t u : σ} {as : List α} {a : α}
    {bs : List β} {b : β} (hrun : run step s as = .ok (t, bs)) (h : step t a = .ok (u, b)) :
    run step s (as ++ [a]) = .ok (u, bs ++ [b]) :=
  run_append_of_ok hrun (run_cons_of_ok h rfl)

/-- **An invariant of the calls holds along every run**, and no call of it
fails. That each allowed call succeeds is part of what is asked of the step, so
the rule is one of total correctness. -/
theorem run_inv {step : σ → α → Except ε (σ × β)} {valid : σ → α → Prop} (Inv : σ → Prop)
    (hstep : ∀ s a, Inv s → valid s a → ∃ s' b, step s a = .ok (s', b) ∧ Inv s')
    {s : σ} {as : List α} (hs : Inv s) (hvalid : Allowed step valid s as) :
    ∃ t bs, run step s as = .ok (t, bs) ∧ Inv t := by
  induction as generalizing s with
  | nil => exact ⟨s, [], rfl, hs⟩
  | cons a as ih =>
    obtain ⟨s', b, hb, hs'⟩ := hstep s a hs hvalid.1
    obtain ⟨t, bs, hbs, ht⟩ := ih hs' (hvalid.2 s' b hb)
    exact ⟨t, b :: bs, run_cons_of_ok hb hbs, ht⟩

/-- **Forward simulation.** Two components related by a relation that every
allowed call keeps, with the same result on both sides, give the same results
along every allowed run and end related. The promise is that of the first
component, which is the one that is simulated. -/
theorem run_sim {step : σ → α → Except ε (σ × β)} (spec : τ → α → Except ε' (τ × β))
    {valid : σ → α → Prop} (Rel : σ → τ → Prop)
    (hstep : ∀ s t a, Rel s t → valid s a →
      ∃ s' t' b, step s a = .ok (s', b) ∧ spec t a = .ok (t', b) ∧ Rel s' t')
    {s : σ} {t : τ} {as : List α} (hrel : Rel s t) (hvalid : Allowed step valid s as) :
    ∃ s' t' bs, run step s as = .ok (s', bs) ∧ run spec t as = .ok (t', bs) ∧ Rel s' t' := by
  induction as generalizing s t with
  | nil => exact ⟨s, t, [], rfl, rfl, hrel⟩
  | cons a as ih =>
    obtain ⟨s', t', b, hs', ht', hrel'⟩ := hstep s t a hrel hvalid.1
    obtain ⟨s'', t'', bs, hs'', ht'', hrel''⟩ := ih hrel' (hvalid.2 s' b hs')
    exact ⟨s'', t'', b :: bs, run_cons_of_ok hs' hs'', run_cons_of_ok ht' ht'', hrel''⟩

/-- **Two runs side by side**, whose outputs are related as well as their
states. Nothing is asked of the callers here; the step has to relate the calls
that occur, and no others. -/
theorem run_related {γ : Type} {step : σ → α → Except ε (σ × β)} {spec : τ → α → Except ε' (τ × γ)}
    (Rel : σ → τ → Prop) (Out : β → γ → Prop) {as : List α}
    (hstep : ∀ s t, ∀ a ∈ as, Rel s t →
      ∃ s' t' b c, step s a = .ok (s', b) ∧ spec t a = .ok (t', c) ∧ Out b c ∧ Rel s' t')
    {s : σ} {t : τ} (hrel : Rel s t) :
    ∃ s' t' bs cs, run step s as = .ok (s', bs) ∧ run spec t as = .ok (t', cs)
      ∧ List.Forall₂ Out bs cs ∧ Rel s' t' := by
  induction as generalizing s t with
  | nil => exact ⟨s, t, [], [], rfl, rfl, .nil, hrel⟩
  | cons a as ih =>
    obtain ⟨s₁, t₁, b, c, hs, ht, hout, hrel₁⟩ := hstep s t a List.mem_cons_self hrel
    obtain ⟨s', t', bs, cs, hruns, hrunt, houts, hrel'⟩ :=
      ih (fun s t a ha => hstep s t a (List.mem_cons_of_mem _ ha)) hrel₁
    exact ⟨s', t', b :: bs, c :: cs, run_cons_of_ok hs hruns, run_cons_of_ok ht hrunt,
      .cons hout houts, hrel'⟩

/-- What callers owe one component they owe a component that simulates it, if
each call that is valid for the one is valid for the other. The relation goes
along with the run, so the two conditions are compared in related states
only. -/
theorem allowed_of_sim (step : σ → α → Except ε (σ × β)) {spec : τ → α → Except ε' (τ × β)}
    (valid : σ → α → Prop) {valid' : τ → α → Prop} (Rel : σ → τ → Prop)
    (hvalid' : ∀ s t a, Rel s t → valid s a → valid' t a)
    (hstep : ∀ s t a, Rel s t → valid s a →
      ∃ s' t' b, step s a = .ok (s', b) ∧ spec t a = .ok (t', b) ∧ Rel s' t')
    {s : σ} {t : τ} {as : List α} (hrel : Rel s t) (hvalid : Allowed step valid s as) :
    Allowed spec valid' t as := by
  induction as generalizing s t with
  | nil => exact trivial
  | cons a as ih =>
    refine ⟨hvalid' s t a hrel hvalid.1, fun t₁ b hb => ?_⟩
    obtain ⟨s', t', b', hs', ht', hrel'⟩ := hstep s t a hrel hvalid.1
    rw [ht'] at hb
    cases hb
    exact ih hrel' (hvalid.2 s' _ hs')

/-- A component that cannot fail, as one that could. -/
def always (step : σ → α → σ × β) (s : σ) (a : α) : Except Empty (σ × β) := .ok (step s a)

/-- **What happened along a run**: each call with the state it was made in and
its result, up to the first call that fails. -/
def history (step : σ → α → Except ε (σ × β)) : σ → List α → List (σ × α × β)
  | _, [] => []
  | s, a :: as =>
    match step s a with
    | .error _ => []
    | .ok (s', b) => (s, a, b) :: history step s' as

theorem history_cons_of_ok {step : σ → α → Except ε (σ × β)} {s s' : σ} {a : α} {b : β}
    (h : step s a = .ok (s', b)) (as : List α) :
    history step s (a :: as) = (s, a, b) :: history step s' as := by
  rw [history, h]

/-- Calls that ask nothing of their callers are always allowed. -/
theorem allowed_of_forall {step : σ → α → Except ε (σ × β)} {valid : σ → α → Prop}
    (h : ∀ s a, valid s a) (s : σ) (as : List α) : Allowed step valid s as := by
  induction as generalizing s with
  | nil => exact trivial
  | cons a as ih => exact ⟨h s a, fun s' _ _ => ih s'⟩

/-- Where calls ask nothing of their callers, an invariant holds after any
calls. -/
theorem run_inv_of_forall {step : σ → α → Except ε (σ × β)} (Inv : σ → Prop)
    (hstep : ∀ s a, Inv s → ∃ s' b, step s a = .ok (s', b) ∧ Inv s') {s : σ} (hs : Inv s)
    (as : List α) : ∃ t bs, run step s as = .ok (t, bs) ∧ Inv t :=
  run_inv Inv (fun s a h (_ : True) => hstep s a h) hs
    (allowed_of_forall (fun _ _ => trivial) s as)

/-! ## Every state of a run

`Allowed` is a condition on the calls, and `Throughout` one on the states
between them. They are the same where exactly the calls that are not valid
destroy the property for the state that they lead to. -/

/-- **A run that succeeds, with a property at each of its states**: the first,
and the one after every call. -/
def Throughout (step : σ → α → Except ε (σ × β)) (P : σ → Prop) : σ → List α → Prop
  | s, [] => P s
  | s, a :: as => P s ∧ ∃ s' b, step s a = .ok (s', b) ∧ Throughout step P s' as

/-- It holds where the run begins. -/
theorem Throughout.head {step : σ → α → Except ε (σ × β)} {P : σ → Prop} {s : σ} {as : List α}
    (h : Throughout step P s as) : P s := by
  cases as with
  | nil => exact h
  | cons a as => exact h.1

/-- The property holds where the run ends. -/
theorem Throughout.last {step : σ → α → Except ε (σ × β)} {P : σ → Prop} {s t : σ} {as : List α}
    {bs : List β} (h : Throughout step P s as) (hrun : run step s as = .ok (t, bs)) : P t := by
  induction as generalizing s bs with
  | nil =>
    cases hrun
    exact h
  | cons a as ih =>
    obtain ⟨-, s', b, hb, h⟩ := h
    rw [run, hb] at hrun
    dsimp only at hrun
    cases hrest : run step s' as with
    | error e => rw [hrest] at hrun; cases hrun
    | ok r =>
      rw [hrest] at hrun
      cases hrun
      exact ih h hrest

/-- **A component that simulates another has a property throughout** that every
state of it has that is related to a state of the other. The promise is that of
the other component here: it is made in terms of the specification. -/
theorem throughout_of_sim {step : σ → α → Except ε (σ × β)} (spec : τ → α → Except ε' (τ × β))
    {valid : τ → α → Prop} (Rel : σ → τ → Prop) {P : σ → Prop}
    (hstep : ∀ s t a, Rel s t → valid t a →
      ∃ s' t' b, step s a = .ok (s', b) ∧ spec t a = .ok (t', b) ∧ Rel s' t')
    (hP : ∀ s t, Rel s t → P s) {s : σ} {t : τ} {as : List α} (hrel : Rel s t)
    (hvalid : Allowed spec valid t as) : Throughout step P s as := by
  induction as generalizing s t with
  | nil => exact hP s t hrel
  | cons a as ih =>
    obtain ⟨s', t', b, hs', ht', hrel'⟩ := hstep s t a hrel hvalid.1
    exact ⟨hP s t hrel, s', b, hs', ih hrel' (hvalid.2 t' b ht')⟩

/-- **A property that holds throughout exactly the allowed runs**: allowed
calls keep an invariant that gives it, and a call that is not allowed breaks
it. This is the converse of the rules above, for a promise that is not only
enough for the property but is what the property comes to. -/
theorem allowed_of_throughout {step : σ → α → Except ε (σ × β)} {valid : σ → α → Prop}
    {P : σ → Prop} (Inv : σ → Prop)
    (hkeep : ∀ s a s' b, Inv s → valid s a → step s a = .ok (s', b) → Inv s')
    (hbreak : ∀ s a s' b, Inv s → ¬ valid s a → step s a = .ok (s', b) → ¬ P s')
    {s : σ} {as : List α} (hs : Inv s) (h : Throughout step P s as) :
    Allowed step valid s as := by
  induction as generalizing s with
  | nil => exact trivial
  | cons a as ih =>
    obtain ⟨-, s', b, hb, h⟩ := h
    -- a call that was not allowed would have broken the property
    have hvalid : valid s a :=
      Classical.byContradiction (fun hnot => hbreak s a s' b hs hnot hb h.head)
    refine ⟨hvalid, fun s'' b' hb' => ?_⟩
    cases hb.symm.trans hb'
    exact ih (hkeep s a s' b hs hvalid hb) h
