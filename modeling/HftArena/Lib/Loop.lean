import Mathlib.Data.Nat.Notation

/-!
# Loops that end

A `while` loop runs its body until the body leaves it. Here a body returns a
`Turn` – go round again from a new state, or leave with a result – or raises an
error, and `loop` runs it for a number of turns that is a bound on the length
of the run and nothing else: running out of turns is an error of its own, and
the rule below (`loop_ok`) is one of *total* correctness. An invariant that
says how many turns are still needed, and a body that lowers that number
whenever it goes round again, give a result for any bound above it.

`Visits` is the other view of a loop: the states its turns pass through.
-/

/-- What one turn of a loop body decides. -/
inductive Turn (σ ρ : Type) where
  /-- Go round again from this state. -/
  | again (s : σ)
  /-- Leave the loop with this result. -/
  | done (r : ρ)

variable {ε σ ρ : Type}

/-- **A loop**, run for at most `n` turns. Running out of them is the error
`diverges`. -/
def loop (diverges : ε) (body : σ → Except ε (Turn σ ρ)) : ℕ → σ → Except ε ρ
  | 0, _ => .error diverges
  | n + 1, s =>
    match body s with
    | .error e => .error e
    | .ok (.done r) => .ok r
    | .ok (.again s') => loop diverges body n s'

/-- **The rule of loops.** The invariant says how many turns are still needed
at most; every turn either leaves the loop as it should be left or goes round
again with fewer turns needed. Then the loop ends within any bound above that
number, without an error. -/
theorem loop_ok {diverges : ε} {body : σ → Except ε (Turn σ ρ)}
    (Inv : ℕ → σ → Prop) (Post : ρ → Prop)
    (hbody : ∀ m s, Inv m s →
      (∃ r, body s = .ok (.done r) ∧ Post r)
        ∨ ∃ s' m', m' < m ∧ body s = .ok (.again s') ∧ Inv m' s')
    {m n : ℕ} {s : σ} (hs : Inv m s) (hn : m < n) :
    ∃ r, loop diverges body n s = .ok r ∧ Post r := by
  induction n generalizing m s with
  | zero => exact absurd hn (Nat.not_lt_zero _)
  | succ n ih =>
    rcases hbody m s hs with ⟨r, hr, hpost⟩ | ⟨s', m', hlt, hs', hinv⟩
    · exact ⟨r, by rw [loop, hr], hpost⟩
    · obtain ⟨r, hr, hpost⟩ := ih hinv (by omega)
      exact ⟨r, by rw [loop, hs']; exact hr, hpost⟩

/-- What a turn decides, seen through maps of the states and the results. -/
def Turn.map {σ' ρ' : Type} (f : σ → σ') (g : ρ → ρ') : Turn σ ρ → Turn σ' ρ'
  | .again s => .again (f s)
  | .done r => .done (g r)

/-- **A loop seen through maps**: where the turns go with them, so does the
whole loop, with its result, its error and the number of its turns. -/
theorem loop_map {σ' ρ' : Type} {diverges : ε} {body : σ → Except ε (Turn σ ρ)}
    {body' : σ' → Except ε (Turn σ' ρ')} (f : σ → σ') (g : ρ → ρ')
    (hbody : ∀ s, body' (f s) = (body s).map (Turn.map f g)) (n : ℕ) (s : σ) :
    loop diverges body' n (f s) = (loop diverges body n s).map g := by
  induction n generalizing s with
  | zero => rfl
  | succ n ih =>
    rw [loop, loop, hbody]
    cases body s with
    | error e => rfl
    | ok t =>
      cases t with
      | again s' => exact ih s'
      | done r => rfl

/-- The states a loop passes through, from its first on. -/
inductive Visits (body : σ → Except ε (Turn σ ρ)) (s : σ) : σ → Prop where
  /-- The loop starts at its first state. -/
  | start : Visits body s s
  /-- A turn that goes round again moves on. -/
  | turn {t u : σ} : Visits body s t → body t = .ok (.again u) → Visits body s u

/-- An invariant of the turns holds at every state the loop passes through,
those included from which it never comes out. -/
theorem Visits.inv {body : σ → Except ε (Turn σ ρ)} (Inv : σ → Prop)
    (hbody : ∀ s s', Inv s → body s = .ok (.again s') → Inv s')
    {s t : σ} (hs : Inv s) (h : Visits body s t) : Inv t := by
  induction h with
  | start => exact hs
  | turn _ hbt ih => exact hbody _ _ ih hbt

/-- **A loop that ends without an error** has none at any state it passes
through. -/
theorem Visits.turn_of_loop {diverges : ε} {body : σ → Except ε (Turn σ ρ)} {n : ℕ} {s t : σ}
    {r : ρ} (hloop : loop diverges body n s = .ok r) (h : Visits body s t) :
    ∃ u, body t = .ok u := by
  -- from a state that is passed through the loop still comes to the result, in
  -- the turns that are left
  have hfrom : ∃ m, loop diverges body m t = .ok r := by
    induction h with
    | start => exact ⟨n, hloop⟩
    | turn _ hbt ih =>
      obtain ⟨m, hm⟩ := ih
      cases m with
      | zero => cases hm
      | succ m =>
        rw [loop, hbt] at hm
        exact ⟨m, hm⟩
  obtain ⟨m, hm⟩ := hfrom
  cases m with
  | zero => cases hm
  | succ m =>
    rw [loop] at hm
    cases hbody : body t with
    | error e => rw [hbody] at hm; cases hm
    | ok u => exact ⟨u, rfl⟩
