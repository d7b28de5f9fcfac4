import Mathlib.Data.List.Basic
import Mathlib.Algebra.Order.Group.Int
import Mathlib.Algebra.BigOperators.Group.List.Basic

/-!
# Systems of interleaved steps

A system is a partial function from a state and an event to the next state: an
event is enabled or it is not, and which of the enabled ones happens next is
anybody's choice. A run is a list of events (`exec`), and what holds of every
interleaving is what holds of every state reached.

Many properties hold of a run only as long as each of its steps meets some
condition on the event and the state it happens in; `Along` is that condition
along a run and `Reaches` is reaching a state by such a run. The rule is
`Reaches.inv`: an invariant that each such step keeps. Where a run has a step
that does not meet the condition, what that step leaves behind may be there for
good (`of_not_along`), and then the condition is not only enough but exact.

What a run adds up is its `total`, and the rule of accounts is `total_of_exec`:
a measure that each step changes by its cost is changed by the total.

A component that is one of several runs by itself (`stepAt`): its event changes
it and leaves the others as they are. What follows for the whole – what holds
of all components, of one of them, or of a sum over them – is stated for a list
in which one element is replaced.
-/

variable {σ α β : Type}

/-- **A run**: the events one after the other, if each is enabled in the state
that those before it lead to. -/
def exec (next : σ → α → Option σ) : σ → List α → Option σ
  | s, [] => some s
  | s, a :: as => (next s a).bind (exec next · as)

/-- A run of two parts is the one after the other. -/
theorem exec_append (next : σ → α → Option σ) (s : σ) (as bs : List α) :
    exec next s (as ++ bs) = (exec next s as).bind (exec next · bs) := by
  induction as generalizing s with
  | nil => rfl
  | cons a as ih =>
    rw [List.cons_append, exec, exec]
    cases next s a with
    | none => rfl
    | some s' => exact ih s'

/-- A run of two parts goes through a state in between. -/
theorem exec_append_eq_some {next : σ → α → Option σ} {s t : σ} {as bs : List α} :
    exec next s (as ++ bs) = some t ↔ ∃ u, exec next s as = some u ∧ exec next u bs = some t := by
  rw [exec_append, Option.bind_eq_some_iff]

/-- So does a run with an event in the middle. -/
theorem exec_append_cons_eq_some {next : σ → α → Option σ} {s t : σ} {as bs : List α} {a : α} :
    exec next s (as ++ a :: bs) = some t
      ↔ ∃ u v, exec next s as = some u ∧ next u a = some v ∧ exec next v bs = some t := by
  rw [exec_append_eq_some]
  refine exists_congr (fun u => ?_)
  rw [exec, Option.bind_eq_some_iff]
  exact ⟨fun ⟨hu, v, hv, ht⟩ => ⟨v, hu, hv, ht⟩, fun ⟨v, hu, hv, ht⟩ => ⟨hu, v, hv, ht⟩⟩

/-- A run with one more event at its end. -/
theorem exec_concat {next : σ → α → Option σ} {s t u : σ} {as : List α} {a : α}
    (h : exec next s as = some t) (hnext : next t a = some u) :
    exec next s (as ++ [a]) = some u := by
  rw [exec_append, h, Option.bind_some, exec, hnext]
  rfl

/-- **Every step of a run meets a condition**, in the state it happens in. Of a
list of events that is not a run it says so up to the first event that is not
enabled. -/
def Along (next : σ → α → Option σ) (good : σ → α → Prop) : σ → List α → Prop
  | _, [] => True
  | s, a :: as => good s a ∧ ∀ s', next s a = some s' → Along next good s' as

instance Along.decidable (next : σ → α → Option σ) (good : σ → α → Prop)
    [∀ s a, Decidable (good s a)] : ∀ s as, Decidable (Along next good s as)
  | _, [] => isTrue trivial
  | s, a :: as =>
    match h : next s a with
    | none =>
      decidable_of_iff (good s a) ⟨fun hg => ⟨hg, fun s' hs' =>
        by rw [h] at hs'; cases hs'⟩, And.left⟩
    | some s' =>
      have : Decidable (Along next good s' as) := Along.decidable next good s' as
      decidable_of_iff (good s a ∧ Along next good s' as)
        ⟨fun hg => ⟨hg.1, fun t ht => by rw [h] at ht; cases ht; exact hg.2⟩,
          fun hg => ⟨hg.1, hg.2 s' h⟩⟩

/-- Two conditions that agree on the steps that happen. -/
theorem along_congr {next : σ → α → Option σ} {good good' : σ → α → Prop} {s t : σ} {as : List α}
    (hexec : exec next s as = some t)
    (h : ∀ s a s', next s a = some s' → (good s a ↔ good' s a)) :
    Along next good s as ↔ Along next good' s as := by
  induction as generalizing s with
  | nil => exact Iff.rfl
  | cons a as ih =>
    obtain ⟨s', hs', hexec⟩ := Option.bind_eq_some_iff.mp hexec
    refine and_congr (h s a s' hs') (forall₂_congr (fun u hu => ?_))
    rw [hs'] at hu
    cases hu
    exact ih hexec

theorem along_trivial (next : σ → α → Option σ) (s : σ) (as : List α) :
    Along next (fun _ _ => True) s as := by
  induction as generalizing s with
  | nil => trivial
  | cons a as ih => exact ⟨trivial, fun s' _ => ih s'⟩

theorem along_forall {ι : Type} {next : σ → α → Option σ} {good : ι → σ → α → Prop} {s : σ}
    {as : List α} : Along next (fun s a => ∀ i, good i s a) s as
      ↔ ∀ i, Along next (good i) s as := by
  induction as generalizing s with
  | nil => exact ⟨fun _ _ => trivial, fun _ => trivial⟩
  | cons a as ih =>
    constructor
    · exact fun h i => ⟨h.1 i, fun s' hs' => ih.mp (h.2 s' hs') i⟩
    · exact fun h => ⟨fun i => (h i).1, fun s' hs' => ih.mpr (fun i => (h i).2 s' hs')⟩

theorem Along.concat {next : σ → α → Option σ} {good : σ → α → Prop} {s t : σ} {as : List α} {a : α}
    (h : Along next good s as) (hexec : exec next s as = some t) (hgood : good t a) :
    Along next good s (as ++ [a]) := by
  induction as generalizing s with
  | nil =>
    cases hexec
    exact ⟨hgood, fun _ _ => trivial⟩
  | cons b as ih =>
    obtain ⟨s', hs', hexec⟩ := Option.bind_eq_some_iff.mp hexec
    refine ⟨h.1, fun u hu => ?_⟩
    rw [hs'] at hu
    cases hu
    exact ih (h.2 s' hs') hexec

/-- **The states that runs reach** whose steps all meet a condition. -/
inductive Reaches (next : σ → α → Option σ) (good : σ → α → Prop) (s : σ) : σ → Prop where
  /-- The state a run starts in. -/
  | start : Reaches next good s s
  /-- One more step. -/
  | step {t u : σ} {a : α} : Reaches next good s t → good t a → next t a = some u →
    Reaches next good s u

namespace Reaches

variable {next : σ → α → Option σ} {good : σ → α → Prop}

/-- **The rule of invariants**: what holds at the start and is kept by every
step that meets the condition holds in every state that is reached. -/
theorem inv (Inv : σ → Prop) (hstep : ∀ t a u, Inv t → good t a → next t a = some u → Inv u)
    {s t : σ} (hs : Inv s) (h : Reaches next good s t) : Inv t := by
  induction h with
  | start => exact hs
  | step _ hgood hnext ih => exact hstep _ _ _ ih hgood hnext

theorem head {s t u : σ} {a : α} (hgood : good s a) (hnext : next s a = some t)
    (h : Reaches next good t u) : Reaches next good s u := by
  induction h with
  | start => exact .step .start hgood hnext
  | step _ hgood' hnext' ih => exact .step ih hgood' hnext'

theorem trans {s t u : σ} (h : Reaches next good s t) (h' : Reaches next good t u) :
    Reaches next good s u := by
  induction h' with
  | start => exact h
  | step _ hgood hnext ih => exact .step ih hgood hnext

theorem exists_exec {s t : σ} (h : Reaches next good s t) : ∃ as, exec next s as = some t := by
  induction h with
  | start => exact ⟨[], rfl⟩
  | @step _ _ a _ _ hnext ih =>
    obtain ⟨as, has⟩ := ih
    exact ⟨as ++ [a], exec_concat has hnext⟩

theorem of_exec {s t : σ} {as : List α} (hexec : exec next s as = some t)
    (h : Along next good s as) : Reaches next good s t := by
  induction as generalizing s with
  | nil =>
    cases hexec
    exact .start
  | cons a as ih =>
    obtain ⟨s', hs', hexec'⟩ := Option.bind_eq_some_iff.mp hexec
    exact .head h.1 hs' (ih hexec' (h.2 s' hs'))

end Reaches

/-- What a run keeps: the rule of invariants for steps that need to meet no
condition. -/
theorem inv_of_exec {next : σ → α → Option σ} (Inv : σ → Prop) {s t : σ} {as : List α}
    (hexec : exec next s as = some t) (hstep : ∀ s a s', Inv s → next s a = some s' → Inv s')
    (hs : Inv s) : Inv t := by
  induction as generalizing s with
  | nil =>
    cases hexec
    exact hs
  | cons a as ih =>
    obtain ⟨s', hs', hexec⟩ := Option.bind_eq_some_iff.mp hexec
    exact ih hexec (hstep s a s' hs hs')

/-- What a run keeps of its state and of what has happened. The invariant may
speak of the events so far, which the state does not record. -/
theorem inv_of_exec_past {next : σ → α → Option σ} (Inv : List α → σ → Prop) (past : List α)
    {s t : σ} {as : List α} (hexec : exec next s as = some t)
    (hstep : ∀ past s a s', a ∈ as → Inv past s → next s a = some s' → Inv (past ++ [a]) s')
    (hs : Inv past s) : Inv (past ++ as) t := by
  induction as generalizing s past with
  | nil =>
    cases hexec
    rw [List.append_nil]
    exact hs
  | cons a as ih =>
    obtain ⟨s', hs', hexec⟩ := Option.bind_eq_some_iff.mp hexec
    rw [List.append_cons]
    exact ih _ hexec (fun past s b s' hb => hstep past s b s' (List.mem_cons_of_mem a hb))
      (hstep past s a s' List.mem_cons_self hs hs')

/-- **What an invariant says of the steps**: a run of steps that meet a
condition and keep the invariant meets what follows from the two. -/
theorem along_of_inv {next : σ → α → Option σ} {good good' : σ → α → Prop} (Inv : σ → Prop)
    {s t : σ} {as : List α} (hexec : exec next s as = some t)
    (hstep : ∀ s a s', Inv s → good s a → next s a = some s' → Inv s' ∧ good' s a) (hs : Inv s)
    (h : Along next good s as) : Along next good' s as := by
  induction as generalizing s with
  | nil => trivial
  | cons a as ih =>
    obtain ⟨s', hs', hexec⟩ := Option.bind_eq_some_iff.mp hexec
    obtain ⟨hinv, hgood⟩ := hstep s a s' hs h.1 hs'
    refine ⟨hgood, fun u hu => ?_⟩
    rw [hs'] at hu
    cases hu
    exact ih hexec hinv (h.2 s' hs')

/-- **What a bad step leaves behind** for good: where a run has a step that
does not meet the condition, and each such step brings about what no step
undoes, the run ends with it. -/
theorem of_not_along {next : σ → α → Option σ} {good : σ → α → Prop} (Inv Q : σ → Prop) {s t : σ}
    {as : List α} (hexec : exec next s as = some t)
    (hinv : ∀ s a s', Inv s → next s a = some s' → Inv s')
    (hbad : ∀ s a s', Inv s → next s a = some s' → ¬ good s a → Q s')
    (hkeep : ∀ s a s', Inv s → Q s → next s a = some s' → Q s') (hs : Inv s)
    (h : ¬ Along next good s as) : Q t := by
  induction as generalizing s with
  | nil => exact absurd trivial h
  | cons a as ih =>
    obtain ⟨s', hs', hexec⟩ := Option.bind_eq_some_iff.mp hexec
    by_cases hgood : good s a
    · refine ih hexec (hinv s a s' hs hs') (fun hall => h ⟨hgood, fun u hu => ?_⟩)
      rw [hs'] at hu
      cases hu
      exact hall
    · refine (inv_of_exec (fun s => Inv s ∧ Q s) hexec (fun u a u' hu hnext => ?_)
        ⟨hinv s a s' hs hs', hbad s a s' hs hs' hgood⟩).2
      exact ⟨hinv u a u' hu.1 hnext, hkeep u a u' hu.1 hu.2 hnext⟩

/-! ## Accounts

An invariant that each step may break by a little still says something of a
run: how much it was broken altogether. -/

/-- **What the steps of a run cost** altogether, where the cost of a step may
depend on the state in which it happens. -/
def total (next : σ → α → Option σ) (cost : σ → α → ℕ) : σ → List α → ℕ
  | _, [] => 0
  | s, a :: as => cost s a + (next s a).elim 0 (total next cost · as)

/-- **The rule of costs**: an invariant that may grow with what each step costs
has grown by the total when the run ends. -/
theorem inv_of_exec_total {next : σ → α → Option σ} (cost : σ → α → ℕ) (Inv : ℕ → σ → Prop)
    {s t : σ} {as : List α} {k : ℕ} (hexec : exec next s as = some t)
    (hstep : ∀ k s a s', Inv k s → next s a = some s' → Inv (k + cost s a) s') (hs : Inv k s) :
    Inv (k + total next cost s as) t := by
  induction as generalizing s k with
  | nil =>
    cases hexec
    exact hs
  | cons a as ih =>
    obtain ⟨s', hs', hexec⟩ := Option.bind_eq_some_iff.mp hexec
    rw [total, hs', Option.elim_some, ← Nat.add_assoc]
    exact ih hexec (hstep k s a s' hs hs')

/-- **The rule of accounts.** A measure that each step changes by its cost is
changed by the total of the costs; an invariant may go along with it, since
often only then is the cost what the step changes. -/
theorem total_of_exec {next : σ → α → Option σ} (Inv : σ → Prop) (measure : σ → ℤ)
    (cost : σ → α → ℕ) {s t : σ} {as : List α} (hexec : exec next s as = some t)
    (hstep : ∀ s a s', Inv s → next s a = some s' → Inv s' ∧ measure s' = measure s + cost s a)
    (hs : Inv s) :
    Inv t ∧ measure t = measure s + total next cost s as := by
  have hrun : Inv t ∧ measure t = measure s + (0 + total next cost s as : ℕ) :=
    inv_of_exec_total cost (fun k u => Inv u ∧ measure u = measure s + k) hexec
      (fun k u a u' hu hnext => by
        obtain ⟨hinv, hmeasure⟩ := hstep u a u' hu.1 hnext
        refine ⟨hinv, ?_⟩
        rw [hmeasure, hu.2, Int.natCast_add, add_assoc])
      ⟨hs, (add_zero _).symm⟩
  rw [Nat.zero_add] at hrun
  exact hrun

/-- A run costs nothing if and only if none of its steps does. -/
theorem total_eq_zero_iff {next : σ → α → Option σ} {cost : σ → α → ℕ} {s t : σ} {as : List α}
    (hexec : exec next s as = some t) :
    total next cost s as = 0 ↔ Along next (fun s a => cost s a = 0) s as := by
  induction as generalizing s with
  | nil => exact ⟨fun _ => trivial, fun _ => rfl⟩
  | cons a as ih =>
    obtain ⟨s', hs', hexec⟩ := Option.bind_eq_some_iff.mp hexec
    rw [total, hs', Option.elim_some, Nat.add_eq_zero_iff, ih hexec]
    refine and_congr_right (fun _ => ⟨fun h u hu => ?_, fun h => h s' hs'⟩)
    rw [hs'] at hu
    cases hu
    exact h

/-! ## One of several components

A list of components, one of which takes a step. Each of these lemmas is about
one way to say something of all of them: of every one, of one at least, of a
sum, or of the first. -/

/-- **An event of one of several components**, with what it gives besides.
There is none if there is no component of that number, or if the component does
not have the event enabled. -/
def stepAt (next : σ → α → Option (σ × β)) (ss : List σ) (i : ℕ) (a : α) : Option (List σ × β) :=
  ss[i]?.bind (fun s => (next s a).map (fun r => (ss.set i r.1, r.2)))

/-- What an event of a component does. -/
theorem stepAt_eq_some {next : σ → α → Option (σ × β)} {ss ss' : List σ} {i : ℕ} {a : α} {b : β} :
    stepAt next ss i a = some (ss', b)
      ↔ ∃ s s', ss[i]? = some s ∧ next s a = some (s', b) ∧ ss' = ss.set i s' := by
  unfold stepAt
  constructor
  · intro h
    obtain ⟨s, hs, h⟩ := Option.bind_eq_some_iff.mp h
    obtain ⟨⟨s', b'⟩, hnext, h⟩ := Option.map_eq_some_iff.mp h
    cases h
    exact ⟨s, s', hs, hnext, rfl⟩
  · rintro ⟨s, s', hs, hnext, rfl⟩
    rw [hs, Option.bind_some, hnext]
    rfl

/-- What holds of all components holds of all after one of them moved, if it
holds of that one. -/
theorem forall_mem_set {P : σ → Prop} {ss : List σ} {i : ℕ} {s' : σ} (h : ∀ s ∈ ss, P s)
    (hs' : P s') : ∀ s ∈ ss.set i s', P s := by
  intro s hs
  rcases List.mem_or_eq_of_mem_set hs with hs | rfl
  · exact h s hs
  · exact hs'

/-- What holds of each component, which may differ from one to the other, holds
after one of them moved, if it holds of that one and of the others. -/
theorem forall_getElem?_set {P : ℕ → σ → Prop} {ss : List σ} {i : ℕ} {s' : σ}
    (h : ∀ j s, i ≠ j → ss[j]? = some s → P j s) (hs' : P i s') :
    ∀ j s, (ss.set i s')[j]? = some s → P j s := by
  intro j s hs
  by_cases hij : i = j
  · subst hij
    obtain ⟨hlen, rfl⟩ := List.getElem?_eq_some_iff.mp hs
    rw [List.getElem_set_self]
    exact hs'
  · rw [List.getElem?_set_ne hij] at hs
    exact h j s hij hs

/-- A total over the components changes by what it changes of the one that
moved. -/
theorem sum_map_set {M : Type} [AddCommGroup M] {ss : List σ} {i : ℕ} {s s' : σ}
    (h : ss[i]? = some s) (f : σ → M) :
    ((ss.set i s').map f).sum = (ss.map f).sum + (f s' - f s) := by
  obtain ⟨hi, rfl⟩ := List.getElem?_eq_some_iff.mp h
  have hlt : i < (ss.map f).length := by rwa [List.length_map]
  rw [List.map_set, List.sum_set', dif_pos hlt, List.getElem_map, neg_add_eq_sub]

/-- What holds of some component holds of some after one of them moved, if that
one keeps it. -/
theorem exists_mem_set {P : σ → Prop} {ss : List σ} {i : ℕ} {s s' : σ} (hi : ss[i]? = some s)
    (h : ∃ t ∈ ss, P t) (hs : P s → P s') : ∃ t ∈ ss.set i s', P t := by
  obtain ⟨t, ht, hP⟩ := h
  obtain ⟨j, hj⟩ := List.mem_iff_getElem?.mp ht
  by_cases hij : i = j
  · subst hij
    cases hi.symm.trans hj
    exact ⟨s', List.mem_set (List.getElem?_eq_some_iff.mp hi).1 s', hs hP⟩
  · exact ⟨t, List.mem_of_getElem? (by rw [List.getElem?_set_ne hij]; exact hj), hP⟩

/-- What a component keeps when it moves, the first one keeps whichever
moved. -/
theorem map_head?_set {f : σ → β} {ss : List σ} {i : ℕ} {s s' : σ} (h : ss[i]? = some s)
    (hf : f s' = f s) : (ss.set i s').head?.map f = ss.head?.map f := by
  cases ss with
  | nil => rfl
  | cons s₀ ss =>
    cases i with
    | zero =>
      cases h
      exact congrArg some hf
    | succ i => rfl
