import Mathlib.Algebra.Order.Field.Rat

/-!
# Keys that expire

A key of a store holds a value for some time, or for good. A value that has
expired is not there: `get?` does not find it, and `update` starts over from a
first value that does not expire until it is told to. The time at which a value
expires is set with the value or by itself (`expire`), and a change of the
value leaves it as it is. This is what a key of Redis does under `SET … EX`,
`INCR` and `EXPIRE`.

What is true of every value that is put into a key is true of what the key
holds, expired or not (`All`). The clock is a parameter of each operation; that
it does not go back is only needed to say that a value that is there was there
before (`get?_of_le`).
-/

/-- **A key**: the value it was given last, and when that expires. -/
structure Expiring (α : Type) where
  /-- The value, and the time from which it is not there any more. -/
  entry : Option (α × Option ℚ)
deriving DecidableEq

namespace Expiring

variable {α : Type} {k : Expiring α} {a init : α} {f : α → α} {now until_ : ℚ}

/-- A key that was never set. -/
def empty : Expiring α := ⟨none⟩

/-- What a key holds at a time: its value, unless it has expired by then. -/
def get? (k : Expiring α) (now : ℚ) : Option α :=
  k.entry.bind (fun e => if ∀ t ∈ e.2, now < t then some e.1 else none)

/-- A value until some time. -/
def set (a : α) (until_ : ℚ) : Expiring α := ⟨some (a, some until_)⟩

/-- A change of the value that leaves the time as it is. Where there is no
value it starts from a first one, which does not expire. -/
def update (k : Expiring α) (now : ℚ) (init : α) (f : α → α) : Expiring α :=
  match k.get? now with
  | some a => ⟨some (f a, k.entry.bind Prod.snd)⟩
  | none => ⟨some (f init, none)⟩

/-- A change of the time that leaves the value as it is. A key without a value
stays without one. -/
def expire (k : Expiring α) (now until_ : ℚ) : Expiring α :=
  match k.get? now with
  | some a => ⟨some (a, some until_)⟩
  | none => k

/-- When a value is found: it is the one that was given last, and its time has
not come. -/
theorem get?_eq_some : k.get? now = some a ↔ ∃ t, k.entry = some (a, t) ∧ ∀ u ∈ t, now < u := by
  unfold get?
  constructor
  · intro h
    obtain ⟨⟨b, t⟩, he, h⟩ := Option.bind_eq_some_iff.mp h
    split_ifs at h with hlive
    cases h
    exact ⟨t, he, hlive⟩
  · rintro ⟨t, he, hlive⟩
    rw [he]
    exact if_pos hlive

theorem get?_empty : (empty : Expiring α).get? now = none := rfl

/-- A value is found until its time comes. -/
theorem get?_set (h : now < until_) : (set a until_).get? now = some a :=
  get?_eq_some.mpr ⟨_, rfl, fun u hu => by cases hu; exact h⟩

/-- A value that is there was there before. -/
theorem get?_of_le {t : ℚ} (ht : t ≤ now) (h : k.get? now = some a) : k.get? t = some a := by
  obtain ⟨u, he, hlive⟩ := get?_eq_some.mp h
  exact get?_eq_some.mpr ⟨u, he, fun v hv => lt_of_le_of_lt ht (hlive v hv)⟩

/-- **What holds of all that was put into a key.** -/
def All (P : α → Prop) (k : Expiring α) : Prop := ∀ e ∈ k.entry, P e.1

namespace All

variable {P : α → Prop}

theorem empty : (empty : Expiring α).All P := nofun

theorem get? (h : k.All P) (hget : k.get? now = some a) : P a := by
  obtain ⟨t, he, -⟩ := get?_eq_some.mp hget
  exact h (a, t) he

theorem set (ha : P a) : (Expiring.set a until_).All P := fun e he => by
  cases he
  exact ha

theorem update (h : k.All P) (hinit : P (f init)) (hf : ∀ a, P a → P (f a)) :
    (k.update now init f).All P := by
  intro e he
  unfold Expiring.update at he
  cases hk : k.get? now with
  | none =>
    rw [hk] at he
    cases he
    exact hinit
  | some a =>
    rw [hk] at he
    cases he
    exact hf a (h.get? hk)

theorem expire (h : k.All P) : (k.expire now until_).All P := by
  intro e he
  unfold Expiring.expire at he
  cases hk : k.get? now with
  | none =>
    rw [hk] at he
    exact h e he
  | some a =>
    rw [hk] at he
    cases he
    exact h.get? hk

end All

end Expiring
