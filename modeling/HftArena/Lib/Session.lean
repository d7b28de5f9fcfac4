import Mathlib.Data.List.Basic

/-!
# Sessions with a peer

A client that talks to one peer sees of it what it hears: the frames, the
silences long enough for a wait to be over, and the end of the connection. A
session is a function of that list: it returns with what there is still to
hear, raises, or waits for a peer that says nothing more.

A peer that answers is one more state beside the list: what a session says to
it changes the state, and puts what the peer answers at the end of what is
still to hear (`Live`).

After the list there is only silence: a wait with a time limit is over then,
and one without never is. A send fails if the end of the connection is what
comes next.
-/

variable {φ α β : Type}

/-- **What is heard of the peer**, in the order it is heard. -/
inductive Heard (φ : Type) where
  | frame (f : φ)
  /-- Nothing, for as long as a wait with a limit lasts. -/
  | silence
  /-- The connection is closed, or refused. -/
  | closed
deriving DecidableEq

/-- How a session comes out. -/
inductive Outcome (φ α : Type) where
  /-- It returns, with what there is still to hear. -/
  | returns (a : α) (rest : List (Heard φ))
  | raises
  /-- It waits for ever. -/
  | waits
deriving DecidableEq

/-- **A session**, as a function of what is heard. What it says is not
recorded; where it matters what the peer makes of it, the session is a `Live`
one. -/
def Session (φ α : Type) := List (Heard φ) → Outcome φ α

/-- What follows if a session returns: it hears what there is still to hear. -/
def Outcome.andThen (o : Outcome φ α) (f : α → Session φ β) : Outcome φ β :=
  match o with
  | returns a rest => f a rest
  | raises => raises
  | waits => waits

namespace Session

instance : Monad (Session φ) where
  pure a := fun heard => .returns a heard
  bind s f := fun heard => (s heard).andThen f

theorem bind_apply (s : Session φ α) (f : α → Session φ β) (heard : List (Heard φ)) :
    (s >>= f) heard = (s heard).andThen f := rfl

/-- A step that raises or not, without a word of the peer. -/
def require (ok : Prop) [Decidable ok] : Session φ Unit := fun heard =>
  if ok then .returns () heard else .raises

/-- To send a frame, or to connect. -/
def send : Session φ Unit
  | .closed :: _ => .raises
  | heard => .returns () heard

/-- To wait for a frame, without a limit: silences are waited out, and where
nothing more is heard the wait is for ever. -/
def recv : Session φ φ
  | [] => .waits
  | .frame f :: heard => .returns f heard
  | .silence :: heard => recv heard
  | .closed :: _ => .raises

/-- To wait for a frame with a limit; `none` is that the wait is over. A
silence is just as long as it takes for that. -/
def recvFor : Session φ (Option φ)
  | [] => .returns none []
  | .frame f :: heard => .returns (some f) heard
  | .silence :: heard => .returns none heard
  | .closed :: _ => .raises

@[simp] theorem require_of_pos {ok : Prop} [Decidable ok] (h : ok) (heard : List (Heard φ)) :
    require ok heard = .returns () heard := if_pos h

@[simp] theorem require_of_neg {ok : Prop} [Decidable ok] (h : ¬ ok) (heard : List (Heard φ)) :
    require ok heard = .raises := if_neg h

/-- A send and the wait for its answer: the end of the connection is raised at
one or the other, and a silence does not count. -/
def ask (k : Session φ α) : Session φ α := do
  send
  let _ ← recv
  k

theorem ask_frame (k : Session φ α) (f : φ) (heard : List (Heard φ)) :
    ask k (.frame f :: heard) = k heard := rfl

theorem ask_silence (k : Session φ α) (heard : List (Heard φ)) :
    ask k (.silence :: heard) = ask k heard := by
  cases heard with
  | nil => rfl
  | cons h heard => cases h <;> rfl

/-! ## What is left to hear

A session cannot put back what it has heard. What a part of it leaves is the
end of what there was, so that a property of all that was emitted can be split
between the parts. -/

/-- **A session hears in order**: what there is still to hear when it returns
is the end of what there was. Nothing is heard twice, and nothing is put
back. -/
def InOrder (s : Session φ α) : Prop :=
  ∀ heard a rest, s heard = .returns a rest → rest <:+ heard

theorem InOrder.pure (a : α) : InOrder (Pure.pure a : Session φ α) := by
  intro heard b rest h
  cases h
  exact List.suffix_refl _

/-- Steps that hear in order do so one after the other. -/
theorem InOrder.bind {s : Session φ α} {f : α → Session φ β} (hs : InOrder s)
    (hf : ∀ a, InOrder (f a)) : InOrder (s >>= f) := by
  intro heard b rest h
  rw [bind_apply] at h
  cases hout : s heard with
  | returns a rest' =>
    rw [hout] at h
    exact (hf a rest' b rest h).trans (hs heard a rest' hout)
  | raises => rw [hout] at h; cases h
  | waits => rw [hout] at h; cases h

theorem InOrder.require (ok : Prop) [Decidable ok] : InOrder (require ok : Session φ Unit) := by
  intro heard a rest h
  by_cases hok : ok
  · rw [require_of_pos hok] at h
    cases h
    exact List.suffix_refl _
  · rw [require_of_neg hok] at h
    cases h

theorem InOrder.send : InOrder (send : Session φ Unit) := by
  intro heard a rest h
  cases heard with
  | nil => cases h; exact List.suffix_refl _
  | cons hd heard => cases hd <;> cases h <;> exact List.suffix_refl _

theorem InOrder.recv : InOrder (recv : Session φ φ) := by
  intro heard a rest h
  induction heard with
  | nil => cases h
  | cons hd heard ih =>
    cases hd with
    | frame f => cases h; exact List.suffix_cons _ _
    | silence => exact (ih h).trans (List.suffix_cons _ _)
    | closed => cases h

theorem InOrder.recvFor : InOrder (recvFor : Session φ (Option φ)) := by
  intro heard a rest h
  cases heard with
  | nil => cases h; exact List.suffix_refl _
  | cons hd heard => cases hd <;> cases h <;> exact List.suffix_cons _ _

end Session

/-! ## A peer that answers

With a peer the list of what is heard is not given beforehand: it is what the
peer makes of what is said to it, in the order in which it is said. -/

variable {σ : Type}

/-- **A session with a peer that answers**, as a function of what is still to
hear and of the state of the peer. What the peer has answered already is part
of what is still to hear, in the order in which it was sent. -/
def Live (σ φ α : Type) := List (Heard φ) → σ → Outcome φ α × σ

namespace Live

/-- What follows if it returns. -/
def andThen (r : Outcome φ α × σ) (f : α → Live σ φ β) : Outcome φ β × σ :=
  match r with
  | (.returns a rest, st) => f a rest st
  | (.raises, st) => (.raises, st)
  | (.waits, st) => (.waits, st)

instance : Monad (Live σ φ) where
  pure a := fun heard st => (.returns a heard, st)
  bind l f := fun heard st => andThen (l heard st) f

/-- To listen, and say nothing. -/
def hear (s : Session φ α) : Live σ φ α := fun heard st => (s heard, st)

/-- To say something that the peer answers: its state changes, and the answers
come after all that is still to hear. -/
def tell (answer : σ → List (Heard φ) × σ) : Live σ φ Unit := fun heard st =>
  (.returns () (heard ++ (answer st).1), (answer st).2)

theorem bind_apply (l : Live σ φ α) (f : α → Live σ φ β) (heard : List (Heard φ)) (st : σ) :
    (l >>= f) heard st = andThen (l heard st) f := rfl

/-- Two steps that only listen are one step that only listens. -/
theorem hear_bind (s : Session φ α) (f : α → Session φ β) :
    (hear (s >>= f) : Live σ φ β) = hear s >>= fun a => hear (f a) := by
  funext heard st
  rw [bind_apply, hear, hear, Session.bind_apply]
  cases s heard <;> rfl

/-- **A peer from which everything has been heard** answers nothing. -/
theorem tell_nothing : (tell (fun st => ([], st)) : Live σ φ Unit) = pure () := by
  funext heard st
  rw [tell, List.append_nil]
  rfl

theorem bind_pure_eq (l : Live σ φ Unit) : (l >>= fun _ => pure ()) = l := by
  funext heard st
  rw [bind_apply]
  rcases l heard st with ⟨o, st'⟩
  cases o <;> rfl

end Live
