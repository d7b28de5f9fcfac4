import HftArena.Lib.System
import HftArena.Telemetry.Metrics

/-!
# The consumer of the sample stream

`sample_consumer` of `telemetry/ingester.py` against a Redis stream that only
grows. The consumer reads from the last entry it has seen, and from the end of
the stream as long as it has seen none: a call with `$` gives the entries that
are added after it begins, and the next call with `$` those that are added
after that one begins.

What is added between two such calls is in neither (`Gap`). What the consumer
has applied and what it has still to read are all that was added since its
first call if and only if nothing is ever added in a gap (`lossless_iff`).

That the stream is cut to its last hundred thousand entries is left out: it
would matter only to a consumer that is that far behind.
-/

namespace Telemetry

/-- Where the consumer is. -/
inductive Call where
  /-- Between two calls of `XREAD`. -/
  | idle
  /-- In `XREAD`, which gives the entries from this place of the stream on. -/
  | blocked (start : ℕ)
deriving DecidableEq

/-- **The stream and its consumer.** What was applied, and where the first call
began, are kept beside what the code has. -/
structure Consumer where
  /-- The entries, in the order they were added. -/
  stream : List Sample
  /-- `last_id`, as the number of entries up to it; `none` is `$`. -/
  lastId : Option ℕ
  call : Call
  /-- What `_apply` has been called on. -/
  applied : List Sample
  runs : Runs
  /-- How many entries there were when the first call began. -/
  first : Option ℕ

namespace Consumer

/-- The consumer before its first call, with the entries there are. -/
def new (stream : List Sample) : Consumer := ⟨stream, none, .idle, [], .empty, none⟩

/-- **What can happen to the stream and its consumer.** -/
inductive Event where
  /-- An entry is added. -/
  | append (s : Sample)
  /-- A call of `XREAD` begins. -/
  | call
  /-- It returns with so many entries, which are applied. -/
  | reply (n : ℕ)
  /-- It times out with none. -/
  | timeout
deriving DecidableEq

/-- Where the next call reads from, or the one that is going on. -/
def position (c : Consumer) : ℕ :=
  match c.call with
  | .blocked start => start
  | .idle => c.lastId.getD c.stream.length

/-- **A step**, with the meaning of `XREAD` with `count=1000`. -/
def step (c : Consumer) : Event → Option Consumer
  | .append s => some { c with stream := c.stream ++ [s] }
  | .call =>
    match c.call with
    | .idle =>
      some { c with call := .blocked c.position, first := some (c.first.getD c.stream.length) }
    | .blocked _ => none
  | .reply n =>
    match c.call with
    | .blocked start =>
      if 0 < n ∧ n ≤ 1000 ∧ start + n ≤ c.stream.length then
        let entries := (c.stream.drop start).take n
        some { c with call := .idle, lastId := some (start + n), applied := c.applied ++ entries,
                      runs := entries.foldl Runs.apply c.runs }
      else none
    | .idle => none
  | .timeout =>
    match c.call with
    | .blocked start => if c.stream.length ≤ start then some { c with call := .idle } else none
    | .idle => none

/-- **The steps, one by one**, each with what it asks for. -/
inductive Steps (c : Consumer) : Event → Consumer → Prop where
  | append (s : Sample) : Steps c (.append s) { c with stream := c.stream ++ [s] }
  | call : c.call = .idle →
    Steps c .call
      { c with call := .blocked c.position, first := some (c.first.getD c.stream.length) }
  | reply (n start : ℕ) : c.call = .blocked start → 0 < n → n ≤ 1000 →
    start + n ≤ c.stream.length →
    Steps c (.reply n)
      { c with call := .idle, lastId := some (start + n),
               applied := c.applied ++ (c.stream.drop start).take n,
               runs := ((c.stream.drop start).take n).foldl Runs.apply c.runs }
  | timeout (start : ℕ) : c.call = .blocked start → c.stream.length ≤ start →
    Steps c .timeout { c with call := .idle }

/-- **A step is one of these.** -/
theorem steps_of_step {c c' : Consumer} {e : Event} (h : c.step e = some c') : Steps c e c' := by
  cases e with
  | append s =>
    cases h
    exact .append s
  | call =>
    rw [step] at h
    split at h
    · cases h
      exact .call ‹_›
    · cases h
  | reply n =>
    rw [step] at h
    split at h
    · split_ifs at h with hn
      cases h
      exact .reply n _ ‹_› hn.1 hn.2.1 hn.2.2
    · cases h
  | timeout =>
    rw [step] at h
    split at h
    · split_ifs at h with hlen
      cases h
      exact .timeout _ ‹_› hlen
    · cases h

/-- **Nothing is lost**: what was added since the first call is what was
applied, each entry once and in order, and then what the consumer has still to
read; and the runs are what was applied to them. -/
def Lossless (c : Consumer) : Prop :=
  (∀ first ∈ c.first, c.stream.drop first = c.applied ++ c.stream.drop c.position)
    ∧ c.runs = c.applied.foldl Runs.apply .empty

/-- **A gap**: between two calls, after a first one, with nothing seen yet. The
next call will begin where the stream ends then. -/
def Gap (c : Consumer) : Prop := c.call = .idle ∧ c.lastId = none ∧ c.first.isSome

instance (c : Consumer) : Decidable c.Gap := inferInstanceAs (Decidable (_ ∧ _ ∧ _ = true))

/-- **Nothing is added in a gap.** -/
def NotInGap (c : Consumer) : Event → Prop
  | .append _ => ¬ c.Gap
  | _ => True

instance (c : Consumer) : ∀ e, Decidable (c.NotInGap e)
  | .append _ => inferInstanceAs (Decidable (¬ c.Gap))
  | .call | .reply _ | .timeout => isTrue trivial

/-! ## What a run keeps

Where the consumer is in the stream, and that it has applied what it was given. -/

/-- What holds of the consumer at any time. -/
structure WF (c : Consumer) : Prop where
  /-- Before its first call it has done nothing. -/
  unread : c.first = none → c.call = .idle ∧ c.lastId = none ∧ c.applied = []
  first_le : ∀ first ∈ c.first, first ≤ c.stream.length
  position_le : c.position ≤ c.stream.length
  /-- A call reads from the last entry seen, if there is one. -/
  start : ∀ start, c.call = .blocked start → c.lastId = some start ∨ c.lastId = none
  runs : c.runs = c.applied.foldl Runs.apply .empty

/-- Before its first call it has read nothing. -/
theorem wf_new (stream : List Sample) : (new stream).WF :=
  ⟨fun _ => ⟨rfl, rfl, rfl⟩, nofun, le_rfl, nofun, rfl⟩

/-- A call that is going on reads from its own place, -/
theorem position_blocked {c : Consumer} {start : ℕ} (h : c.call = .blocked start) :
    c.position = start := by
  unfold position
  rw [h]

/-- and the next one from the last entry seen, or from the end. -/
theorem position_idle {c : Consumer} (h : c.call = .idle) :
    c.position = c.lastId.getD c.stream.length := by
  unfold position
  rw [h]

/-- A call that times out leaves the consumer where it was. -/
theorem WF.position_timeout {c : Consumer} {start : ℕ} (h : c.WF) (hcall : c.call = .blocked start)
    (hlen : c.stream.length ≤ start) : position { c with call := .idle } = c.position := by
  have hle := h.position_le
  rw [position_blocked hcall] at hle ⊢
  show c.lastId.getD c.stream.length = start
  rcases h.start start hcall with hlast | hlast
  · rw [hlast, Option.getD_some]
  · rw [hlast, Option.getD_none, le_antisymm hlen hle]

/-- An entry moves the place the consumer reads from in a gap only, once the
consumer has begun. -/
theorem WF.position_append {c : Consumer} (h : c.WF) (s : Sample) :
    position { c with stream := c.stream ++ [s] }
      = if c.Gap ∨ c.first = none then c.position + 1 else c.position := by
  by_cases hmoves : c.call = .idle ∧ c.lastId = none
  · obtain ⟨hcall, hlast⟩ := hmoves
    have hgap : c.Gap ∨ c.first = none := by
      cases hfirst : c.first with
      | none => exact Or.inr rfl
      | some first => exact Or.inl ⟨hcall, hlast, by rw [hfirst]; rfl⟩
    rw [if_pos hgap, position_idle hcall, hlast]
    unfold position
    dsimp only
    rw [hcall]
    exact List.length_append
  · have hnot : ¬ (c.Gap ∨ c.first = none) := by
      rintro (hgap | hnone)
      · exact hmoves ⟨hgap.1, hgap.2.1⟩
      · exact hmoves ⟨(h.unread hnone).1, (h.unread hnone).2.1⟩
    rw [if_neg hnot]
    unfold position
    dsimp only
    cases hcall : c.call with
    | blocked start => rfl
    | idle =>
      cases hlast : c.lastId with
      | none => exact absurd ⟨hcall, hlast⟩ hmoves
      | some k => rfl

/-- **Every step keeps it.** -/
theorem WF.step {c c' : Consumer} {e : Event} (h : c.WF) (hstep : c.step e = some c') : c'.WF := by
  cases steps_of_step hstep with
  | append s =>
    refine ⟨h.unread, fun first hfirst => ?_, ?_, h.start, h.runs⟩
    · rw [List.length_append]
      exact (h.first_le first hfirst).trans (Nat.le_add_right _ _)
    · rw [h.position_append s, List.length_append, List.length_singleton]
      have hle := h.position_le
      split_ifs <;> omega
  | call hcall =>
    refine ⟨nofun, fun first hfirst => ?_, h.position_le, fun start hstart => ?_, h.runs⟩
    · cases hfirst
      cases hf : c.first with
      | none => exact le_rfl
      | some first => exact h.first_le first hf
    · cases hstart
      rw [position_idle hcall]
      cases c.lastId with
      | none => exact Or.inr rfl
      | some k => exact Or.inl rfl
  | reply n start hcall hpos hmax hlen =>
    refine ⟨fun hnone => ?_, h.first_le, hlen, nofun, ?_⟩
    · rw [(h.unread hnone).1] at hcall
      cases hcall
    · rw [h.runs, List.foldl_append]
  | timeout start hcall hlen =>
    refine ⟨fun hnone => ?_, h.first_le, ?_, nofun, h.runs⟩
    · rw [(h.unread hnone).1] at hcall
      cases hcall
    · rw [h.position_timeout hcall hlen]
      exact h.position_le

/-- **A step out of a gap loses nothing.** -/
theorem Lossless.step {c c' : Consumer} {e : Event} (h : c.Lossless) (hwf : c.WF)
    (hgood : c.NotInGap e) (hstep : c.step e = some c') : c'.Lossless := by
  refine ⟨?_, (hwf.step hstep).runs⟩
  cases steps_of_step hstep with
  | append s =>
    intro first hfirst
    have hsome : ¬ (c.Gap ∨ c.first = none) := by
      rintro (hgap | hnone)
      · exact hgood hgap
      · rw [hnone] at hfirst
        cases hfirst
    rw [hwf.position_append s, if_neg hsome, List.drop_append_of_le_length
      (hwf.first_le first hfirst),
      List.drop_append_of_le_length hwf.position_le, h.1 first hfirst, List.append_assoc]
  | call hcall =>
    intro first hfirst
    cases hfirst
    cases hf : c.first with
    | none =>
      -- the first call begins at the end of the stream
      obtain ⟨-, hlast, happlied⟩ := hwf.unread hf
      have hpos : c.position = c.stream.length := by
        rw [position_idle hcall, hlast, Option.getD_none]
      show c.stream.drop c.stream.length = c.applied ++ c.stream.drop c.position
      rw [happlied, hpos, List.nil_append]
    | some first => exact h.1 first hf
  | reply n start hcall hpos hmax hlen =>
    intro first hfirst
    have hdrop := h.1 first hfirst
    rw [position_blocked hcall] at hdrop
    show c.stream.drop first = (c.applied ++ (c.stream.drop start).take n)
      ++ c.stream.drop (start + n)
    rw [hdrop, List.append_assoc, ← List.drop_drop, List.take_append_drop]
  | timeout start hcall hlen =>
    intro first hfirst
    rw [hwf.position_timeout hcall hlen]
    exact h.1 first hfirst

/-! ## What is lost

The position is ahead of what was applied by exactly what was lost, so that the
count of losses can be read off the state. -/

/-- How many entries are lost by a step. -/
def lostBy (c : Consumer) (e : Event) : ℕ := if c.NotInGap e then 0 else 1

/-- Out of a gap nothing is lost. -/
theorem lostBy_of_notInGap (c : Consumer) (e : Event) (h : c.NotInGap e) : c.lostBy e = 0 := if_pos h

/-- How far the consumer is ahead of what it has applied. -/
def ahead (c : Consumer) : ℤ :=
  c.first.elim 0 (fun first => (c.position : ℤ) - first - c.applied.length)

/-- **The account of the consumer**: it gets ahead of what it has applied by
the entries that are added in gaps. -/
theorem WF.ahead_step {c c' : Consumer} {e : Event} (h : c.WF) (hstep : c.step e = some c') :
    c'.ahead = c.ahead + c.lostBy e := by
  cases steps_of_step hstep with
  | append s =>
    have hpos := h.position_append s
    unfold ahead
    dsimp only
    rw [hpos]
    cases hfirst : c.first with
    | none =>
      have hgood : c.NotInGap (.append s) := fun hgap => by
        rw [Gap, hfirst] at hgap
        cases hgap.2.2
      rw [lostBy_of_notInGap c _ hgood]
      rfl
    | some first =>
      dsimp only [Option.elim]
      -- Added in the gap, an entry is passed over, and is one more that is lost.
      by_cases hgap : c.Gap
      · rw [if_pos (Or.inl hgap), lostBy, if_neg
          (show ¬ c.NotInGap (.append s) from fun h => h hgap)]
        omega
      · rw [if_neg (not_or.mpr ⟨hgap, nofun⟩), lostBy_of_notInGap c (.append s) hgap]
        exact (add_zero _).symm
  | call hcall =>
    rw [lostBy_of_notInGap c .call trivial]
    show (c.position : ℤ) - (c.first.getD c.stream.length : ℕ) - c.applied.length = _
    unfold ahead
    cases hfirst : c.first with
    | none =>
      obtain ⟨-, hlast, happlied⟩ := h.unread hfirst
      rw [position_idle hcall, hlast, happlied]
      dsimp only [Option.getD_none, Option.elim, List.length_nil]
      omega
    | some first => exact (add_zero _).symm
  | reply n start hcall hpos hmax hlen =>
    rw [lostBy_of_notInGap c (.reply n) trivial]
    unfold ahead
    cases hfirst : c.first with
    | none =>
      rw [(h.unread hfirst).1] at hcall
      cases hcall
    | some first =>
      have htake : ((c.stream.drop start).take n).length = n := by
        rw [List.length_take, List.length_drop]
        omega
      dsimp only [Option.elim]
      rw [position_blocked hcall, List.length_append, htake]
      show ((start + n : ℕ) : ℤ) - _ - _ = _
      omega
  | timeout start hcall hlen =>
    rw [lostBy_of_notInGap c .timeout trivial]
    unfold ahead
    rw [h.position_timeout hcall hlen]
    exact (add_zero _).symm

/-- A consumer that has lost nothing is not ahead. -/
theorem Lossless.ahead_eq {c : Consumer} (h : c.Lossless) (hwf : c.WF) : c.ahead = 0 := by
  unfold ahead
  cases hfirst : c.first with
  | none => rfl
  | some first =>
    have hlen := congrArg List.length (h.1 first hfirst)
    rw [List.length_drop, List.length_append, List.length_drop] at hlen
    have hle := hwf.first_le first hfirst
    have hpos := hwf.position_le
    dsimp only [Option.elim]
    omega

/-- **The consumer loses nothing if and only if nothing is added in a gap**, in
every run from any stream.

The gap is open between two calls as long as no call has returned an entry:
each call then begins at the end of the stream as it is when it is made. After
the first entry the consumer goes on where it was. -/
theorem lossless_iff (stream : List Sample) {c : Consumer} {es : List Event}
    (hexec : exec step (new stream) es = some c) :
    c.Lossless ↔ Along step NotInGap (new stream) es := by
  constructor
  · intro h
    obtain ⟨hwf, hahead⟩ := total_of_exec WF Consumer.ahead lostBy hexec
      (fun c e c' hwf hstep => ⟨hwf.step hstep, hwf.ahead_step hstep⟩) (wf_new stream)
    have hzero : total step lostBy (new stream) es = 0 := by
      have hnew : (new stream).ahead = 0 := rfl
      have hend := h.ahead_eq hwf
      omega
    refine (along_congr hexec (fun c e c' _ => ?_)).mp ((total_eq_zero_iff hexec).mp hzero)
    unfold lostBy
    by_cases hgood : c.NotInGap e
    · rw [if_pos hgood]
      exact ⟨fun _ => hgood, fun _ => rfl⟩
    · rw [if_neg hgood]
      exact ⟨nofun, fun h => absurd h hgood⟩
  · intro h
    have hnew : (new stream).WF ∧ (new stream).Lossless := ⟨wf_new stream, nofun, rfl⟩
    exact ((Reaches.of_exec hexec h).inv (fun c => c.WF ∧ c.Lossless)
      (fun c e c' hc hgood hstep => ⟨hc.1.step hstep, hc.2.step hc.1 hgood hstep⟩) hnew).2

/-- The warmup record of a run. -/
def warmup : Sample := ⟨"r", 1, ⟨⟨"warmup", 0⟩, 0, 0, 0, 10, 10, []⟩⟩

/-- The record is added while the consumer waits for it. -/
theorem lossless_when_waiting :
    ∃ c, exec step (new []) [.call, .timeout, .call, .append warmup, .reply 1, .call] = some c
      ∧ c.Lossless := by
  obtain ⟨c, hc⟩ := Option.isSome_iff_exists.mp (by decide +kernel : (exec step (new [])
    [.call, .timeout, .call, .append warmup, .reply 1, .call]).isSome)
  exact ⟨c, hc, (lossless_iff [] hc).mpr (by decide +kernel)⟩

/-- **The record is added between two calls**, after the first has timed out:
the next call begins after it, and it is never applied. -/
theorem lost_between_calls :
    ∃ c, exec step (new []) [.call, .timeout, .append warmup, .call] = some c
      ∧ c.first = some 0 ∧ c.stream = [warmup] ∧ c.applied = [] ∧ c.position = 1
      ∧ ¬ c.Lossless := by
  have hrun : ∃ c ∈ exec step (new []) [.call, .timeout, .append warmup, .call],
      c.first = some 0 ∧ c.stream = [warmup] ∧ c.applied = [] ∧ c.position = 1 := by
    decide +kernel
  obtain ⟨c, hc, hfirst, hstream, happlied, hpos⟩ := hrun
  refine ⟨c, hc, hfirst, hstream, happlied, hpos, fun h => ?_⟩
  have hall := h.1 0 hfirst
  rw [hstream, happlied, hpos] at hall
  cases hall

end Consumer

end Telemetry
