import HftArena.Lib.Dict
import HftArena.Lib.System
import HftArena.Wire.Frame

/-!
# A load bot

`bot` of `bot_fleet/fleet.py`, in either mode: a sender and a receiver that
share the dictionary of send times, the count of outstanding orders and, in
closed mode, the semaphore. Either runs from one `await` to the next without
being interrupted, and that is an event of the model; so are what the engine
does – frames that arrive, the connection that drops – and a wait that is over.

What the bot reads from outside – the stop event, the clock, the pace – is its
`Env`; what it adds to the counters it shares with other bots is a `Tally`.

`Bot.step` is the bot as the code has it, and `Bot.Steps` is a list of what its
steps can be, each with its guards. The proofs about bots go by cases on the
list (`steps_of_step`), and do not look into the code a second time.
-/

open Wire

namespace Fleet

/-! ## Counters

What all tasks of a worker count into. -/

/-- A bucket of the histogram, of which there are `NBUCKETS`. -/
abbrev Bucket := Fin 256

/-- `bucket_of`, after the logarithm: `scaled` is `int(math.log1p(us) * SCALE)`
in floating point, and the result is a bucket of the histogram. -/
def bucketOf (scaled : ℚ → ℤ) (us : ℚ) : Bucket :=
  let b := scaled (max us 0)
  if 255 < b then 255 else if b < 0 then 0 else Fin.ofNat 256 b.toNat

/-- `Stats`: the counters of a worker, which all its bots and its probe write
to. -/
@[ext] structure Stats where
  sent : ℕ
  acked : ℕ
  errors : ℕ
  corrPass : ℕ
  corrTotal : ℕ
  hist : Bucket → ℕ

/-- `Stats.__init__`. -/
def Stats.zero : Stats := ⟨0, 0, 0, 0, 0, fun _ => 0⟩

/-- What one step of a bot adds to the counters: it never adds to more than
one. -/
inductive Tally where
  | nothing
  | sent
  /-- An acknowledgement that was waited for, with the bucket of its
  latency. -/
  | acked (bucket : Bucket)
  | error
deriving DecidableEq

/-- The counters after a step of a bot. -/
def Stats.add (s : Stats) : Tally → Stats
  | .nothing => s
  | .sent => { s with sent := s.sent + 1 }
  | .acked b => { s with acked := s.acked + 1, hist := Function.update s.hist b (s.hist b + 1) }
  | .error => { s with errors := s.errors + 1 }

/-- The counters after an iteration of the probe. -/
def Stats.verdict (s : Stats) (passed : Bool) : Stats :=
  { s with corrTotal := s.corrTotal + 1, corrPass := s.corrPass + if passed then 1 else 0 }

/-! ## The bot

Its two tasks are two fields of the state, each at one of its awaits; what
happens between two awaits is one step. -/

/-- `MAX_OUTSTANDING`: the orders of an open-loop bot that may be waited
for. -/
def maxOutstanding : ℤ := 512

/-- `mode`: whether the bot waits for acknowledgements, or for the clock. -/
inductive BotMode where
  /-- Pipelined up to a window of orders in flight. -/
  | closed
  /-- Paced, whatever is acknowledged. -/
  | open
deriving DecidableEq, Repr

/-- There are two modes. -/
theorem BotMode.ne_closed {mode : BotMode} : mode ≠ .closed ↔ mode = .open := by
  cases mode <;> simp

/-- Where the sender is: at one of its `await`s, or between two of them where
another event of the model begins. -/
inductive Sender where
  | connecting
  /-- At the test of the loop. -/
  | testing
  /-- In `sem.acquire()`, with no permit left when it got there. -/
  | acquiring
  /-- Asleep until it is time for the next orders. -/
  | pacing (until_ : ℚ)
  /-- About to fire so many orders. -/
  | firing (n : ℕ)
  /-- In `ws.send`, with so many orders to fire after this one. -/
  | sending (n : ℕ)
  /-- Asleep while the last acknowledgements come in. -/
  | draining (until_ : ℚ)
  /-- The task has ended. -/
  | done
deriving DecidableEq

/-- Where the receiver is. What it does with a frame it does without giving
way. -/
inductive Receiver where
  /-- In `ws.recv()`. -/
  | waiting
  /-- Not started, cancelled, or ended by an exception. -/
  | ended
deriving DecidableEq, Repr

/-- The connection: not made yet, open, or closed by either side. -/
inductive Connection where
  | none
  | open
  | closed
deriving DecidableEq, Repr

/-- **A bot**, its connection and the frames that have arrived on it. The
library keeps what has arrived, and gives it out also after the connection has
closed. -/
structure Bot where
  mode : BotMode
  sender : Sender
  receiver : Receiver
  connection : Connection
  inbox : List Frame
  /-- The value of `sem`. -/
  permits : ℕ
  /-- order id → `perf_counter_ns()` when it was sent -/
  sendTimes : Dict ℤ ℕ
  outstanding : ℤ
  oid : ℤ
  tNext : ℚ

/-- A bot that was just created; `window` is `WINDOW`. -/
def Bot.new (mode : BotMode) (window : ℕ) : Bot :=
  ⟨mode, .connecting, .ended, .none, [], window, .empty, 0, 0, 0⟩

/-- **What a bot reads from outside**: the stop event, `time.monotonic()`, the
deadline, and the pace of `LoadState`. -/
structure Env where
  stop : Bool
  now : ℚ
  deadline : ℚ
  interval : ℚ
  burst : ℕ

/-- The test of the sender's loop. -/
def Env.goesOn (env : Env) : Prop := env.stop = false ∧ env.now < env.deadline

instance (env : Env) : Decidable env.goesOn :=
  inferInstanceAs (Decidable (env.stop = false ∧ env.now < env.deadline))

/-- **What can happen to a bot**: a task of it runs from one `await` to the
next, or the engine does something. -/
inductive BotEvent where
  /-- The connection is made, or not; with the number the ids start from. -/
  | connect (ok : Bool) (oid : ℤ)
  /-- The test of the loop, and what follows up to the next `await`. -/
  | test
  /-- `sem.acquire()` returns. -/
  | acquire
  /-- A sleep is over. -/
  | wake
  /-- One turn of the loop over a burst, up to `ws.send`; with the time. -/
  | fire (ns : ℕ)
  /-- `ws.send` returns. -/
  | sent
  /-- `ws.send` raises. -/
  | sendFails
  /-- `ws.recv` returns a frame, which the receiver deals with; with the
  time. -/
  | recv (ns : ℕ)
  /-- `ws.recv` raises. -/
  | recvFails
  /-- A frame of the engine arrives. -/
  | arrive (frame : Frame)
  /-- The connection closes. -/
  | drop
deriving DecidableEq

namespace Bot

/-- Where the sender is with so many orders of a burst to fire. -/
def rest (n : ℕ) : Sender := if n = 0 then .testing else .firing n

/-- `sem.release()`, in closed mode. -/
def release (b : Bot) : Bot :=
  if b.mode = .closed then { b with permits := b.permits + 1 } else b

/-- A release touches the permits alone. -/
theorem release_eq (b : Bot) : b.release = { b with permits := b.release.permits } := by
  unfold release
  split_ifs <;> rfl

section Release

variable {b : Bot}

@[simp] theorem mode_release : b.release.mode = b.mode := by rw [release_eq]

@[simp] theorem sender_release : b.release.sender = b.sender := by rw [release_eq]

@[simp] theorem receiver_release : b.release.receiver = b.receiver := by rw [release_eq]

@[simp] theorem connection_release : b.release.connection = b.connection := by rw [release_eq]

@[simp] theorem inbox_release : b.release.inbox = b.inbox := by rw [release_eq]

@[simp] theorem sendTimes_release : b.release.sendTimes = b.sendTimes := by rw [release_eq]

@[simp] theorem outstanding_release : b.release.outstanding = b.outstanding := by rw [release_eq]

@[simp] theorem oid_release : b.release.oid = b.oid := by rw [release_eq]

@[simp] theorem tNext_release : b.release.tNext = b.tNext := by rw [release_eq]

end Release

/-- The test of the loop and what follows up to the next `await`: a permit or
the wait for one, or a sleep until it is time for the next orders. -/
def test (b : Bot) (env : Env) : Bot :=
  if env.goesOn then
    if b.mode = .closed then
      if 0 < b.permits then { b with permits := b.permits - 1, sender := .firing 1 }
      else { b with sender := .acquiring }
    else
      let tNext := b.tNext + env.interval
      let delay := tNext - env.now
      if 0 < delay then { b with tNext := tNext, sender := .pacing (env.now + delay) }
      -- fell behind: the schedule starts again from now
      else if delay < -1 / 2 then { b with tNext := env.now, sender := rest env.burst }
      else { b with tNext := tNext, sender := rest env.burst }
  else { b with sender := .draining (env.now + 1 / 2) }

/-- One turn of the loop over a burst. In open mode the rest of the burst is
dropped when too many orders are outstanding. -/
def fire (b : Bot) (n ns : ℕ) : Bot × Tally :=
  if b.mode ≠ .closed ∧ maxOutstanding ≤ b.outstanding then ({ b with sender := .testing }, .nothing)
  else
    ({ b with oid := b.oid + 1, sendTimes := b.sendTimes.set (b.oid + 1) ns,
              outstanding := b.outstanding + 1, sender := .sending n }, .sent)

/-- The order that is acknowledged, if it is one that the bot waits for, and
when it was sent. -/
def awaited (b : Bot) (id : Option ℤ) : Option (ℤ × ℕ) :=
  id.bind (fun i => (b.sendTimes.get? i).map (fun t0 => (i, t0)))

/-- **What the receiver makes of a frame**, as far as the keys of `send_times`
matter for it. -/
def reading (wire : Wire.Mode) (b : Bot) (frame : Frame) : Reading :=
  readAck b.sendTimes.entries.isEmpty wire frame

/-- What the receiver does with an acknowledgement. In closed mode a permit is
given back for each, also for one that was not waited for. -/
def ack (scaled : ℚ → ℤ) (b : Bot) (id : Option ℤ) (ns : ℕ) : Bot × Tally :=
  match b.awaited id with
  | some (i, t0) =>
    (release { b with sendTimes := b.sendTimes.erase i, outstanding := b.outstanding - 1 },
      .acked (bucketOf scaled (((ns : ℤ) - t0) / 1000)))
  | none => (b.release, .nothing)

/-- **A step of a bot**: its state and what it adds to the counters, if the
event can happen now. -/
def step (wire : Wire.Mode) (scaled : ℚ → ℤ) (env : Env) (b : Bot) :
    BotEvent → Option (Bot × Tally)
  | .connect ok oid =>
    if b.sender = .connecting then
      if ok then
        some ({ b with sender := .testing, receiver := .waiting, connection := .open,
                       oid := oid, tNext := env.now }, .nothing)
      else some ({ b with sender := .done }, .error)
    else none
  | .test => if b.sender = .testing then some (b.test env, .nothing) else none
  | .acquire =>
    if b.sender = .acquiring ∧ 0 < b.permits then
      some ({ b with permits := b.permits - 1, sender := .firing 1 }, .nothing)
    else none
  | .wake =>
    match b.sender with
    | .pacing t => if t ≤ env.now then some ({ b with sender := rest env.burst }, .nothing) else none
    | .draining t =>
      if t ≤ env.now then
        some ({ b with sender := .done, receiver := .ended, connection := .closed }, .nothing)
      else none
    | _ => none
  | .fire ns =>
    match b.sender with
    | .firing (n + 1) => some (b.fire n ns)
    | _ => none
  | .sent =>
    match b.sender with
    | .sending n =>
      if b.connection = .open then some ({ b with sender := rest n }, .nothing) else none
    | _ => none
  | .sendFails =>
    match b.sender with
    | .sending _ =>
      -- the permit is given back, and the exception ends the bot
      if b.connection = .closed then some ({ b.release with sender := .done }, .error) else none
    | _ => none
  | .recv ns =>
    match b.receiver, b.inbox with
    | .waiting, frame :: inbox =>
      match b.reading wire frame with
      | .ignored => some ({ b with inbox := inbox }, .nothing)
      | .acked id => some (ack scaled { b with inbox := inbox } id ns)
      -- nobody waits for the task, so its exception is not noticed
      | .raises => some ({ b with inbox := inbox, receiver := .ended }, .nothing)
    | _, _ => none
  | .recvFails =>
    if b.receiver = .waiting ∧ b.inbox = [] ∧ b.connection = .closed then
      some ({ b with receiver := .ended }, .nothing)
    else none
  | .arrive frame =>
    if b.connection = .open then some ({ b with inbox := b.inbox ++ [frame] }, .nothing) else none
  | .drop =>
    if b.connection = .open then some ({ b with connection := .closed }, .nothing) else none

/-! ### What a step can be

All that is proved of bots goes by these cases, and not by the definition. -/

/-- **The steps of a bot, one by one**, each with what it asks for. -/
inductive Steps (wire : Wire.Mode) (scaled : ℚ → ℤ) (env : Env) (b : Bot) :
    BotEvent → Bot → Tally → Prop where
  | connected (oid : ℤ) : b.sender = .connecting →
    Steps wire scaled env b (.connect true oid)
      { b with sender := .testing, receiver := .waiting, connection := .open, oid := oid,
               tNext := env.now } .nothing
  | refused (oid : ℤ) : b.sender = .connecting →
    Steps wire scaled env b (.connect false oid) { b with sender := .done } .error
  | leaves : b.sender = .testing → ¬ env.goesOn →
    Steps wire scaled env b .test { b with sender := .draining (env.now + 1 / 2) } .nothing
  | takes : b.sender = .testing → env.goesOn → b.mode = .closed → 0 < b.permits →
    Steps wire scaled env b .test { b with permits := b.permits - 1, sender := .firing 1 } .nothing
  | waits : b.sender = .testing → env.goesOn → b.mode = .closed → b.permits = 0 →
    Steps wire scaled env b .test { b with sender := .acquiring } .nothing
  | early : b.sender = .testing → env.goesOn → b.mode = .open →
    0 < b.tNext + env.interval - env.now →
    Steps wire scaled env b .test
      { b with tNext := b.tNext + env.interval,
               sender := .pacing (env.now + (b.tNext + env.interval - env.now)) } .nothing
  | behind : b.sender = .testing → env.goesOn → b.mode = .open →
    b.tNext + env.interval - env.now < -1 / 2 →
    Steps wire scaled env b .test { b with tNext := env.now, sender := rest env.burst } .nothing
  | late : b.sender = .testing → env.goesOn → b.mode = .open →
    ¬ 0 < b.tNext + env.interval - env.now → ¬ b.tNext + env.interval - env.now < -1 / 2 →
    Steps wire scaled env b .test
      { b with tNext := b.tNext + env.interval, sender := rest env.burst } .nothing
  | acquires : b.sender = .acquiring → 0 < b.permits →
    Steps wire scaled env b .acquire
      { b with permits := b.permits - 1, sender := .firing 1 } .nothing
  | paced (t : ℚ) : b.sender = .pacing t → t ≤ env.now →
    Steps wire scaled env b .wake { b with sender := rest env.burst } .nothing
  | drained (t : ℚ) : b.sender = .draining t → t ≤ env.now →
    Steps wire scaled env b .wake
      { b with sender := .done, receiver := .ended, connection := .closed } .nothing
  | saturated (n ns : ℕ) : b.sender = .firing (n + 1) → b.mode = .open →
    maxOutstanding ≤ b.outstanding →
    Steps wire scaled env b (.fire ns) { b with sender := .testing } .nothing
  | fires (n ns : ℕ) : b.sender = .firing (n + 1) →
    (b.mode = .open → b.outstanding < maxOutstanding) →
    Steps wire scaled env b (.fire ns)
      { b with oid := b.oid + 1, sendTimes := b.sendTimes.set (b.oid + 1) ns,
               outstanding := b.outstanding + 1, sender := .sending n } .sent
  | sent (n : ℕ) : b.sender = .sending n → b.connection = .open →
    Steps wire scaled env b .sent { b with sender := rest n } .nothing
  | fails (n : ℕ) : b.sender = .sending n → b.connection = .closed →
    Steps wire scaled env b .sendFails { b.release with sender := .done } .error
  | ignores (ns : ℕ) (frame : Frame) (inbox : List Frame) : b.receiver = .waiting →
    b.inbox = frame :: inbox → b.reading wire frame = .ignored →
    Steps wire scaled env b (.recv ns) { b with inbox := inbox } .nothing
  | acked (ns : ℕ) (frame : Frame) (inbox : List Frame) (id : Option ℤ) (i : ℤ) (t0 : ℕ) :
    b.receiver = .waiting → b.inbox = frame :: inbox → b.reading wire frame = .acked id →
    b.awaited id = some (i, t0) →
    Steps wire scaled env b (.recv ns)
      (release { b with inbox := inbox, sendTimes := b.sendTimes.erase i,
                        outstanding := b.outstanding - 1 })
      (.acked (bucketOf scaled (((ns : ℤ) - t0) / 1000)))
  | unknown (ns : ℕ) (frame : Frame) (inbox : List Frame) (id : Option ℤ) :
    b.receiver = .waiting → b.inbox = frame :: inbox → b.reading wire frame = .acked id →
    b.awaited id = none →
    Steps wire scaled env b (.recv ns) (release { b with inbox := inbox }) .nothing
  | raises (ns : ℕ) (frame : Frame) (inbox : List Frame) : b.receiver = .waiting →
    b.inbox = frame :: inbox → b.reading wire frame = .raises →
    Steps wire scaled env b (.recv ns) { b with inbox := inbox, receiver := .ended } .nothing
  | hangsUp : b.receiver = .waiting → b.inbox = [] → b.connection = .closed →
    Steps wire scaled env b .recvFails { b with receiver := .ended } .nothing
  | arrives (frame : Frame) : b.connection = .open →
    Steps wire scaled env b (.arrive frame) { b with inbox := b.inbox ++ [frame] } .nothing
  | drops : b.connection = .open →
    Steps wire scaled env b .drop { b with connection := .closed } .nothing

/-- **A step is one of these.** -/
theorem steps_of_step {wire : Wire.Mode} {scaled : ℚ → ℤ} {env : Env} {b b' : Bot} {e : BotEvent}
    {t : Tally} (h : b.step wire scaled env e = some (b', t)) :
    Steps wire scaled env b e b' t := by
  cases e with
  | connect ok oid =>
    rw [step] at h
    split_ifs at h with hs hok
    · cases h
      subst hok
      exact .connected oid hs
    · cases h
      rw [Bool.eq_false_of_not_eq_true hok]
      exact .refused oid hs
  | test =>
    rw [step] at h
    split_ifs at h with hs
    cases h
    unfold Bot.test
    by_cases hgoes : env.goesOn
    · rw [if_pos hgoes]
      by_cases hmode : b.mode = .closed
      · rw [if_pos hmode]
        split_ifs with hp
        · exact .takes hs hgoes hmode hp
        · exact .waits hs hgoes hmode (Nat.eq_zero_of_not_pos hp)
      · rw [if_neg hmode]
        have hopen := BotMode.ne_closed.mp hmode
        dsimp only
        split_ifs with hearly hbehind
        · exact .early hs hgoes hopen hearly
        · exact .behind hs hgoes hopen hbehind
        · exact .late hs hgoes hopen hearly hbehind
    · rw [if_neg hgoes]
      exact .leaves hs hgoes
  | acquire =>
    rw [step] at h
    split_ifs at h with hs
    cases h
    exact .acquires hs.1 hs.2
  | wake =>
    rw [step] at h
    split at h
    · split_ifs at h with ht
      cases h
      exact .paced _ ‹_› ht
    · split_ifs at h with ht
      cases h
      exact .drained _ ‹_› ht
    · cases h
  | fire ns =>
    rw [step] at h
    split at h
    · rename_i n hn
      by_cases hsat : b.mode ≠ .closed ∧ maxOutstanding ≤ b.outstanding
      · rw [fire, if_pos hsat] at h
        cases h
        exact .saturated n ns hn (BotMode.ne_closed.mp hsat.1) hsat.2
      · rw [fire, if_neg hsat] at h
        cases h
        refine .fires n ns hn (fun hopen => ?_)
        exact not_le.mp (fun hle => hsat ⟨BotMode.ne_closed.mpr hopen, hle⟩)
    · cases h
  | sent =>
    rw [step] at h
    split at h
    · split_ifs at h with hc
      cases h
      exact .sent _ ‹_› hc
    · cases h
  | sendFails =>
    rw [step] at h
    split at h
    · split_ifs at h with hc
      cases h
      exact .fails _ ‹_› hc
    · cases h
  | recv ns =>
    rw [step] at h
    split at h
    · rename_i frame inbox hwaiting hinbox
      split at h
      · cases h
        exact .ignores ns frame inbox hwaiting hinbox ‹_›
      · rename_i id hread
        rw [ack] at h
        split at h
        · rename_i i t0 hid
          cases h
          exact .acked ns frame inbox id i t0 hwaiting hinbox hread hid
        · rename_i hid
          cases h
          exact .unknown ns frame inbox id hwaiting hinbox hread hid
      · cases h
        exact .raises ns frame inbox hwaiting hinbox ‹_›
    · cases h
  | recvFails =>
    rw [step] at h
    split_ifs at h with hs
    cases h
    exact .hangsUp hs.1 hs.2.1 hs.2.2
  | arrive frame =>
    rw [step] at h
    split_ifs at h with hs
    cases h
    exact .arrives frame hs
  | drop =>
    rw [step] at h
    split_ifs at h with hs
    cases h
    exact .drops hs

end Bot

end Fleet
