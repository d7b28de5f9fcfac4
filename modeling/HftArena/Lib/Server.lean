import HftArena.Lib.Run
import HftArena.Lib.System
import Mathlib.Tactic.Common

/-!
# A state that connections share

Connections are served side by side. Each takes one request after the other: a
part of the answer is sent before the state is looked at, then the request is
served under a lock, and what there is left of the answer is sent when the lock
is free again. Between any two of these steps the other connections take
theirs.

Whatever the interleaving, it is as if each request had been handled at once,
in the order in which the requests got the lock (`Server.InOrder`): this is the
state that is shared, each connection was sent what the handling of its own
requests gives, in order, and has the rest of that still to send. The order
respects time: what has been served once is served before all that comes later.

What has to be shown of a particular service is that it splits a handler
(`Service.Splits`): that its early part and its part under the lock make up, in
every state that the handler keeps to, what the handler does at once. Then it
serializes the handler (`Splits.serializes`), and what the handler keeps
invariant holds whenever the state can be looked at (`Splits.always`). The
handler need not fail where the service does, since failing is excluded by the
invariant on both sides.
-/

variable {σ α β ε : Type}

/-- **How a request is served**: in two parts, between which other connections
may be served. -/
structure Service (σ α β ε : Type) where
  /-- What is sent before the state is looked at. -/
  early : α → List β
  /-- The state after it, what there is left to send, and whether the
  connection takes another request. -/
  serve : σ → α → Except ε (σ × List β × Bool)

/-- **One connection**, with what it has received and sent. A connection
handles its requests one by one, so at most one of them is not answered yet. -/
structure Connection (α β : Type) where
  received : List α
  /-- The request that is received and not served. -/
  current : Option α
  /-- What is to be sent next. -/
  left : List β
  sent : List β
  /-- Whether the connection takes another request. -/
  live : Bool

namespace Connection

def new : Connection α β := ⟨[], none, [], [], true⟩

/-- A request is received when the last one is answered, and not after the
connection was left. Its early part is to be sent at once. -/
def receive (c : Connection α β) (early : List β) (a : α) : Option (Connection α β) :=
  if c.live ∧ c.current.isNone ∧ c.left.isEmpty then
    some { c with received := c.received ++ [a], current := some a, left := early }
  else none

/-- The next message is sent. -/
def send (c : Connection α β) : Option (Connection α β) :=
  match c.left with
  | [] => none
  | m :: ms => some { c with left := ms, sent := c.sent ++ [m] }

end Connection

/-- **The connections and the state that they share.** -/
structure Server (σ α β : Type) where
  state : σ
  connections : List (Connection α β)
  /-- The requests that got the lock, in order, each with its connection. -/
  served : List (ℕ × α)

/-- A server with this many connections. -/
def Server.opened (s : σ) (n : ℕ) : Server σ α β := ⟨s, List.replicate n .new, []⟩

/-- **What happens next**, on one of the connections. -/
inductive ServerEvent (α : Type) where
  | receive (i : ℕ) (a : α)
  | send (i : ℕ)
  /-- The lock is taken, the request is served and the lock given back. -/
  | lock (i : ℕ)

/-- **One step.** The state is looked at and changed by `lock` alone, which
needs the early part of the answer to have been sent. -/
def Service.next (S : Service σ α β ε) (t : Server σ α β) : ServerEvent α → Option (Server σ α β)
  | .receive i a => t.connections[i]?.bind (fun c => (c.receive (S.early a) a).map
      (fun c' => { t with connections := t.connections.set i c' }))
  | .send i => t.connections[i]?.bind (fun c => c.send.map
      (fun c' => { t with connections := t.connections.set i c' }))
  | .lock i => t.connections[i]?.bind (fun c =>
      match c.current, c.left with
      | some a, [] =>
        match S.serve t.state a with
        | .ok (s, ms, live) =>
          some ⟨s, t.connections.set i { c with current := none, left := ms, live := live },
            t.served ++ [(i, a)]⟩
        | .error _ => none
      | _, _ => none)

namespace Server

/-- The part that is a connection's own, in the order of the whole. -/
def part (i : ℕ) (xs : List (ℕ × α)) : List α := (xs.filter (fun x => x.1 = i)).map Prod.snd

theorem part_append (i : ℕ) (xs ys : List (ℕ × α)) :
    part i (xs ++ ys) = part i xs ++ part i ys := by
  rw [part, List.filter_append, List.map_append]
  rfl

theorem part_concat_self (i : ℕ) (xs : List (ℕ × α)) (a : α) :
    part i (xs ++ [(i, a)]) = part i xs ++ [a] := by
  rw [part_append, part, part, List.filter_cons_of_pos (by simp)]
  rfl

theorem part_concat_of_ne {i j : ℕ} (h : i ≠ j) (xs : List (ℕ × α)) (a : α) :
    part j (xs ++ [(i, a)]) = part j xs := by
  rw [part_append, part, part, List.filter_cons_of_neg (by simpa using h)]
  exact List.append_nil _

end Server

/-- **What a connection has received and sent**, if this is what of its
requests was served and how it was answered: it has received these and at most
one more, and what it has sent, with what it is to send yet, are the answers
and the early part for the one more. -/
def Connection.Fits (early : α → List β) (served : List α) (answers : List (List β))
    (c : Connection α β) : Prop :=
  c.received = served ++ c.current.toList
    ∧ c.sent ++ c.left = answers.flatten ++ c.current.toList.flatMap early

namespace Connection.Fits

variable {early : α → List β} {served : List α} {answers : List (List β)} {c c' : Connection α β}

theorem new : (Connection.new : Connection α β).Fits early [] [] := ⟨rfl, rfl⟩

/-- What is received is the request that is not served yet, and its early part
is to be sent. -/
theorem receive (h : c.Fits early served answers) {a : α}
    (hc : c.receive (early a) a = some c') : c'.Fits early served answers := by
  obtain ⟨⟨-, hcurrent, hleft⟩, hc⟩ := Option.ite_none_right_eq_some.mp hc
  cases hc
  rw [Option.isNone_iff_eq_none] at hcurrent
  rw [List.isEmpty_iff] at hleft
  obtain ⟨hreceived, hsent⟩ := h
  rw [hcurrent, Option.toList_none, List.append_nil] at hreceived
  rw [hcurrent, hleft, Option.toList_none, List.flatMap_nil, List.append_nil,
    List.append_nil] at hsent
  refine ⟨by rw [hreceived]; rfl, ?_⟩
  show c.sent ++ early a = answers.flatten ++ [a].flatMap early
  rw [hsent, List.flatMap_singleton]

/-- What is sent is what was to be sent next. -/
theorem send (h : c.Fits early served answers) (hc : c.send = some c') :
    c'.Fits early served answers := by
  unfold Connection.send at hc
  obtain ⟨hreceived, hsent⟩ := h
  cases hleft : c.left with
  | nil => rw [hleft] at hc; cases hc
  | cons m ms =>
    rw [hleft] at hc hsent
    cases hc
    refine ⟨hreceived, ?_⟩
    rw [← hsent]
    exact List.append_cons .. |>.symm

/-- What was received is served, and the rest of the answer is to be sent. -/
theorem serve (h : c.Fits early served answers) {a : α} (hcurrent : c.current = some a)
    (hleft : c.left = []) (ms : List β) (live : Bool) :
    Connection.Fits early (served ++ [a]) (answers ++ [early a ++ ms])
      { c with current := none, left := ms, live := live } := by
  obtain ⟨hreceived, hsent⟩ := h
  rw [hcurrent] at hreceived hsent
  rw [hleft, List.append_nil, Option.toList_some, List.flatMap_singleton] at hsent
  refine ⟨by rw [hreceived]; exact (List.append_nil _).symm, ?_⟩
  show c.sent ++ ms = (answers ++ [early a ++ ms]).flatten ++ []
  rw [hsent, List.append_nil, List.flatten_append, List.flatten_singleton, List.append_assoc]

end Connection.Fits

/-- Handling a request that comes from a connection: the answer goes there. -/
def handleFrom (handle : σ → α → Except ε (σ × List β)) (s : σ) (x : ℕ × α) :
    Except ε (σ × (ℕ × List β)) :=
  (handle s x.2).map (fun r => (r.1, x.1, r.2))

namespace Server

/-- **As if requests had been handled at once**, in the order in which they got
the lock: handling them one after the other gives the state that there is, and
each connection has received and sent what fits its own part of it. -/
def InOrder (handle : σ → α → Except ε (σ × List β)) (early : α → List β) (s : σ)
    (t : Server σ α β) : Prop :=
  ∃ answers, run (handleFrom handle) s t.served = .ok (t.state, answers)
    ∧ ∀ i (c : Connection α β), t.connections[i]? = some c →
      c.Fits early (part i t.served) (part i answers)

/-- Everything that was received is answered. -/
def Drained (t : Server σ α β) : Prop := ∀ c ∈ t.connections, c.current = none ∧ c.left = []

/-- What the connections have received. -/
def received (t : Server σ α β) : List (List α) := t.connections.map Connection.received

/-- Before any step nothing was served. -/
theorem inOrder_opened (handle : σ → α → Except ε (σ × List β)) (early : α → List β) (s : σ)
    (n : ℕ) : (opened s n).InOrder handle early s := by
  refine ⟨[], rfl, fun i c hc => ?_⟩
  rw [List.eq_of_mem_replicate (List.mem_of_getElem? hc)]
  exact .new

end Server

namespace Service

variable {ε' : Type}

/-- **A service that splits a handler** in two: what it sends early and what it
serves under the lock are together what the handler does. The handler does not
fail, in the states that it keeps to. -/
def Splits (S : Service σ α β ε) (handle : σ → α → Except ε' (σ × List β)) (Inv : σ → Prop) :
    Prop :=
  ∀ s a, Inv s → ∃ s' ms live, S.serve s a = .ok (s', ms, live)
    ∧ handle s a = .ok (s', S.early a ++ ms) ∧ Inv s'

/-- **Requests are handled as if at once**, whatever the interleaving of the
steps and however many the connections: in the order in which they get the
lock, which is added to as time goes by. And what was received can always be
answered. -/
structure Serializes (S : Service σ α β ε) (handle : σ → α → Except ε' (σ × List β)) (s : σ) :
    Prop where
  inOrder : ∀ n as bs u t, exec S.next (.opened s n) as = some u → exec S.next u bs = some t →
    t.InOrder handle S.early s ∧ u.served <+: t.served
  drains : ∀ n as t, exec S.next (.opened s n) as = some t →
    ∃ bs u, exec S.next t bs = some u ∧ u.Drained ∧ u.received = t.received

variable {S : Service σ α β ε}

/-- **What a step does**: to a connection alone, or to the state as well. -/
theorem next_cases {t u : Server σ α β} {e : ServerEvent α} (h : S.next t e = some u) :
    (∃ i c c', t.connections[i]? = some c
        ∧ ((∃ a, c.receive (S.early a) a = some c') ∨ c.send = some c')
        ∧ u = { t with connections := t.connections.set i c' })
      ∨ ∃ i c a s ms live, t.connections[i]? = some c ∧ c.current = some a ∧ c.left = []
        ∧ S.serve t.state a = .ok (s, ms, live)
        ∧ u = ⟨s, t.connections.set i { c with current := none, left := ms, live := live },
          t.served ++ [(i, a)]⟩ := by
  cases e with
  | receive i a =>
    obtain ⟨c, hc, h⟩ := Option.bind_eq_some_iff.mp h
    obtain ⟨c', hc', rfl⟩ := Option.map_eq_some_iff.mp h
    exact Or.inl ⟨i, c, c', hc, Or.inl ⟨a, hc'⟩, rfl⟩
  | send i =>
    obtain ⟨c, hc, h⟩ := Option.bind_eq_some_iff.mp h
    obtain ⟨c', hc', rfl⟩ := Option.map_eq_some_iff.mp h
    exact Or.inl ⟨i, c, c', hc, Or.inr hc', rfl⟩
  | lock i =>
    obtain ⟨c, hc, h⟩ := Option.bind_eq_some_iff.mp h
    split at h
    · rename_i a hcurrent hleft
      split at h
      · rename_i s ms live hserve
        cases h
        exact Or.inr ⟨i, c, a, s, ms, live, hc, hcurrent, hleft, hserve, rfl⟩
      · cases h
    · cases h

section Splits

variable {handle : σ → α → Except ε' (σ × List β)} {Inv : σ → Prop}

/-- **A step keeps the order**: only the lock makes a difference to it, and it
appends its request to those that were served. -/
theorem Splits.step (hS : S.Splits handle Inv) {s : σ} {t u : Server σ α β} {e : ServerEvent α}
    (h : t.InOrder handle S.early s ∧ Inv t.state) (hnext : S.next t e = some u) :
    (u.InOrder handle S.early s ∧ Inv u.state) ∧ t.served <+: u.served := by
  obtain ⟨⟨answers, hrun, hfits⟩, hinv⟩ := h
  rcases next_cases hnext with ⟨i, c, c', hc, hstep, rfl⟩
    | ⟨i, c, a, s', ms, live, hc, hcurrent, hleft, hserve, rfl⟩
  · refine ⟨⟨⟨answers, hrun, forall_getElem?_set (fun j d _ => hfits j d) ?_⟩, hinv⟩,
      List.prefix_rfl⟩
    exact hstep.elim (fun ⟨_, hc'⟩ => (hfits i c hc).receive hc') (hfits i c hc).send
  · obtain ⟨s'', ms', live', hserve', hhandle, hinv'⟩ := hS t.state a hinv
    cases hserve.symm.trans hserve'
    refine ⟨⟨⟨answers ++ [(i, S.early a ++ ms)], run_concat_of_ok hrun ?_,
      forall_getElem?_set (fun j d hij hd => ?_) ?_⟩, hinv'⟩, List.prefix_append _ _⟩
    · rw [handleFrom, hhandle]
      rfl
    · rw [Server.part_concat_of_ne hij, Server.part_concat_of_ne hij]
      exact hfits j d hd
    · rw [Server.part_concat_self, Server.part_concat_self]
      exact (hfits i c hc).serve hcurrent hleft ms live

/-- **Every interleaving is in order**, and what is served later comes later in
it. -/
theorem Splits.of_exec (hS : S.Splits handle Inv) {s : σ} {t u : Server σ α β}
    {es : List (ServerEvent α)} (h : t.InOrder handle S.early s ∧ Inv t.state)
    (hexec : exec S.next t es = some u) :
    (u.InOrder handle S.early s ∧ Inv u.state) ∧ t.served <+: u.served :=
  inv_of_exec (fun u => (u.InOrder handle S.early s ∧ Inv u.state) ∧ t.served <+: u.served) hexec
    (fun _ _ _ hv hnext => (hS.step hv.1 hnext).imp_right hv.2.trans) ⟨h, List.prefix_rfl⟩

/-- A second invariant, which the handler keeps under the first. -/
theorem Splits.and (hS : S.Splits handle Inv) {Inv' : σ → Prop}
    (hkeep : ∀ s a s' ms, Inv s → Inv' s → handle s a = .ok (s', ms) → Inv' s') :
    S.Splits handle (fun s => Inv s ∧ Inv' s) := by
  intro s a h
  obtain ⟨s', ms, live, hserve, hhandle, hinv⟩ := hS s a h.1
  exact ⟨s', ms, live, hserve, hhandle, hinv, hkeep s a s' _ h.1 h.2 hhandle⟩

/-- What holds of the state whenever it can be looked at, from `s` on. -/
def Always (S : Service σ α β ε) (s : σ) (Q : σ → Prop) : Prop :=
  ∀ n es t, exec S.next (.opened s n) es = some t → Q t.state

/-- **An invariant of the handler holds in every interleaving.** -/
theorem Splits.always (hS : S.Splits handle Inv) {s : σ} (hs : Inv s) {Q : σ → Prop}
    (hQ : ∀ s, Inv s → Q s) : S.Always s Q := by
  intro n es t hexec
  have hstart := Server.inOrder_opened handle S.early s n
  exact hQ t.state (hS.of_exec ⟨hstart, hs⟩ hexec).1.2

end Splits

/-! ## What was received can be answered

Safety says nothing of a server that does nothing. From every state the
connections can be drained one after the other, since the lock is taken and
given back in one step and no connection waits for another. -/

theorem set_self_of_getElem? {cs : List (Connection α β)} {i : ℕ} {c : Connection α β}
    (hc : cs[i]? = some c) : cs.set i c = cs := by
  obtain ⟨hlen, rfl⟩ := List.getElem?_eq_some_iff.mp hc
  exact List.set_getElem_self hlen

/-- What there is left on a connection is sent. -/
theorem exec_sends (ms : List β) {t : Server σ α β} {i : ℕ} {c : Connection α β}
    (hc : t.connections[i]? = some c) (hleft : c.left = ms) :
    ∃ es, exec S.next t es = some { t with
      connections := t.connections.set i { c with left := [], sent := c.sent ++ ms } } := by
  induction ms generalizing t c with
  | nil =>
    refine ⟨[], ?_⟩
    rw [List.append_nil, ← hleft, set_self_of_getElem? hc]
    rfl
  | cons m ms ih =>
    have hsend : S.next t (.send i) = some { t with
        connections := t.connections.set i { c with left := ms, sent := c.sent ++ [m] } } := by
      rw [next, hc, Option.bind_some, Connection.send, hleft]
      rfl
    have hlen : i < t.connections.length := (List.getElem?_eq_some_iff.mp hc).1
    obtain ⟨es, hes⟩ := ih (t := { t with
        connections := t.connections.set i { c with left := ms, sent := c.sent ++ [m] } })
      (List.getElem?_set_self hlen) rfl
    refine ⟨.send i :: es, ?_⟩
    rw [exec, hsend, Option.bind_some, hes, List.set_set, List.append_assoc]
    rfl

/-- **One connection's request can be answered**, and the others stay as they
are. What is left of the answer is sent, and where a request waits for the lock
it gets it: a lock that is free keeps nobody waiting. -/
theorem Splits.drain_one {handle : σ → α → Except ε' (σ × List β)} {Inv : σ → Prop}
    (hS : S.Splits handle Inv) {t : Server σ α β} (hinv : Inv t.state) {i : ℕ}
    {c : Connection α β} (hc : t.connections[i]? = some c) :
    ∃ es u c', exec S.next t es = some u ∧ Inv u.state
      ∧ u.connections = t.connections.set i c' ∧ c'.received = c.received
      ∧ c'.current = none ∧ c'.left = [] := by
  have hlen : i < t.connections.length := (List.getElem?_eq_some_iff.mp hc).1
  obtain ⟨es, hes⟩ := exec_sends (S := S) c.left hc rfl
  cases hcurrent : c.current with
  | none => exact ⟨es, _, _, hes, hinv, rfl, rfl, hcurrent, rfl⟩
  | some a =>
    obtain ⟨s', ms, live, hserve, -, hinv'⟩ := hS t.state a hinv
    -- what is sent early, then the lock, then what the answer still has
    have hlock : S.next ⟨t.state, t.connections.set i
          { c with left := [], sent := c.sent ++ c.left }, t.served⟩ (.lock i)
        = some ⟨s', t.connections.set i ⟨c.received, none, ms, c.sent ++ c.left, live⟩,
          t.served ++ [(i, a)]⟩ := by
      rw [next, List.getElem?_set_self hlen, Option.bind_some]
      dsimp only
      rw [hcurrent]
      dsimp only
      rw [hserve]
      dsimp only
      rw [List.set_set]
    obtain ⟨es', hes'⟩ := exec_sends (S := S)
      (t := ⟨s', t.connections.set i ⟨c.received, none, ms, c.sent ++ c.left, live⟩,
        t.served ++ [(i, a)]⟩) ms (List.getElem?_set_self hlen) rfl
    refine ⟨es ++ .lock i :: es', _, _, exec_append_cons_eq_some.mpr ⟨_, _, hes, hlock, hes'⟩,
      hinv', List.set_set .., rfl, rfl, rfl⟩

/-- One connection after the other is answered. -/
theorem Splits.drain_upto {handle : σ → α → Except ε' (σ × List β)} {Inv : σ → Prop}
    (hS : S.Splits handle Inv) {t : Server σ α β} (hinv : Inv t.state) (k : ℕ) :
    ∃ es u, exec S.next t es = some u ∧ Inv u.state ∧ u.received = t.received
      ∧ ∀ j c, u.connections[j]? = some c → j < k → c.current = none ∧ c.left = [] := by
  induction k with
  | zero => exact ⟨[], t, rfl, hinv, rfl, fun j _ _ hj => absurd hj (Nat.not_lt_zero j)⟩
  | succ k ih =>
    obtain ⟨es, u, hes, hinvu, hreceived, hdone⟩ := ih
    cases hc : u.connections[k]? with
    | none =>
      refine ⟨es, u, hes, hinvu, hreceived, fun j c hj hlt => ?_⟩
      have hjlen : j < u.connections.length := (List.getElem?_eq_some_iff.mp hj).1
      exact hdone j c hj (hjlen.trans_le (List.getElem?_eq_none_iff.mp hc))
    | some c =>
      obtain ⟨es', v, c', hes', hinvv, hv, hc', hcurrent, hleft⟩ := hS.drain_one hinvu hc
      refine ⟨es ++ es', v, exec_append_eq_some.mpr ⟨u, hes, hes'⟩, hinvv, ?_, ?_⟩
      · rw [← hreceived, Server.received, Server.received, hv, List.map_set, hc', ← List.map_set,
          set_self_of_getElem? hc]
      · rw [hv]
        refine forall_getElem?_set (fun j d hne hd hlt => hdone j d hd ?_)
          (fun _ => ⟨hcurrent, hleft⟩)
        exact lt_of_le_of_ne (Nat.lt_succ_iff.mp hlt) hne.symm

/-- **A service that splits a handler serializes it**: whatever the
interleaving, it answers as the handler does, and it can always answer what it
has received. -/
theorem Splits.serializes {handle : σ → α → Except ε' (σ × List β)} {Inv : σ → Prop}
    (hS : S.Splits handle Inv) {s : σ} (hs : Inv s) : S.Serializes handle s where
  inOrder n as bs u t hu ht := by
    have hstart := (hS.of_exec ⟨Server.inOrder_opened handle S.early s n, hs⟩ hu).1
    exact (hS.of_exec hstart ht).imp_left And.left
  drains n as t ht := by
    have hinv := (hS.of_exec ⟨Server.inOrder_opened handle S.early s n, hs⟩ ht).1.2
    obtain ⟨es, u, hes, -, hreceived, hdone⟩ := hS.drain_upto hinv t.connections.length
    refine ⟨es, u, hes, fun c hc => ?_, hreceived⟩
    obtain ⟨j, hj⟩ := List.mem_iff_getElem?.mp hc
    have hlen : u.connections.length = t.connections.length := by
      have := congrArg List.length hreceived
      rwa [Server.received, Server.received, List.length_map, List.length_map] at this
    exact hdone j c hj (hlen ▸ (List.getElem?_eq_some_iff.mp hj).1)

end Service
