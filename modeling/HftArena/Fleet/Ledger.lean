import HftArena.Fleet.Reporting

/-!
# What a record can say

A worker's counters and any number of reporters, each with its own baselines:
bots and the probe add to the counters, a reporter transmits what was added
since it last looked, under any tag, and the leader what the probe has counted
(`Ledger`). Every step is one that runs without being interrupted.

The counters and every baseline have as many entries in the histogram as
acknowledgements, and so has every record (`Record.WF`): a flush that transmits
nothing moves the baselines of the histogram alone, and then no acknowledgement
was added.

A run of a worker is such a run (`Worker.exists_ledger`). What the consumer of
the records needs to know of them is that they are well formed, and for this it
does not matter when a phase begins or which tag it sets; the ledger leaves all
that open.
-/

open Wire

namespace Fleet

/-- A record in which nothing is counted. -/
def Record.Blank (r : Record) : Prop :=
  r.sent = 0 ∧ r.acked = 0 ∧ r.errors = 0 ∧ r.corrPass = 0 ∧ r.corrTotal = 0

instance (r : Record) : Decidable r.Blank := inferInstanceAs (Decidable (_ ∧ _))

/-- **A well-formed record**: the counts of its histogram are its
acknowledgements, nothing is counted down, no more of the probe is passed than
counted, and only a warmup record counts nothing. -/
structure Record.WF (r : Record) : Prop where
  mass : (r.hist.map Prod.snd).sum = r.acked
  sent : 0 ≤ r.sent
  acked : 0 ≤ r.acked
  errors : 0 ≤ r.errors
  corrPass : 0 ≤ r.corrPass
  corrTotal : r.corrPass ≤ r.corrTotal
  blank : r.Blank → r.tag.rate = 0

/-! ## Counters and baselines

Counters only grow, and as many latencies are counted as acknowledgements. -/

/-- How many counts a histogram has. -/
def Stats.mass (s : Stats) : ℕ := ∑ b, s.hist b

/-- A tally adds to the histogram exactly if it adds an acknowledgement. -/
theorem Stats.mass_add (s : Stats) (t : Tally) :
    (s.add t).mass + s.acked = s.mass + (s.add t).acked := by
  cases t with
  | nothing | sent | error => rfl
  | acked b =>
    have hsum := Finset.sum_update_of_mem (Finset.mem_univ b) s.hist (s.hist b + 1)
    have hold := Finset.add_sum_erase Finset.univ s.hist (Finset.mem_univ b)
    rw [Finset.sdiff_singleton_eq_erase] at hsum
    show ∑ i, Function.update s.hist b (s.hist b + 1) i + s.acked = ∑ i, s.hist i + (s.acked + 1)
    omega

/-- **Counters that have grown from baselines**, where the baselines have as
many counts in the histogram as acknowledgements, and no more passes were added
than verdicts. -/
structure Since (last stats : Stats) : Prop where
  mass : last.mass = last.acked
  sent : last.sent ≤ stats.sent
  acked : last.acked ≤ stats.acked
  errors : last.errors ≤ stats.errors
  corrPass : last.corrPass ≤ stats.corrPass
  corrTotal : stats.corrPass + last.corrTotal ≤ stats.corrTotal + last.corrPass

/-- A reporter that looks takes the counters themselves. -/
theorem Since.refl {stats : Stats} (h : stats.mass = stats.acked) : Since stats stats :=
  ⟨h, le_rfl, le_rfl, le_rfl, le_rfl, by omega⟩

/-- The counters grow with a step of a bot. -/
theorem Since.add {last stats : Stats} (h : Since last stats) (t : Tally) :
    Since last (stats.add t) := by
  obtain ⟨hmass, hsent, hacked, herrors, hpass, htotal⟩ := h
  cases t with
  | nothing => exact ⟨hmass, hsent, hacked, herrors, hpass, htotal⟩
  | sent => exact ⟨hmass, Nat.le_succ_of_le hsent, hacked, herrors, hpass, htotal⟩
  | acked b => exact ⟨hmass, hsent, Nat.le_succ_of_le hacked, herrors, hpass, htotal⟩
  | error => exact ⟨hmass, hsent, hacked, Nat.le_succ_of_le herrors, hpass, htotal⟩

/-- And with a verdict. -/
theorem Since.verdict {last stats : Stats} (h : Since last stats) (passed : Bool) :
    Since last (stats.verdict passed) := by
  have hpass : (stats.verdict passed).corrPass = stats.corrPass + if passed then 1 else 0 := rfl
  have htotal : (stats.verdict passed).corrTotal = stats.corrTotal + 1 := rfl
  have hbefore := h.corrTotal
  refine ⟨h.mass, h.sent, h.acked, h.errors, ?_, ?_⟩
  · rw [hpass]
    exact h.corrPass.trans (Nat.le_add_right _ _)
  · rw [hpass, htotal]
    split_ifs <;> omega

/-! ## A flush

It transmits the difference to the baseline, which is then moved up. -/

/-- The counts of a list, bucket by bucket. -/
theorem sum_map_snd (hist : List (Bucket × ℤ)) :
    (hist.map Prod.snd).sum = ∑ b, (hist.map (fun p => if p.1 = b then p.2 else 0)).sum := by
  induction hist with
  | nil => simp
  | cons p hist ih =>
    simp only [List.map_cons, List.sum_cons, ih, Finset.sum_add_distrib, Finset.sum_ite_eq,
      Finset.mem_univ, if_true]

/-- **What a flush leaves and transmits**: baselines that the counters have
grown from, and a well-formed record. -/
theorem Since.flush {last stats : Stats} (h : Since last stats) (hmass : stats.mass = stats.acked)
    (tag : Tag) : Since (flush tag last stats).1 stats ∧ ∀ r ∈ (flush tag last stats).2, r.WF := by
  obtain ⟨hlast, hsent, hacked, herrors, hpass, htotal⟩ := h
  unfold Fleet.flush
  dsimp only
  split_ifs with hnone
  · -- the histogram's baselines move alone: no acknowledgement was added
    refine ⟨⟨?_, hsent, hacked, herrors, hpass, htotal⟩, nofun⟩
    have hsame : stats.acked = last.acked := by omega
    exact hmass.trans hsame
  · refine ⟨.refl hmass, fun r hr => ?_⟩
    cases hr
    refine ⟨?_, ?_, ?_, ?_, ?_, ?_, fun hblank => absurd ?_ hnone⟩
    · rw [sum_map_snd]
      simp only [sum_histDelta, Finset.sum_sub_distrib, ← Nat.cast_sum]
      show ((stats.mass : ℕ) : ℤ) - (last.mass : ℕ) = _
      rw [hmass, hlast]
    · dsimp only
      omega
    · dsimp only
      omega
    · dsimp only
      omega
    · dsimp only
      omega
    · dsimp only
      omega
    · exact ⟨hblank.1, hblank.2.1, hblank.2.2.1, hblank.2.2.2.2⟩

/-! ## Any number of reporters

Who counts and who flushes when does not matter for the records, so all of it
may happen in any order here. -/

/-- **A worker's counters and its reporters.** Any number of them, at any time:
a worker has no more than one that looks, but nothing here depends on it. -/
structure Ledger where
  stats : Stats
  /-- The baselines of the reporters. -/
  baselines : List Stats
  /-- What was transmitted. -/
  records : List Record

/-- **What can happen to them.** -/
inductive LedgerEvent where
  /-- A bot takes a step. -/
  | tally (t : Tally)
  /-- An iteration of the probe is over. -/
  | verdict (passed : Bool)
  /-- The leader transmits its warmup record. -/
  | warmup
  /-- A reporter reads its baselines. -/
  | create
  /-- A reporter flushes. -/
  | flush (i : ℕ) (tag : Tag)

namespace Ledger

/-- A worker whose run starts. -/
def new : Ledger := ⟨.zero, [], []⟩

/-- **A step.** -/
def step (l : Ledger) : LedgerEvent → Option Ledger
  | .tally t => some { l with stats := l.stats.add t }
  | .verdict passed => some { l with stats := l.stats.verdict passed }
  | .warmup => some { l with records := l.records ++ [Worker.warmupRecord l.stats] }
  | .create => some { l with baselines := l.baselines ++ [l.stats] }
  | .flush i tag =>
    l.baselines[i]?.map (fun last =>
      { l with baselines := l.baselines.set i (Fleet.flush tag last l.stats).1
               records := l.records ++ (Fleet.flush tag last l.stats).2.toList })

/-- **The invariant**: the counters and every baseline have as many counts in
the histogram as acknowledgements. -/
structure WF (l : Ledger) : Prop where
  mass : l.stats.mass = l.stats.acked
  corr : l.stats.corrPass ≤ l.stats.corrTotal
  since : ∀ last ∈ l.baselines, Since last l.stats
  records : ∀ r ∈ l.records, r.WF

/-- A worker whose run starts has counted nothing. -/
theorem wf_new : new.WF :=
  ⟨Finset.sum_eq_zero (fun _ _ => rfl), le_rfl, List.forall_mem_nil _, List.forall_mem_nil _⟩

/-- The warmup record counts verdicts alone. -/
theorem wf_warmupRecord {s : Stats} (h : s.corrPass ≤ s.corrTotal) : (Worker.warmupRecord s).WF :=
  ⟨rfl, le_rfl, le_rfl, le_rfl, Int.natCast_nonneg _, Int.ofNat_le.mpr h, fun _ => rfl⟩

/-- **Every step keeps it.** -/
theorem WF.step {l l' : Ledger} {e : LedgerEvent} (h : l.WF) (hstep : l.step e = some l') :
    l'.WF := by
  cases e with
  | tally t =>
    cases hstep
    have hmass := Stats.mass_add l.stats t
    have hcorr : (l.stats.add t).corrPass = l.stats.corrPass
        ∧ (l.stats.add t).corrTotal = l.stats.corrTotal := by
      cases t <;> exact ⟨rfl, rfl⟩
    refine ⟨?_, ?_, fun last hlast => (h.since last hlast).add t, h.records⟩
    · have hbefore := h.mass
      dsimp only
      omega
    · dsimp only
      rw [hcorr.1, hcorr.2]
      exact h.corr
  | verdict passed =>
    cases hstep
    refine ⟨h.mass, ?_, fun last hlast => (h.since last hlast).verdict passed, h.records⟩
    have hbefore := h.corr
    show l.stats.corrPass + (if passed then 1 else 0) ≤ l.stats.corrTotal + 1
    split_ifs <;> omega
  | warmup =>
    cases hstep
    exact ⟨h.mass, h.corr, h.since, List.forall_mem_append.mpr ⟨h.records, fun r hr =>
      List.mem_singleton.mp hr ▸ wf_warmupRecord h.corr⟩⟩
  | create =>
    cases hstep
    refine ⟨h.mass, h.corr, List.forall_mem_append.mpr ⟨h.since, fun last hlast => ?_⟩, h.records⟩
    rw [List.mem_singleton.mp hlast]
    exact Since.refl h.mass
  | flush i tag =>
    obtain ⟨last, hlast, rfl⟩ := Option.map_eq_some_iff.mp hstep
    obtain ⟨hsince, hrecord⟩ := (h.since last (List.mem_of_getElem? hlast)).flush h.mass tag
    exact ⟨h.mass, h.corr, forall_mem_set h.since hsince, List.forall_mem_append.mpr ⟨h.records,
      fun r hr => hrecord r (Option.mem_toList.mp hr)⟩⟩

/-- It holds after any run. -/
theorem wf_of_exec {l : Ledger} {es : List LedgerEvent} (h : exec step new es = some l) : l.WF :=
  inv_of_exec WF h (fun _ _ _ hl hstep => hl.step hstep) wf_new

end Ledger

/-- **A record that a worker transmits**, whatever its bots, the probe and its
reporters do. -/
def Record.Transmitted (r : Record) : Prop :=
  ∃ es l, exec Ledger.step .new es = some l ∧ r ∈ l.records

/-- **What is transmitted is well formed.** -/
theorem Record.Transmitted.wf {r : Record} (h : r.Transmitted) : r.WF := by
  obtain ⟨es, l, hexec, hr⟩ := h
  exact (Ledger.wf_of_exec hexec).records r hr

/-! ## A run of a worker

It is a run of the ledger with its reporters. What holds of all records of
ledgers therefore holds of all that workers transmit. -/

/-- The worker's counters and records are those of the ledger, and the
baselines of its reporter are among those there. -/
structure Ledger.Shows (l : Ledger) (w : Worker) : Prop where
  stats : l.stats = w.stats
  records : l.records = w.records
  last : ∀ last ∈ w.last, ∃ i : ℕ, l.baselines[i]? = some last

namespace Worker

/-- The reporter of the latest phase is the one that looks. -/
theorem last_cons {w : Worker} {ph : Phase} {phs : List Phase} (h : w.phases = ph :: phs) :
    w.last = ph.reporter.last := by
  unfold last
  rw [h]
  rfl

/-- A bot's step does not touch the reporters. -/
theorem last_of_set {w w' : Worker} {p : ℕ} {ph : Phase} {bots : List Bot}
    (hph : w.phases[p]? = some ph) (h : w'.phases = w.phases.set p { ph with bots := bots }) :
    w'.last = w.last := by
  have hhead : (w'.phases.head?.map Phase.reporter) = w.phases.head?.map Phase.reporter := by
    rw [h]
    exact map_head?_set (f := Phase.reporter) hph rfl
  unfold last
  rw [hhead]

/-- **A step of a worker is steps of the ledger**: at most one, and none where
nothing is counted and nobody looks. -/
theorem shows_step {c : Config} {w w' : Worker} {l : Ledger} {e : Event} (h : l.Shows w)
    (hnext : w.step c e = some w') :
    ∃ es l', exec Ledger.step l es = some l' ∧ l'.Shows w' := by
  cases steps_of_step hnext with
  | tick | finish => exact ⟨[], l, rfl, h.stats, h.records, h.last⟩
  | probed passed =>
    exact ⟨[.verdict passed], _, rfl, congrArg (Stats.verdict · passed) h.stats, h.records, h.last⟩
  | warm hstage =>
    cases hl : c.isLeader with
    | true =>
      refine ⟨[.warmup], _, rfl, h.stats, ?_, h.last⟩
      show l.records ++ [warmupRecord l.stats] = w.records ++ [warmupRecord w.stats]
      rw [h.records, h.stats]
    | false => exact ⟨[], l, rfl, h.stats, h.records, h.last⟩
  | begins spec todo hstage hidle =>
    exact ⟨[], l, rfl, h.stats, h.records, fun last hlast => by cases hlast⟩
  | main todo ph ph' phs hstage hphs hmain =>
    refine ⟨[], l, rfl, h.stats, h.records, fun last hlast => h.last last ?_⟩
    rw [last_cons hphs, ← (reporter_mainStep hmain).1]
    exact hlast
  | bot todo p i e ph b b' t hstage hph hb hbot =>
    have hlast : Worker.last { w with
        phases := w.phases.set p { ph with bots := ph.bots.set i b' }, stats := w.stats.add t }
          = w.last := last_of_set hph rfl
    exact ⟨[.tally t], _, rfl, congrArg (Stats.add · t) h.stats, h.records, fun last hl =>
      h.last last (hlast ▸ hl)⟩
  | report todo ph ph' phs rec hstage hphs hrep =>
    have hbase : ∀ last ∈ ph.reporter.last, ∃ i, l.baselines[i]? = some last := fun last hlast =>
      h.last last (last_cons hphs ▸ hlast)
    -- a flush of the reporter is one of the ledger
    have hflush : ∀ last i, l.baselines[i]? = some last →
        exec Ledger.step l [.flush i ph.tag] = some
          ⟨l.stats, l.baselines.set i (Fleet.flush ph.tag last w.stats).1,
            w.records ++ (Fleet.flush ph.tag last w.stats).2.toList⟩ := fun last i hi => by
      rw [exec, Ledger.step, hi, h.stats, h.records]
      rfl
    cases Phase.steps_of_reporterStep hrep with
    | looks hcreated =>
      refine ⟨[.create], _, rfl, h.stats, h.records.trans (List.append_nil _).symm,
        fun last hlast => ⟨l.baselines.length, ?_⟩⟩
      cases hlast
      rw [List.getElem?_append_right le_rfl, Nat.sub_self, h.stats]
      rfl
    | sleeps last hlast =>
      exact ⟨[], l, rfl, h.stats, h.records.trans (List.append_nil _).symm, fun last' hlast' => by
        cases hlast'
        exact hbase last (by rw [hlast]; rfl)⟩
    | ends last hlast =>
      obtain ⟨i, hi⟩ := hbase last (by rw [hlast]; rfl)
      exact ⟨_, _, hflush last i hi, h.stats, rfl, fun last' hlast' => by cases hlast'⟩
    | flushes last t hlast =>
      obtain ⟨i, hi⟩ := hbase last (by rw [hlast]; rfl)
      refine ⟨_, _, hflush last i hi, h.stats, rfl, fun last' hlast' => ⟨i, ?_⟩⟩
      cases hlast'
      rw [List.getElem?_set, if_pos rfl, if_pos (List.getElem?_eq_some_iff.mp hi).1]

/-- **Every run of a worker is a run of a ledger.** -/
theorem exists_ledger {c : Config} {w : Worker} {es : List Event}
    (hexec : exec (step c) .new es = some w) :
    ∃ les l, exec Ledger.step .new les = some l ∧ l.Shows w := by
  refine inv_of_exec (fun w => ∃ les l, exec Ledger.step .new les = some l ∧ l.Shows w) hexec
    (fun w e w' ⟨les, l, hl, hshows⟩ hnext => ?_) ⟨[], .new, rfl, rfl, rfl, nofun⟩
  obtain ⟨les', l', hl', hshows'⟩ := shows_step hshows hnext
  exact ⟨les ++ les', l', by rw [exec_append, hl]; exact hl', hshows'⟩

/-- The records of a worker's run are transmitted ones. -/
theorem transmitted_of_mem_records {c : Config} {w : Worker} {es : List Event}
    (hexec : exec (step c) .new es = some w) : ∀ r ∈ w.records, r.Transmitted := by
  obtain ⟨les, l, hl, hshows⟩ := exists_ledger hexec
  exact fun r hr => ⟨les, l, hl, hshows.records ▸ hr⟩

end Worker

/-- An order that is acknowledged in a bucket, at a rate of the sweep. -/
def Ledger.oneAck (b : Bucket) : List LedgerEvent :=
  [.create, .tally .sent, .tally (.acked b), .flush 0 ⟨"open", 10000⟩]

end Fleet
