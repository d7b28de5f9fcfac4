import HftArena.Telemetry.Achieved

/-!
# Peak throughput

A snapshot divides the orders of the records that have arrived since the oldest
snapshot of the last two seconds by the time since then, and the highest of
these quotients is kept. Neither the time between two snapshots nor the time at
which a record arrives is that in which its orders were sent, so the peak is
not bounded by the rate at which the fleet sends: it is bounded by the rate at
which orders arrive between snapshots that are compared (`peakTps_le_iff`).

The window that a snapshot leaves is what has not expired of all the snapshots
that there were (`window_eq`), because what has expired stays so on a clock
that does not go back. So the window need not be followed through a life: the
history of the life says which snapshot is compared with which.
-/

open Fleet

namespace Telemetry

/-! ## The life of an aggregate

Samples and snapshots, in the order in which one aggregate meets them. -/

/-- **What happens to an aggregate**: a sample arrives, or a snapshot is taken,
to publish or to persist it. -/
inductive Moment where
  | arrive (s : Sample)
  | snapshot (now : ℚ)
deriving DecidableEq

/-- The aggregate after it. -/
def Live.meet (l : Live) : Moment → Live
  | .arrive s => { l with agg := l.agg.add s }
  | .snapshot now => (l.tps now).1

/-- The times of the snapshots. -/
def clock (ms : List Moment) : List ℚ :=
  ms.filterMap (fun m => match m with | .snapshot now => some now | .arrive _ => none)

/-- The orders that arrive. -/
def ordersIn (ms : List Moment) : ℤ :=
  (ms.map (fun m => match m with | .arrive s => s.record.sent | .snapshot _ => 0)).sum

/-- The snapshots, each with the orders that have arrived by then. -/
def history : ℤ → List Moment → List (ℚ × ℤ)
  | _, [] => []
  | n, .arrive s :: ms => history (n + s.record.sent) ms
  | n, .snapshot now :: ms => (now, n) :: history n ms

/-- An entry of the window has expired. -/
def expired (now : ℚ) (w : ℚ × ℤ) : Bool := decide (2 < now - w.1)

@[simp] theorem clock_arrive (s : Sample) (ms : List Moment) :
    clock (.arrive s :: ms) = clock ms := rfl

@[simp] theorem clock_snapshot (now : ℚ) (ms : List Moment) :
    clock (.snapshot now :: ms) = now :: clock ms := rfl

/-- Of two parts of a life, the clock of the one comes before that of the
other, -/
theorem clock_append (ms ms' : List Moment) : clock (ms ++ ms') = clock ms ++ clock ms' :=
  List.filterMap_append

@[simp] theorem ordersIn_arrive (s : Sample) (ms : List Moment) :
    ordersIn (.arrive s :: ms) = s.record.sent + ordersIn ms := List.sum_cons

@[simp] theorem ordersIn_snapshot (now : ℚ) (ms : List Moment) :
    ordersIn (.snapshot now :: ms) = ordersIn ms := by
  rw [ordersIn, List.map_cons, List.sum_cons]
  exact zero_add _

/-- the orders of both arrive, -/
theorem ordersIn_append (ms ms' : List Moment) :
    ordersIn (ms ++ ms') = ordersIn ms + ordersIn ms' := by
  unfold ordersIn
  rw [List.map_append, List.sum_append]

/-- and the second part counts on from where the first one ended. -/
theorem history_append (n : ℤ) (ms ms' : List Moment) :
    history n (ms ++ ms') = history n ms ++ history (n + ordersIn ms) ms' := by
  induction ms generalizing n with
  | nil => exact congrArg (history · ms') (add_zero n).symm
  | cons m ms ih =>
    cases m with
    | arrive s =>
      rw [List.cons_append, history, ih, history, ordersIn_arrive, add_assoc]
    | snapshot now =>
      rw [List.cons_append, history, ih, history, ordersIn_snapshot, List.cons_append]

/-- What is remembered of a snapshot bears its time. -/
theorem mem_clock_of_history {n : ℤ} {ms : List Moment} {w : ℚ × ℤ} (h : w ∈ history n ms) :
    w.1 ∈ clock ms := by
  induction ms generalizing n with
  | nil => cases h
  | cons m ms ih =>
    cases m with
    | arrive s => exact ih h
    | snapshot now =>
      rcases List.mem_cons.mp h with rfl | h
      · exact List.mem_cons_self
      · exact List.mem_cons_of_mem now (ih h)

/-! ## The window

A snapshot appends to the window and drops what has expired from its front. On
a clock that does not go back, dropping now and then is the same as dropping at
the end. -/

/-- What is dropped first is dropped again. -/
theorem dropWhile_dropWhile_append {α : Type} {p q : α → Bool} (hpq : ∀ a, p a = true → q a = true)
    (l l' : List α) : (l.dropWhile p ++ l').dropWhile q = (l ++ l').dropWhile q := by
  induction l with
  | nil => rfl
  | cons a l ih =>
    by_cases ha : p a = true
    · rw [List.dropWhile_cons_of_pos ha, ih, List.cons_append, List.dropWhile_cons_of_pos (hpq a ha)]
    · rw [List.dropWhile_cons_of_neg ha]

/-- All that has arrived has been counted. -/
theorem sent_foldl_meet (l : Live) (ms : List Moment) :
    (ms.foldl Live.meet l).agg.sent = l.agg.sent + ordersIn ms := by
  induction ms generalizing l with
  | nil => exact (add_zero _).symm
  | cons m ms ih =>
    rw [List.foldl_cons, ih]
    cases m with
    | arrive s =>
      rw [ordersIn_arrive, ← add_assoc]
      rfl
    | snapshot now =>
      rw [ordersIn_snapshot]
      exact congrArg (fun a : Agg => a.sent + ordersIn ms) (l.agg_tps now)

variable {run submission : String} {ms : List Moment} {now rho : ℚ}

/-- **The window is what has not expired of the history**, as long as the clock
does not go back. -/
theorem dropWhile_win (hclock : (clock ms).Pairwise (· ≤ ·)) (hnow : ∀ t ∈ clock ms, t ≤ now)
    (ws : List (ℚ × ℤ)) :
    ((ms.foldl Live.meet (.new run submission)).win ++ ws).dropWhile (expired now)
      = (history 0 ms ++ ws).dropWhile (expired now) := by
  induction ms using List.reverseRecOn generalizing now ws with
  | nil => rfl
  | append_singleton ms m ih =>
    rw [clock_append, List.pairwise_append] at hclock
    rw [clock_append] at hnow
    have hnow' : ∀ t ∈ clock ms, t ≤ now := fun t ht => hnow t (List.mem_append_left _ ht)
    rw [List.foldl_append, history_append, zero_add]
    cases m with
    | arrive s =>
      rw [List.foldl_cons, List.foldl_nil, history, history, List.append_nil]
      exact ih hclock.1 hnow' ws
    | snapshot t =>
      have ht : t ≤ now := hnow t (List.mem_append_right _ List.mem_cons_self)
      have hlast : ∀ t' ∈ clock ms, t' ≤ t := fun t' ht' =>
        hclock.2.2 t' ht' t List.mem_cons_self
      -- What had expired at the snapshot has expired now.
      have hgrow : ∀ w, expired t w = true → expired now w = true := fun w hw =>
        decide_eq_true ((of_decide_eq_true hw).trans_le (sub_le_sub_right ht w.1))
      have hwindow : ((ms.foldl Live.meet (.new run submission)).meet (.snapshot t)).win
          = (history 0 ms ++ [(t, ordersIn ms)]).dropWhile (expired t) := by
        show ((ms.foldl Live.meet (.new run submission)).tps t).1.win = _
        rw [Live.win_tps, ← ih hclock.1 hlast]
        unfold Live.window
        rw [sent_foldl_meet]
        exact congrArg (fun n => List.dropWhile _ (_ ++ [(t, n)])) (zero_add _)
      rw [List.foldl_cons, List.foldl_nil, hwindow, dropWhile_dropWhile_append hgrow]
      rfl

/-- So is that of the next snapshot. -/
theorem window_eq (hclock : (clock ms).Pairwise (· ≤ ·)) (hnow : ∀ t ∈ clock ms, t ≤ now) :
    (ms.foldl Live.meet (.new run submission)).window now
      = (history 0 ms ++ [(now, ordersIn ms)]).dropWhile (expired now) := by
  rw [← dropWhile_win hclock hnow]
  unfold Live.window
  rw [sent_foldl_meet]
  exact congrArg (fun n => List.dropWhile _ (_ ++ [(now, n)])) (zero_add _)

/-! ## What is compared

A snapshot looks at the oldest one left, so the question is how many orders
have arrived since then. -/

/-- **The oldest snapshot of the last two seconds**: those before it have
expired. -/
structure Oldest (now : ℚ) (past : List ℚ) (t₀ : ℚ) : Prop where
  recent : now - t₀ ≤ 2
  first : ∀ t ∈ past, 2 < now - t

/-- **No more than `rho` a second arrive** between a snapshot at a time and the
one it is compared with. -/
def FitsNow (rho now : ℚ) (ms : List Moment) : Prop :=
  ∀ pre t₀ between, ms = pre ++ .snapshot t₀ :: between → Oldest now (clock pre) t₀ → t₀ < now →
    ordersIn between ≤ rho * (now - t₀)

/-- **No more than `rho` a second arrive** between any two snapshots that are
compared. -/
def NeverOver (rho : ℚ) (ms : List Moment) : Prop :=
  ∀ pre t₀ between now post, ms = pre ++ .snapshot t₀ :: (between ++ .snapshot now :: post) →
    Oldest now (clock pre) t₀ → t₀ < now → ordersIn between ≤ rho * (now - t₀)

/-- A moment more: what was compared before it, and what is compared at it. -/
theorem neverOver_append {m : Moment} :
    NeverOver rho (ms ++ [m]) ↔ NeverOver rho ms ∧ ∀ now, m = .snapshot now → FitsNow rho now ms := by
  constructor
  · intro h
    constructor
    · rintro pre t₀ between now post rfl
      exact h pre t₀ between now (post ++ [m]) (by simp)
    · rintro now rfl pre t₀ between rfl
      exact h pre t₀ between now [] (by simp)
  · rintro ⟨hbefore, hnow⟩ pre t₀ between now post heq
    rcases List.eq_nil_or_concat' post with rfl | ⟨post, m', rfl⟩
    · have hsplit : ms ++ [m] = (pre ++ .snapshot t₀ :: between) ++ [.snapshot now] := by
        rw [heq, List.append_assoc, List.cons_append]
      obtain ⟨hms, hm⟩ := List.append_inj' hsplit rfl
      exact hnow now (List.singleton_inj.mp hm) pre t₀ between hms
    · have hsplit : ms ++ [m]
          = (pre ++ .snapshot t₀ :: (between ++ .snapshot now :: post)) ++ [m'] := by
        rw [heq, List.append_assoc, List.cons_append, List.append_assoc, List.cons_append]
      exact hbefore pre t₀ between now post (List.append_inj' hsplit rfl).1

/-- Where not all snapshots have expired, there is an oldest. -/
theorem exists_oldest {t : ℚ} (ht : t ∈ clock ms) (hrecent : now - t ≤ 2) :
    ∃ pre t₀ between, ms = pre ++ .snapshot t₀ :: between ∧ Oldest now (clock pre) t₀ := by
  induction ms with
  | nil => cases ht
  | cons m ms ih =>
    cases m with
    | arrive s =>
      obtain ⟨pre, t₀, between, rfl, hold⟩ := ih ht
      exact ⟨.arrive s :: pre, t₀, between, rfl, hold.recent, hold.first⟩
    | snapshot t' =>
      by_cases hexpired : 2 < now - t'
      · have ht' : t ∈ clock ms := by
          rcases List.mem_cons.mp ht with rfl | ht
          · exact absurd hrecent (not_le.mpr hexpired)
          · exact ht
        obtain ⟨pre, t₀, between, rfl, hold⟩ := ih ht'
        exact ⟨.snapshot t' :: pre, t₀, between, rfl, hold.recent,
          List.forall_mem_cons.mpr ⟨hexpired, hold.first⟩⟩
      · exact ⟨[], t', ms, rfl, not_lt.mp hexpired, fun t ht => by cases ht⟩

/-- Then the window begins with it. -/
theorem dropWhile_history {pre between : List Moment} {t₀ : ℚ} (hold : Oldest now (clock pre) t₀)
    (ws : List (ℚ × ℤ)) :
    (history 0 (pre ++ .snapshot t₀ :: between) ++ ws).dropWhile (expired now)
      = (t₀, ordersIn pre) :: (history (ordersIn pre) between ++ ws) := by
  have hdrop : ∀ w ∈ history 0 pre, expired now w = true := fun w hw =>
    decide_eq_true (hold.first w.1 (mem_clock_of_history hw))
  have hkeep : ¬ expired now (t₀, ordersIn pre) = true := fun h =>
    absurd (of_decide_eq_true h) (not_lt.mpr hold.recent)
  rw [history_append, zero_add, history, List.append_assoc, List.dropWhile_append_of_pos hdrop,
    List.cons_append, List.dropWhile_cons_of_neg hkeep]

/-- And where all have expired, only the new one is left. -/
theorem dropWhile_history_of_expired (h : ∀ t ∈ clock ms, 2 < now - t) (n : ℤ) :
    (history 0 ms ++ [(now, n)]).dropWhile (expired now) = [(now, n)] := by
  have hdrop : ∀ w ∈ history 0 ms, expired now w = true := fun w hw =>
    decide_eq_true (h w.1 (mem_clock_of_history hw))
  have hkeep : ¬ expired now (now, n) = true := fun h => by
    have hlt : 2 < now - now := of_decide_eq_true h
    rw [sub_self] at hlt
    exact absurd hlt (by norm_num)
  rw [List.dropWhile_append_of_pos hdrop, List.dropWhile_cons_of_neg hkeep]

/-- There is one oldest snapshot. -/
theorem Oldest.unique {pre pre' between between' : List Moment} {t₀ t₀' : ℚ}
    (hold : Oldest now (clock pre) t₀) (hold' : Oldest now (clock pre') t₀')
    (heq : pre ++ .snapshot t₀ :: between = pre' ++ .snapshot t₀' :: between') :
    t₀ = t₀' ∧ ordersIn between = ordersIn between' := by
  have hhead : (history 0 (pre ++ Moment.snapshot t₀ :: between) ++ []).dropWhile (expired now)
      = (t₀, ordersIn pre) :: (history (ordersIn pre) between ++ []) := dropWhile_history hold []
  rw [heq, dropWhile_history hold' []] at hhead
  obtain ⟨ht, hpre⟩ := Prod.mk.inj (List.cons.inj hhead).1
  have horders := congrArg ordersIn heq
  rw [ordersIn_append, ordersIn_append, ordersIn_snapshot, ordersIn_snapshot, hpre] at horders
  exact ⟨ht.symm, add_left_cancel horders⟩

/-- **A snapshot keeps the peak within `rho`** if and only if it was, and no
more arrive than that since the snapshot it is compared with. -/
theorem peakTps_snapshot_le_iff (hrho : 0 ≤ rho) (hclock : (clock ms).Pairwise (· ≤ ·))
    (hnow : ∀ t ∈ clock ms, t ≤ now) :
    ((ms.foldl Live.meet (.new run submission)).tps now).1.peakTps ≤ rho
      ↔ (ms.foldl Live.meet (.new run submission)).peakTps ≤ rho ∧ FitsNow rho now ms := by
  have hwindow : (ms.foldl Live.meet (.new run submission)).window now = _ :=
    window_eq hclock hnow
  by_cases hall : ∀ t ∈ clock ms, 2 < now - t
  · -- All snapshots have expired, and there is nothing to compare with.
    rw [dropWhile_history_of_expired hall] at hwindow
    rw [Live.peakTps_tps_of_singleton hwindow]
    refine (and_iff_left ?_).symm
    rintro pre t₀ between rfl hold -
    refine absurd (hall t₀ ?_) (not_lt.mpr hold.recent)
    rw [clock_append]
    exact List.mem_append_right _ List.mem_cons_self
  · obtain ⟨t, ht⟩ := not_forall.mp hall
    obtain ⟨ht, hrecent⟩ := Classical.not_imp.mp ht
    obtain ⟨pre, t₀, between, rfl, hold⟩ := exists_oldest ht (not_lt.mp hrecent)
    rw [dropWhile_history hold] at hwindow
    obtain ⟨w, ws, hws⟩ := List.exists_cons_of_ne_nil
      (List.append_ne_nil_of_right_ne_nil (history (ordersIn pre) between) (List.cons_ne_nil
        (now, ordersIn (pre ++ .snapshot t₀ :: between)) []))
    rw [hws] at hwindow
    have hsent : (((pre ++ .snapshot t₀ :: between).foldl Live.meet (.new run submission)).agg.sent
        : ℚ) - ordersIn pre = ordersIn between := by
      have hzero : (Live.new run submission).agg.sent = 0 := rfl
      rw [sent_foldl_meet, hzero, zero_add, ordersIn_append, ordersIn_snapshot, Int.cast_add,
        add_sub_cancel_left]
    have hfits : FitsNow rho now (pre ++ .snapshot t₀ :: between)
        ↔ (t₀ < now → ordersIn between ≤ rho * (now - t₀)) := by
      refine ⟨fun h => h pre t₀ between rfl hold, fun h pre' t₀' between' heq hold' => ?_⟩
      obtain ⟨rfl, horders⟩ := hold.unique hold' heq
      rw [← horders]
      exact h
    rw [Live.peakTps_tps_of_cons hwindow, max_le_iff, hfits, hsent]
    refine and_congr_right (fun _ => ?_)
    by_cases hlt : t₀ < now
    · rw [if_pos (sub_pos.mpr hlt), div_le_iff₀ (sub_pos.mpr hlt)]
      exact ⟨fun h _ => h, fun h => h hlt⟩
    · -- A snapshot at the same time: the code divides by nothing and reports
      -- none.
      rw [if_neg (fun h => hlt (sub_pos.mp h))]
      exact ⟨fun _ h => absurd h hlt, fun _ => hrho⟩

/-- **The peak is what arrives between snapshots.** In every life of an
aggregate, whatever samples arrive and whenever snapshots are taken, on a clock
that does not go back: the peak throughput is within `rho` if and only if
between no two snapshots that are compared more than `rho` orders a second
arrive. -/
theorem peakTps_le_iff (run submission : String) (hrho : 0 ≤ rho)
    (hclock : (clock ms).Pairwise (· ≤ ·)) :
    (ms.foldl Live.meet (.new run submission)).peakTps ≤ rho ↔ NeverOver rho ms := by
  induction ms using List.reverseRecOn with
  | nil =>
    refine ⟨fun _ pre t₀ between now post heq => ?_, fun _ => hrho⟩
    exact absurd heq.symm (List.append_ne_nil_of_right_ne_nil pre (List.cons_ne_nil _ _))
  | append_singleton ms m ih =>
    rw [clock_append, List.pairwise_append] at hclock
    rw [neverOver_append, List.foldl_append, ← ih hclock.1]
    cases m with
    | arrive s => exact (and_iff_left (fun now h => Moment.noConfusion h)).symm
    | snapshot now =>
      have hnow : ∀ t ∈ clock ms, t ≤ now := fun t ht =>
        hclock.2.2 t ht now List.mem_cons_self
      refine (peakTps_snapshot_le_iff hrho hclock.1 hnow).trans (and_congr_right (fun _ => ?_))
      exact ⟨fun h now' heq => by cases heq; exact h, fun h => h now rfl⟩

/-! ## Where it happens

The process has one aggregate for a run, and one clock for all of them. -/

/-- The times at which a process takes snapshots. -/
def snapshotTimes (deeds : List Deed) : List ℚ :=
  deeds.filterMap (fun d => match d with | .snapshot _ now => some now | _ => none)

/-- **Every aggregate of a process has a life**, in which the clock goes as the
process's does. -/
theorem LiveRuns.exists_life {runs : LiveRuns} {deeds : List Deed}
    (hexec : exec LiveRuns.step .empty deeds = some runs) :
    ∀ run, ∀ l ∈ runs.get? run, ∃ (ms : List Moment) (submission : String),
      l = ms.foldl Live.meet (.new run submission)
        ∧ (clock ms).Sublist (snapshotTimes deeds) := by
  refine inv_of_exec_past (fun past (runs : LiveRuns) => ∀ run, ∀ l ∈ runs.get? run,
    ∃ (ms : List Moment) (submission : String), l = ms.foldl Live.meet (.new run submission)
      ∧ (clock ms).Sublist (snapshotTimes past)) [] hexec ?_ (fun run l hl => by cases hl)
  intro past runs d runs' _ h hstep run l hl
  have hpast : (snapshotTimes past).Sublist (snapshotTimes (past ++ [d])) := by
    rw [snapshotTimes, snapshotTimes, List.filterMap_append]
    exact List.sublist_append_left _ _
  rcases LiveRuns.get?_step hstep hl with hold | ⟨submission, rfl⟩ | ⟨s, rfl, -, rfl⟩
    | ⟨now, l', rfl, hl', rfl⟩
  · obtain ⟨ms, submission, hms, hclock⟩ := h run l hold
    exact ⟨ms, submission, hms, hclock.trans hpast⟩
  · exact ⟨[], submission, rfl, List.nil_sublist _⟩
  · obtain ⟨ms, submission, hms, hclock⟩ : ∃ (ms : List Moment) (submission : String),
        runs.of run = ms.foldl Live.meet (.new run submission)
          ∧ (clock ms).Sublist (snapshotTimes past) := by
      unfold LiveRuns.of
      cases hrun : runs.get? run with
      | none => exact ⟨[], "?", rfl, List.nil_sublist _⟩
      | some l' => exact h run l' hrun
    refine ⟨ms ++ [.arrive s], submission, ?_, ?_⟩
    · rw [List.foldl_append, hms]
      rfl
    · rw [clock_append]
      exact (List.append_nil (clock ms)).symm ▸ hclock.trans hpast
  · obtain ⟨ms, submission, rfl, hclock⟩ := h run l' hl'
    refine ⟨ms ++ [.snapshot now], submission, ?_, ?_⟩
    · rw [List.foldl_append]
      rfl
    · rw [clock_append, snapshotTimes, List.filterMap_append]
      exact hclock.append (List.Sublist.refl [now])

end Telemetry
