import Mathlib.Data.List.Basic
import Mathlib.Data.List.Induction
import Mathlib.Data.List.Nodup
import Mathlib.Data.List.Perm.Basic

/-!
# Tickets that are issued and redeemed

A log of tickets that are issued and of claims to redeem one, made by somebody
who may claim anything: a ticket twice, or one that was never issued. A claim
for a ticket that is out is honoured and takes the ticket in; any other does
nothing. `out` are the tickets that are out after a log and `redeemed` those
that were taken in, and together they are the tickets issued (`perm_issued`):
if no ticket is issued twice none is redeemed twice, and none is both out and
redeemed.

So what is redeemed can be counted without trusting those who claim
(`length_redeemed_le`), and whether a ticket is out can be said of the log
itself: it was issued, and not claimed since (`mem_out_iff`). Everything is by
induction on the log from its end, with one lemma for an issue and one for a
claim.
-/

variable {κ : Type}

/-- **An entry of the log.** -/
inductive Ticket (κ : Type) where
  | issue (k : κ)
  | claim (k : κ)
deriving DecidableEq

namespace Ticket

/-- The ticket that is issued, if one is. -/
def issued? : Ticket κ → Option κ
  | issue k => some k
  | claim _ => none

/-- The tickets that are issued, oldest first. -/
def issued (log : List (Ticket κ)) : List κ := log.filterMap issued?

/-- **A ticket is out**: it was issued, and not claimed since. -/
def IsOut (log : List (Ticket κ)) (k : κ) : Prop :=
  ∃ before after, log = before ++ issue k :: after ∧ claim k ∉ after

/-- A ticket is issued if the log says so. -/
theorem mem_issued {log : List (Ticket κ)} {k : κ} : k ∈ issued log ↔ issue k ∈ log := by
  unfold issued
  rw [List.mem_filterMap]
  constructor
  · rintro ⟨e, he, hk⟩
    cases e with
    | issue k' =>
      cases hk
      exact he
    | claim k' => cases hk
  · exact fun h => ⟨issue k, h, rfl⟩

theorem issued_append (log log' : List (Ticket κ)) :
    issued (log ++ log') = issued log ++ issued log' :=
  List.filterMap_append

theorem issued_map_claim (ks : List κ) : issued (ks.map claim) = [] := by
  unfold issued
  rw [List.filterMap_eq_nil_iff]
  intro e he
  obtain ⟨k, -, rfl⟩ := List.mem_map.mp he
  rfl

/-- A ticket that is out was issued. -/
theorem IsOut.mem_issued {log : List (Ticket κ)} {k : κ} (h : IsOut log k) : k ∈ issued log := by
  obtain ⟨before, after, rfl, -⟩ := h
  exact Ticket.mem_issued.mpr (List.mem_append_right before List.mem_cons_self)

/-- What one more entry makes of a ticket. -/
theorem isOut_append_singleton {log : List (Ticket κ)} {e : Ticket κ} {k : κ} :
    IsOut (log ++ [e]) k ↔ e = issue k ∨ (IsOut log k ∧ e ≠ claim k) := by
  constructor
  · rintro ⟨before, after, heq, hafter⟩
    induction after using List.reverseRecOn with
    | nil =>
      obtain ⟨-, hlast⟩ := List.append_inj' heq rfl
      exact Or.inl (List.singleton_inj.mp hlast)
    | append_singleton after e' =>
      have hshape : log ++ [e] = (before ++ issue k :: after) ++ [e'] := by
        rw [heq, List.append_assoc, List.cons_append]
      obtain ⟨hlog, hlast⟩ := List.append_inj' hshape rfl
      rw [List.mem_append, List.mem_singleton, not_or, ← List.singleton_inj.mp hlast] at hafter
      exact Or.inr ⟨⟨before, after, hlog, hafter.1⟩, Ne.symm hafter.2⟩
  · rintro (rfl | ⟨⟨before, after, rfl, hafter⟩, hne⟩)
    · exact ⟨log, [], rfl, List.not_mem_nil⟩
    · refine ⟨before, after ++ [e], by rw [List.append_assoc, List.cons_append], ?_⟩
      rw [List.mem_append, List.mem_singleton, not_or]
      exact ⟨hafter, Ne.symm hne⟩

variable [DecidableEq κ]

/-- One more entry: the tickets that are out and those that were redeemed. A
claim takes in the oldest ticket with its name. -/
def enter (s : List κ × List κ) : Ticket κ → List κ × List κ
  | issue k => (s.1 ++ [k], s.2)
  | claim k => if k ∈ s.1 then (s.1.erase k, s.2 ++ [k]) else s

/-- The tickets that are out, oldest first. -/
def out (log : List (Ticket κ)) : List κ := (log.foldl enter ([], [])).1

/-- The tickets that were redeemed, in the order of the claims. -/
def redeemed (log : List (Ticket κ)) : List κ := (log.foldl enter ([], [])).2

@[simp] theorem out_append_issue (log : List (Ticket κ)) (k : κ) :
    out (log ++ [issue k]) = out log ++ [k] := by
  rw [out, List.foldl_append]
  rfl

@[simp] theorem redeemed_append_issue (log : List (Ticket κ)) (k : κ) :
    redeemed (log ++ [issue k]) = redeemed log := by
  rw [redeemed, List.foldl_append]
  rfl

/-- What a claim does, in terms of what is out before it. -/
theorem foldl_append_claim (log : List (Ticket κ)) (k : κ) :
    (log ++ [claim k]).foldl enter ([], [])
      = if k ∈ out log then ((out log).erase k, redeemed log ++ [k])
        else (out log, redeemed log) := by
  rw [List.foldl_append]
  rfl

/-- A claim takes a ticket in, if it is out. -/
theorem out_append_claim (log : List (Ticket κ)) (k : κ) :
    out (log ++ [claim k]) = (out log).erase k := by
  rw [out, foldl_append_claim]
  split_ifs with hk
  · rfl
  · exact (List.erase_of_not_mem hk).symm

/-- It counts only then. -/
theorem redeemed_append_claim (log : List (Ticket κ)) (k : κ) :
    redeemed (log ++ [claim k]) = if k ∈ out log then redeemed log ++ [k] else redeemed log := by
  rw [redeemed, foldl_append_claim]
  split_ifs <;> rfl

/-- Claims for tickets that are not out do nothing. -/
theorem enter_claims {log : List (Ticket κ)} {ks : List κ} (h : ∀ k ∈ ks, k ∉ out log) :
    out (log ++ ks.map claim) = out log ∧ redeemed (log ++ ks.map claim) = redeemed log := by
  induction ks using List.reverseRecOn with
  | nil =>
    rw [List.map_nil, List.append_nil]
    exact ⟨rfl, rfl⟩
  | append_singleton ks k ih =>
    obtain ⟨hout, hredeemed⟩ := ih (fun k' hk' => h k' (List.mem_append_left _ hk'))
    have hk : k ∉ out (log ++ ks.map claim) :=
      hout.symm ▸ h k (List.mem_append_right _ List.mem_cons_self)
    rw [List.map_append, ← List.append_assoc, List.map_singleton, out_append_claim,
      redeemed_append_claim, if_neg hk, List.erase_of_not_mem hk]
    exact ⟨hout, hredeemed⟩

/-- **What was issued is out or was redeemed**, and once. -/
theorem perm_issued (log : List (Ticket κ)) : (out log ++ redeemed log).Perm (issued log) := by
  induction log using List.reverseRecOn with
  | nil => exact List.Perm.refl _
  | append_singleton log e ih =>
    rw [issued_append]
    cases e with
    | issue k =>
      rw [out_append_issue, redeemed_append_issue, List.append_assoc]
      have hmove : (out log ++ ([k] ++ redeemed log)).Perm (out log ++ redeemed log ++ [k]) := by
        rw [List.append_assoc]
        exact List.Perm.append_left _ List.perm_append_comm
      exact hmove.trans (ih.append_right [k])
    | claim k =>
      rw [out_append_claim, redeemed_append_claim, show issued [claim k] = [] from rfl,
        List.append_nil]
      split_ifs with hk
      · have hmove : ((out log).erase k ++ (redeemed log ++ [k])).Perm
            (k :: (out log).erase k ++ redeemed log) := by
          rw [← List.append_assoc, List.cons_append]
          exact List.perm_append_singleton k _
        exact (hmove.trans ((List.perm_cons_erase hk).symm.append_right _)).trans ih
      · rw [List.erase_of_not_mem hk]
        exact ih

/-- No ticket is both out and redeemed, or either of them twice, if none is
issued twice. -/
theorem nodup_out_append_redeemed {log : List (Ticket κ)} (h : (issued log).Nodup) :
    (out log ++ redeemed log).Nodup :=
  (perm_issued log).nodup_iff.mpr h

/-- **No ticket is redeemed twice.** -/
theorem nodup_redeemed {log : List (Ticket κ)} (h : (issued log).Nodup) : (redeemed log).Nodup :=
  (nodup_out_append_redeemed h).of_append_right

/-- **A ticket that is redeemed was issued.** -/
theorem mem_issued_of_mem_redeemed {log : List (Ticket κ)} {k : κ} (h : k ∈ redeemed log) :
    k ∈ issued log :=
  (perm_issued log).subset (List.mem_append_right _ h)

/-- No more tickets are redeemed than were issued, whatever is claimed. -/
theorem length_redeemed_le (log : List (Ticket κ)) :
    (redeemed log).length ≤ (issued log).length := by
  rw [← (perm_issued log).length_eq, List.length_append]
  exact Nat.le_add_left _ _

/-- **The tickets that are out** are those issued and not claimed since. -/
theorem mem_out_iff {log : List (Ticket κ)} (h : (issued log).Nodup) {k : κ} :
    k ∈ out log ↔ IsOut log k := by
  induction log using List.reverseRecOn with
  | nil =>
    refine iff_of_false List.not_mem_nil (fun hout => ?_)
    exact List.not_mem_nil hout.mem_issued
  | append_singleton log e ih =>
    rw [issued_append] at h
    have ih := ih h.of_append_left
    rw [isOut_append_singleton]
    cases e with
    | issue k' =>
      rw [out_append_issue, List.mem_append, List.mem_singleton, ih, or_comm]
      exact or_congr ⟨fun hk => congrArg issue hk.symm, fun hk => (Ticket.issue.inj hk).symm⟩
        (iff_self_and.mpr (fun _ => nofun))
    | claim k' =>
      have hnodup : (out log).Nodup := (nodup_out_append_redeemed h.of_append_left).of_append_left
      rw [out_append_claim, hnodup.mem_erase_iff, ih, and_comm]
      constructor
      · exact fun hk => Or.inr ⟨hk.1, fun heq => hk.2 (Ticket.claim.inj heq).symm⟩
      · rintro (heq | ⟨hout, hne⟩)
        · cases heq
        · exact ⟨hout, fun hk => hne (congrArg claim hk.symm)⟩

end Ticket
