import HftArena.Fleet.Accepts

/-!
# The probe and a peer that answers at once

What the probe makes of a peer that answers each of its messages with an
acknowledgement, and the taker with two fills besides: each iteration comes to
its verdict on these two fills, whoever the peer is (`roundsWith_peer`). What
the peer keeps from one iteration to the next is a parameter.

The honest engine and the one that cheats are two such peers, with different
fills; what the probe does with them is proved here once.
-/

open Wire

namespace Fleet

namespace Probe

variable {σ : Type} {wire : Wire.Mode} {answer : Frame → σ → List (Heard Frame) × σ}

/-- Two fills are what is waited for, so nothing behind them is read. -/
theorem expectFills_two {tk : ℤ} {f f' : Frame} {g g' : Fill} (hf : readFill tk wire f = .fill g)
    (hf' : readFill tk wire f' = .fill g') :
    expectFills wire tk 2 [] [.frame f, .frame f'] = .returns [g, g'] [] := by
  rw [expectFills_frame (by decide), hf]
  show expectFills wire tk 2 [g] [.frame f'] = _
  rw [expectFills_frame (show [g].length < 2 from Nat.one_lt_two), hf']
  show expectFills wire tk 2 [g, g'] [] = _
  exact expectFills_of_le (show 2 ≤ [g, g'].length from le_rfl) _

/-- **What a peer does in an iteration**: it goes from a state to another, and
this is what it sends as the fills of the taker. The four messages of the
iteration are the two makers, the taker and the cancel of the second maker. -/
structure Answers (wire : Wire.Mode) (answer : Frame → σ → List (Heard Frame) × σ) (it : ℕ)
    (st st' : σ) (g g' : Fill) : Prop where
  exchange : ∃ st₁ st₂ st₃ ackA ackB ackC f f',
    answer ((Msg.limit (makerA it) true (px it) 5).frame wire) st = ([.frame ackA], st₁)
    ∧ answer ((Msg.limit (makerB it) true (px it) 5).frame wire) st₁ = ([.frame ackB], st₂)
    ∧ answer ((Msg.limit (taker it) false (px it) 6).frame wire) st₂
      = ([.frame ackC, .frame f, .frame f'], st₃)
    ∧ readFill (taker it) wire f = .fill g ∧ readFill (taker it) wire f' = .fill g'
    ∧ ∃ ackX, answer ((Msg.cancel (taker it + 1) (makerB it)).frame wire) st₃
      = ([.frame ackX], st')

/-- **An iteration with a peer** comes to its verdict on the fills that it
sends. -/
theorem Answers.iteration {it : ℕ} {st st' : σ} {g g' : Fill}
    (h : Answers wire answer it st st' g g') (hfits : Sendable wire it) :
    ∃ st₃, exchangeWith wire answer it [] st = (.returns [g, g'] [], st₃)
      ∧ cleanUpWith wire answer it [] st₃ = (.returns () [], st') := by
  obtain ⟨st₁, st₂, st₃, ackA, ackB, ackC, f, f', hA, hB, hC, hf, hf', ackX, hX⟩ := h.exchange
  obtain ⟨hfitsB, hfitsC, hfitsX⟩ := hfits.fits
  refine ⟨st₃, ?_, ?_⟩
  · rw [exchangeWith, askTo hfits hA]
    show (sayTo wire _ _ >>= fun _ => _) [] _ = _
    rw [askTo hfitsB hB]
    show (sayTo wire _ _ >>= fun _ => _) [] _ = _
    rw [askTo hfitsC hC]
    exact congrArg (·, st₃) (expectFills_two hf hf')
  · rw [cleanUpWith, Live.bind_apply, sayTo_apply hfitsX, hX]
    rfl

/-- **The iterations with a peer** that keeps to an invariant, up to the last
of them: the verdict on each is the one on the fills that it sends. -/
theorem roundsWith_peer (Inv : ℕ → σ → Prop) (fills : ℕ → Fill × Fill) {last : ℕ}
    (hpeer : ∀ it st, it < last → Inv it st → Sendable wire it →
      ∃ st', Answers wire answer it st st' (fills it).1 (fills it).2 ∧ Inv (it + 1) st')
    (n : ℕ) {it : ℕ} (hlast : it + n = last) {st : σ} (hst : Inv it st)
    (hfits : ∀ it' ∈ List.range' it n, Sendable wire it') :
    ∃ st', roundsWith wire answer (List.range' it n) [] st
        = (((List.range' it n).map (fun it => decide ([(fills it).1, (fills it).2] = expected it)),
          .completed), st')
      ∧ Inv last st' := by
  induction n generalizing it st with
  | zero =>
    subst hlast
    exact ⟨st, rfl, hst⟩
  | succ n ih =>
    rw [List.range'_succ] at hfits ⊢
    obtain ⟨hfit, hfits⟩ := List.forall_mem_cons.mp hfits
    -- this iteration, and the invariant for the next
    obtain ⟨st₁, hanswers, hinv⟩ := hpeer it st (by omega) hst hfit
    obtain ⟨st₃, hexchange, hcleanUp⟩ := hanswers.iteration hfit
    obtain ⟨st', hrounds, hst'⟩ := ih (by omega) hinv hfits
    refine ⟨st', ?_, hst'⟩
    rw [roundsWith, hexchange]
    dsimp only
    rw [hcleanUp]
    dsimp only
    rw [hrounds, List.map_cons]

end Probe

end Fleet
