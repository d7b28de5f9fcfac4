import Mathlib.Analysis.SpecialFunctions.Exp
import HftArena.Telemetry.Percentiles

/-!
# The two latency mappings

`bucket_of` of `bot_fleet/fleet.py` puts a latency into a bucket, and
`bucket_us` of `telemetry/metrics.py` gives a bucket its latency; that they
belong together is said in comments only. Here both are over any ordered field
with a floor, the reals among them, and rest on one pair of `log1p` and
`expm1`.

Below the last bucket, a bucket is an interval of latencies
(`bucketOf_eq_iff`), and all else about the mappings is read off that. Into the
last one goes every latency that is too large for the others, so that its value
says nothing about them.
-/

open Fleet

namespace Telemetry

/-- `SCALE`, in both. -/
def scale : ℕ := 16

/-- It is sixteen, in every field. -/
theorem cast_scale {K : Type} [Field K] : (scale : K) = 16 := Nat.cast_ofNat

/-- What the histogram has a bucket for:
`255 if b > 255 else (0 if b < 0 else b)`. -/
def clamp (b : ℤ) : Bucket :=
  ⟨(if 255 < b then 255 else if b < 0 then 0 else b).toNat, by split_ifs <;> omega⟩

/-- It cuts off on both sides. -/
theorem val_clamp (b : ℤ) : ((clamp b).val : ℤ) = max 0 (min 255 b) := by
  show (((if 255 < b then 255 else if b < 0 then 0 else b).toNat : ℕ) : ℤ) = _
  split_ifs <;> omega

/-- The bots count in it. -/
theorem bucketOf_eq_clamp (scaled : ℚ → ℤ) (us : ℚ) :
    bucketOf scaled us = clamp (scaled (max us 0)) := by
  refine Fin.ext (Int.ofNat_inj.mp ((val_clamp _).symm ▸ ?_))
  unfold bucketOf
  dsimp only
  split_ifs with hlarge hneg
  · show (255 : ℤ) = _
    omega
  · show (0 : ℤ) = _
    omega
  · rw [Fin.val_ofNat]
    omega

/-- **A scale**: `log1p` and `expm1`, which undo each other and ascend, on what
is not negative. Nothing else is asked of the two functions. -/
structure LogScale (K : Type) [Field K] [LinearOrder K] where
  log1p : K → K
  expm1 : K → K
  log1p_zero : log1p 0 = 0
  strictMonoOn_log1p : StrictMonoOn log1p (Set.Ici 0)
  strictMonoOn_expm1 : StrictMonoOn expm1 (Set.Ici 0)
  expm1_log1p : ∀ x, 0 ≤ x → expm1 (log1p x) = x
  log1p_expm1 : ∀ y, 0 ≤ y → log1p (expm1 y) = y

namespace LogScale

section

variable {K : Type} [Field K] [LinearOrder K]

/-- `bucket_of`. -/
def bucketOf [FloorRing K] (sc : LogScale K) (us : K) : Bucket :=
  clamp (truncate (sc.log1p (max us 0) * scale))

/-- `bucket_us`. -/
def bucketUs (sc : LogScale K) (b : Bucket) : K := sc.expm1 ((b.val + 1 / 2) / scale)

/-- Where a bucket begins. -/
def edge (sc : LogScale K) (n : ℕ) : K := sc.expm1 (n / scale)

variable {sc : LogScale K} {us : K} {b : Bucket}

/-- It begins at zero. -/
theorem expm1_zero (sc : LogScale K) : sc.expm1 0 = 0 := by
  have hzero := sc.expm1_log1p 0 le_rfl
  rwa [sc.log1p_zero] at hzero

/-- The logarithm of a latency is not negative, -/
theorem log1p_nonneg (sc : LogScale K) (hus : 0 ≤ us) : 0 ≤ sc.log1p us := by
  rw [← sc.log1p_zero]
  exact sc.strictMonoOn_log1p.monotoneOn Set.self_mem_Ici hus hus

/-- and neither is the latency of a logarithm. -/
theorem expm1_nonneg (sc : LogScale K) {y : K} (hy : 0 ≤ y) : 0 ≤ sc.expm1 y := by
  rw [← sc.expm1_zero]
  exact sc.strictMonoOn_expm1.monotoneOn Set.self_mem_Ici hy hy

/-- `expm1` and `log1p` are a connection between latencies and their
logarithms. -/
theorem expm1_le_iff (sc : LogScale K) {y : K} (hy : 0 ≤ y) (hus : 0 ≤ us) :
    sc.expm1 y ≤ us ↔ y ≤ sc.log1p us := by
  rw [← sc.strictMonoOn_expm1.le_iff_le hy (sc.log1p_nonneg hus), sc.expm1_log1p us hus]

variable [IsStrictOrderedRing K]

/-- The scale is positive. -/
theorem scale_pos : (0 : K) < scale := Nat.cast_pos.mpr (by decide)

/-- **On rational latencies it is what the bots count with**. -/
theorem bucketOf_cast [FloorRing K] (sc : LogScale K) (us : ℚ) :
    sc.bucketOf us = Fleet.bucketOf (scaledBy (fun us => sc.log1p us)) us := by
  rw [bucketOf_eq_clamp, bucketOf, scaledBy, Rat.cast_max, Rat.cast_zero, cast_scale]

/-- Telemetry's values of rational buckets are those of their scale. -/
theorem bucketUs_eq (sc : LogScale ℚ) : sc.bucketUs = Telemetry.bucketUs sc.expm1 := by
  funext b
  rw [bucketUs, cast_scale, Telemetry.bucketUs]

/-- A bucket, where there is no need to cut off below. -/
theorem val_bucketOf [FloorRing K] (hus : 0 ≤ us) :
    ((sc.bucketOf us).val : ℤ) = min 255 ⌊sc.log1p us * scale⌋ := by
  have hpos : 0 ≤ sc.log1p us * scale := mul_nonneg (sc.log1p_nonneg hus) scale_pos.le
  have hfloor : 0 ≤ ⌊sc.log1p us * scale⌋ := Int.floor_nonneg.mpr hpos
  rw [bucketOf, val_clamp, max_eq_left hus, truncate, if_pos hpos]
  exact max_eq_right (le_min (by norm_num) hfloor)

/-- **A bucket is an interval of latencies**, below the last one. -/
theorem bucketOf_eq_iff [FloorRing K] (hus : 0 ≤ us) (hb : b < 255) :
    sc.bucketOf us = b ↔ us ∈ Set.Ico (sc.edge b.val) (sc.edge (b.val + 1)) := by
  have hb' : (b.val : ℤ) < 255 := by exact_mod_cast Fin.lt_def.mp hb
  have hedge : ∀ n : ℕ, sc.edge n ≤ us ↔ (n : K) ≤ sc.log1p us * scale := fun n => by
    rw [edge, sc.expm1_le_iff (by positivity) hus, div_le_iff₀ scale_pos]
  rw [Set.mem_Ico, ← not_le, hedge, hedge, not_le, Nat.cast_succ]
  have hval : sc.bucketOf us = b ↔ ⌊sc.log1p us * scale⌋ = (b.val : ℤ) := by
    have hmin : ((sc.bucketOf us).val : ℤ) = min 255 ⌊sc.log1p us * scale⌋ := val_bucketOf hus
    rw [← Fin.val_inj]
    omega
  rw [hval, Int.floor_eq_iff, Int.cast_natCast]

/-- The value of a bucket is above its lower edge -/
theorem edge_lt_bucketUs (sc : LogScale K) (b : Bucket) : sc.edge b.val < sc.bucketUs b := by
  refine sc.strictMonoOn_expm1 (Set.mem_Ici.mpr (by positivity))
    (Set.mem_Ici.mpr (by positivity)) ?_
  exact div_lt_div_of_pos_right (lt_add_of_pos_right _ (by norm_num)) scale_pos

/-- and below its upper one. -/
theorem bucketUs_lt_edge (sc : LogScale K) (b : Bucket) : sc.bucketUs b < sc.edge (b.val + 1) := by
  refine sc.strictMonoOn_expm1 (Set.mem_Ici.mpr (by positivity))
    (Set.mem_Ici.mpr (by positivity)) ?_
  rw [Nat.cast_succ]
  exact div_lt_div_of_pos_right (add_lt_add_right (by norm_num) _) scale_pos

/-- **The bucket ascends with the latency**, whatever is cut off. -/
theorem monotone_bucketOf [FloorRing K] (sc : LogScale K) : Monotone sc.bucketOf := by
  intro us us' hle
  have hmax : ∀ us, sc.bucketOf us = sc.bucketOf (max us 0) := fun us => by
    unfold bucketOf
    rw [max_assoc, max_self]
  have hlog : sc.log1p (max us 0) ≤ sc.log1p (max us' 0) :=
    sc.strictMonoOn_log1p.monotoneOn (le_max_right us 0) (le_max_right us' 0)
      (max_le_max_right 0 hle)
  have hfloor : ⌊sc.log1p (max us 0) * scale⌋ ≤ ⌊sc.log1p (max us' 0) * scale⌋ :=
    Int.floor_le_floor (mul_le_mul_of_nonneg_right hlog scale_pos.le)
  rw [hmax us, hmax us', Fin.le_def, ← Int.ofNat_le]
  show ((_ : ℕ) : ℤ) ≤ ((_ : ℕ) : ℤ)
  rw [val_bucketOf (le_max_right us 0), val_bucketOf (le_max_right us' 0)]
  exact min_le_min_left 255 hfloor

/-- **The two latency mappings agree.** The bucket ascends with the latency,
and below the last bucket a latency and the value of its bucket are between the
same two edges, so that the value of a bucket is in the bucket.

It is enough that `log1p` and `expm1` are a pair and ascend. That they are a
logarithm and an exponential decides how far apart the edges are, and no
more. -/
theorem mappings_agree [FloorRing K] (sc : LogScale K) :
    Monotone sc.bucketOf ∧ ∀ us, 0 ≤ us → ∀ b, sc.bucketOf us = b → b < 255 →
      us ∈ Set.Ico (sc.expm1 (b.val / 16)) (sc.expm1 ((b.val + 1) / 16))
        ∧ sc.bucketUs b ∈ Set.Ico (sc.expm1 (b.val / 16)) (sc.expm1 ((b.val + 1) / 16))
        ∧ sc.bucketOf (sc.bucketUs b) = b := by
  refine ⟨sc.monotone_bucketOf, fun us hus b hbucket hb => ?_⟩
  rw [← cast_scale]
  have hedge : sc.expm1 ((b.val + 1) / scale) = sc.edge (b.val + 1) := by rw [edge, Nat.cast_succ]
  have hvalue : sc.bucketUs b ∈ Set.Ico (sc.edge b.val) (sc.edge (b.val + 1)) :=
    ⟨(sc.edge_lt_bucketUs b).le, sc.bucketUs_lt_edge b⟩
  have hpos : 0 ≤ sc.bucketUs b := sc.expm1_nonneg (by positivity)
  rw [hedge]
  exact ⟨(bucketOf_eq_iff hus hb).mp hbucket, hvalue, (bucketOf_eq_iff hpos hb).mpr hvalue⟩

end

/-- The logarithm and the exponential. -/
noncomputable def real : LogScale ℝ where
  log1p us := Real.log (1 + us)
  expm1 y := Real.exp y - 1
  log1p_zero := by rw [add_zero, Real.log_one]
  strictMonoOn_log1p := fun us hus us' _ hlt => by
    have hpos : 0 ≤ us := hus
    exact Real.log_lt_log (by linarith) (by linarith)
  strictMonoOn_expm1 := fun y _ y' _ hlt => sub_lt_sub_right (Real.exp_lt_exp.mpr hlt) 1
  expm1_log1p := fun x hx => by rw [Real.exp_log (by linarith), add_sub_cancel_left]
  log1p_expm1 := fun y _ => by rw [add_sub_cancel, Real.log_exp]

/-- A latency of a microsecond. -/
theorem mappings_agree_at_one :
    real.bucketOf (real.bucketUs (real.bucketOf 1)) = real.bucketOf 1 := by
  have hlog : real.log1p 1 ≤ 1 := by
    have hsub := Real.log_le_sub_one_of_pos (show (0 : ℝ) < 1 + 1 by norm_num)
    exact hsub.trans (by norm_num)
  have hfloor : ⌊real.log1p 1 * scale⌋ ≤ 16 := by
    have hle : real.log1p 1 * scale ≤ (16 : ℤ) := by
      rw [cast_scale]
      push_cast
      linarith
    exact (Int.floor_le_floor hle).trans_eq (Int.floor_intCast 16)
  have hsmall : real.bucketOf 1 < 255 := by
    have hval : ((real.bucketOf 1).val : ℤ) = min 255 ⌊real.log1p 1 * scale⌋ :=
      val_bucketOf zero_le_one
    rw [Fin.lt_def]
    show _ < 255
    omega
  exact ((mappings_agree real).2 1 zero_le_one _ rfl hsmall).2.2

end LogScale

end Telemetry
