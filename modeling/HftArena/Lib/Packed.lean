import Mathlib.Algebra.Order.Ring.Nat
import Mathlib.Data.Nat.Notation
import Mathlib.Tactic.Ring
import Mathlib.Tactic.NormNum

/-!
# Packed little-endian structures

Integers as bytes, least significant first (`toLE`, `ofLE`), with negative
numbers in two's complement (`signedLE`), and records of them laid end to end
without padding – what Python's `struct` packs and unpacks under a format that
starts with `<`. A value that its field has no room for is refused when it is
packed; a buffer of the wrong length is refused when it is unpacked.

`unpack_pack` is the round trip. A reader that does not unpack a buffer but
takes slices of it at offsets reads the same fields, since `fields` is a list
of slices (`slice`).
-/

/-- The `w` low bytes of a number, least significant first. -/
def toLE : ℕ → ℕ → List UInt8
  | 0, _ => []
  | w + 1, n => UInt8.ofNat (n % 256) :: toLE w (n / 256)

/-- The number with these bytes, least significant first. -/
def ofLE : List UInt8 → ℕ
  | [] => 0
  | b :: bs => b.toNat + 256 * ofLE bs

@[simp] theorem length_toLE (w n : ℕ) : (toLE w n).length = w := by
  induction w generalizing n with
  | zero => rfl
  | succ w ih => rw [toLE, List.length_cons, ih]

/-- **Bytes and back**: what does not fit is cut off. -/
theorem ofLE_toLE (w n : ℕ) : ofLE (toLE w n) = n % 256 ^ w := by
  induction w generalizing n with
  | zero => rw [pow_zero, Nat.mod_one]; rfl
  | succ w ih =>
    have hbyte : (UInt8.ofNat (n % 256)).toNat = n % 256 := by
      rw [UInt8.toNat_ofNat']
      omega
    rw [toLE, ofLE, ih, hbyte, pow_succ', Nat.mod_mul]

/-- A number that fits comes back. -/
theorem ofLE_toLE_of_lt {w n : ℕ} (h : n < 256 ^ w) : ofLE (toLE w n) = n := by
  rw [ofLE_toLE, Nat.mod_eq_of_lt h]

/-- Bytes read as a number in two's complement: the upper half of the numbers
stands for the negative ones. -/
def signedLE (bs : List UInt8) : ℤ :=
  if 2 * ofLE bs < 256 ^ bs.length then ofLE bs else (ofLE bs : ℤ) - 256 ^ bs.length

/-- The `w` low bytes of an integer in two's complement. -/
def toLEInt (w : ℕ) (v : ℤ) : List UInt8 := toLE w (v % (256 ^ w : ℕ)).toNat

@[simp] theorem length_toLEInt (w : ℕ) (v : ℤ) : (toLEInt w v).length = w := length_toLE _ _

/-- A number that fits has the same bytes as an integer. -/
theorem toLEInt_natCast {w n : ℕ} (h : n < 256 ^ w) : toLEInt w (n : ℤ) = toLE w n := by
  rw [toLEInt, Int.emod_eq_of_lt (by positivity) (by exact_mod_cast h), Int.toNat_natCast]

/-- The number an integer's bytes spell. -/
theorem ofLE_toLEInt (w : ℕ) (v : ℤ) : (ofLE (toLEInt w v) : ℤ) = v % (256 ^ w : ℕ) := by
  have hpos : (0 : ℤ) < (256 ^ w : ℕ) := by positivity
  have hnonneg := Int.emod_nonneg v hpos.ne'
  have hlt := Int.emod_lt_of_pos v hpos
  rw [toLEInt, ofLE_toLE_of_lt (by omega), Int.toNat_of_nonneg hnonneg]

/-- **An integer and back**, in two's complement. -/
theorem signedLE_toLEInt {w : ℕ} {v : ℤ} (hlo : -(256 ^ w : ℕ) ≤ 2 * v)
    (hhi : 2 * v < (256 ^ w : ℕ)) : signedLE (toLEInt w v) = v := by
  have hpow : (256 ^ w : ℤ) = ((256 ^ w : ℕ) : ℤ) := by push_cast; rfl
  have hbytes := ofLE_toLEInt w v
  unfold signedLE
  rw [length_toLEInt, hpow]
  rcases le_or_gt 0 v with hv | hv
  · have hmod : v % (256 ^ w : ℕ) = v := Int.emod_eq_of_lt hv (by omega)
    rw [hmod] at hbytes
    rw [if_pos (by omega), hbytes]
  · have hmod : v % (256 ^ w : ℕ) = v + (256 ^ w : ℕ) := by
      rw [← Int.add_emod_right, Int.emod_eq_of_lt (by omega) (by omega)]
    rw [hmod] at hbytes
    rw [if_neg (by omega), hbytes]
    omega

/-- Bytes spell a number that they have room for. -/
theorem ofLE_lt (bs : List UInt8) : ofLE bs < 256 ^ bs.length := by
  induction bs with
  | nil => exact Nat.one_pos
  | cons b bs ih =>
    have hb := b.toNat_lt
    rw [ofLE, List.length_cons, pow_succ]
    omega

/-- Bytes spell a number that as many bytes have room for. -/
theorem signedLE_bounds (bs : List UInt8) :
    -(256 ^ bs.length : ℕ) ≤ 2 * signedLE bs ∧ 2 * signedLE bs < (256 ^ bs.length : ℕ) := by
  have hlt := ofLE_lt bs
  have hpow : (256 ^ bs.length : ℤ) = ((256 ^ bs.length : ℕ) : ℤ) := by push_cast; rfl
  unfold signedLE
  rw [hpow]
  split_ifs <;> omega

/-! ## Fields and formats

A format is a list of kinds of fields, with no room between them. It can be
packed exactly what has room in each field, and that is what is read back. -/

/-- **A field**: an unsigned or a signed integer of some bytes. -/
inductive FieldKind where
  | unsigned (w : ℕ)
  | signed (w : ℕ)
deriving DecidableEq, Repr

namespace FieldKind

/-- The bytes of a field. -/
def width : FieldKind → ℕ
  | .unsigned w => w
  | .signed w => w

/-- Whether a field has room for a value: from 0 on for an unsigned field, as
many below 0 as from it for a signed one. -/
def Holds : FieldKind → ℤ → Prop
  | .unsigned w, v => 0 ≤ v ∧ v < (256 ^ w : ℕ)
  | .signed w, v => -(256 ^ w : ℕ) ≤ 2 * v ∧ 2 * v < (256 ^ w : ℕ)

instance : ∀ k v, Decidable (Holds k v)
  | .unsigned w, v => inferInstanceAs (Decidable (0 ≤ v ∧ v < (256 ^ w : ℕ)))
  | .signed w, v => inferInstanceAs (Decidable (-(256 ^ w : ℕ) ≤ 2 * v ∧ 2 * v < (256 ^ w : ℕ)))

/-- The value of a field's bytes. -/
def read : FieldKind → List UInt8 → ℤ
  | .unsigned _, bs => ofLE bs
  | .signed _, bs => signedLE bs

/-- A field is read as what was written, if it had room for it. -/
theorem read_toLEInt {k : FieldKind} {v : ℤ} (h : k.Holds v) : k.read (toLEInt k.width v) = v := by
  cases k with
  | unsigned w =>
    show ((ofLE (toLEInt w v) : ℕ) : ℤ) = v
    rw [ofLE_toLEInt, Int.emod_eq_of_lt h.1 h.2]
  | signed w => exact signedLE_toLEInt h.1 h.2

end FieldKind

/-- A part of a buffer: so many bytes from an offset on. -/
def slice (bs : List UInt8) (offset n : ℕ) : List UInt8 := (bs.drop offset).take n

/-- The bytes of a format. -/
def formatSize (ks : List FieldKind) : ℕ := (ks.map FieldKind.width).sum

/-- The bytes of values laid end to end. -/
def packed (ks : List FieldKind) (vs : List ℤ) : List UInt8 :=
  (List.zipWith (fun k v => toLEInt k.width v) ks vs).flatten

/-- **Packing values** under a format: there must be as many values as fields,
and each field must have room for its value. -/
def pack : List FieldKind → List ℤ → Option (List UInt8)
  | [], [] => some []
  | k :: ks, v :: vs => if k.Holds v then (pack ks vs).map (toLEInt k.width v ++ ·) else none
  | _, _ => none

/-- The fields of a buffer that is long enough, read one after the other. A
buffer that is longer has the same fields; one that is shorter is read as far
as it goes, which is why `unpack` looks at the length first. -/
def fields : List FieldKind → List UInt8 → List ℤ
  | [], _ => []
  | k :: ks, bs => k.read (bs.take k.width) :: fields ks (bs.drop k.width)

/-- **Unpacking a buffer** under a format: the buffer must have exactly the
format's size. -/
def unpack (ks : List FieldKind) (bs : List UInt8) : Option (List ℤ) :=
  if bs.length = formatSize ks then some (fields ks bs) else none

/-- Values that their fields have room for are packed. -/
theorem pack_of_holds {ks : List FieldKind} {vs : List ℤ}
    (h : List.Forall₂ FieldKind.Holds ks vs) : pack ks vs = some (packed ks vs) := by
  induction h with
  | nil => rfl
  | cons hv _ ih =>
    rw [pack, if_pos hv, ih]
    rfl

/-- Values are packed if and only if there are as many as fields, and their
fields have room for them. -/
theorem isSome_pack_iff {ks : List FieldKind} {vs : List ℤ} :
    (pack ks vs).isSome ↔ List.Forall₂ FieldKind.Holds ks vs := by
  refine ⟨fun h => ?_, fun h => by rw [pack_of_holds h]; rfl⟩
  induction ks generalizing vs with
  | nil =>
    cases vs with
    | nil => exact .nil
    | cons v vs => cases h
  | cons k ks ih =>
    cases vs with
    | nil => cases h
    | cons v vs =>
      rw [pack] at h
      split_ifs at h with hv
      · rw [Option.isSome_map] at h
        exact .cons hv (ih h)
      · cases h

/-- A packed buffer has the fields that were packed, and its format's size. -/
theorem fields_of_pack {ks : List FieldKind} {vs : List ℤ} {bs : List UInt8}
    (h : pack ks vs = some bs) : bs.length = formatSize ks ∧ fields ks bs = vs := by
  induction ks generalizing vs bs with
  | nil =>
    cases vs with
    | nil => cases h; exact ⟨rfl, rfl⟩
    | cons v vs => cases h
  | cons k ks ih =>
    cases vs with
    | nil => cases h
    | cons v vs =>
      rw [pack] at h
      split_ifs at h with hv
      obtain ⟨bs', hbs', rfl⟩ := Option.map_eq_some_iff.mp h
      obtain ⟨hlen, hfields⟩ := ih hbs'
      refine ⟨by simp [formatSize, hlen], ?_⟩
      have htake : (toLEInt k.width v ++ bs').take k.width = toLEInt k.width v := by
        rw [List.take_append_of_le_length (by simp), List.take_of_length_le (by simp)]
      have hdrop : (toLEInt k.width v ++ bs').drop k.width = bs' := by
        rw [List.drop_append_of_le_length (by simp), List.drop_of_length_le (by simp),
          List.nil_append]
      rw [fields, htake, hdrop, hfields, FieldKind.read_toLEInt hv]

/-- **Packing and unpacking** give back the values. -/
theorem unpack_pack {ks : List FieldKind} {vs : List ℤ} {bs : List UInt8}
    (h : pack ks vs = some bs) : unpack ks bs = some vs := by
  obtain ⟨hlen, hfields⟩ := fields_of_pack h
  rw [unpack, if_pos hlen, hfields]
