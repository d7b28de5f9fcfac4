import Mathlib.Algebra.Order.Group.Int
import Mathlib.Data.List.Nodup

/-!
# Flat JSON objects

JSON texts of one kind: an object that is not empty, without a key twice, whose
values are integers and strings without escapes. What the rules of JSON make of
such a text is `read`; of any other text `read` says nothing, and a parser for
all of JSON may make of it whatever it does.

A library writes such an object with blanks after its commas and colons or
without, and either way it is read back (`read_write`). The number of blanks is
a parameter of `write`, and reading skips them wherever they are allowed.

The proof follows the text. A string is cut off at its quotation mark, since no
plain character is one; an integer is cut off at the first character that is
none of its own, and its digits are those of its value (`readInt_digits`); a
field is therefore read up to the comma or the brace that comes after it
(`readFields_field`), and the fields one after the other by induction.
-/

namespace FlatJson

/-- A value. -/
inductive Scalar where
  | int (n : ℤ)
  | str (s : String)
deriving DecidableEq

/-- The quotation mark. -/
def quote : Char := Char.ofNat 34

/-- The escape character. -/
def escape : Char := Char.ofNat 92

/-- A character that stands for itself in a string: it is not the quotation
mark, not the escape character and not a control character. -/
def plain (c : Char) : Bool := c != quote && c != escape && decide (32 ≤ c.toNat)

/-- Characters of integers. -/
def numeric (c : Char) : Bool := c.isDigit || c == '-'

/-! ## Writing

The writer puts as many blanks after a comma and a colon as it is told, since
`json.dumps` puts one and an f-string none. -/

/-- The decimal digits of an integer, with its sign. -/
def digits (n : ℤ) : List Char := (toString n).toList

/-- A string between quotation marks. -/
def quoted (s : String) : List Char := quote :: (s.toList ++ [quote])

/-- The text of a value. -/
def Scalar.text : Scalar → List Char
  | int n => digits n
  | str s => quoted s

/-- Some blanks. -/
def blanks (gap : ℕ) : List Char := List.replicate gap ' '

/-- A key and its value. -/
def field (gap : ℕ) (f : String × Scalar) : List Char :=
  quoted f.1 ++ ':' :: (blanks gap ++ f.2.text)

/-- The fields, up to the end of the text. -/
def fields (gap : ℕ) : List (String × Scalar) → List Char
  | [] => ['}']
  | [f] => field gap f ++ ['}']
  | f :: fs => field gap f ++ ',' :: (blanks gap ++ fields gap fs)

theorem fields_singleton (gap : ℕ) (f : String × Scalar) : fields gap [f] = field gap f
    ++ ['}'] := rfl

theorem fields_cons_cons (gap : ℕ) (f g : String × Scalar) (fs : List (String × Scalar)) :
    fields gap (f :: g :: fs) = field gap f ++ ',' :: (blanks gap ++ fields gap (g :: fs)) := rfl

/-- **An object as a text**, with so many blanks after commas and colons. -/
def write (gap : ℕ) (fs : List (String × Scalar)) : String := String.ofList ('{' :: fields gap fs)

/-! ## Reading

The reader is for what the writer writes, with any blanks between its parts:
one object, whose values are integers and strings without escapes. -/

/-- A string whose quotation mark has been read: up to the next quotation mark,
if there is nothing before it that does not stand for itself. -/
def readQuoted (cs : List Char) : Option (String × List Char) :=
  match cs.dropWhile plain with
  | c :: rest => if c = quote then some (String.ofList (cs.takeWhile plain), rest) else none
  | [] => none

/-- The value of digits with a sign. -/
def value : List Char → ℤ
  | [] => 0
  | c :: cs =>
    if c = '-' then -(Nat.ofDigitChars 10 cs 0 : ℤ) else (Nat.ofDigitChars 10 (c :: cs) 0 : ℤ)

/-- An integer, as it is written: without leading zeros, and without a sign if
it is not negative. Other texts with the same value are not integers of this
kind. -/
def readInt (cs : List Char) : Option ℤ := if digits (value cs) = cs then some (value cs) else none

/-- A value, which is a string if it begins with a quotation mark and otherwise
an integer, with what comes after it. -/
def readScalar (cs : List Char) : Option (Scalar × List Char) :=
  match cs with
  | [] => none
  | c :: rest =>
    if c = quote then (readQuoted rest).map (fun r => (.str r.1, r.2))
    else (readInt (cs.takeWhile numeric)).map (fun n => (.int n, cs.dropWhile numeric))

/-- The text after blanks. -/
def skip (cs : List Char) : List Char := cs.dropWhile (· == ' ')

/-- A character that has to come next, after blanks. -/
def expect (c : Char) (cs : List Char) : Option (List Char) :=
  match skip cs with
  | [] => none
  | c' :: rest => if c' = c then some rest else none

/-- The fields up to the end of the text: no more than so many. Nothing but
blanks may come after the brace that ends the object. -/
def readFields : ℕ → List Char → Option (List (String × Scalar))
  | 0, _ => none
  | n + 1, cs =>
    (expect quote cs).bind fun cs => (readQuoted cs).bind fun key =>
    (expect ':' key.2).bind fun cs => (readScalar (skip cs)).bind fun v =>
      match expect ',' v.2 with
      | some cs => (readFields n cs).map ((key.1, v.1) :: ·)
      | none => if skip v.2 = ['}'] then some [(key.1, v.1)] else none

/-- **An object that a text says.** -/
def read (s : String) : Option (List (String × Scalar)) :=
  (expect '{' s.toList).bind fun cs => (readFields cs.length cs).bind fun fs =>
    if (fs.map Prod.fst).Nodup then some fs else none

/-! ## What is written is read

Each part of the reader takes what the part of the writer has put in front of
any rest, and leaves the rest. -/

theorem digits_natCast (n : ℕ) : digits n = Nat.toDigits 10 n := by
  rw [← Nat.toList_repr]
  rfl

theorem digits_negSucc (n : ℕ) : digits (Int.negSucc n) = '-' :: Nat.toDigits 10 (n + 1) := by
  rw [← Nat.toList_repr]
  show ("-" ++ (n + 1).repr).toList = _
  rw [String.toList_append]
  rfl

/-- An integer has no characters but digits and the sign. -/
theorem numeric_digits (n : ℤ) : ∀ c ∈ digits n, numeric c = true := by
  have hnat : ∀ m : ℕ, ∀ c ∈ Nat.toDigits 10 m, numeric c = true := fun m c hc => by
    rw [numeric, Nat.isDigit_of_mem_toDigits (by decide) (by decide) hc, Bool.true_or]
  cases n with
  | ofNat m =>
    rw [show digits (Int.ofNat m) = _ from digits_natCast m]
    exact hnat m
  | negSucc m =>
    rw [digits_negSucc]
    exact List.forall_mem_cons.mpr ⟨rfl, hnat (m + 1)⟩

theorem digits_ne_nil (n : ℤ) : digits n ≠ [] := by
  cases n with
  | ofNat m =>
    rw [show digits (Int.ofNat m) = _ from digits_natCast m]
    exact Nat.toDigits_ne_nil
  | negSucc m =>
    rw [digits_negSucc]
    nofun

/-- **The digits of an integer have its value.** The sign is looked at apart
from the digits, and no digit is one. -/
theorem value_digits (n : ℤ) : value (digits n) = n := by
  cases n with
  | ofNat m =>
    rw [show digits (Int.ofNat m) = _ from digits_natCast m]
    cases hds : Nat.toDigits 10 m with
    | nil => exact absurd hds Nat.toDigits_ne_nil
    | cons c cs =>
      have hdigit := Nat.isDigit_of_mem_toDigits (b := 10) (n := m) (c := c) (by decide) (by decide)
        (by rw [hds]; exact List.mem_cons_self)
      have hsign : c ≠ '-' := by
        rintro rfl
        cases hdigit
      rw [value, if_neg hsign, ← hds, Nat.ofDigitChars_ten_toDigits]
      rfl
  | negSucc m =>
    rw [digits_negSucc, value, if_pos rfl, Nat.ofDigitChars_ten_toDigits]
    rfl

theorem readInt_digits (n : ℤ) : readInt (digits n) = some n := by
  rw [readInt, value_digits, if_pos rfl]

/-- A text is cut where the first character is that does not belong. -/
theorem cut_append {p : Char → Bool} {cs : List Char} {c : Char} (hcs : ∀ c ∈ cs, p c = true)
    (hc : p c = false) (rest : List Char) :
    (cs ++ c :: rest).takeWhile p = cs ∧ (cs ++ c :: rest).dropWhile p = c :: rest := by
  rw [List.takeWhile_append_of_pos hcs, List.dropWhile_append_of_pos hcs,
    List.takeWhile_cons_of_neg (by rw [hc]; nofun), List.dropWhile_cons_of_neg (by rw [hc]; nofun),
    List.append_nil]
  exact ⟨rfl, rfl⟩

/-- A string is read up to its quotation mark. -/
theorem readQuoted_append {s : String} (hs : ∀ c ∈ s.toList, plain c = true) (rest : List Char) :
    readQuoted (s.toList ++ quote :: rest) = some (s, rest) := by
  obtain ⟨htake, hdrop⟩ := cut_append hs (show plain quote = false from rfl) rest
  rw [readQuoted, htake, hdrop]
  dsimp only
  rw [if_pos rfl, String.ofList_toList]

/-- A value whose characters stand for themselves. -/
def Scalar.Plain : Scalar → Prop
  | int _ => True
  | str s => ∀ c ∈ s.toList, plain c = true

/-- A value is read up to the character that comes after it, if that is not one
of an integer. -/
theorem readScalar_text {v : Scalar} (hv : v.Plain) {c : Char} (hc : numeric c = false)
    (rest : List Char) : readScalar (v.text ++ c :: rest) = some (v, c :: rest) := by
  cases v with
  | str s =>
    show readScalar (quote :: ((s.toList ++ [quote]) ++ c :: rest)) = _
    rw [readScalar, if_pos rfl, List.append_assoc, List.singleton_append, readQuoted_append hv]
    rfl
  | int n =>
    obtain ⟨htake, hdrop⟩ := cut_append (numeric_digits n) hc rest
    show readScalar (digits n ++ c :: rest) = _
    cases hds : digits n with
    | nil => exact absurd hds (digits_ne_nil n)
    | cons d ds =>
      have hd : d ≠ quote := by
        rintro rfl
        cases numeric_digits n quote (by rw [hds]; exact List.mem_cons_self)
      rw [← hds]
      unfold readScalar
      rw [hds, List.cons_append]
      dsimp only
      rw [if_neg hd, ← List.cons_append, ← hds, htake, hdrop, readInt_digits]
      rfl

theorem skip_blanks (gap : ℕ) {c : Char} (hc : c ≠ ' ') (cs : List Char) :
    skip (blanks gap ++ c :: cs) = c :: cs := by
  have hblank : ∀ b ∈ blanks gap, (b == ' ') = true := fun b hb => by
    rw [List.eq_of_mem_replicate hb]
    rfl
  rw [skip, List.dropWhile_append_of_pos hblank, List.dropWhile_cons_of_neg (by simpa using hc)]

theorem expect_blanks (gap : ℕ) {c : Char} (hc : c ≠ ' ') (cs : List Char) :
    expect c (blanks gap ++ c :: cs) = some cs := by
  rw [expect, skip_blanks gap hc]
  exact if_pos rfl

/-- A value does not begin with a blank. -/
theorem skip_text (gap : ℕ) (v : Scalar) (cs : List Char) :
    skip (blanks gap ++ (v.text ++ cs)) = v.text ++ cs := by
  cases v with
  | str s => exact skip_blanks gap (by decide) _
  | int n =>
    show skip (blanks gap ++ (digits n ++ cs)) = digits n ++ cs
    cases hds : digits n with
    | nil => exact absurd hds (digits_ne_nil n)
    | cons d ds =>
      refine skip_blanks gap ?_ _
      rintro rfl
      cases numeric_digits n ' ' (by rw [hds]; exact List.mem_cons_self)

/-- A field whose characters stand for themselves. -/
def PlainField (f : String × Scalar) : Prop := (∀ c ∈ f.1.toList, plain c = true) ∧ f.2.Plain

theorem PlainField.of_key {key : String} (hkey : key.toList.all plain = true) {v : Scalar}
    (hv : v.Plain) : PlainField (key, v) :=
  ⟨List.all_eq_true.mp hkey, hv⟩

/-- A field is read up to where the next begins, or the object ends. -/
theorem readFields_field (gap gap' n : ℕ) {f : String × Scalar} (hf : PlainField f) {c : Char}
    (hc : numeric c = false) (rest : List Char) :
    readFields (n + 1) (blanks gap' ++ (field gap f ++ c :: rest))
      = match expect ',' (c :: rest) with
        | some cs => (readFields n cs).map (f :: ·)
        | none => if skip (c :: rest) = ['}'] then some [f] else none := by
  have htext : field gap f ++ c :: rest
      = quote :: (f.1.toList ++ quote :: ([] ++ ':' ::
        (blanks gap ++ (f.2.text ++ c :: rest)))) := by
    simp only [field, quoted, List.cons_append, List.append_assoc, List.nil_append]
  rw [htext, readFields, expect_blanks gap' (by decide), Option.bind_some,
    readQuoted_append hf.1, Option.bind_some]
  dsimp only
  rw [show expect ':' ([] ++ ':' :: (blanks gap ++ (f.2.text ++ c :: rest))) = _ from
    expect_blanks 0 (by decide) _, Option.bind_some, skip_text, readScalar_text hf.2 hc]
  rfl

/-- By induction on the fields, with a turn for each. -/
theorem readFields_fields (gap : ℕ) {fs : List (String × Scalar)} (hne : fs ≠ [])
    (hplain : ∀ f ∈ fs, PlainField f) :
    ∀ n gap', fs.length ≤ n → readFields n (blanks gap' ++ fields gap fs) = some fs := by
  induction fs with
  | nil => exact absurd rfl hne
  | cons f fs ih =>
    obtain ⟨hf, hfs⟩ := List.forall_mem_cons.mp hplain
    intro n gap' hn
    obtain ⟨n, rfl⟩ := Nat.exists_eq_succ_of_ne_zero
      (Nat.ne_of_gt (Nat.lt_of_lt_of_le (Nat.succ_pos _) hn))
    cases fs with
    | nil =>
      rw [fields_singleton, readFields_field gap gap' n hf rfl]
      rfl
    | cons g gs =>
      rw [fields_cons_cons, readFields_field gap gap' n hf rfl]
      show (readFields n (blanks gap ++ fields gap (g :: gs))).map (f :: ·) = _
      rw [ih (List.cons_ne_nil _ _) hfs n gap (Nat.le_of_succ_le_succ hn)]
      rfl

/-- A text has room for as many fields as it is long, so that reading it does
not run out of turns. -/
theorem length_le_length_fields (gap : ℕ) (fs : List (String × Scalar)) :
    fs.length ≤ (fields gap fs).length := by
  induction fs with
  | nil => exact Nat.zero_le _
  | cons f fs ih =>
    cases fs with
    | nil =>
      rw [fields_singleton, List.length_append]
      exact Nat.le_add_left _ _
    | cons g gs =>
      rw [fields_cons_cons, List.length_append, List.length_cons, List.length_cons (a := ','),
        List.length_append]
      omega

/-- **What is written is read**, with blanks or without. -/
theorem read_write (gap : ℕ) {fs : List (String × Scalar)} (hne : fs ≠ [])
    (hkeys : (fs.map Prod.fst).Nodup) (hplain : ∀ f ∈ fs, PlainField f) :
    read (write gap fs) = some fs := by
  have hopen : expect '{' (write gap fs).toList = some (fields gap fs) := by
    rw [write, String.toList_ofList]
    exact expect_blanks 0 (by decide) _
  rw [read, hopen, Option.bind_some,
    show readFields _ (fields gap fs) = some fs from
      readFields_fields gap hne hplain _ 0 (length_le_length_fields gap fs), Option.bind_some]
  exact if_pos hkeys

end FlatJson
