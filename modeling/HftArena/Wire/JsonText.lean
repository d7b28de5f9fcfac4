import Mathlib.Data.Rat.Defs
import HftArena.Wire.Frame

/-!
# What a JSON text says

A value of a JSON text as far as the engines' handlers tell values apart: an
integer literal is not the number with a fraction that equals it, and minus
zero is not zero. What a library makes of a text is a parameter of the
handlers; it gives a value or fails.

The Go handler decodes a value into a struct: a field that the text has not is
zero, names are compared whatever their case, and a field of another type is an
error. The Rust handler looks each field up and takes zero, or no string, where
there is none of the type. So a text that is no order to the one may be one to
the other, with zeros for what it has not (`Message.call`).

What counts as an order is said without any engine: an object with the fields
of its type (`HasFields`), or a binary frame that is long enough.
-/

open PriceTime

namespace Wire

/-- **A JSON value.** -/
inductive JsonValue where
  | null
  | bool (b : Bool)
  /-- A literal without fraction and exponent: whether it has a minus, and its
  digits. -/
  | int (minus : Bool) (digits : ℕ)
  /-- Any other number a float can hold: whether it has a minus, and its
  size. -/
  | float (minus : Bool) (size : ℚ)
  /-- `NaN`, which only Python reads. -/
  | nan
  /-- `Infinity` or a literal beyond all floats, which only Python reads. -/
  | infinity (minus : Bool)
  | string (s : String)
  /-- A string that is no text, in UTF-16: it has half of a surrogate pair.
  Only Python reads it. -/
  | surrogates (units : List UInt16)
  | array (items : List JsonValue)
  /-- The fields in the order of the text, but for those whose names are no
  text. -/
  | object (fields : List (String × JsonValue))

namespace JsonValue

/-- The value of an integer literal. -/
def ofDigits (minus : Bool) (digits : ℕ) : ℤ := if minus then -digits else digits

/-- The field of an object: the last one of its name. -/
def item (name : String) : JsonValue → Option JsonValue
  | object fields => fields.reverse.lookup name
  | _ => none

/-- A string as one, and of other values what is no word of the protocol. -/
def word : JsonValue → String
  | string s => s
  | _ => ""

/-- The fields that an order of a type has besides `t` and `id`. -/
def required (t : String) : List String :=
  if t = "limit" then ["side", "px", "qty"]
  else if t = "market" then ["side", "qty"]
  else if t = "cancel" then ["target"]
  else []

/-- **An object with the required fields.** -/
def HasFields (v : JsonValue) : Prop :=
  ∃ t, v.item "t" = some t ∧ ∀ name ∈ "id" :: required t.word, (v.item name).isSome

/-! ### `json.Unmarshal` -/

/-- Into a `string`. -/
def goString : JsonValue → Option String
  | string s => some s
  | _ => none

/-- Into a `uint64`. -/
def goUint64 : JsonValue → Option UInt64
  | int false n => if n < 2 ^ 64 then some (.ofNat n) else none
  | _ => none

/-- Into an `int`. -/
def goInt : JsonValue → Option ℤ
  | int minus n =>
    let z := ofDigits minus n
    if -2 ^ 63 ≤ z ∧ z < 2 ^ 63 then some z else none
  | _ => none

/-- Into a field: `null` leaves it as it is, and a value of another type is an
error. -/
def goField {α : Type} (read : JsonValue → Option α) (field : Option α) :
    JsonValue → Option (Option α)
  | null => some field
  | v => (read v).map some

/-- A field of the text, into the field of `msg` that has its name up to case
folding. A name that `msg` has not is skipped. -/
def goAssign (fold : String → String) (m : Message) (f : String × JsonValue) : Option Message :=
  let named := fun name => fold f.1 = fold name
  if named "t" then (goField goString m.t f.2).map (fun x => { m with t := x })
  else if named "id" then (goField goUint64 m.id f.2).map (fun x => { m with id := x })
  else if named "side" then (goField goString m.side f.2).map (fun x => { m with side := x })
  else if named "px" then (goField goInt m.px f.2).map (fun x => { m with px := x })
  else if named "qty" then (goField goInt m.qty f.2).map (fun x => { m with qty := x })
  else if named "target" then (goField goUint64 m.target f.2).map (fun x => { m with target := x })
  else some m

/-- **`json.Unmarshal` into a `msg`**, field after field: of two with one name
the later one stays. `null` leaves the struct as it is. -/
def unmarshal (fold : String → String) : JsonValue → Option Message
  | null => some ⟨none, none, none, none, none, none⟩
  | object fields => fields.foldlM (goAssign fold) ⟨none, none, none, none, none, none⟩
  | _ => none

/-! ### `serde_json` -/

/-- `as_str`. -/
def asStr : JsonValue → Option String
  | string s => some s
  | _ => none

/-- `as_u64`: not a negative number, and not one with a fraction. -/
def asU64 : JsonValue → Option UInt64
  | int false n => if n < 2 ^ 64 then some (.ofNat n) else none
  | _ => none

/-- `as_i64`: minus zero is a float. -/
def asI64 : JsonValue → Option ℤ
  | int false n => if n < 2 ^ 63 then some n else none
  | int true n => if 0 < n ∧ n ≤ 2 ^ 63 then some (-n) else none
  | _ => none

/-- What the Rust handler looks up: the last field of each name, if it is of
the type. -/
def lookUp (v : JsonValue) : Message where
  t := (v.item "t").bind asStr
  id := (v.item "id").bind asU64
  side := (v.item "side").bind asStr
  px := (v.item "px").bind asI64
  qty := (v.item "qty").bind asI64
  target := (v.item "target").bind asU64

end JsonValue

/-- **A frame that is no order**, to a handler that makes values of texts: a
binary frame that is too short, or a text that is no JSON or no object with the
required fields. -/
def NoOrder (json : String → Option JsonValue) : Frame → Prop
  | .binary data => data.length < 26
  | .text s => ∀ v, json s = some v → ¬ v.HasFields

/-- **What a handler does with a frame**: the book after it, what it sends, and
whether it goes on to the next one. A handler that does not go on has left its
connection, and may have sent something before. -/
structure FrameOutcome (β γ : Type) where
  book : β
  sent : List γ
  goesOn : Bool

/-- **A frame is survived**: the handler goes on, and if the frame is no order
the book is as it was. -/
def FrameOutcome.Survives {β γ : Type} (o : FrameOutcome β γ) (book : β) (noOrder : Prop) : Prop :=
  o.goesOn = true ∧ (noOrder → o.book = book)

/-- The call that a message asks for, with the zeros of what it has not. A
message of no known type asks for none. -/
def Message.call (m : Message) : Option (Call UInt64) :=
  let side := if m.side = some "buy" then Side.bid else Side.ask
  if m.t = some "limit" then some (.limit (m.id.getD 0) side (m.px.getD 0) (m.qty.getD 0))
  else if m.t = some "market" then some (.market (m.id.getD 0) side (m.qty.getD 0))
  else if m.t = some "cancel" then some (.cancel (m.target.getD 0))
  else none

end Wire
