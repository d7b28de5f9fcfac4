import Mathlib.Data.List.Infix
import Mathlib.Data.Rat.Defs
import HftArena.Wire.Codec

/-!
# What the fleet makes of an engine's frames

An engine under test can send anything, so the fleet's readers are modelled on
all frames, with the exceptions that Python raises on some of them. Of a JSON
value only what the readers look at is kept: whether it is a number – `True`
and `1.0` are numbers like `1` – and whether it can be the key of a dictionary.

The JSON parser is a parameter of the readers: it takes a frame to a value, or
raises. What Python does with the value is not: `in` and a subscription mean
one thing for an object, another for an array and a string, and raise for a
scalar, and each reader is written with the operations that the code has.
-/

namespace Wire

/-- A WebSocket frame, as the library delivers it: a text is text. -/
inductive Frame where
  | text (s : String)
  | binary (data : List UInt8)
deriving DecidableEq

/-- A value inside a JSON object. -/
inductive Value where
  /-- A number or a Boolean. -/
  | num (q : ℚ)
  /-- A string, `null` or a NaN: not a number to compare with, but a key. -/
  | hashable
  /-- An array or an object. -/
  | unhashable
deriving DecidableEq

/-- A JSON text. -/
inductive Json where
  | object (fields : List (String × Value))
  /-- An array, with the strings in it. -/
  | array (strings : List String)
  | string (s : String)
  /-- A number, a Boolean or `null`. -/
  | scalar
deriving DecidableEq

/-- `key in m`: a key of an object, an element of an array, a part of a string;
it raises for a scalar. -/
def Json.has (key : String) : Json → Option Bool
  | object fields => some (fields.any (fun f => f.1 == key))
  | array strings => some (strings.contains key)
  | string s => some (decide (key.toList <:+: s.toList))
  | scalar => none

/-- `m[key]`, which raises for what is no object, and without the key. -/
def Json.item (key : String) : Json → Option Value
  | object fields => fields.lookup key
  | _ => none

/-- `WIRE`, and the parser of text frames. In JSON mode the parser is also
given the binary frames that an engine sends all the same. -/
inductive Mode where
  | binary
  | json (loads : Frame → Option Json)

/-- **What a bot's receiver makes of a frame.** -/
inductive Reading where
  /-- Not an acknowledgement. -/
  | ignored
  /-- An acknowledgement, with the id if it is an integer. -/
  | acked (id : Option ℤ)
  /-- The receiver raises. -/
  | raises
deriving DecidableEq

/-- What an acknowledged value is as a key of `send_times`.
`send_times.pop(ack_id, None)` hashes the key, and so raises for an array or an
object – but not if the dictionary is `empty`, when it gives the default
without a look at the key. -/
def Value.reading (empty : Bool) : Value → Reading
  | num q => .acked (if q.den = 1 then some q.num else none)
  | hashable => .acked none
  | unhashable => if empty then .acked none else .raises

/-- The first lines of `receiver`, up to what is done with the id; `empty` says
whether `send_times` is. Frames that are no acknowledgement are fills and
rejects, and whatever else an engine sends. -/
def readAck (empty : Bool) : Mode → Frame → Reading
  | .binary, .text s => if s = "" then .raises else .ignored
  | .binary, .binary data =>
    match replyType data with
    | none => .raises
    | some t =>
      if t ≠ ackTag then .ignored
      else
        match decAck data with
        | some (id, _) => .acked (some id)
        | none => .raises
  | .json loads, frame =>
    match loads frame with
    | none => .raises
    | some m =>
      match m.has "ack" with
      | none => .raises
      | some false => .ignored
      | some true => (m.item "ack").elim .raises (Value.reading empty)

end Wire
