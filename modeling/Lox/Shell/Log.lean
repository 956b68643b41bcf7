import Lox.Session.Event
import Lox.Text.Quoted

/-!
Logged events: one line of `key=value` pairs each.
-/

namespace Lox.Log

/-- Bytes that a value may hold without being quoted. -/
def isPlain (b : UInt8) : Bool :=
  Bytes.isDigit b || (97 ≤ b && b ≤ 122) || (65 ≤ b && b ≤ 90) ||
    (bytes "-._/@^+").contains b

def pair (key : String) (value : Bytes) : Bytes :=
  bytes key ++ 61 :: (if value.all isPlain then value else quoted value)

/-- An event with the time at which it happened. -/
def line (time : Bytes) (e : Event) : Bytes :=
  let pairs := [pair "time" time, pair "level" (bytes "debug"), pair "msg" (bytes e.message)] ++
    e.fields.map fun (key, value) => pair key value.bytes
  Bytes.line (Bytes.joined [Bytes.space] pairs)

end Lox.Log
