import Lox.Text.Bytes

/-!
Error lines, painted red where the user wants that and a terminal shows it.
-/

namespace Lox.Painter

def escape (code : String) : Bytes :=
  27 :: 91 :: bytes code ++ bytes "m"

/-- A text without the line feed at its end. -/
def withoutFinalLineFeed (s : Bytes) : Bytes :=
  if s.getLast? == some Bytes.lineFeed then s.dropLast else s

/-- What is written for a text: a line of its own. -/
def paint (on : Bool) (s : Bytes) : Bytes :=
  let text := withoutFinalLineFeed s
  Bytes.line (if on then escape "31" ++ text ++ escape "0" else text)

/-- Colours need a terminal. -/
def isOn (wanted terminal : Bool) : Bool :=
  wanted && terminal

end Lox.Painter
