/-!
Texts are lists of bytes: a source, a name or a string need not be valid UTF-8.
-/

namespace Lox

abbrev Bytes := List UInt8

/-- The bytes of a text that the program itself writes. -/
def bytes (s : String) : Bytes :=
  s.toUTF8.data.toList

namespace Bytes

def lineFeed : UInt8 := 10

def carriageReturn : UInt8 := 13

def tab : UInt8 := 9

def space : UInt8 := 32

/-- A text with a line feed after it. -/
def line (s : Bytes) : Bytes :=
  s ++ [lineFeed]

def isDigit (b : UInt8) : Bool :=
  48 ≤ b && b ≤ 57

def isLetter (b : UInt8) : Bool :=
  (97 ≤ b && b ≤ 122) || (65 ≤ b && b ≤ 90) || b == 95

def isWordByte (b : UInt8) : Bool :=
  isLetter b || isDigit b

def digit (d : Nat) : UInt8 :=
  if d < 10 then 48 + d.toUInt8 else 87 + d.toUInt8

/-- Decimal digits, most significant first. -/
def ofNat (n : Nat) : Bytes :=
  if n < 10 then [digit n] else ofNat (n / 10) ++ [digit (n % 10)]

def ofInt : Int → Bytes
  | .ofNat n => ofNat n
  | .negSucc n => 45 :: ofNat (n + 1)

/-- The value of a run of decimal digits. -/
def toNat (s : Bytes) : Nat :=
  s.foldl (fun n b => 10 * n + (b - 48).toNat) 0

/-- The lowest `width` hexadecimal digits of `n`, most significant first. -/
def hex : Nat → Nat → Bytes
  | 0, _ => []
  | width + 1, n => hex width (n / 16) ++ [digit (n % 16)]

/-- A text with `mark` between its parts. -/
def joined (mark : Bytes) : List Bytes → Bytes
  | [] => []
  | [s] => s
  | s :: rest => s ++ mark ++ joined mark rest

/-- The parts of a text between the bytes `mark`, of which it has one more than marks. -/
def splitOn (mark : UInt8) : Bytes → List Bytes
  | [] => [[]]
  | b :: s =>
      if b == mark then
        [] :: splitOn mark s
      else
        match splitOn mark s with
        | [] => [[b]]
        | part :: parts => (b :: part) :: parts

end Bytes

end Lox
