/-!
Numbers are doubles, held by their 64 bits: a sign, eleven bits of exponent and 52 of fraction. The
arithmetic is that of the machine; everything that decides on the shape of a number reads its bits.
-/

namespace Lox

structure Number where
  bits : UInt64
  deriving DecidableEq, Repr

namespace Number

def ofFloat (x : Float) : Number :=
  ⟨x.toBits⟩

def toFloat (x : Number) : Float :=
  Float.ofBits x.bits

def add (x y : Number) : Number :=
  ofFloat (x.toFloat + y.toFloat)

def sub (x y : Number) : Number :=
  ofFloat (x.toFloat - y.toFloat)

def mul (x y : Number) : Number :=
  ofFloat (x.toFloat * y.toFloat)

def div (x y : Number) : Number :=
  ofFloat (x.toFloat / y.toFloat)

def neg (x : Number) : Number :=
  ⟨x.bits ^^^ 0x8000000000000000⟩

def lt (x y : Number) : Bool :=
  x.toFloat < y.toFloat

def le (x y : Number) : Bool :=
  x.toFloat ≤ y.toFloat

def isNegative (x : Number) : Bool :=
  x.bits ≥ 0x8000000000000000

/-- The bits without the sign. -/
def magnitude (x : Number) : UInt64 :=
  x.bits &&& 0x7FFFFFFFFFFFFFFF

def isZero (x : Number) : Bool :=
  x.magnitude == 0

def isInfinite (x : Number) : Bool :=
  x.magnitude == 0x7FF0000000000000

def isNaN (x : Number) : Bool :=
  x.magnitude > 0x7FF0000000000000

/-- Any two NaNs are equal, and so are the two zeros. -/
def equal (x y : Number) : Bool :=
  (x.isNaN && y.isNaN) || (!x.isNaN && !y.isNaN && (x == y || (x.isZero && y.isZero)))

/-- The weight of the exponent's lowest bit: the fraction has 52 bits. -/
def unitField : Nat := Nat.pow 2 52

def exponentField (x : Number) : Nat :=
  x.magnitude.toNat / unitField

def fraction (x : Number) : Nat :=
  x.magnitude.toNat % unitField

/-- A finite number is `mantissa * 2 ^ exponent`, up to its sign. -/
def mantissa (x : Number) : Nat :=
  if x.exponentField = 0 then x.fraction else x.fraction + unitField

def exponent (x : Number) : Int :=
  if x.exponentField = 0 then -1074 else (x.exponentField : Int) - 1075

end Number

end Lox
