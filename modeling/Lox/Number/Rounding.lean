import Lox.Number.Basic

/-!
The number nearest to a quotient. Of two equally near numbers the one with an even mantissa is taken;
beyond the largest finite number lies infinity.
-/

namespace Lox.Number

/-- The whole number nearest to `num / den`, to even on a tie. -/
def roundDiv (num den : Nat) : Nat :=
  let q := num / den
  let r := num % den
  if 2 * r < den then q
  else if den < 2 * r then q + 1
  else if q % 2 = 0 then q
  else q + 1

def infinity : Number :=
  ⟨0x7FF0000000000000⟩

/-- The number `m * 2 ^ (e - 1074)` for `m ≤ 2 ^ 53`, where `m` has 53 bits unless `e = 0`. -/
def assemble (m e : Nat) : Number :=
  let bits := e * unitField + m
  if bits < 0x7FF0000000000000 then ⟨bits.toUInt64⟩ else infinity

/-- The exponent above -1074 at which `num / den` has 53 bits before the point, or zero. -/
def scaleOf (num den : Nat) : Nat :=
  let guess := (num.log2 + 1074) - (den.log2 + 53)
  if num * Nat.pow 2 1074 < den * Nat.pow 2 (guess + 53) then guess else guess + 1

def ofRatio (num den : Nat) : Number :=
  if num = 0 then
    ⟨0⟩
  else
    let e := scaleOf num den
    assemble (roundDiv (num * Nat.pow 2 1074) (den * Nat.pow 2 e)) e

/-- The number nearest to `digits / 10 ^ places`. -/
def ofDecimal (digits places : Nat) : Number :=
  ofRatio digits (Nat.pow 10 places)

def ofInt : Int → Number
  | .ofNat n => ofRatio n 1
  | .negSucc n => (ofRatio (n + 1) 1).neg

end Lox.Number
