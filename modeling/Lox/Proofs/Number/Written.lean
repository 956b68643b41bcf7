import Lox.Number.Rounding
import Lox.Proofs.Number.Halfway
import Lox.Proofs.Token.Runs

/-!
# Numbers in a dumped tree

A number is written with its sign and the digits of its shortest decimal, or by name if it is
infinite. The text starts with a digit or a sign, and it tells which number was written.
-/

namespace Lox.Number

theorem toNat_magnitude (x : Number) : x.magnitude.toNat = x.bits.toNat % 2 ^ 63 := by
  rw [magnitude, UInt64.toNat_and]
  exact Nat.and_two_pow_sub_one_eq_mod x.bits.toNat 63

/-- Sign and magnitude are all bits of a number. -/
theorem eq_of_magnitude {x y : Number} (hsign : x.isNegative = y.isNegative)
    (h : x.magnitude = y.magnitude) : x = y := by
  have hmod : x.bits.toNat % 2 ^ 63 = y.bits.toNat % 2 ^ 63 := by
    rw [← toNat_magnitude, ← toNat_magnitude, h]
  have hhigh : 2 ^ 63 ≤ x.bits.toNat ↔ 2 ^ 63 ≤ y.bits.toNat := by
    simpa [isNegative, UInt64.le_iff_toNat_le] using hsign
  have hx := x.bits.toNat_lt
  have hy := y.bits.toNat_lt
  have hbits : x.bits = y.bits := UInt64.toNat_inj.mp (by omega)
  obtain ⟨bits⟩ := x
  obtain ⟨other⟩ := y
  exact congrArg Number.mk hbits

/-- Finite numbers of one sign whose shortest decimals are written alike are the same. -/
theorem magnitude_eq_of_positional {x y : Number}
    (h : x.shortestDecimal.positional = y.shortestDecimal.positional) :
    x.magnitude = y.magnitude := by
  have hvalue := Decimal.value_eq_of_positional_eq h
  have hx := roundsTo_shortestDecimal x
  have hy := roundsTo_shortestDecimal y
  rw [← hvalue] at hy
  exact UInt64.toNat_inj.mp (hx.unique hy)

/-- What stands behind the sign: digits, or a name. -/
def dumpedBody (x : Number) : Bytes :=
  if x.isInfinite then bytes "Inf" else x.shortestDecimal.positional

/-- Finite numbers have no plus sign. -/
def dumpedSign (x : Number) : Bytes :=
  if x.isNegative then [45] else if x.isInfinite then [43] else []

theorem write_dumped {x : Number} (h : x.isNaN = false) :
    x.write dumped = x.dumpedSign ++ x.dumpedBody := by
  rw [write, dumpedSign, dumpedBody, if_neg (Bool.eq_false_iff.mp h)]
  cases x.isInfinite <;> cases x.isNegative <;> rfl

def isSign (b : UInt8) : Bool :=
  b == 43 || b == 45

theorem isSign_of_isWordByte {b : UInt8} (h : Bytes.isWordByte b = true) : isSign b = false := by
  unfold isSign
  rw [Bool.or_eq_false_iff, beq_eq_false_iff_ne, beq_eq_false_iff_ne]
  constructor <;>
  · rintro rfl
    exact absurd h (by decide)

theorem isSign_of_mem_dumpedSign (x : Number) : ∀ b ∈ x.dumpedSign, isSign b = true := by
  unfold dumpedSign
  split
  · exact List.forall_mem_singleton.mpr rfl
  · split
    · exact List.forall_mem_singleton.mpr rfl
    · exact List.forall_mem_nil _

theorem exists_dumpedBody (x : Number) :
    ∃ b s, x.dumpedBody = b :: s ∧ Bytes.isWordByte b = true ∧
      (b = 73 ↔ x.isInfinite = true) := by
  unfold dumpedBody
  split
  case isTrue hinfinite => exact ⟨73, bytes "nf", rfl, rfl, iff_of_true rfl hinfinite⟩
  case isFalse hfinite =>
    obtain ⟨⟨b, s, hs, hb⟩, -⟩ := x.shortestDecimal.positional_bytes
    have hword : Bytes.isWordByte b = true := by rw [Bytes.isWordByte, hb, Bool.or_true]
    have hne : b ≠ 73 := by
      rintro rfl
      exact absurd hb (by decide)
    exact ⟨b, s, hs, hword, iff_of_false hne hfinite⟩

/-- The sign ends in front of the first byte that is no sign. -/
theorem dumped_parts {x y : Number}
    (h : x.dumpedSign ++ x.dumpedBody = y.dumpedSign ++ y.dumpedBody) :
    x.dumpedSign = y.dumpedSign ∧ x.dumpedBody = y.dumpedBody := by
  have hstops (z : Number) : Scan.Stops isSign z.dumpedBody := by
    obtain ⟨b, s, hz, hb, -⟩ := z.exists_dumpedBody
    intro c hc
    rw [hz] at hc
    cases hc
    exact isSign_of_isWordByte hb
  have htake := congrArg (List.takeWhile isSign) h
  have hdrop := congrArg (List.dropWhile isSign) h
  rw [Scan.takeWhile_run x.isSign_of_mem_dumpedSign (hstops x),
    Scan.takeWhile_run y.isSign_of_mem_dumpedSign (hstops y)] at htake
  rw [Scan.dropWhile_run x.isSign_of_mem_dumpedSign (hstops x),
    Scan.dropWhile_run y.isSign_of_mem_dumpedSign (hstops y)] at hdrop
  exact ⟨htake, hdrop⟩

theorem isNegative_iff (x : Number) : x.isNegative = true ↔ x.dumpedSign = [45] := by
  unfold dumpedSign
  cases x.isNegative
  · cases x.isInfinite <;> decide
  · exact iff_of_true rfl rfl

/-- A number that is not NaN can be told from how it is written. -/
theorem write_dumped_injective {x y : Number} (hx : x.isNaN = false) (hy : y.isNaN = false)
    (h : x.write dumped = y.write dumped) : x = y := by
  rw [write_dumped hx, write_dumped hy] at h
  obtain ⟨hsign, hbody⟩ := dumped_parts h
  have hnegative : x.isNegative = y.isNegative := by
    rw [Bool.eq_iff_iff, isNegative_iff, isNegative_iff, hsign]
  have hinfinite : x.isInfinite = true ↔ y.isInfinite = true := by
    obtain ⟨b, s, hb, -, hxb⟩ := x.exists_dumpedBody
    obtain ⟨c, t, hc, -, hyc⟩ := y.exists_dumpedBody
    rw [hb, hc] at hbody
    rw [← hxb, ← hyc, (List.cons.inj hbody).1]
  apply eq_of_magnitude hnegative
  by_cases hxi : x.isInfinite = true
  · have hyi := hinfinite.mp hxi
    exact (eq_of_beq hxi).trans (eq_of_beq hyi).symm
  · have hyi := fun hyi => hxi (hinfinite.mpr hyi)
    rw [dumpedBody, dumpedBody, if_neg hxi, if_neg hyi] at hbody
    exact magnitude_eq_of_positional hbody

/-! ### Bytes of a written number -/

/-- A digit or a sign. -/
def startsNumber (b : UInt8) : Bool :=
  Bytes.isDigit b || isSign b

/-- Bytes that a number can consist of, and also some words. -/
def isNumberByte (b : UInt8) : Bool :=
  Bytes.isWordByte b || isSign b || b == 46

theorem dumped_bytes {x : Number} (h : x.isNaN = false) :
    (∃ b s, x.write dumped = b :: s ∧ startsNumber b = true) ∧
      ∀ b ∈ x.write dumped, isNumberByte b = true := by
  obtain ⟨⟨b, s, hs, hb⟩, hbytes⟩ := x.shortestDecimal.positional_bytes
  have hdigits : ∀ b ∈ x.shortestDecimal.positional, isNumberByte b = true := by
    intro b hb
    rcases hbytes b hb with hdigit | rfl
    · simp [isNumberByte, Bytes.isWordByte, hdigit]
    · rfl
  have hplus : ∀ b ∈ 43 :: bytes "Inf", isNumberByte b = true :=
    List.all_eq_true.mp rfl
  have hminus : ∀ b ∈ 45 :: bytes "Inf", isNumberByte b = true :=
    List.all_eq_true.mp rfl
  rw [write_dumped h, dumpedSign, dumpedBody]
  cases x.isInfinite <;> cases x.isNegative
  · refine ⟨⟨b, s, hs, ?_⟩, hdigits⟩
    rw [startsNumber, hb, Bool.true_or]
  · exact ⟨⟨45, _, rfl, rfl⟩, List.forall_mem_cons.mpr ⟨rfl, hdigits⟩⟩
  · exact ⟨⟨43, _, rfl, rfl⟩, hplus⟩
  · exact ⟨⟨45, _, rfl, rfl⟩, hminus⟩

/-! ### Numbers in a source -/

theorem isNaN_of_lt {bits : UInt64} (h : bits.toNat ≤ 0x7FF0000000000000) :
    (Number.mk bits).isNaN = false := by
  have hmagnitude : (Number.mk bits).magnitude.toNat ≤ 0x7FF0000000000000 := by
    rw [toNat_magnitude]
    exact (Nat.mod_le _ _).trans h
  simpa [isNaN, UInt64.lt_iff_toNat_lt, UInt64.le_iff_toNat_le] using hmagnitude

theorem isNaN_ofDecimal (digits places : Nat) : (ofDecimal digits places).isNaN = false := by
  unfold ofDecimal ofRatio assemble
  dsimp only
  split
  case isTrue => rfl
  case isFalse =>
    split
    case isTrue hbits =>
      apply isNaN_of_lt
      rw [Nat.toUInt64_eq, UInt64.toNat_ofNat']
      exact (Nat.mod_le _ _).trans hbits.le
    case isFalse => rfl

end Lox.Number
