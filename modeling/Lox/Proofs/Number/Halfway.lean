import Mathlib.Order.Monotone.Basic
import Mathlib.Tactic.Linarith
import Lox.Number.Shortest
import Lox.Proofs.Number.Positional

/-!
# Decimals between two halfway points

The finite numbers of one sign are counted by their bits without the sign, and the value grows with
the count. Halfway between two neighbours one number's interval ends and the next one's begins; the
end belongs to the number with the even mantissa, which is the one with the even count. So no
decimal lies in the intervals of two numbers, and the shortest decimal of a number lies in its
interval.
-/

namespace Lox.Number

/-! ### Numbers by their count -/

/-- The mantissa of the number with the given bits, the sign left out. -/
def mantissaOf (n : Nat) : Nat :=
  if n / unitField = 0 then n % unitField else n % unitField + unitField

def exponentOf (n : Nat) : Int :=
  if n / unitField = 0 then -1074 else (n / unitField : Nat) - 1075

theorem mantissa_eq (x : Number) : x.mantissa = mantissaOf x.magnitude.toNat := rfl

theorem exponent_eq (x : Number) : x.exponent = exponentOf x.magnitude.toNat := rfl

theorem unitField_pos : 0 < unitField := by decide

theorem mantissaOf_mod_two (n : Nat) : mantissaOf n % 2 = n % 2 := by
  have hdvd : 2 ∣ unitField := by decide
  have hfraction : n % unitField % 2 = n % 2 := Nat.mod_mod_of_dvd n hdvd
  have heven : unitField % 2 = 0 := Nat.mod_eq_zero_of_dvd hdvd
  rw [mantissaOf]
  split <;> omega

/-! ### Halfway points -/

/-- What the interval of a number reaches down to, in quarters of the lowest bit of its mantissa. -/
def below (m : Nat) (q : Int) : Nat :=
  if m = unitField ∧ -1074 < q then 1 else 2

/-- The lower end of the interval around a number. -/
def lowerEnd (n : Nat) : ℚ :=
  (mantissaOf n - below (mantissaOf n) (exponentOf n) / 4) * 2 ^ exponentOf n

theorem fields_within {n : Nat} (h : n % unitField + 1 < unitField) :
    (n + 1) / unitField = n / unitField ∧ (n + 1) % unitField = n % unitField + 1 := by
  have hsucc : n + 1 = unitField * (n / unitField) + (n % unitField + 1) := by
    rw [← Nat.add_assoc, Nat.div_add_mod]
  constructor
  · rw [hsucc, Nat.mul_add_div unitField_pos, Nat.div_eq_of_lt h, Nat.add_zero]
  · rw [hsucc, Nat.mul_add_mod, Nat.mod_eq_of_lt h]

theorem fields_carry {n : Nat} (h : n % unitField + 1 = unitField) :
    (n + 1) / unitField = n / unitField + 1 ∧ (n + 1) % unitField = 0 := by
  have hsucc : n + 1 = unitField * (n / unitField + 1) := by
    have hn := Nat.div_add_mod n unitField
    rw [Nat.mul_succ]
    omega
  constructor
  · rw [hsucc, Nat.mul_div_cancel_left _ unitField_pos]
  · rw [hsucc, Nat.mul_mod_right]

/-- Within a binade the next mantissa is larger by one. -/
theorem lowerEnd_within {n : Nat} (h : n % unitField + 1 < unitField) :
    lowerEnd (n + 1) = (mantissaOf n + 1 / 2) * 2 ^ exponentOf n := by
  obtain ⟨hdiv, hmod⟩ := fields_within h
  have hexponent : exponentOf (n + 1) = exponentOf n := by
    rw [exponentOf, exponentOf, hdiv]
  have hmantissa : mantissaOf (n + 1) = mantissaOf n + 1 := by
    rw [mantissaOf, mantissaOf, hdiv, hmod]
    split <;> omega
  have hbelow : below (mantissaOf n + 1) (exponentOf n) = 2 := by
    rw [below, if_neg]
    rintro ⟨hm, hq⟩
    rw [mantissaOf] at hm
    rw [exponentOf] at hq
    split at hm <;> omega
  rw [lowerEnd, hexponent, hmantissa, hbelow]
  push_cast
  ring

/-- The first mantissa of a binade stands for twice the bits of the one before it, unless the binade
before it is that of the smallest numbers. -/
theorem lowerEnd_carry {n : Nat} (h : n % unitField + 1 = unitField) :
    lowerEnd (n + 1) = (mantissaOf n + 1 / 2) * 2 ^ exponentOf n := by
  obtain ⟨hdiv, hmod⟩ := fields_carry h
  have hlast : ((n % unitField : Nat) : ℚ) = unitField - 1 :=
    eq_sub_of_add_eq (by exact_mod_cast h)
  have hmantissa : mantissaOf (n + 1) = unitField := by
    rw [mantissaOf, hdiv, hmod, if_neg (Nat.succ_ne_zero _), Nat.zero_add]
  have hexponent : exponentOf (n + 1) = (n / unitField : Nat) + 1 - 1075 := by
    rw [exponentOf, hdiv, if_neg (Nat.succ_ne_zero _)]
    push_cast
    rfl
  by_cases hfield : n / unitField = 0
  · have hsame : exponentOf (n + 1) = exponentOf n := by
      rw [hexponent, exponentOf, hfield, if_pos rfl]
      rfl
    have hsmallest : ¬ -1074 < exponentOf n := by
      rw [exponentOf, if_pos hfield]
      exact lt_irrefl _
    have hbelow : below unitField (exponentOf n) = 2 := if_neg fun h => hsmallest h.2
    rw [lowerEnd, hmantissa, hsame, hbelow, mantissaOf, if_pos hfield, hlast]
    push_cast
    ring
  · have hsame : exponentOf (n + 1) = exponentOf n + 1 := by
      rw [hexponent, exponentOf, if_neg hfield]
      ring
    have hlarge : -1074 < exponentOf n + 1 := by
      have hpos : 0 < n / unitField := Nat.pos_of_ne_zero hfield
      rw [exponentOf, if_neg hfield]
      generalize n / unitField = field at hpos ⊢
      omega
    have hbelow : below unitField (exponentOf n + 1) = 1 := if_pos ⟨rfl, hlarge⟩
    have hpower : (2 : ℚ) ^ (exponentOf n + 1) = 2 ^ exponentOf n * 2 :=
      zpow_add_one₀ two_ne_zero _
    rw [lowerEnd, hmantissa, hsame, hbelow, hpower, mantissaOf, if_neg hfield, Nat.cast_add, hlast]
    push_cast
    ring

/-- The interval of the next number begins where the one of this number ends. -/
theorem lowerEnd_succ (n : Nat) :
    lowerEnd (n + 1) = (mantissaOf n + 1 / 2) * 2 ^ exponentOf n := by
  have hlow : n % unitField < unitField := Nat.mod_lt n unitField_pos
  by_cases h : n % unitField + 1 = unitField
  · exact lowerEnd_carry h
  · exact lowerEnd_within (by omega)

theorem below_pos (m : Nat) (q : Int) : 0 < below m q := by
  unfold below
  split <;> decide

theorem strictMono_lowerEnd : StrictMono lowerEnd := by
  refine strictMono_nat_of_lt_succ fun n => ?_
  have hpower : (0 : ℚ) < 2 ^ exponentOf n := zpow_pos two_pos _
  have hbelow : (0 : ℚ) < below (mantissaOf n) (exponentOf n) :=
    Nat.cast_pos.mpr (below_pos _ _)
  rw [lowerEnd_succ, lowerEnd]
  apply mul_lt_mul_of_pos_right _ hpower
  linarith

/-! ### Intervals -/

/-- The value rounds to the number with the given bits: it lies in the number's interval, of which
the ends belong to it if the mantissa is even. -/
structure RoundsTo (n : Nat) (v : ℚ) : Prop where
  lower : lowerEnd n ≤ v
  upper : v ≤ lowerEnd (n + 1)
  inside : n % 2 = 1 → lowerEnd n < v ∧ v < lowerEnd (n + 1)

theorem RoundsTo.le {n n' : Nat} {v : ℚ} (h : RoundsTo n v) (h' : RoundsTo n' v) : n' ≤ n := by
  by_contra hlt
  have hle : lowerEnd (n + 1) ≤ lowerEnd n' := strictMono_lowerEnd.monotone (by omega)
  have hends : lowerEnd (n + 1) = lowerEnd n' :=
    le_antisymm hle (h'.lower.trans h.upper)
  have hnext : n + 1 = n' := strictMono_lowerEnd.injective hends
  -- The two are neighbours, so one of them is odd and does not own the common end.
  rcases Nat.mod_two_eq_zero_or_one n with heven | hodd
  · have hinside := h'.inside (by omega)
    exact absurd (h.upper.trans_eq hends) (not_le.mpr hinside.1)
  · have hinside := h.inside hodd
    exact absurd (hends.trans_le h'.lower) (not_le.mpr hinside.2)

/-- A value rounds to one number. -/
theorem RoundsTo.unique {n n' : Nat} {v : ℚ} (h : RoundsTo n v) (h' : RoundsTo n' v) : n = n' :=
  le_antisymm (h'.le h) (h.le h')

/-! ### Shortest decimals -/

/-- A number rounds to itself. -/
theorem roundsTo_self (n : Nat) : RoundsTo n (mantissaOf n * 2 ^ exponentOf n) := by
  have hpower : (0 : ℚ) < 2 ^ exponentOf n := zpow_pos two_pos _
  have hbelow : (0 : ℚ) < below (mantissaOf n) (exponentOf n) :=
    Nat.cast_pos.mpr (below_pos _ _)
  have hlower : lowerEnd n < mantissaOf n * 2 ^ exponentOf n := by
    rw [lowerEnd]
    apply mul_lt_mul_of_pos_right _ hpower
    linarith
  have hupper : mantissaOf n * 2 ^ exponentOf n < lowerEnd (n + 1) := by
    rw [lowerEnd_succ]
    apply mul_lt_mul_of_pos_right _ hpower
    linarith
  exact ⟨hlower.le, hupper.le, fun _ => ⟨hlower, hupper⟩⟩

theorem pow_toNat {a : ℚ} (ha : a ≠ 0) (k : ℤ) : a ^ k.toNat = a ^ k * a ^ (-k).toNat := by
  rw [← zpow_natCast, ← zpow_natCast, ← zpow_add₀ ha]
  congr 1
  omega

theorem value_exactDecimal (m : Nat) (q : Int) : (exactDecimal m q).value = m * 2 ^ q := by
  have hten : (10 : ℚ) ^ (-((-q).toNat : ℤ)) = (2 ^ (-q).toNat * 5 ^ (-q).toNat)⁻¹ := by
    rw [zpow_neg, zpow_natCast, ← mul_pow]
    norm_num
  rw [Decimal.value, exactDecimal]
  simp only [Nat.pow_eq]
  push_cast
  rw [hten, pow_toNat two_ne_zero q]
  field_simp

theorem contains_of_onGrid? {i : Interval} {k : Int} {d : Decimal} (h : i.onGrid? k = some d) :
    i.contains d.digits d.exponent = true := by
  unfold Interval.onGrid? at h
  dsimp only at h
  split at h
  case h_1 hdown hup =>
    cases h
    dsimp only
    split
    · exact hup
    · exact hdown
  case h_2 hdown _ =>
    cases h
    exact hdown
  case h_3 _ hup =>
    cases h
    exact hup
  case h_4 => cases h

/-- Over one common denominator the ends of the interval and the decimal are whole numbers. -/
theorem exists_common_unit {n : Nat} (hn : mantissaOf n ≠ 0) (d : Nat) (k : Int) :
    let i := Interval.around (mantissaOf n) (exponentOf n)
    let grid := Nat.pow 10 (-k).toNat
    ∃ unit : ℚ, 0 < unit ∧ ((i.low * grid : Nat) : ℚ) = unit * lowerEnd n ∧
      ((d * Nat.pow 10 k.toNat * i.unit : Nat) : ℚ) = unit * (d * 10 ^ k) ∧
      ((i.high * grid : Nat) : ℚ) = unit * lowerEnd (n + 1) := by
  intro i grid
  have hbelow : below (mantissaOf n) (exponentOf n) ≤ 4 * mantissaOf n := by
    unfold below
    split <;> omega
  refine ⟨4 * 2 ^ (-exponentOf n).toNat * 10 ^ (-k).toNat, by positivity, ?_, ?_, ?_⟩
  · change (((4 * mantissaOf n - below (mantissaOf n) (exponentOf n)) *
      2 ^ (exponentOf n).toNat * 10 ^ (-k).toNat : Nat) : ℚ) = _
    rw [lowerEnd]
    push_cast [Nat.cast_sub hbelow]
    rw [pow_toNat two_ne_zero (exponentOf n)]
    ring
  · change ((d * 10 ^ k.toNat * (4 * 2 ^ (-exponentOf n).toNat) : Nat) : ℚ) = _
    push_cast
    rw [pow_toNat (by norm_num : (10 : ℚ) ≠ 0) k]
    ring
  · change (((4 * mantissaOf n + 2) * 2 ^ (exponentOf n).toNat * 10 ^ (-k).toNat : Nat) : ℚ) = _
    rw [lowerEnd_succ]
    push_cast
    rw [pow_toNat two_ne_zero (exponentOf n)]
    ring

/-- What lies in the interval around a number rounds to the number. -/
theorem roundsTo_of_contains {n d : Nat} {k : Int} (hn : mantissaOf n ≠ 0)
    (h : (Interval.around (mantissaOf n) (exponentOf n)).contains d k = true) :
    RoundsTo n (d * 10 ^ k) := by
  obtain ⟨unit, hunit, hlow, hvalue, hhigh⟩ := exists_common_unit hn d k
  have hclosed : (Interval.around (mantissaOf n) (exponentOf n)).closed = decide (n % 2 = 0) := by
    rw [← mantissaOf_mod_two]
    rfl
  unfold Interval.contains at h
  rw [hclosed] at h
  split at h
  case isTrue heven =>
    simp only [Bool.and_eq_true, decide_eq_true_eq] at h heven
    have hl : unit * lowerEnd n ≤ unit * (d * 10 ^ k) := by
      rw [← hlow, ← hvalue]
      exact Nat.cast_le.mpr h.1
    have hu : unit * (d * 10 ^ k) ≤ unit * lowerEnd (n + 1) := by
      rw [← hvalue, ← hhigh]
      exact Nat.cast_le.mpr h.2
    exact ⟨le_of_mul_le_mul_left hl hunit, le_of_mul_le_mul_left hu hunit, fun hodd => by omega⟩
  case isFalse =>
    simp only [Bool.and_eq_true, decide_eq_true_eq] at h
    have hl : unit * lowerEnd n < unit * (d * 10 ^ k) := by
      rw [← hlow, ← hvalue]
      exact Nat.cast_lt.mpr h.1
    have hu : unit * (d * 10 ^ k) < unit * lowerEnd (n + 1) := by
      rw [← hvalue, ← hhigh]
      exact Nat.cast_lt.mpr h.2
    have hlower := lt_of_mul_lt_mul_left hl hunit.le
    have hupper := lt_of_mul_lt_mul_left hu hunit.le
    exact ⟨hlower.le, hupper.le, fun _ => ⟨hlower, hupper⟩⟩

/-- The shortest decimal of a number rounds to it. -/
theorem roundsTo_shortest (n : Nat) :
    RoundsTo n (shortest (mantissaOf n) (exponentOf n)).value := by
  unfold shortest
  split
  case isTrue hzero =>
    have hself := roundsTo_self n
    rw [hzero] at hself
    simpa [Decimal.value] using hself
  case isFalse hn =>
    split
    case h_1 d hd =>
      obtain ⟨k, -, hk⟩ := List.exists_of_findSome?_eq_some hd
      exact roundsTo_of_contains hn (contains_of_onGrid? hk)
    case h_2 =>
      rw [value_exactDecimal]
      exact roundsTo_self n

theorem roundsTo_shortestDecimal (x : Number) :
    RoundsTo x.magnitude.toNat x.shortestDecimal.value := by
  rw [shortestDecimal, mantissa_eq, exponent_eq]
  exact roundsTo_shortest _

end Lox.Number
