import Mathlib.Data.List.TakeWhile
import Mathlib.Tactic.FieldSimp
import Mathlib.Tactic.Ring
import Lox.Number.Layout

/-!
# Positional notation

A decimal that is written out has the value of all its digits, divided by a power of ten for the
places behind the point. So decimals that are written alike have the same value.
-/

namespace Lox

/-! ### Runs of digits -/

namespace Bytes

theorem foldl_digits (s : Bytes) (n : Nat) :
    s.foldl (fun n b => 10 * n + (b - 48).toNat) n = n * 10 ^ s.length + toNat s := by
  induction s generalizing n with
  | nil => simp [toNat]
  | cons b s ih =>
      rw [toNat, List.foldl_cons, List.foldl_cons, ih, ih, List.length_cons, Nat.pow_succ]
      ring

theorem toNat_append (s t : Bytes) : toNat (s ++ t) = toNat s * 10 ^ t.length + toNat t := by
  rw [toNat, List.foldl_append, foldl_digits]
  rfl

theorem isDigit_digit {d : Nat} (h : d < 10) : isDigit (digit d) = true := by
  have hall : ∀ d < 10, isDigit (digit d) = true := by decide
  exact hall d h

theorem toNat_digit {d : Nat} (h : d < 10) : toNat [digit d] = d := by
  have hall : ∀ d < 10, toNat [digit d] = d := by decide
  exact hall d h

theorem toNat_ofNat (n : Nat) : toNat (ofNat n) = n := by
  induction n using ofNat.induct with
  | case1 n h => rw [ofNat, if_pos h, toNat_digit h]
  | case2 n h ih =>
      have hlast : n % 10 < 10 := Nat.mod_lt n (by decide)
      rw [ofNat, if_neg h, toNat_append, ih, toNat_digit hlast, List.length_singleton]
      omega

theorem isDigit_of_mem_ofNat (n : Nat) : ∀ b ∈ ofNat n, isDigit b = true := by
  induction n using ofNat.induct with
  | case1 n h =>
      rw [ofNat, if_pos h]
      exact List.forall_mem_singleton.mpr (isDigit_digit h)
  | case2 n h ih =>
      have hlast : n % 10 < 10 := Nat.mod_lt n (by decide)
      rw [ofNat, if_neg h, List.forall_mem_append]
      exact ⟨ih, List.forall_mem_singleton.mpr (isDigit_digit hlast)⟩

theorem ofNat_ne_nil (n : Nat) : ofNat n ≠ [] := by
  rw [ofNat]
  split
  · exact List.cons_ne_nil _ _
  · exact List.append_ne_nil_of_right_ne_nil _ (List.cons_ne_nil _ _)

end Bytes

namespace Decimal

def value (d : Decimal) : ℚ :=
  d.digits * 10 ^ d.exponent

/-- The value of a text in positional notation. -/
def read (s : Bytes) : ℚ :=
  Bytes.toNat (s.filter (· != 46)) / 10 ^ ((s.dropWhile (· != 46)).drop 1).length

/-! ### Zeros -/

theorem toNat_zeros (k : Nat) : Bytes.toNat (zeros k) = 0 := by
  induction k with
  | zero => rfl
  | succ k ih =>
      rw [zeros, List.replicate_succ', Bytes.toNat_append]
      change Bytes.toNat (zeros k) * _ + _ = 0
      rw [ih]
      rfl

theorem isDigit_of_mem_zeros (k : Nat) : ∀ b ∈ zeros k, Bytes.isDigit b = true := by
  intro b hb
  rw [List.eq_of_mem_replicate hb]
  rfl

/-! ### Reading -/

theorem ne_point_of_isDigit {s : Bytes} (h : ∀ b ∈ s, Bytes.isDigit b = true) :
    ∀ b ∈ s, (b != 46) = true := by
  intro b hb
  rw [bne_iff_ne]
  rintro rfl
  exact absurd (h _ hb) (by decide)

theorem read_whole {s : Bytes} (h : ∀ b ∈ s, Bytes.isDigit b = true) :
    read s = Bytes.toNat s := by
  have hpoint := ne_point_of_isDigit h
  rw [read, List.filter_eq_self.mpr hpoint, List.dropWhile_eq_nil_iff.mpr hpoint]
  simp

theorem read_fraction {s t : Bytes} (hs : ∀ b ∈ s, Bytes.isDigit b = true)
    (ht : ∀ b ∈ t, Bytes.isDigit b = true) :
    read (s ++ 46 :: t) = Bytes.toNat (s ++ t) / 10 ^ t.length := by
  have hfilter : (s ++ 46 :: t).filter (· != 46) = s ++ t := by
    rw [List.filter_append, List.filter_cons_of_neg (by decide),
      List.filter_eq_self.mpr (ne_point_of_isDigit hs),
      List.filter_eq_self.mpr (ne_point_of_isDigit ht)]
  have hdrop : (s ++ 46 :: t).dropWhile (· != 46) = 46 :: t := by
    rw [List.dropWhile_append_of_pos (ne_point_of_isDigit hs)]
    rfl
  rw [read, hfilter, hdrop]
  rfl

/-- What is written out has the value of the decimal. -/
theorem read_positional (d : Decimal) : read d.positional = d.value := by
  obtain ⟨n, exponent⟩ := d
  have hdigits := Bytes.isDigit_of_mem_ofNat n
  cases exponent with
  | ofNat k =>
      have hall : ∀ b ∈ Bytes.ofNat n ++ zeros k, Bytes.isDigit b = true :=
        List.forall_mem_append.mpr ⟨hdigits, isDigit_of_mem_zeros k⟩
      change read (Bytes.ofNat n ++ zeros k) = n * 10 ^ (k : ℤ)
      rw [read_whole hall, Bytes.toNat_append, Bytes.toNat_ofNat, toNat_zeros, Nat.add_zero, zeros,
        List.length_replicate]
      push_cast
      rw [zpow_natCast]
  | negSucc k =>
      have hvalue : value ⟨n, .negSucc k⟩ = n / 10 ^ (k + 1) := by
        rw [value, zpow_negSucc]
        exact (div_eq_mul_inv _ _).symm
      rw [hvalue, positional]
      dsimp only
      split
      case isTrue hplaces =>
        have hlength : (Bytes.ofNat n).length - ((Bytes.ofNat n).length - (k + 1)) = k + 1 := by
          omega
        rw [read_fraction (fun b hb => hdigits b (List.mem_of_mem_take hb))
          (fun b hb => hdigits b (List.mem_of_mem_drop hb)), List.take_append_drop,
          Bytes.toNat_ofNat, List.length_drop, hlength]
      case isFalse hplaces =>
        have hall : ∀ b ∈ zeros (k + 1 - (Bytes.ofNat n).length) ++ Bytes.ofNat n,
            Bytes.isDigit b = true :=
          List.forall_mem_append.mpr ⟨isDigit_of_mem_zeros _, hdigits⟩
        have hlength :
            (zeros (k + 1 - (Bytes.ofNat n).length) ++ Bytes.ofNat n).length = k + 1 := by
          rw [List.length_append, zeros, List.length_replicate]
          omega
        have hzero : ∀ b ∈ [(48 : UInt8)], Bytes.isDigit b = true :=
          List.forall_mem_singleton.mpr rfl
        have hfront : Bytes.toNat [48] = 0 := rfl
        have hread := read_fraction hzero hall
        rw [hlength, Bytes.toNat_append, Bytes.toNat_append, hfront, toNat_zeros,
          Bytes.toNat_ofNat] at hread
        simpa using hread

theorem value_eq_of_positional_eq {d e : Decimal} (h : d.positional = e.positional) :
    d.value = e.value := by
  rw [← read_positional, h, read_positional]

/-! ### What is written -/

/-- Digits, and a point that is not the first byte. -/
theorem positional_bytes (d : Decimal) :
    (∃ b s, d.positional = b :: s ∧ Bytes.isDigit b = true) ∧
      ∀ b ∈ d.positional, Bytes.isDigit b = true ∨ b = 46 := by
  obtain ⟨n, exponent⟩ := d
  have hdigits := Bytes.isDigit_of_mem_ofNat n
  obtain ⟨b, s, hn⟩ := List.exists_cons_of_ne_nil (Bytes.ofNat_ne_nil n)
  have hb : Bytes.isDigit b = true := hdigits b (hn ▸ List.mem_cons_self)
  cases exponent with
  | ofNat k =>
      constructor
      · exact ⟨b, s ++ zeros k, by rw [positional, hn]; rfl, hb⟩
      · intro c hc
        have hall : ∀ b ∈ Bytes.ofNat n ++ zeros k, Bytes.isDigit b = true :=
          List.forall_mem_append.mpr ⟨hdigits, isDigit_of_mem_zeros k⟩
        exact .inl (hall c hc)
  | negSucc k =>
      rw [positional]
      dsimp only
      split
      case isTrue hplaces =>
        constructor
        · have hwhole : (Bytes.ofNat n).length - (k + 1) ≠ 0 := by omega
          obtain ⟨m, hm⟩ := Nat.exists_eq_succ_of_ne_zero hwhole
          rw [hm, hn]
          exact ⟨b, _, rfl, hb⟩
        · rw [List.forall_mem_append, List.forall_mem_cons]
          exact ⟨fun b hb => .inl (hdigits b (List.mem_of_mem_take hb)), .inr rfl,
            fun b hb => .inl (hdigits b (List.mem_of_mem_drop hb))⟩
      case isFalse =>
        constructor
        · exact ⟨48, _, rfl, rfl⟩
        · simp only [List.cons_append, List.forall_mem_cons, List.forall_mem_append]
          exact ⟨.inl rfl, .inr trivial, fun b hb => .inl (isDigit_of_mem_zeros _ b hb),
            fun b hb => .inl (hdigits b hb)⟩

end Decimal

end Lox
