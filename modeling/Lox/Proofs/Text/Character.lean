import Lox.Text.Utf8

/-!
# Encoded characters

The character that opens a text is read off its bits. It is the one whose encoding the text starts
with, and where no character's encoding stands a single byte is taken.
-/

namespace Lox.Utf8

/-! ### Bytes of an encoding -/

section Bytes

variable {b : UInt8} {digit : Nat} (s : Bytes)

theorem continuation_cons (hb : b.toNat = digit + 128) (h : digit < 64) (count high : Nat) :
    continuation (count + 1) high (b :: s) = continuation count (64 * high + digit) s := by
  have hhigh : digit + 128 < 192 := by omega
  simp [continuation, UInt8.le_iff_toNat_le, UInt8.lt_iff_toNat_lt, hb, hhigh]

theorem first?_one (hb : b.toNat = digit) (h : digit < 128) :
    first? (b :: s) = some ⟨digit, 1⟩ := by
  simp [first?, UInt8.lt_iff_toNat_lt, hb, h]

theorem first?_two (hb : b.toNat = digit + 192) (h : digit < 32) :
    first? (b :: s) = accept 0x80 2 (continuation 1 digit s) := by
  have h1 : ¬ digit + 192 < 128 := by omega
  have h2 : ¬ digit + 192 < 192 := by omega
  have h3 : digit + 192 < 224 := by omega
  simp [first?, UInt8.lt_iff_toNat_lt, hb, h1, h2, h3]

theorem first?_three (hb : b.toNat = digit + 224) (h : digit < 16) :
    first? (b :: s) = accept 0x800 3 (continuation 2 digit s) := by
  have h1 : ¬ digit + 224 < 128 := by omega
  have h2 : ¬ digit + 224 < 192 := by omega
  have h3 : ¬ digit + 224 < 224 := by omega
  have h4 : digit + 224 < 240 := by omega
  simp [first?, UInt8.lt_iff_toNat_lt, hb, h1, h2, h3, h4]

theorem first?_four (hb : b.toNat = digit + 240) (h : digit < 8) :
    first? (b :: s) = accept 0x10000 4 (continuation 3 digit s) := by
  have h1 : ¬ digit + 240 < 128 := by omega
  have h2 : ¬ digit + 240 < 192 := by omega
  have h3 : ¬ digit + 240 < 224 := by omega
  have h4 : ¬ digit + 240 < 240 := by omega
  have h5 : digit + 240 < 248 := by omega
  simp [first?, UInt8.lt_iff_toNat_lt, hb, h1, h2, h3, h4, h5]

end Bytes

theorem exists_digit_of_continuation {count high code : Nat} {s : Bytes}
    (h : continuation (count + 1) high s = some code) :
    ∃ b digit rest, b.toNat = digit + 128 ∧ digit < 64 ∧ s = b :: rest ∧
      continuation count (64 * high + digit) rest = some code := by
  cases s with
  | nil => cases h
  | cons b rest =>
      rw [continuation] at h
      split at h
      case isFalse => cases h
      case isTrue hb =>
        simp only [Bool.and_eq_true, decide_eq_true_eq, UInt8.le_iff_toNat_le,
          UInt8.lt_iff_toNat_lt] at hb
        have hlow : 128 ≤ b.toNat := hb.1
        have hhigh : b.toNat < 192 := hb.2
        exact ⟨b, b.toNat - 128, rest, by omega, by omega, rfl, h⟩

theorem eq_ofNat {b : UInt8} {n : Nat} (h : b.toNat = n) : UInt8.ofNat n = b := by
  rw [← h, UInt8.ofNat_toNat]

theorem toNat_ofNat {n : Nat} (h : n < 256) : (UInt8.ofNat n).toNat = n := by
  rw [UInt8.toNat_ofNat', Nat.mod_eq_of_lt h]

theorem isScalar_iff (code : Nat) : isScalar code = true ↔ code.isValidChar := by
  simp only [isScalar, Bool.or_eq_true, Bool.and_eq_true, decide_eq_true_eq, Nat.isValidChar]
  omega

theorem accept_eq_some {least width code : Nat} (hleast : least ≤ code)
    (hscalar : isScalar code = true) : accept least width (some code) = some ⟨code, width⟩ := by
  simp [accept, hleast, hscalar]

theorem eq_some_of_accept {least width : Nat} {code : Option Nat} {e : Encoded}
    (h : accept least width code = some e) :
    ∃ n, code = some n ∧ least ≤ n ∧ isScalar n = true ∧ e = ⟨n, width⟩ := by
  unfold accept at h
  split at h
  case h_1 n =>
    split at h
    case isTrue hn =>
      rw [Bool.and_eq_true, decide_eq_true_eq] at hn
      exact ⟨n, rfl, hn.1, hn.2, (Option.some.inj h).symm⟩
    case isFalse => cases h
  case h_2 => cases h

/-! ### Reading an encoding back -/

theorem first?_utf8EncodeChar (c : Char) (rest : Bytes) :
    first? (String.utf8EncodeChar c ++ rest) =
      some ⟨c.toNat, (String.utf8EncodeChar c).length⟩ := by
  have hscalar : isScalar c.toNat = true := (isScalar_iff _).mpr c.valid
  have hmax : c.toNat < 0x110000 := by
    have := c.valid
    simp only [UInt32.isValidChar, Nat.isValidChar] at this
    change c.val.toNat < _
    omega
  have hv : c.val.toNat = c.toNat := rfl
  unfold String.utf8EncodeChar
  dsimp only
  rw [hv]
  split
  case isTrue h => exact first?_one _ (toNat_ofNat (by omega)) (by omega)
  case isFalse h1 =>
    split
    case isTrue h2 =>
      have hcode : 64 * (c.toNat / 64 % 32) + c.toNat % 64 = c.toNat := by omega
      simp only [List.cons_append]
      rw [first?_two _ (toNat_ofNat (by omega)) (by omega),
        continuation_cons _ (toNat_ofNat (by omega)) (by omega), continuation, hcode,
        accept_eq_some (by omega) hscalar]
      rfl
    case isFalse h2 =>
      split
      case isTrue h3 =>
        have hcode : 64 * (64 * (c.toNat / 4096 % 16) + c.toNat / 64 % 64) + c.toNat % 64 =
            c.toNat := by omega
        simp only [List.cons_append]
        rw [first?_three _ (toNat_ofNat (by omega)) (by omega),
          continuation_cons _ (toNat_ofNat (by omega)) (by omega),
          continuation_cons _ (toNat_ofNat (by omega)) (by omega), continuation, hcode,
          accept_eq_some (by omega) hscalar]
        rfl
      case isFalse h3 =>
        have hcode : 64 * (64 * (64 * (c.toNat / 262144 % 8) + c.toNat / 4096 % 64) +
            c.toNat / 64 % 64) + c.toNat % 64 = c.toNat := by omega
        simp only [List.cons_append]
        rw [first?_four _ (toNat_ofNat (by omega)) (by omega),
          continuation_cons _ (toNat_ofNat (by omega)) (by omega),
          continuation_cons _ (toNat_ofNat (by omega)) (by omega),
          continuation_cons _ (toNat_ofNat (by omega)) (by omega), continuation, hcode,
          accept_eq_some (by omega) hscalar]
        rfl

theorem toNat_ofNat_of_isScalar {code : Nat} (h : isScalar code = true) :
    (Char.ofNat code).toNat = code := by
  have hvalid : code.isValidChar := (isScalar_iff code).mp h
  rw [Char.ofNat, dif_pos hvalid]
  rfl

theorem encode_eq {code : Nat} (h : isScalar code = true) :
    encode code =
      if code ≤ 127 then [UInt8.ofNat code]
      else if code ≤ 2047 then [UInt8.ofNat (code / 64 % 32 + 192), UInt8.ofNat (code % 64 + 128)]
      else if code ≤ 65535 then
        [UInt8.ofNat (code / 4096 % 16 + 224), UInt8.ofNat (code / 64 % 64 + 128),
          UInt8.ofNat (code % 64 + 128)]
      else
        [UInt8.ofNat (code / 262144 % 8 + 240), UInt8.ofNat (code / 4096 % 64 + 128),
          UInt8.ofNat (code / 64 % 64 + 128), UInt8.ofNat (code % 64 + 128)] := by
  have hcode : (Char.ofNat code).val.toNat = code := toNat_ofNat_of_isScalar h
  unfold encode String.utf8EncodeChar
  dsimp only
  rw [hcode]

/-- The first byte of an encoding says how many bytes follow it. -/
theorem first?_cases {b : UInt8} {s : Bytes} {e : Encoded} (h : first? (b :: s) = some e) :
    b.toNat < 128 ∧ e = ⟨b.toNat, 1⟩ ∨
    (∃ digit < 32, b.toNat = digit + 192 ∧ accept 0x80 2 (continuation 1 digit s) = some e) ∨
    (∃ digit < 16, b.toNat = digit + 224 ∧ accept 0x800 3 (continuation 2 digit s) = some e) ∨
    ∃ digit < 8, b.toNat = digit + 240 ∧ accept 0x10000 4 (continuation 3 digit s) = some e := by
  by_cases h1 : b.toNat < 128
  · rw [first?_one s rfl h1] at h
    exact .inl ⟨h1, (Option.some.inj h).symm⟩
  by_cases h2 : b.toNat < 192
  · simp [first?, UInt8.lt_iff_toNat_lt, h1, h2] at h
  by_cases h3 : b.toNat < 224
  · have hb : b.toNat = b.toNat - 192 + 192 := by omega
    exact .inr (.inl ⟨_, by omega, hb, first?_two s hb (by omega) ▸ h⟩)
  by_cases h4 : b.toNat < 240
  · have hb : b.toNat = b.toNat - 224 + 224 := by omega
    exact .inr (.inr (.inl ⟨_, by omega, hb, first?_three s hb (by omega) ▸ h⟩))
  by_cases h5 : b.toNat < 248
  · have hb : b.toNat = b.toNat - 240 + 240 := by omega
    exact .inr (.inr (.inr ⟨_, by omega, hb, first?_four s hb (by omega) ▸ h⟩))
  · simp [first?, UInt8.lt_iff_toNat_lt, h1, h2, h3, h4, h5] at h

/-- A text that opens with a character starts with its encoding. -/
theorem exists_eq_encode_append {s : Bytes} {e : Encoded} (h : first? s = some e) :
    ∃ rest, s = encode e.code ++ rest := by
  cases s with
  | nil => cases h
  | cons b s =>
      rcases first?_cases h with ⟨hb, rfl⟩ | ⟨d, hd, hb, h⟩ | ⟨d, hd, hb, h⟩ | ⟨d, hd, hb, h⟩
      · have hscalar : isScalar b.toNat = true := by
          simp only [isScalar, Bool.or_eq_true, decide_eq_true_eq]
          omega
        refine ⟨s, ?_⟩
        rw [encode_eq hscalar, if_pos (by omega), eq_ofNat rfl]
        rfl
      · obtain ⟨code, hcode, hleast, hscalar, rfl⟩ := eq_some_of_accept h
        obtain ⟨b₁, d₁, rest, hb₁, hd₁, hs, hread⟩ := exists_digit_of_continuation hcode
        rw [continuation, Option.some.injEq] at hread
        refine ⟨rest, ?_⟩
        rw [encode_eq hscalar, if_neg (by omega), if_pos (by omega), eq_ofNat (b := b) (by omega),
          eq_ofNat (b := b₁) (by omega), hs]
        rfl
      · obtain ⟨code, hcode, hleast, hscalar, rfl⟩ := eq_some_of_accept h
        obtain ⟨b₁, d₁, s₁, hb₁, hd₁, hs, hread⟩ := exists_digit_of_continuation hcode
        obtain ⟨b₂, d₂, rest, hb₂, hd₂, hs₁, hread⟩ := exists_digit_of_continuation hread
        rw [continuation, Option.some.injEq] at hread
        refine ⟨rest, ?_⟩
        rw [encode_eq hscalar, if_neg (by omega), if_neg (by omega), if_pos (by omega),
          eq_ofNat (b := b) (by omega), eq_ofNat (b := b₁) (by omega),
          eq_ofNat (b := b₂) (by omega), hs, hs₁]
        rfl
      · obtain ⟨code, hcode, hleast, hscalar, rfl⟩ := eq_some_of_accept h
        obtain ⟨b₁, d₁, s₁, hb₁, hd₁, hs, hread⟩ := exists_digit_of_continuation hcode
        obtain ⟨b₂, d₂, s₂, hb₂, hd₂, hs₁, hread⟩ := exists_digit_of_continuation hread
        obtain ⟨b₃, d₃, rest, hb₃, hd₃, hs₂, hread⟩ := exists_digit_of_continuation hread
        rw [continuation, Option.some.injEq] at hread
        refine ⟨rest, ?_⟩
        rw [encode_eq hscalar, if_neg (by omega), if_neg (by omega), if_neg (by omega),
          eq_ofNat (b := b) (by omega), eq_ofNat (b := b₁) (by omega),
          eq_ofNat (b := b₂) (by omega), eq_ofNat (b := b₃) (by omega), hs, hs₁, hs₂]
        rfl

/-! ### What opens a text -/

/-- What is taken first from a text and what is left: a character where one is encoded, and else a
single byte. -/
inductive Opens : Bytes → Bytes → Prop where
  | character (c : Char) (rest : Bytes) : Opens (String.utf8EncodeChar c) rest
  | stray {b : UInt8} {rest : Bytes} (h : ∀ c : Char, ¬ String.utf8EncodeChar c <+: b :: rest) :
      Opens [b] rest

theorem Opens.length_eq {item rest : Bytes} (h : Opens item rest) :
    item.length = width (item ++ rest) := by
  cases h with
  | character c rest => rw [width, first?_utf8EncodeChar]
  | @stray b rest h =>
      have hnone : first? (b :: rest) = none := by
        cases hfirst : first? (b :: rest) with
        | none => rfl
        | some e =>
            obtain ⟨later, hlater⟩ := exists_eq_encode_append hfirst
            exact absurd ⟨later, hlater.symm⟩ (h (Char.ofNat e.code))
      rw [List.singleton_append, width, hnone, List.length_singleton]

theorem Opens.ne_nil {item rest : Bytes} (h : Opens item rest) : item ≠ [] := by
  have hlength := h.length_eq
  have hpos := width_pos (item ++ rest)
  rintro rfl
  rw [List.length_nil] at hlength
  omega

theorem opens_width {s : Bytes} (hs : s ≠ []) : Opens (s.take (width s)) (s.drop (width s)) := by
  cases hfirst : first? s with
  | some e =>
      obtain ⟨rest, hrest⟩ := exists_eq_encode_append hfirst
      have hwidth : width s = (encode e.code).length := by
        rw [width, hrest, encode, first?_utf8EncodeChar]
      rw [hwidth, hrest, List.take_left, List.drop_left]
      exact .character _ rest
  | none =>
      have hwidth : width s = 1 := by rw [width, hfirst]
      cases s with
      | nil => exact absurd rfl hs
      | cons b rest =>
          rw [hwidth]
          refine .stray fun c => ?_
          rintro ⟨later, hlater⟩
          have hlater : String.utf8EncodeChar c ++ later = b :: rest := hlater
          rw [← hlater, first?_utf8EncodeChar] at hfirst
          cases hfirst

end Lox.Utf8
