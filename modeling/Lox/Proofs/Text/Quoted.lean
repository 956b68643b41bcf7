import Mathlib.Algebra.Group.Nat.Defs
import Lox.Proofs.Text.Character
import Lox.Text.Quoted

/-!
# Quoted texts are read back

Each character of a quoted text is escaped on its own, and the escape says where it ends and which
bytes it stands for. No escape begins with a quote, so the closing quote is found as well: a quoted
text tells what it quotes, whatever stands behind it.
-/

namespace Lox

/-! ### Hexadecimal digits -/

namespace Bytes

/-- The value of a hexadecimal digit, in small letters. -/
def hexValue (b : UInt8) : Nat :=
  if b.toNat < 58 then b.toNat - 48 else b.toNat - 87

def ofHex (s : Bytes) : Nat :=
  s.foldl (fun n b => 16 * n + hexValue b) 0

theorem hexValue_digit {d : Nat} (h : d < 16) : hexValue (digit d) = d := by
  have hall : ∀ d < 16, hexValue (digit d) = d := by decide
  exact hall d h

theorem ofHex_append (s : Bytes) (b : UInt8) : ofHex (s ++ [b]) = 16 * ofHex s + hexValue b := by
  simp [ofHex, List.foldl_append]

theorem length_hex (width n : Nat) : (hex width n).length = width := by
  induction width generalizing n with
  | zero => rfl
  | succ width ih => rw [hex, List.length_append, ih, List.length_singleton]

theorem take_hex (width n : Nat) (rest : Bytes) : (hex width n ++ rest).take width = hex width n :=
  List.take_left' (length_hex width n)

theorem drop_hex (width n : Nat) (rest : Bytes) : (hex width n ++ rest).drop width = rest :=
  List.drop_left' (length_hex width n)

theorem ofHex_hex {width n : Nat} (h : n < 16 ^ width) : ofHex (hex width n) = n := by
  induction width generalizing n with
  | zero =>
      rw [Nat.pow_zero] at h
      have hn : n = 0 := by omega
      rw [hn]
      rfl
  | succ width ih =>
      have hhigh : n / 16 < 16 ^ width := by
        rw [Nat.pow_succ] at h
        exact Nat.div_lt_of_lt_mul (by omega)
      have hlow : n % 16 < 16 := Nat.mod_lt n (by decide)
      rw [hex, ofHex_append, ih hhigh, hexValue_digit hlow]
      omega

end Bytes

/-! ### Items -/

namespace Utf8

/-- A character has its own encoding. -/
def Item.Proper : Item → Prop
  | .char code encoding => isScalar code = true ∧ encoding = encode code
  | .stray _ => True

theorem width_encode_append (code : Nat) (rest : Bytes) :
    width (encode code ++ rest) = (encode code).length := by
  rw [width, encode, first?_utf8EncodeChar]

theorem isScalar_of_first? {s : Bytes} {e : Encoded} (h : first? s = some e) :
    isScalar e.code = true := by
  cases s with
  | nil => cases h
  | cons b s =>
      rcases first?_cases h with ⟨hb, rfl⟩ | ⟨d, -, -, h⟩ | ⟨d, -, -, h⟩ | ⟨d, -, -, h⟩
      · simp only [isScalar, Bool.or_eq_true, decide_eq_true_eq]
        omega
      all_goals
        obtain ⟨code, -, -, hscalar, rfl⟩ := eq_some_of_accept h
        exact hscalar

theorem take_first? {s : Bytes} {e : Encoded} (h : first? s = some e) :
    s.take e.width = encode e.code := by
  obtain ⟨rest, hrest⟩ := exists_eq_encode_append h
  have hwidth : e.width = (encode e.code).length := by
    have hs : width s = e.width := by rw [width, h]
    rw [← hs, hrest, width_encode_append]
  rw [hwidth, hrest, List.take_left]

theorem proper_of_mem_items (s : Bytes) : ∀ item ∈ items s, item.Proper := by
  induction s using items.induct with
  | case1 => simp [items]
  | case2 b s e he ih =>
      rw [items, he]
      exact List.forall_mem_cons.mpr ⟨⟨isScalar_of_first? he, take_first? he⟩, ih⟩
  | case3 b s he ih =>
      rw [items, he]
      exact List.forall_mem_cons.mpr ⟨trivial, ih⟩

theorem flatMap_encoding_items (s : Bytes) : (items s).flatMap Item.encoding = s := by
  induction s using items.induct with
  | case1 => simp [items]
  | case2 b s e he ih =>
      have hwidth : width (b :: s) = e.width := by rw [width, he]
      rw [items, he]
      rw [List.flatMap_cons, ih, hwidth]
      exact List.take_append_drop e.width (b :: s)
  | case3 b s he ih =>
      have hwidth : width (b :: s) = 1 := by rw [width, he]
      rw [items, he]
      rw [List.flatMap_cons, ih, hwidth]
      rfl

end Utf8

/-! ### Escapes -/

namespace Quoted

open Utf8

/-- The control character that a letter names; other bytes stand for themselves. -/
def controlOf (letter : UInt8) : UInt8 :=
  match letter with
  | 97 => 7
  | 98 => 8
  | 116 => 9
  | 110 => 10
  | 118 => 11
  | 102 => 12
  | 114 => 13
  | b => b

/-- The bytes that the first escape stands for, and what follows it. -/
def unescape : Bytes → Bytes × Bytes
  | 92 :: 120 :: s => ([UInt8.ofNat (Bytes.ofHex (s.take 2))], s.drop 2)
  | 92 :: 117 :: s => (encode (Bytes.ofHex (s.take 4)), s.drop 4)
  | 92 :: 85 :: s => (encode (Bytes.ofHex (s.take 8)), s.drop 8)
  | 92 :: b :: s => ([controlOf b], s)
  | s => (s.take (width s), s.drop (width s))

theorem unescape_byte {code : Nat} (h : code < 256) (rest : Bytes) :
    unescape (escapeByte code ++ rest) = ([UInt8.ofNat code], rest) := by
  change ([UInt8.ofNat (Bytes.ofHex ((Bytes.hex 2 code ++ rest).take 2))],
    (Bytes.hex 2 code ++ rest).drop 2) = _
  rw [Bytes.take_hex, Bytes.drop_hex, Bytes.ofHex_hex h]

theorem encode_ascii {code : Nat} (h : code < 128) : encode code = [UInt8.ofNat code] := by
  have hscalar : isScalar code = true := by
    simp only [isScalar, Bool.or_eq_true, decide_eq_true_eq]
    omega
  rw [encode_eq hscalar, if_pos (by omega)]

/-- A character is its own byte, or all of its bytes are beyond the first 128. -/
theorem toNat_of_mem_encode {code : Nat} (hscalar : isScalar code = true) :
    ∀ b ∈ encode code, b.toNat = code ∨ 128 ≤ b.toNat := by
  have hmax : code < 0x110000 := by
    simp only [isScalar, Bool.or_eq_true, Bool.and_eq_true, decide_eq_true_eq] at hscalar
    omega
  intro b hb
  rw [encode_eq hscalar] at hb
  split at hb
  · obtain rfl := List.mem_singleton.mp hb
    exact .inl (toNat_ofNat (by omega))
  · right
    split at hb
    · simp only [List.mem_cons, List.not_mem_nil, or_false] at hb
      rcases hb with rfl | rfl <;> rw [toNat_ofNat (by omega)] <;> omega
    · split at hb
      · simp only [List.mem_cons, List.not_mem_nil, or_false] at hb
        rcases hb with rfl | rfl | rfl <;> rw [toNat_ofNat (by omega)] <;> omega
      · simp only [List.mem_cons, List.not_mem_nil, or_false] at hb
        rcases hb with rfl | rfl | rfl | rfl <;> rw [toNat_ofNat (by omega)] <;> omega

theorem ne_of_mem_encode {code : Nat} (hscalar : isScalar code = true) {d : UInt8}
    (hd : d.toNat < 128) (hne : code ≠ d.toNat) : ∀ b ∈ encode code, b ≠ d := by
  rintro b hb rfl
  rcases toNat_of_mem_encode hscalar b hb with h | h
  · exact hne h.symm
  · omega

theorem exists_encode_eq_cons (code : Nat) : ∃ b s, encode code = b :: s :=
  List.exists_cons_of_ne_nil (Opens.character (Char.ofNat code) []).ne_nil

theorem unescape_plain {code : Nat} (hscalar : isScalar code = true) (hne : code ≠ 92)
    (rest : Bytes) : unescape (encode code ++ rest) = (encode code, rest) := by
  obtain ⟨b, s, hencode⟩ := exists_encode_eq_cons code
  have hmem : b ∈ encode code := hencode ▸ List.mem_cons_self
  have hb : b ≠ 92 := ne_of_mem_encode hscalar (by decide : (92 : UInt8).toNat < 128) hne b hmem
  have hsplit : unescape (encode code ++ rest) =
      ((encode code ++ rest).take (width (encode code ++ rest)),
        (encode code ++ rest).drop (width (encode code ++ rest))) := by
    rw [hencode, List.cons_append]
    unfold unescape
    split
    case h_5 => rfl
    all_goals
      rename_i heq
      exact absurd (List.cons.inj heq).1 hb
  rw [hsplit, width_encode_append, List.take_left, List.drop_left]

theorem unescape_letter {code : Nat} {letter : UInt8} (h : letterOf? code = some letter)
    (rest : Bytes) : unescape (backslash :: letter :: rest) = (encode code, rest) := by
  unfold letterOf? at h
  split at h
  case h_8 => cases h
  all_goals
    cases h
    rw [encode_ascii (by decide)]
    rfl

theorem unescape_short {code : Nat} (h : code < 0x10000) (rest : Bytes) :
    unescape (backslash :: 117 :: Bytes.hex 4 code ++ rest) = (encode code, rest) := by
  change (encode (Bytes.ofHex ((Bytes.hex 4 code ++ rest).take 4)),
    (Bytes.hex 4 code ++ rest).drop 4) = _
  rw [Bytes.take_hex, Bytes.drop_hex, Bytes.ofHex_hex h]

theorem unescape_long {code : Nat} (h : code < 0x110000) (rest : Bytes) :
    unescape (backslash :: 85 :: Bytes.hex 8 code ++ rest) = (encode code, rest) := by
  have hcode : code < 16 ^ 8 := Nat.lt_trans h (by decide)
  change (encode (Bytes.ofHex ((Bytes.hex 8 code ++ rest).take 8)),
    (Bytes.hex 8 code ++ rest).drop 8) = _
  rw [Bytes.take_hex, Bytes.drop_hex, Bytes.ofHex_hex hcode]

/-- An escape is read back, whatever stands behind it. -/
theorem unescape_escape {item : Item} (h : item.Proper) (rest : Bytes) :
    unescape (escape item ++ rest) = (item.encoding, rest) := by
  cases item with
  | stray byte =>
      rw [escape, unescape_byte byte.toNat_lt, UInt8.ofNat_toNat]
      rfl
  | char code encoding =>
      obtain ⟨hscalar, rfl⟩ := h
      have hmax : code < 0x110000 := by
        simp only [isScalar, Bool.or_eq_true, Bool.and_eq_true, decide_eq_true_eq] at hscalar
        omega
      rw [escape, escapeChar, Item.encoding]
      split
      case isTrue hmark =>
        rcases hmark with rfl | rfl <;> rfl
      case isFalse hmark =>
        split
        case isTrue => exact unescape_plain hscalar (fun hcode => hmark (.inr hcode)) rest
        case isFalse =>
          split
          case h_1 letter hletter => exact unescape_letter hletter rest
          case h_2 =>
            split
            case isTrue hcontrol =>
              rw [unescape_byte (by omega), encode_ascii (by omega)]
            case isFalse =>
              split
              case isTrue hshort => exact unescape_short hshort rest
              case isFalse => exact unescape_long hmax rest

/-! ### What escapes contain -/

theorem le_of_mem_hex {width n : Nat} : ∀ b ∈ Bytes.hex width n, 48 ≤ b.toNat := by
  induction width generalizing n with
  | zero => exact List.forall_mem_nil _
  | succ width ih =>
      have hall : ∀ d < 16, 48 ≤ (Bytes.digit d).toNat := by decide
      rw [Bytes.hex, List.forall_mem_append]
      exact ⟨ih, List.forall_mem_singleton.mpr (hall _ (Nat.mod_lt n (by decide)))⟩

/-- A backslash and bytes from the digits on. -/
theorem ne_of_mem_marked {b₁ : UInt8} {s : Bytes} (hb₁ : 48 ≤ b₁.toNat)
    (hs : ∀ b ∈ s, 48 ≤ b.toNat) : ∀ b ∈ backslash :: b₁ :: s, b ≠ Bytes.lineFeed := by
  have hne {b : UInt8} (hb : 48 ≤ b.toNat) : b ≠ Bytes.lineFeed := by
    rintro rfl
    exact absurd hb (by decide)
  refine List.forall_mem_cons.mpr ⟨by decide, List.forall_mem_cons.mpr ⟨hne hb₁, ?_⟩⟩
  exact fun b hb => hne (hs b hb)

theorem ne_lineFeed_of_mem_escape {item : Item} (h : item.Proper) :
    ∀ b ∈ escape item, b ≠ Bytes.lineFeed := by
  cases item with
  | stray byte => exact ne_of_mem_marked (by decide) le_of_mem_hex
  | char code encoding =>
      obtain ⟨hscalar, rfl⟩ := h
      rw [escape, escapeChar]
      split
      case isTrue hmark =>
        refine List.forall_mem_ne'.mpr ?_
        rcases hmark with rfl | rfl <;> decide
      case isFalse hmark =>
        split
        case isTrue hprintable =>
          refine ne_of_mem_encode hscalar (by decide) ?_
          rintro rfl
          exact absurd hprintable (by decide +kernel)
        case isFalse =>
          split
          case h_1 letter hletter =>
            have hbyte : 48 ≤ letter.toNat := by
              unfold letterOf? at hletter
              split at hletter <;> cases hletter <;> decide
            exact ne_of_mem_marked hbyte (List.forall_mem_nil _)
          case h_2 =>
            split
            case isTrue => exact ne_of_mem_marked (by decide) le_of_mem_hex
            case isFalse => split <;> exact ne_of_mem_marked (by decide) le_of_mem_hex

/-- An escape begins with a backslash or with the character that it is. -/
theorem exists_escape_eq_cons {item : Item} (h : item.Proper) :
    ∃ b s, escape item = b :: s ∧ b ≠ mark := by
  cases item with
  | stray byte => exact ⟨backslash, _, rfl, by decide⟩
  | char code encoding =>
      obtain ⟨hscalar, rfl⟩ := h
      rw [escape, escapeChar]
      split
      case isTrue => exact ⟨backslash, _, rfl, by decide⟩
      case isFalse hmark =>
        split
        case isTrue =>
          obtain ⟨b, s, hencode⟩ := exists_encode_eq_cons code
          have hmem : b ∈ encode code := hencode ▸ List.mem_cons_self
          have hcode : code ≠ mark.toNat := fun hcode => hmark (.inl hcode)
          exact ⟨b, s, hencode, ne_of_mem_encode hscalar (by decide) hcode b hmem⟩
        case isFalse =>
          split
          case h_1 => exact ⟨backslash, _, rfl, by decide⟩
          case h_2 =>
            split
            case isTrue => exact ⟨backslash, _, rfl, by decide⟩
            case isFalse => split <;> exact ⟨backslash, _, rfl, by decide⟩

/-! ### The closing quote -/

/-- The first quote that is not escaped closes the text. -/
theorem escapes_unambiguous {xs ys : List Item} (hxs : ∀ x ∈ xs, x.Proper)
    (hys : ∀ y ∈ ys, y.Proper) {r r' : Bytes}
    (h : xs.flatMap escape ++ mark :: r = ys.flatMap escape ++ mark :: r') :
    xs.flatMap Item.encoding = ys.flatMap Item.encoding ∧ r = r' := by
  induction xs generalizing ys with
  | nil =>
      cases ys with
      | nil => exact ⟨rfl, (List.cons.inj h).2⟩
      | cons y ys =>
          obtain ⟨b, s, hescape, hb⟩ := exists_escape_eq_cons (hys y List.mem_cons_self)
          rw [List.flatMap_cons, hescape] at h
          exact absurd (List.cons.inj h).1.symm hb
  | cons x xs ih =>
      obtain ⟨hx, hxs⟩ := List.forall_mem_cons.mp hxs
      cases ys with
      | nil =>
          obtain ⟨b, s, hescape, hb⟩ := exists_escape_eq_cons hx
          rw [List.flatMap_cons, hescape] at h
          exact absurd (List.cons.inj h).1 hb
      | cons y ys =>
          obtain ⟨hy, hys⟩ := List.forall_mem_cons.mp hys
          rw [List.flatMap_cons, List.flatMap_cons, List.append_assoc, List.append_assoc] at h
          have hread := congrArg unescape h
          rw [unescape_escape hx, unescape_escape hy, Prod.mk.injEq] at hread
          obtain ⟨hencoding, hrest⟩ := hread
          obtain ⟨hencodings, hr⟩ := ih hxs hys hrest
          rw [List.flatMap_cons, List.flatMap_cons, hencoding, hencodings]
          exact ⟨rfl, hr⟩

end Quoted

open Quoted

/-- A quoted text tells what it quotes and where it ends. -/
theorem quoted_unambiguous {s t r r' : Bytes} (h : quoted s ++ r = quoted t ++ r') :
    s = t ∧ r = r' := by
  simp only [quoted, List.cons_append, List.append_assoc, List.nil_append] at h
  obtain ⟨hencodings, hr⟩ := escapes_unambiguous (Utf8.proper_of_mem_items s)
    (Utf8.proper_of_mem_items t) (List.cons.inj h).2
  rw [Utf8.flatMap_encoding_items, Utf8.flatMap_encoding_items] at hencodings
  exact ⟨hencodings, hr⟩

theorem ne_lineFeed_of_mem_quoted (s : Bytes) : ∀ b ∈ quoted s, b ≠ Bytes.lineFeed := by
  rw [quoted, List.cons_append, List.forall_mem_cons, List.forall_mem_append]
  refine ⟨by decide, fun b hb => ?_, List.forall_mem_singleton.mpr (by decide)⟩
  obtain ⟨item, hitem, hb⟩ := List.mem_flatMap.mp hb
  exact ne_lineFeed_of_mem_escape (Utf8.proper_of_mem_items s item hitem) b hb

end Lox
