import Lox.Text.Bytes

/-!
The character that opens a text. An encoding is accepted only in its shortest form and only for
scalar values; a byte that opens no such encoding stands for itself and has width one.
-/

namespace Lox.Utf8

/-- Reads `count` continuation bytes below the leading bits `high`. -/
def continuation : Nat → Nat → Bytes → Option Nat
  | 0, high, _ => some high
  | _ + 1, _, [] => none
  | count + 1, high, b :: s =>
      if 0x80 ≤ b && b < 0xC0 then
        continuation count (64 * high + (b.toNat - 0x80)) s
      else
        none

def isScalar (code : Nat) : Bool :=
  code < 0xD800 || (0xE000 ≤ code && code < 0x110000)

/-- The code point written for a byte that is part of no character. -/
def replacement : Nat := 0xFFFD

structure Encoded where
  code : Nat
  width : Nat
  deriving DecidableEq, Repr

/-- Accepts the encoding of `code` only if fewer bytes could not hold it. -/
def accept (least width : Nat) (code : Option Nat) : Option Encoded :=
  match code with
  | some code => if least ≤ code && isScalar code then some ⟨code, width⟩ else none
  | none => none

def first? : Bytes → Option Encoded
  | [] => none
  | b :: s =>
      if b < 0x80 then
        some ⟨b.toNat, 1⟩
      else if b < 0xC0 then
        none
      else if b < 0xE0 then
        accept 0x80 2 (continuation 1 (b.toNat - 0xC0) s)
      else if b < 0xF0 then
        accept 0x800 3 (continuation 2 (b.toNat - 0xE0) s)
      else if b < 0xF8 then
        accept 0x10000 4 (continuation 3 (b.toNat - 0xF0) s)
      else
        none

/-- The number of bytes of the character or stray byte that opens a text. -/
def width (s : Bytes) : Nat :=
  match first? s with
  | some e => e.width
  | none => 1

theorem accept_width {least width : Nat} {code : Option Nat} {e : Encoded}
    (h : accept least width code = some e) : e.width = width := by
  unfold accept at h
  split at h
  · split at h
    · cases h; rfl
    · cases h
  · cases h

theorem first?_width_pos {s : Bytes} {e : Encoded} (h : first? s = some e) : 0 < e.width := by
  unfold first? at h
  split at h
  · cases h
  · split at h
    · cases h; exact Nat.one_pos
    · split at h
      · cases h
      · split at h
        · rw [accept_width h]; decide
        · split at h
          · rw [accept_width h]; decide
          · split at h
            · rw [accept_width h]; decide
            · cases h

theorem width_pos (s : Bytes) : 0 < width s := by
  unfold width
  split
  · exact first?_width_pos (by assumption)
  · exact Nat.one_pos

theorem length_drop_width_lt {s : Bytes} (h : s ≠ []) : (s.drop (width s)).length < s.length := by
  have := width_pos s
  have := List.length_pos_iff.mpr h
  rw [List.length_drop]
  omega

/-- A character with its bytes, or a byte that is part of no character. -/
inductive Item where
  | char (code : Nat) (encoding : Bytes)
  | stray (byte : UInt8)

/-- Splits a text into characters and stray bytes. -/
def items : Bytes → List Item
  | [] => []
  | b :: s =>
      match first? (b :: s) with
      | some e => .char e.code ((b :: s).take e.width) :: items ((b :: s).drop (width (b :: s)))
      | none => .stray b :: items ((b :: s).drop (width (b :: s)))
termination_by s => s.length
decreasing_by all_goals exact length_drop_width_lt (by simp)

def Item.isChar : Item → Bool
  | .char .. => true
  | .stray _ => false

def Item.encoding : Item → Bytes
  | .char _ encoding => encoding
  | .stray byte => [byte]

def isValid (s : Bytes) : Bool :=
  (items s).all Item.isChar

/-- The encoding of a scalar value. -/
def encode (code : Nat) : Bytes :=
  String.utf8EncodeChar (Char.ofNat code)

end Lox.Utf8
