import Lox.Text.Printable
import Lox.Text.Utf8

/-!
Double-quoted texts. Printable characters stand for themselves, a quote and a backslash follow a
backslash, and everything else is named by a letter or by its hexadecimal digits.
-/

namespace Lox.Quoted

def backslash : UInt8 := 92

def mark : UInt8 := 34

/-- Control characters that have a letter of their own. -/
def letterOf? (code : Nat) : Option UInt8 :=
  match code with
  | 7 => some 97
  | 8 => some 98
  | 9 => some 116
  | 10 => some 110
  | 11 => some 118
  | 12 => some 102
  | 13 => some 114
  | _ => none

def escapeByte (code : Nat) : Bytes :=
  backslash :: 120 :: Bytes.hex 2 code

def escapeChar (code : Nat) (encoding : Bytes) : Bytes :=
  if code = mark.toNat ∨ code = backslash.toNat then
    backslash :: encoding
  else if isPrintable code then
    encoding
  else
    match letterOf? code with
    | some letter => [backslash, letter]
    | none =>
        if code < 0x20 ∨ code = 0x7F then
          escapeByte code
        else if code < 0x10000 then
          backslash :: 117 :: Bytes.hex 4 code
        else
          backslash :: 85 :: Bytes.hex 8 code

def escape : Utf8.Item → Bytes
  | .char code encoding => escapeChar code encoding
  | .stray byte => escapeByte byte.toNat

end Lox.Quoted

namespace Lox

def quoted (s : Bytes) : Bytes :=
  Quoted.mark :: (Utf8.items s).flatMap Quoted.escape ++ [Quoted.mark]

end Lox
