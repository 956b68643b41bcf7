import Lox.Text.Utf8

/-!
Blank characters, and texts without the blanks around them.
-/

namespace Lox

def isBlank (code : Nat) : Bool :=
  (9 ≤ code && code ≤ 13) || code == 0x20 || code == 0x85 || code == 0xA0 || code == 0x1680 ||
    (0x2000 ≤ code && code ≤ 0x200A) || code == 0x2028 || code == 0x2029 || code == 0x202F ||
    code == 0x205F || code == 0x3000

def isBlankItem : Utf8.Item → Bool
  | .char code _ => isBlank code
  | .stray _ => false

/-- A text without the blank characters at its two ends. -/
def trimmed (s : Bytes) : Bytes :=
  let items := (Utf8.items s).dropWhile isBlankItem
  (items.reverse.dropWhile isBlankItem).reverse.flatMap Utf8.Item.encoding

end Lox
