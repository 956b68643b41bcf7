import Lox.Text.Utf8

/-!
Places in a document. A document is a list of characters; a place knows what follows it and where it
stands, because the structure of a document depends on lines and columns.
-/

namespace Lox.Yaml

/-- A carriage return, a line feed, or one of three rarer characters that end a line. -/
def isBreak (c : Char) : Bool :=
  c == '\n' || c == '\r' || c.toNat == 0x85 || c.toNat == 0x2028 || c.toNat == 0x2029

def isBlank (c : Char) : Bool :=
  c == ' ' || c == '\t'

def isGap (c : Char) : Bool :=
  isBlank c || isBreak c

/-- Characters of which names consist. -/
def isNameChar (c : Char) : Bool :=
  c.isAlphanum || c == '_' || c == '-'

/-- Whether a text starts with white space or is at its end. -/
def startsGap (s : List Char) : Bool :=
  s.head?.all isGap

structure Cursor where
  rest : List Char
  index : Nat
  line : Nat
  column : Nat
  deriving DecidableEq, Repr

namespace Cursor

def start (text : List Char) : Cursor :=
  ⟨text, 0, 0, 0⟩

def sees (c : Cursor) (p : Char → Bool) : Bool :=
  c.rest.head?.any p

def atEnd (c : Cursor) : Bool :=
  c.rest.isEmpty

/-- Passes characters of the same line. -/
def skip (c : Cursor) (count : Nat) : Cursor :=
  { c with rest := c.rest.drop count, index := c.index + count, column := c.column + count }

def next (c : Cursor) : Cursor :=
  c.skip 1

/-- The characters up to the first without a property, and the place behind them. -/
def span (c : Cursor) (p : Char → Bool) : List Char × Cursor :=
  let text := c.rest.takeWhile p
  (text, c.skip text.length)

def skipWhile (c : Cursor) (p : Char → Bool) : Cursor :=
  (c.span p).2

/-- What a line break stands for, and the start of the next line. -/
def nextLine (c : Cursor) : List Char × Cursor :=
  match c.rest with
  | [] => ([], c)
  | '\r' :: '\n' :: rest => (['\n'], ⟨rest, c.index + 2, c.line + 1, 0⟩)
  | b :: rest =>
      (if b.toNat == 0x2028 || b.toNat == 0x2029 then [b] else ['\n'],
        ⟨rest, c.index + 1, c.line + 1, 0⟩)

/-- Whether a line starts here with three times the same character and nothing right behind it. -/
def atMark (c : Cursor) (mark : Char) : Bool :=
  c.column == 0 && c.rest.take 3 == [mark, mark, mark] && startsGap (c.rest.drop 3)

/-- Whether a line starts here that divides documents. -/
def atDivision (c : Cursor) : Bool :=
  c.atMark '-' || c.atMark '.'

/-- Passes everything up to the end of the line. -/
def skipLine (c : Cursor) : Cursor :=
  c.skipWhile (!isBreak ·)

/-- Passes a comment behind blanks on the same line, if there is one. -/
def skipComment (c : Cursor) : Cursor :=
  let d := c.skipWhile isBlank
  if d.sees (· == '#') then d.skipLine else c

end Cursor

end Lox.Yaml
