import Lox.Yaml.Scalar

/-!
Tokens of a document, and those of them that have a form of their own: anchors, aliases, tags and
directives.
-/

namespace Lox.Yaml

/-- A tag as it is written: a handle that stands for the first part of a name, and the rest. -/
structure Tag where
  handle : List Char
  suffix : List Char
  deriving DecidableEq, Repr

inductive Token where
  | version (major minor : Nat)
  | tagHandle (handle start : List Char)
  | documentStart
  | documentEnd
  | sequenceStart
  | mappingStart
  | blockEnd
  | openSequence
  | closeSequence
  | openMapping
  | closeMapping
  | entry
  | comma
  | key
  | value
  | anchor (name : List Char)
  | alias (name : List Char)
  | tag (t : Tag)
  | scalar (isPlain : Bool) (text : List Char)
  | streamEnd
  deriving DecidableEq, Repr

namespace Token

/-- Characters that may follow the name of an anchor directly. -/
def followsName (c : Char) : Bool :=
  isGap c || c == '?' || c == ':' || c == ',' || c == ']' || c.toNat == 0x7D || c == '%' || c == '@' ||
    c.toNat == 0x60

/-- The name of an anchor or alias behind its sign. -/
def name? (c : Cursor) : Option (List Char × Cursor) :=
  let (name, c) := c.next.span isNameChar
  if name.isEmpty || !c.rest.head?.all followsName then none else some (name, c)

/-- Characters of which tags consist. -/
def isTagChar (c : Char) : Bool :=
  isNameChar c || ";/?:@&=+$,.!~*()[]%".toList.contains c || c == Scalar.singleQuote

/-- One byte, written as a percent sign and two hexadecimal digits. -/
def byteEscape? : List Char → Option Nat
  | '%' :: rest => Scalar.hexNumber? 2 rest
  | _ => none

/-- The number of bytes of a character by its first byte. -/
def widthOf? (first : Nat) : Option Nat :=
  if first < 0x80 then some 1
  else if 0xC0 ≤ first && first < 0xE0 then some 2
  else if 0xE0 ≤ first && first < 0xF0 then some 3
  else if 0xF0 ≤ first && first < 0xF8 then some 4
  else none

/-- A character that is written as escaped bytes. -/
def escapedChar? (c : Cursor) : Option (Char × Cursor) := do
  let first ← byteEscape? c.rest
  let width ← widthOf? first
  let others ← (List.range (width - 1)).mapM fun i => byteEscape? (c.rest.drop (3 * (i + 1)))
  let e ← Utf8.first? ((first :: others).map Nat.toUInt8)
  return (Char.ofNat e.code, c.skip (3 * width))

/-- The name in a tag. -/
def tagName? : Nat → Cursor → Option (List Char × Cursor)
  | 0, c => some ([], c)
  | n + 1, c =>
      match c.rest with
      | [] => some ([], c)
      | x :: _ =>
          if x == '%' then
            match escapedChar? c with
            | some (y, c) => (tagName? n c).map fun (more, c) => (y :: more, c)
            | none => none
          else if isTagChar x then
            (tagName? n c.next).map fun (more, c) => (x :: more, c)
          else
            some ([], c)

/-- An exclamation mark, name characters, and the second exclamation mark if there is one. -/
def handle (c : Cursor) : List Char × Cursor :=
  let (name, d) := c.next.span isNameChar
  if d.sees (· == '!') then ('!' :: name ++ ['!'], d.next) else ('!' :: name, d)

/-- A tag that is written in full between angle brackets. -/
def verbatim? (c : Cursor) : Option (Tag × Cursor) := do
  let c := c.skip 2
  let (suffix, c) ← tagName? c.rest.length c
  if suffix.isEmpty || !c.sees (· == '>') then none else some (⟨[], suffix⟩, c.next)

/-- A tag with a handle. A single exclamation mark is a tag of its own. -/
def shorthand? (c : Cursor) : Option (Tag × Cursor) := do
  let (handle, c) := handle c
  let (name, c) ← tagName? c.rest.length c
  if 1 < handle.length && handle.getLast? == some '!' then
    if name.isEmpty then none else some (⟨handle, name⟩, c)
  else
    let suffix := handle.drop 1 ++ name
    some (if suffix.isEmpty then ⟨[], ['!']⟩ else ⟨['!'], suffix⟩, c)

/-- A tag as a whole. White space follows it. -/
def tag? (c : Cursor) : Option (Tag × Cursor) := do
  let (t, c) ← if c.next.sees (· == '<') then verbatim? c else shorthand? c
  if startsGap c.rest then some (t, c) else none

/-- A number of at most nine digits. -/
def number? (c : Cursor) : Option (Nat × Cursor) :=
  let (digits, c) := c.span (·.isDigit)
  if digits.isEmpty || 9 < digits.length then none
  else some (digits.foldl (fun n d => 10 * n + (d.toNat - 48)) 0, c)

def version? (c : Cursor) : Option (Token × Cursor) := do
  let (major, c) ← number? (c.skipWhile isBlank)
  if !c.sees (· == '.') then none
  else
    let (minor, c) ← number? c.next
    return (.version major minor, c)

def tagHandle? (c : Cursor) : Option (Token × Cursor) := do
  let c := c.skipWhile isBlank
  if !c.sees (· == '!') then none
  else
    let (handle, c) := handle c
    if handle != ['!'] && (handle.length == 1 || handle.getLast? != some '!') then none
    else if !c.sees isBlank then none
    else
      let c := c.skipWhile isBlank
      let (start, c) ← tagName? c.rest.length c
      if start.isEmpty || !startsGap c.rest then none else some (.tagHandle handle start, c)

/-- A directive, which takes a line of its own. -/
def directive? (c : Cursor) : Option (Token × Cursor) := do
  let (name, c) := c.next.span isNameChar
  if name.isEmpty || !startsGap c.rest then none
  else
    let (token, c) ←
      if name = "YAML".toList then version? c
      else if name = "TAG".toList then tagHandle? c
      else none
    let c := c.skipComment.skipWhile isBlank
    if c.atEnd || c.sees isBreak then some (token, c.nextLine.2) else none

end Token

end Lox.Yaml
