import Lox.Yaml.Cursor

/-!
Scalars: texts that are plain, between quotes, or written as a block of lines. White space inside a plain
or quoted scalar is kept within a line; a single line break becomes a space, and of several the first is
dropped.
-/

namespace Lox.Yaml

/-- White space inside a scalar: the blanks before its first line break, and what its line breaks stand
for. -/
structure Gap where
  blanks : List Char
  breaks : List (List Char)
  deriving DecidableEq, Repr

namespace Gap

def none : Gap :=
  ⟨[], []⟩

/-- A line break behind a backslash stands for nothing. -/
def escapedBreak : Gap :=
  ⟨[], [[]]⟩

def spansLines (gap : Gap) : Bool :=
  !gap.breaks.isEmpty

def text (gap : Gap) : List Char :=
  match gap.breaks with
  | [] => gap.blanks
  | first :: others =>
      if first == ['\n'] then
        if others.isEmpty then [' '] else others.flatten
      else
        first ++ others.flatten

/-- Passes white space. Behind a line break a tab must not stand left of the column `floor`. -/
def pass (floor : Nat) : Nat → Gap → Cursor → Option (Gap × Cursor)
  | 0, gap, c => some (gap, c)
  | n + 1, gap, c =>
      match c.rest with
      | [] => some (gap, c)
      | x :: _ =>
          if isBlank x then
            if !gap.spansLines then pass floor n { gap with blanks := gap.blanks ++ [x] } c.next
            else if x == '\t' && c.column < floor then .none
            else pass floor n gap c.next
          else if isBreak x then
            let (text, c) := c.nextLine
            pass floor n { gap with breaks := gap.breaks ++ [text] } c
          else
            some (gap, c)

end Gap

namespace Scalar

/-! Quoted scalars -/

def singleQuote : Char := Char.ofNat 39

def doubleQuote : Char := Char.ofNat 34

/-- The code point that a character behind a backslash stands for. -/
def escapeOf? (c : Char) : Option Nat :=
  [('0', 0), ('a', 7), ('b', 8), ('t', 9), ('\t', 9), ('n', 10), ('v', 11), ('f', 12), ('r', 13),
    ('e', 27), (' ', 32), (doubleQuote, 34), (singleQuote, 39), ('\\', 92), ('N', 0x85),
    ('_', 0xA0), ('L', 0x2028), ('P', 0x2029)].lookup c

/-- How many hexadecimal digits follow a character behind a backslash. -/
def escapeDigits? (c : Char) : Option Nat :=
  [('x', 2), ('u', 4), ('U', 8)].lookup c

def hexValue? (c : Char) : Option Nat :=
  if c.isDigit then some (c.toNat - 48)
  else if 'a' ≤ c && c ≤ 'f' then some (c.toNat - 87)
  else if 'A' ≤ c && c ≤ 'F' then some (c.toNat - 55)
  else none

/-- The number that exactly `count` hexadecimal digits at the start of a text write. -/
def hexNumber? (count : Nat) (s : List Char) : Option Nat :=
  if s.length < count then none
  else ((s.take count).mapM hexValue?).map (·.foldl (fun n d => 16 * n + d) 0)

/-- The character that an escape behind a backslash stands for, and the place behind it. -/
def escape? (c : Cursor) : Option (Char × Cursor) :=
  match c.rest with
  | [] => none
  | x :: rest =>
      match escapeOf? x, escapeDigits? x with
      | some code, _ => some (Char.ofNat code, c.next)
      | none, some count =>
          match hexNumber? count rest with
          | some code =>
              if Utf8.isScalar code then some (Char.ofNat code, c.skip (count + 1)) else none
          | none => none
      | none, none => none

/-- The part of a quoted scalar up to white space or its closing quote. A line break behind a backslash is
passed. -/
def quotedPart? (quote : Char) : Nat → Cursor → Option (List Char × Gap × Cursor)
  | 0, _ => none
  | n + 1, c =>
      match c.rest with
      | [] => some ([], .none, c)
      | x :: rest =>
          if isGap x then
            some ([], .none, c)
          else if x == quote then
            if quote == singleQuote && rest.head? == some quote then
              (quotedPart? quote n (c.skip 2)).map fun (text, more) => (quote :: text, more)
            else
              some ([], .none, c)
          else if quote == doubleQuote && x == '\\' then
            if rest.head?.any isBreak then
              some ([], .escapedBreak, c.next.nextLine.2)
            else
              match escape? c.next with
              | some (y, c) => (quotedPart? quote n c).map fun (text, more) => (y :: text, more)
              | none => none
          else
            (quotedPart? quote n c.next).map fun (text, more) => (x :: text, more)

/-- A quoted scalar from inside its quotes on, and the place behind it. -/
def quotedFrom? (quote : Char) : Nat → Cursor → Option (List Char × Cursor)
  | 0, _ => none
  | n + 1, c =>
      if c.atDivision || c.atEnd then
        none
      else
        match quotedPart? quote (c.rest.length + 1) c with
        | none => none
        | some (text, gap, c) =>
            if c.sees (· == quote) then
              some (text, c.next)
            else
              match gap.pass 0 c.rest.length c with
              | none => none
              | some (gap, c) =>
                  (quotedFrom? quote n c).map fun (more, c) => (text ++ gap.text ++ more, c)

def quoted? (quote : Char) (c : Cursor) : Option (List Char × Cursor) :=
  quotedFrom? quote (c.rest.length + 1) c.next

/-! Plain scalars -/

/-- Brackets and braces, which structure documents in flow style. -/
def isBracket (c : Char) : Bool :=
  c == '[' || c == ']' || c.toNat == 0x7B || c.toNat == 0x7D

/-- Whether a plain scalar ends in front of a text that starts without white space. -/
def endsPlain (inFlow : Bool) : List Char → Bool
  | [] => true
  | x :: rest =>
      (x == ':' && startsGap rest) ||
        (inFlow && (x == ',' || isBracket x ||
          (x == '?' && rest.head?.all fun y => y == ' ' || isBreak y)))

def plainPart (inFlow : Bool) : List Char → List Char
  | [] => []
  | x :: rest =>
      if isGap x || endsPlain inFlow (x :: rest) then [] else x :: plainPart inFlow rest

/-- A plain scalar behind a gap that only counts if it goes on, the gap behind it, and the place behind
both. It goes on over lines that are indented at least to the column `floor`. -/
def plainFrom? (inFlow : Bool) (floor : Nat) :
    Nat → Gap → Cursor → Option (List Char × Gap × Cursor)
  | 0, gap, c => some ([], gap, c)
  | n + 1, gap, c =>
      if c.atDivision || c.sees (· == '#') then
        some ([], gap, c)
      else
        match plainPart inFlow c.rest with
        | [] => some ([], gap, c)
        | part =>
            match Gap.none.pass floor c.rest.length (c.skip part.length) with
            | none => none
            | some (after, c) =>
                let text := gap.text ++ part
                if after == .none || (!inFlow && c.column < floor) then
                  some (text, after, c)
                else
                  (plainFrom? inFlow floor n after c).map fun (more, behind) => (text ++ more, behind)

def plain? (inFlow : Bool) (floor : Nat) (c : Cursor) : Option (List Char × Gap × Cursor) :=
  plainFrom? inFlow floor (c.rest.length + 1) .none c

/-! Blocks of lines -/

/-- What becomes of the line breaks at the end of a block. -/
inductive Chomping where
  | strip
  | clip
  | keep
  deriving DecidableEq, Repr

def chomping? (c : Char) : Option Chomping :=
  if c == '+' then some .keep else if c == '-' then some .strip else none

/-- The indicators behind the sign of a block: how it ends and by how much it is indented, in any order.
An indentation of zero is malformed. -/
def blockHeader? (c : Cursor) : Option (Chomping × Option Nat × Cursor) :=
  let digit? (x : Char) : Option Nat := if x.isDigit then some (x.toNat - 48) else none
  let header : Chomping × Option Nat × Cursor :=
    match c.rest with
    | [] => (.clip, none, c)
    | x :: rest =>
        match chomping? x, digit? x with
        | some chomping, _ =>
            match rest.head?.bind digit? with
            | some d => (chomping, some d, c.skip 2)
            | none => (chomping, none, c.next)
        | none, some d =>
            match rest.head?.bind chomping? with
            | some chomping => (chomping, some d, c.skip 2)
            | none => (.clip, some d, c.next)
        | none, none => (.clip, none, c)
  if header.2.1 == some 0 then none else some header

/-- Passes indentation up to the column `indent`, or any if there is none yet, and empty lines. Yields the
line breaks and the widest indentation. -/
def blockGap? (indent : Option Nat) : Nat → Nat → Cursor → Option (List Char × Nat × Cursor)
  | 0, widest, c => some ([], widest, c)
  | n + 1, widest, c =>
      let room := match indent with
        | some column => column - c.column
        | none => c.rest.length
      let c := c.skip (min room (c.rest.takeWhile (· == ' ')).length)
      let widest := max widest c.column
      if c.sees (· == '\t') && indent.all (c.column < ·) then
        none
      else if c.sees isBreak then
        let (text, c) := c.nextLine
        (blockGap? indent n widest c).map fun (more, widest, c) => (text ++ more, widest, c)
      else
        some ([], widest, c)

/-- The lines of a block that are indented to the column `indent`. `last` is the line break in front,
`empty` the empty lines behind it, and `wasBlank` says whether the line in front starts with a blank. Lines
of a folded block are joined. -/
def blockLines? (folded : Bool) (indent : Nat) :
    Nat → List Char → List Char → Bool → Cursor → Option (List Char × List Char × List Char × Cursor)
  | 0, last, empty, _, c => some ([], last, empty, c)
  | n + 1, last, empty, wasBlank, c =>
      if c.column != indent || c.atEnd then
        some ([], last, empty, c)
      else
        let isBlankLine := c.sees isBlank
        let joint :=
          if folded && !wasBlank && !isBlankLine && last.head? == some '\n' then
            if empty.isEmpty then [' '] else []
          else
            last
        let (line, c) := c.span (!isBreak ·)
        let (last, c) := c.nextLine
        match blockGap? (some indent) (c.rest.length + 1) 0 c with
        | none => none
        | some (breaks, _, c) =>
            (blockLines? folded indent n last breaks isBlankLine c).map fun (more, behind) =>
              (joint ++ empty ++ line ++ more, behind)

/-- A block of lines, and the place behind it. It belongs to a collection that is indented to `indent`,
which is negative outside of all. -/
def block? (folded : Bool) (indent : Int) (c : Cursor) : Option (List Char × Cursor) :=
  match blockHeader? c.next with
  | none => none
  | some (chomping, step, c) =>
      let c := c.skipComment.skipWhile isBlank
      if !c.atEnd && !c.sees isBreak then
        none
      else
        let c := c.nextLine.2
        let given := step.map fun d => (max indent 0).toNat + d
        match blockGap? given (c.rest.length + 1) 0 c with
        | none => none
        | some (empty, widest, c) =>
            let column := given.getD (max (max widest (indent + 1).toNat) 1)
            (blockLines? folded column (c.rest.length + 1) [] empty false c).map
              fun (text, last, empty, c) =>
                (text ++ (if chomping = .strip then [] else last) ++
                  (if chomping = .keep then empty else []), c)

end Scalar

end Lox.Yaml
