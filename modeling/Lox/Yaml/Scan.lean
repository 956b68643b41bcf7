import Lox.Yaml.Token

/-!
Scanning a document. Indentation opens and closes block collections. That a scalar is a key is known only
when its colon is found, on the same line and not too far behind it; until then it is remembered as a
candidate.
-/

namespace Lox.Yaml

/-- A token that may turn out to start a key. One that has to is the first on a line of a block mapping. -/
structure Candidate where
  slot : Nat
  isRequired : Bool
  place : Cursor

/-- Whether a colon at `c` can still belong to a candidate. -/
def Candidate.reaches (k : Candidate) (c : Cursor) : Bool :=
  k.place.line == c.line && c.index ≤ k.place.index + 1024

/-- The state of a scan. `slots` holds the tokens found so far, those in front of which others may be put
one a slot. There is a place for a candidate in the block collections, the last, and in each open flow
collection. -/
structure Scanner where
  cursor : Cursor
  indent : Int
  outer : List Int
  keyAllowed : Bool
  candidates : List (Option Candidate)
  slots : Array (List Token)

namespace Scanner

def start (text : List Char) : Scanner :=
  { cursor := .start text
    indent := -1
    outer := []
    keyAllowed := true
    candidates := [none]
    slots := #[] }

def inFlow (s : Scanner) : Bool :=
  1 < s.candidates.length

def emit (s : Scanner) (t : Token) : Scanner :=
  { s with slots := s.slots.push [t] }

/-- Emits a token and goes on behind it. -/
def emitTo (s : Scanner) (t : Token) (c : Cursor) : Scanner :=
  { s.emit t with cursor := c }

/-- Opens a block collection at a column that is further to the right; `slot` is where it starts. -/
def indentTo (s : Scanner) (column : Nat) (slot : Nat) (t : Token) : Scanner :=
  if !s.inFlow && s.indent < column then
    { s with
      indent := column
      outer := s.indent :: s.outer
      slots := if slot < s.slots.size then s.slots.modify slot (t :: ·) else s.slots.push [t] }
  else
    s

/-- The block collections that end in front of a column, and what is left of the indentation. -/
def closing (column : Int) : Int → List Int → Nat × Int × List Int
  | indent, [] => (0, indent, [])
  | indent, next :: outer =>
      if column < indent then
        let (count, rest) := closing column next outer
        (count + 1, rest)
      else
        (0, indent, next :: outer)

/-- Closes the block collections that a column lies outside of. -/
def dedentTo (s : Scanner) (column : Int) : Scanner :=
  if s.inFlow then
    s
  else
    let (count, indent, outer) := closing column s.indent s.outer
    { s with
      indent := indent
      outer := outer
      slots := s.slots ++ Array.replicate count [Token.blockEnd] }

/-- Gives up the innermost candidate, which must not be required. -/
def dropCandidate? (s : Scanner) : Option Scanner :=
  match s.candidates with
  | some k :: others => if k.isRequired then none else some { s with candidates := none :: others }
  | _ => some s

/-- Remembers the next token as a candidate where a key may start. -/
def saveCandidate? (s : Scanner) : Option Scanner :=
  if s.keyAllowed then do
    let s ← s.dropCandidate?
    let k : Candidate :=
      { slot := s.slots.size
        isRequired := !s.inFlow && s.indent == s.cursor.column
        place := s.cursor }
    return { s with candidates := some k :: s.candidates.drop 1 }
  else
    some s

/-- Passes a comment and the comments below it, with whatever white space is between them. -/
def skipComments : Nat → Cursor → Cursor
  | 0, c => c
  | n + 1, c =>
      let c := c.skipLine
      let gap := (c.rest.take 512).takeWhile fun x => isBlank x || x == '\n' || x == '\r'
      if gap.length < 512 && (c.rest.drop gap.length).head? == some '#' then
        skipComments n (((Gap.none.pass 0 gap.length c).map (·.2)).getD c)
      else
        c

/-- Goes to the next token. Tabs do not count as white space where a key may start. -/
def toToken : Nat → Scanner → Scanner
  | 0, s => s
  | n + 1, s =>
      let c := s.cursor.skipWhile fun x => x == ' ' || (x == '\t' && (s.inFlow || !s.keyAllowed))
      let c := if c.sees (· == '#') then skipComments c.rest.length c else c
      if c.sees isBreak then
        toToken n { s with cursor := c.nextLine.2, keyAllowed := s.keyAllowed || !s.inFlow }
      else
        { s with cursor := c }

/-- Ends all block collections for a token outside of them. -/
def leaveBlocks? (s : Scanner) : Option Scanner := do
  let s ← (s.dedentTo (-1)).dropCandidate?
  return { s with keyAllowed := false }

def openFlow? (s : Scanner) (t : Token) : Option Scanner := do
  let s ← s.saveCandidate?
  return { s.emitTo t s.cursor.next with candidates := none :: s.candidates, keyAllowed := true }

def closeFlow? (s : Scanner) (t : Token) : Option Scanner := do
  let s ← s.dropCandidate?
  let candidates := if s.inFlow then s.candidates.drop 1 else s.candidates
  return { s.emitTo t s.cursor.next with candidates := candidates, keyAllowed := false }

def comma? (s : Scanner) : Option Scanner := do
  let s ← s.dropCandidate?
  return { s.emitTo .comma s.cursor.next with keyAllowed := true }

/-- A dash, which opens a block sequence unless one is open at its column. -/
def entry? (s : Scanner) : Option Scanner :=
  if !s.inFlow && !s.keyAllowed then
    none
  else do
    let s ← (s.indentTo s.cursor.column s.slots.size .sequenceStart).dropCandidate?
    return { s.emitTo .entry s.cursor.next with keyAllowed := true }

/-- A question mark, which starts a key of any form. -/
def key? (s : Scanner) : Option Scanner :=
  if !s.inFlow && !s.keyAllowed then
    none
  else do
    let s ← (s.indentTo s.cursor.column s.slots.size .mappingStart).dropCandidate?
    return { s.emitTo .key s.cursor.next with keyAllowed := !s.inFlow }

/-- A colon behind the token that turns out to be its key. -/
def valueOf (s : Scanner) (k : Candidate) : Scanner :=
  let s := { s with slots := s.slots.modify k.slot (.key :: ·) }
  let s := s.indentTo k.place.column k.slot .mappingStart
  { s.emitTo .value s.cursor.next with candidates := none :: s.candidates.drop 1, keyAllowed := false }

/-- A colon without such a token in front. -/
def bareValue? (s : Scanner) : Option Scanner :=
  if !s.inFlow && !s.keyAllowed then
    none
  else
    let s := s.indentTo s.cursor.column s.slots.size .mappingStart
    some { s.emitTo .value s.cursor.next with keyAllowed := !s.inFlow }

def value? (s : Scanner) : Option Scanner :=
  match s.candidates with
  | some k :: others =>
      if k.reaches s.cursor then some (s.valueOf k)
      else if k.isRequired then none
      else { s with candidates := none :: others }.bareValue?
  | _ => s.bareValue?

/-- A token of its own form at which a key may start. -/
def item? (s : Scanner) (read : Cursor → Option (Token × Cursor)) : Option Scanner := do
  let s ← s.saveCandidate?
  let (t, c) ← read s.cursor
  return { s.emitTo t c with keyAllowed := false }

def block? (s : Scanner) (folded : Bool) : Option Scanner := do
  let s ← s.dropCandidate?
  let (text, c) ← Scalar.block? folded s.indent s.cursor
  return { s.emitTo (.scalar false text) c with keyAllowed := true }

def quoted? (s : Scanner) (quote : Char) : Option Scanner :=
  s.item? fun c => (Scalar.quoted? quote c).map fun (text, c) => (.scalar false text, c)

/-- Characters with which no plain scalar starts, except that some may start one if it goes on. -/
def isIndicator (c : Char) : Bool :=
  "-?:,[]#&*!|>%@".toList.contains c || c.toNat == 0x7B || c.toNat == 0x7D || c.toNat == 0x60 ||
    c == Scalar.singleQuote || c == Scalar.doubleQuote

def startsPlain (s : Scanner) (x : Char) (rest : List Char) : Bool :=
  !(isGap x || isIndicator x) || (x == '-' && !rest.head?.any isBlank) ||
    (!s.inFlow && (x == '?' || x == ':') && !startsGap rest)

/-- Passes a comment on the line of a token. -/
def behind (s : Scanner) : Scanner :=
  { s with cursor := s.cursor.skipComment }

/-- A plain scalar; if it ends with its line a key may start behind it. -/
def plain? (s : Scanner) : Option Scanner := do
  let s ← s.saveCandidate?
  let (text, gap, c) ← Scalar.plain? s.inFlow (s.indent + 1).toNat s.cursor
  let s := s.emitTo (.scalar true text) c
  return if gap.spansLines then { s with keyAllowed := true } else { s.behind with keyAllowed := false }

/-- The token that starts with a character on a line with others. -/
def inLine? (s : Scanner) (x : Char) (rest : List Char) : Option Scanner :=
  if x == '[' then (s.openFlow? .openSequence).map behind
  else if x.toNat == 0x7B then (s.openFlow? .openMapping).map behind
  else if x == ']' then (s.closeFlow? .closeSequence).map behind
  else if x.toNat == 0x7D then (s.closeFlow? .closeMapping).map behind
  else if x == ',' then s.comma?.map behind
  else if x == '-' && startsGap rest then s.entry?
  else if x == '?' && (s.inFlow || startsGap rest) then s.key?.map behind
  else if x == ':' && (s.inFlow || startsGap rest) then s.value?.map behind
  else if x == '*' then
    (s.item? fun c => (Token.name? c).map fun (name, c) => (.alias name, c)).map behind
  else if x == '&' then
    (s.item? fun c => (Token.name? c).map fun (name, c) => (.anchor name, c)).map behind
  else if x == '!' then
    (s.item? fun c => (Token.tag? c).map fun (tag, c) => (.tag tag, c)).map behind
  else if x == '|' && !s.inFlow then s.block? false
  else if x == '>' && !s.inFlow then s.block? true
  else if x == Scalar.singleQuote || x == Scalar.doubleQuote then (s.quoted? x).map behind
  else if s.startsPlain x rest then s.plain?
  else none

/-- Finds the next token. -/
def next? (s : Scanner) : Option Scanner :=
  let s := toToken (s.cursor.rest.length + 1) s
  let s := s.dedentTo s.cursor.column
  let c := s.cursor
  match c.rest with
  | [] => s.leaveBlocks?.map (·.emit .streamEnd)
  | x :: rest =>
      if c.column == 0 && x == '%' then do
        let s ← s.leaveBlocks?
        let (t, c) ← Token.directive? c
        return s.emitTo t c
      else if c.atMark '-' then
        s.leaveBlocks?.map (·.emitTo .documentStart (c.skip 3))
      else if c.atMark '.' then
        s.leaveBlocks?.map (·.emitTo .documentEnd (c.skip 3))
      else
        s.inLine? x rest

def tokens (s : Scanner) : List Token :=
  s.slots.toList.flatten

/-- The positions of the tokens of which it is not known yet whether they start a key. -/
def undecided (s : Scanner) : List Nat :=
  s.candidates.filterMap fun candidate =>
    match candidate with
    | some k =>
        if k.reaches s.cursor || k.isRequired then
          some ((s.slots.toList.take k.slot).flatten.length)
        else
          none
    | none => none

end Scanner

/-- The tokens of a document. A fault comes behind some tokens, of which those at the positions
`undecided` are not known for sure. -/
structure Stream where
  tokens : List Token
  fault : Option (List Nat)

namespace Stream

def scanFrom : Nat → Scanner → Stream
  | 0, s => ⟨s.tokens, some []⟩
  | n + 1, s =>
      match s.next? with
      | none => ⟨s.tokens, some s.undecided⟩
      | some s =>
          if s.slots.back? == some [.streamEnd] then ⟨s.tokens, none⟩ else scanFrom n s

def scan (text : List Char) : Stream :=
  scanFrom (text.length + 2) (.start text)

/-- Whether reading the token at a position meets the fault. A scan is two tokens ahead of its reader. -/
def failsAt (s : Stream) (position : Nat) : Bool :=
  match s.fault with
  | none => false
  | some undecided => s.tokens.length < position + 3 || undecided.any (· ≤ position)

end Stream

end Lox.Yaml
