import Lox.Text.Blank
import Lox.Token.Scan

/-!
The interactive prompt gathers lines until no block is open, and then has a source to run. An interrupt
drops what was gathered.
-/

namespace Lox

/-- What the user types. -/
inductive Prompt.Input where
  | line (text : Bytes)
  | interrupt
  deriving DecidableEq, Repr

/-- The lines gathered so far, each with its line feed. -/
structure Prompt where
  pending : Bytes
  deriving DecidableEq, Repr

namespace Prompt

def empty : Prompt :=
  ⟨[]⟩

/-- Takes what the user types and says whether a source is complete. -/
def feed (p : Prompt) : Input → Prompt × Option Bytes
  | .interrupt => (empty, none)
  | .line text =>
      let source := p.pending ++ Bytes.line text
      if 0 < (Scan.source source).openBlocks then (⟨source⟩, none) else (empty, some source)

/-- The sources that are complete one after another, and what is left open. -/
def chunks (p : Prompt) : List Input → List Bytes × Prompt
  | [] => ([], p)
  | input :: inputs =>
      let (p, source) := p.feed input
      let (sources, p) := p.chunks inputs
      (source.toList ++ sources, p)

/-- A source of blanks is not run. -/
def isBlankSource (source : Bytes) : Bool :=
  (trimmed source).isEmpty

/-- What the prompt shows in front of a line; dots while a block is open. -/
def mark (p : Prompt) (text : Bytes) : Bytes :=
  if p.pending.isEmpty then text
  else List.replicate ((trimmed text).length + 2) 46 ++ [Bytes.space]

def interruptByte : UInt8 := 3

def quitByte : UInt8 := 4

/-- A line as it is read: a byte that is part of no character becomes the replacement character. -/
def readable (line : Bytes) : Bytes :=
  (Utf8.items line).flatMap fun item =>
    match item with
    | .char _ encoding => encoding
    | .stray _ => Utf8.encode Utf8.replacement

/-- A line ends with a line feed or a carriage return. -/
def endsLine (b : UInt8) : Bool :=
  b == Bytes.lineFeed || b == Bytes.carriageReturn

/-- What is typed before a quit. A quit opens a line: `opens` says whether the text does. -/
def untilQuit (opens : Bool) : Bytes → Bytes
  | [] => []
  | b :: s =>
      if opens && b == quitByte then [] else b :: untilQuit (endsLine b || b == interruptByte) s

/-- The inputs in a text that is typed, and the line it leaves unfinished. `line` is the beginning of its
first line, last byte first. -/
def typed (line : Bytes) : Bytes → List Input × Bytes
  | [] => ([], line.reverse)
  | b :: s =>
      if endsLine b then
        let (inputs, rest) := typed [] s
        (.line (readable line.reverse) :: inputs, rest)
      else if b == interruptByte then
        let (inputs, rest) := typed [] s
        (.interrupt :: inputs, rest)
      else
        typed (b :: line) s

/-- The inputs in all that is typed, up to a quit. The last line need not be finished. -/
def inputs (text : Bytes) : List Input :=
  let (inputs, rest) := typed [] (untilQuit true text)
  if rest.isEmpty then inputs else inputs ++ [.line (readable rest)]

end Prompt

end Lox
