import Lox.Diagnostic
import Lox.Number.Rounding
import Lox.Text.Utf8

/-!
Scanning: a source is cut into pieces from left to right, each the longest that its first byte allows.
A piece is layout, a token or a fault. Tokens and faults carry the line on which their piece ends.
-/

namespace Lox

namespace Scan

inductive Fault where
  | unexpectedCharacter
  | unterminatedString
  deriving DecidableEq, Repr

def Fault.message : Fault → Bytes
  | .unexpectedCharacter => bytes "Unexpected character."
  | .unterminatedString => bytes "Unterminated string."

inductive Shape where
  | layout
  | token (kind : Token.Kind) (literal : Literal)
  | fault (cause : Fault)
  deriving DecidableEq, Repr

/-- The first piece of a source and what follows it. -/
structure Piece where
  shape : Shape
  lexeme : Bytes
  rest : Bytes
  deriving DecidableEq, Repr

/-- A piece of one byte. -/
def single (kind : Token.Kind) (c : UInt8) (s : Bytes) : Piece :=
  ⟨.token kind .nil, [c], s⟩

/-- An operator that an equals sign may extend. -/
def operator (long short : Token.Kind) (c : UInt8) : Bytes → Piece
  | 61 :: s => ⟨.token long .nil, [c, 61], s⟩
  | s => ⟨.token short .nil, [c], s⟩

/-- A division sign, or a comment up to the end of its line. -/
def slash (c : UInt8) : Bytes → Piece
  | 47 :: s =>
      ⟨.layout, c :: 47 :: s.takeWhile (· != Bytes.lineFeed), s.dropWhile (· != Bytes.lineFeed)⟩
  | s => ⟨.token .slash .nil, [c], s⟩

/-- A string up to its closing quote, which may stand on a later line. -/
def string (c : UInt8) (s : Bytes) : Piece :=
  let body := s.takeWhile (· != 34)
  match s.dropWhile (· != 34) with
  | [] => ⟨.fault .unterminatedString, c :: body, []⟩
  | quote :: rest => ⟨.token .string (.str body), c :: body ++ [quote], rest⟩

/-- Digits, and a fraction if at least one digit follows the point. -/
def number (c : UInt8) (s : Bytes) : Piece :=
  let whole := c :: s.takeWhile Bytes.isDigit
  let integral : Piece :=
    ⟨.token .number (.num (.ofDecimal (Bytes.toNat whole) 0)), whole, s.dropWhile Bytes.isDigit⟩
  match s.dropWhile Bytes.isDigit with
  | 46 :: d :: rest =>
      if Bytes.isDigit d then
        let fraction := d :: rest.takeWhile Bytes.isDigit
        ⟨.token .number (.num (.ofDecimal (Bytes.toNat (whole ++ fraction)) fraction.length)),
          whole ++ 46 :: fraction, rest.dropWhile Bytes.isDigit⟩
      else
        integral
  | _ => integral

def word (c : UInt8) (s : Bytes) : Piece :=
  let lexeme := c :: s.takeWhile Bytes.isWordByte
  ⟨.token (.ofWord lexeme) .nil, lexeme, s.dropWhile Bytes.isWordByte⟩

/-- A character that opens no token is skipped whole. -/
def unexpected (c : UInt8) (s : Bytes) : Piece :=
  ⟨.fault .unexpectedCharacter, (c :: s).take (Utf8.width (c :: s)),
    (c :: s).drop (Utf8.width (c :: s))⟩

def first (c : UInt8) (s : Bytes) : Piece :=
  match c with
  | 40 => single .leftParen c s
  | 41 => single .rightParen c s
  | 123 => single .leftBrace c s
  | 125 => single .rightBrace c s
  | 44 => single .comma c s
  | 46 => single .dot c s
  | 45 => single .minus c s
  | 43 => single .plus c s
  | 59 => single .semicolon c s
  | 42 => single .star c s
  | 47 => slash c s
  | 33 => operator .bangEqual .bang c s
  | 61 => operator .equalEqual .equal c s
  | 60 => operator .lessEqual .less c s
  | 62 => operator .greaterEqual .greater c s
  | 32 => ⟨.layout, [c], s⟩
  | 13 => ⟨.layout, [c], s⟩
  | 9 => ⟨.layout, [c], s⟩
  | 10 => ⟨.layout, [c], s⟩
  | 34 => string c s
  | _ =>
      if Bytes.isDigit c then number c s
      else if Bytes.isLetter c then word c s
      else unexpected c s

theorem length_dropWhile_le (p : UInt8 → Bool) (s : Bytes) : (s.dropWhile p).length ≤ s.length :=
  (List.dropWhile_sublist p).length_le

theorem length_rest_string (c : UInt8) (s : Bytes) : (string c s).rest.length ≤ s.length := by
  have h := length_dropWhile_le (· != 34) s
  unfold string
  split
  · exact Nat.zero_le _
  · rename_i heq
    rw [heq] at h
    exact Nat.le_of_succ_le h

theorem length_rest_number (c : UInt8) (s : Bytes) : (number c s).rest.length ≤ s.length := by
  have h := length_dropWhile_le Bytes.isDigit s
  unfold number
  split
  · rename_i rest heq
    rw [heq] at h
    split
    · exact Nat.le_trans (length_dropWhile_le _ rest) (Nat.le_of_succ_le (Nat.le_of_succ_le h))
    · exact length_dropWhile_le _ s
  · exact length_dropWhile_le _ s

theorem length_rest_unexpected (c : UInt8) (s : Bytes) :
    (unexpected c s).rest.length ≤ s.length :=
  Nat.le_of_lt_succ (Utf8.length_drop_width_lt (List.cons_ne_nil c s))

theorem length_rest_operator (long short : Token.Kind) (c : UInt8) (s : Bytes) :
    (operator long short c s).rest.length ≤ s.length := by
  unfold operator
  split
  · exact Nat.le_succ _
  · exact Nat.le_refl _

theorem length_rest_slash (c : UInt8) (s : Bytes) : (slash c s).rest.length ≤ s.length := by
  unfold slash
  split
  · exact Nat.le_trans (length_dropWhile_le _ _) (Nat.le_succ _)
  · exact Nat.le_refl _

/-- A piece takes at least its first byte. -/
theorem length_rest_first (c : UInt8) (s : Bytes) : (first c s).rest.length ≤ s.length := by
  unfold first
  split
  case h_11 => exact length_rest_slash _ s
  case h_12 => exact length_rest_operator _ _ _ s
  case h_13 => exact length_rest_operator _ _ _ s
  case h_14 => exact length_rest_operator _ _ _ s
  case h_15 => exact length_rest_operator _ _ _ s
  case h_20 => exact length_rest_string _ s
  case h_21 =>
    split
    · exact length_rest_number c s
    · split
      · exact length_dropWhile_le _ s
      · exact length_rest_unexpected c s
  all_goals exact Nat.le_refl _

end Scan

/-- A piece of source that is no token, with the line on which it ends. -/
structure ScanError where
  cause : Scan.Fault
  line : Int
  deriving DecidableEq, Repr

def ScanError.diagnostic (e : ScanError) : Diagnostic :=
  .onLine .syntactic e.line e.cause.message

/-- The tokens of a source, the line on which it ends and the faults found on the way. -/
structure Scan where
  tokens : List Token
  errors : List ScanError
  endLine : Int
  deriving DecidableEq, Repr

namespace Scan

def newlines (s : Bytes) : Int :=
  (s.count Bytes.lineFeed : Nat)

/-- Scans a source whose first byte stands on the given line. -/
def onward (line : Int) : Bytes → Scan
  | [] => ⟨[], [], line⟩
  | c :: s =>
      let piece := first c s
      let endLine := line + newlines piece.lexeme
      match piece.shape with
      | .layout => onward endLine piece.rest
      | .token kind literal =>
          let scan := onward endLine piece.rest
          { scan with tokens := ⟨kind, piece.lexeme, literal, endLine⟩ :: scan.tokens }
      | .fault cause =>
          let scan := onward endLine piece.rest
          { scan with errors := ⟨cause, endLine⟩ :: scan.errors }
termination_by s => s.length
decreasing_by all_goals exact Nat.lt_succ_of_le (length_rest_first c s)

def source (s : Bytes) : Scan :=
  onward 1 s

/-- The end of input, as a token. -/
def eof (scan : Scan) : Token :=
  .atEnd scan.endLine

/-- All tokens, the end of input included. -/
def listing (scan : Scan) : List Token :=
  scan.tokens ++ [scan.eof]

def diagnostics (scan : Scan) : List Diagnostic :=
  scan.errors.map ScanError.diagnostic

/-- Blocks that a source leaves open, fewer than none if it closes too many. -/
def openBlocks (scan : Scan) : Int :=
  (scan.tokens.countP (·.kind = .leftBrace) : Int) - scan.tokens.countP (·.kind = .rightBrace)

end Scan

end Lox
