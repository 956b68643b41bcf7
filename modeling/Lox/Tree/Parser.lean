import Lox.Tree
import Lox.Tree.SyntaxError

/-!
Parsers over token lists. A parser either yields a value or gives up; in both cases it says which
tokens are left and which faults it found. Faults that do not end the parse are found by parsers that
succeed.
-/

namespace Lox

inductive Parse (α : Type) where
  | ok (value : α) (rest : List Token) (errors : List SyntaxError)
  | failed (rest : List Token) (errors : List SyntaxError)

def Parser (α : Type) : Type :=
  List Token → Parse α

namespace Parse

variable {α : Type}

/-- The same result with faults that were found before. -/
def after (errors : List SyntaxError) : Parse α → Parse α
  | .ok value rest more => .ok value rest (errors ++ more)
  | .failed rest more => .failed rest (errors ++ more)

def rest : Parse α → List Token
  | .ok _ rest _ => rest
  | .failed rest _ => rest

def errors : Parse α → List SyntaxError
  | .ok _ _ errors => errors
  | .failed _ errors => errors

end Parse

namespace Parser

variable {α β : Type}

@[inline]
protected def pure (value : α) : Parser α :=
  fun ts => .ok value ts []

@[inline]
protected def bind (p : Parser α) (f : α → Parser β) : Parser β :=
  fun ts =>
    match p ts with
    | .ok value rest errors => (f value rest).after errors
    | .failed rest errors => .failed rest errors

instance : Monad Parser where
  pure := Parser.pure
  bind := Parser.bind

/-- The tokens that are left. -/
def here : Parser (List Token) :=
  fun ts => .ok ts ts []

/-- Gives up at the first token. -/
def fail (cause : SyntaxError.Cause) : Parser α :=
  fun ts => .failed ts [⟨ts, cause⟩]

/-- Finds a fault where `left` were left and goes on. -/
def report (left : List Token) (cause : SyntaxError.Cause) : Parser Unit :=
  fun ts => .ok () ts [⟨left, cause⟩]

/-- Whether the first token is of the given kind. -/
def sees (kind : Token.Kind) : Parser Bool :=
  fun ts => .ok (ts.head?.any (·.kind = kind)) ts []

/-- Takes the first token if it is of one of the given kinds. -/
def accept? (kinds : List Token.Kind) : Parser (Option Token)
  | [] => .ok none [] []
  | t :: ts => if t.kind ∈ kinds then .ok (some t) ts [] else .ok none (t :: ts) []

/-- Takes the first token, which has to be of the given kind. -/
def expect (kind : Token.Kind) (cause : SyntaxError.Cause) : Parser Token
  | [] => fail cause []
  | t :: ts => if t.kind = kind then .ok t ts [] else fail cause (t :: ts)

/-- Runs a parser that needs a bound on the number of its steps; the tokens left are one. -/
def bounded (p : Nat → Parser α) : Parser α :=
  fun ts => p ts.length ts

/-- The most parameters or arguments that a list may have. -/
def listLimit : Nat := 255

/-- Items between commas, at least one. From the one after the limit on, each is a fault. -/
def listFrom (item : Parser α) (excess : SyntaxError.Cause) (count : Nat) :
    Nat → Parser (List α)
  | 0 => do
      if listLimit ≤ count then report (← here) excess
      let a ← item
      return [a]
  | n + 1 => do
      if listLimit ≤ count then report (← here) excess
      let a ← item
      match ← accept? [.comma] with
      | some _ => return a :: (← listFrom item excess (count + 1) n)
      | none => return [a]

/-- A list that ends with a parenthesis, and that parenthesis. -/
def parenthesized (item : Parser α) (excess unclosed : SyntaxError.Cause) :
    Parser (List α × Token) := do
  let items ← if ← sees .rightParen then pure [] else bounded (listFrom item excess 0)
  let paren ← expect .rightParen unclosed
  return (items, paren)

/-- Keywords at which a statement starts. -/
def startsStatement : Token.Kind → Bool
  | .classWord | .funWord | .varWord | .forWord | .ifWord | .whileWord | .printWord
  | .returnWord => true
  | _ => false

/-- Drops tokens up to the start of a statement, `last` being the one dropped last. -/
def resumeAfter (last : Token) : List Token → List Token
  | [] => []
  | t :: ts =>
      if last.kind = .semicolon ∨ startsStatement t.kind then t :: ts else resumeAfter t ts

/-- Drops the first token, and those behind it that belong to the same statement. -/
def resume : List Token → List Token
  | [] => []
  | t :: ts => resumeAfter t ts

/-- A parser that yields nothing where it would give up, and goes on at the next statement. -/
def recovering (p : Parser α) : Parser (Option α) :=
  fun ts =>
    match p ts with
    | .ok value rest errors => .ok (some value) rest errors
    | .failed rest errors => .ok none (resume rest) errors

end Parser

end Lox
