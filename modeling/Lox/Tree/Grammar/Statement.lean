import Lox.Tree.Grammar.Expression

/-!
The grammar of statements and declarations, closed in the same way as that of expressions. A declaration
with a fault is dropped, and the parse goes on at the next statement.
-/

namespace Lox

namespace Parser

abbrev Statement := Parser (Stmt Unit)

/-- A declaration that may have been dropped. -/
abbrev Declaration := Parser (Option (Stmt Unit))

def expressionStatement : Statement := do
  let e ← expression
  let _ ← expect .semicolon .expressionEnd
  return .expr e

def printStatement : Statement := do
  let e ← expression
  let _ ← expect .semicolon .valueEnd
  return .print e

/-- An expression unless the given token comes first. -/
def unlessAt (kind : Token.Kind) : Parser (Option (Expr Unit)) := do
  if ← sees kind then return none else return some (← expression)

def returnStatement (keyword : Token) : Statement := do
  let value ← unlessAt .semicolon
  let _ ← expect .semicolon .returnEnd
  return .return keyword value

def variableDeclaration : Statement := do
  let name ← expect .identifier .variableName
  let init ←
    match ← accept? [.equal] with
    | some _ => some <$> expression
    | none => pure none
  let _ ← expect .semicolon .variableEnd
  return .var name init

def whileStatement (statement : Statement) : Statement := do
  let _ ← expect .leftParen .whileParen
  let condition ← expression
  let _ ← expect .rightParen .whileConditionEnd
  return .while condition (← statement)

def ifStatement (statement : Statement) : Statement := do
  let _ ← expect .leftParen .ifParen
  let condition ← expression
  let _ ← expect .rightParen .ifConditionEnd
  let thenBranch ← statement
  match ← accept? [.elseWord] with
  | some _ => return .ifElse condition thenBranch (← statement)
  | none => return .ifThen condition thenBranch

/-- A loop with clauses means a while loop behind its initializer; without a condition it goes on. -/
def forLoop (init : Option (Stmt Unit)) (condition increment : Option (Expr Unit))
    (body : Stmt Unit) : Stmt Unit :=
  let body := match increment with
    | some e => .block [body, .expr e]
    | none => body
  let loop := .while (condition.getD (.literal (.bool true))) body
  match init with
  | some s => .block [s, loop]
  | none => loop

def forInitializer : Parser (Option (Stmt Unit)) := do
  match ← accept? [.semicolon, .varWord] with
  | none => some <$> expressionStatement
  | some t => if t.kind = .semicolon then return none else some <$> variableDeclaration

def forStatement (statement : Statement) : Statement := do
  let _ ← expect .leftParen .forParen
  let init ← forInitializer
  let condition ← unlessAt .semicolon
  let _ ← expect .semicolon .loopConditionEnd
  let increment ← unlessAt .rightParen
  let _ ← expect .rightParen .forClausesEnd
  return forLoop init condition increment (← statement)

/-- Declarations up to a closing brace or the end of input. -/
def declarations (declaration : Declaration) : Nat → Parser (List (Stmt Unit))
  | 0 => pure []
  | n + 1 => fun ts =>
      match ts with
      | [] => .ok [] [] []
      | t :: _ =>
          if t.kind = .rightBrace then
            .ok [] ts []
          else
            (do
              let first ← declaration
              let others ← declarations declaration n
              return first.toList ++ others : Parser _) ts

def block (declaration : Declaration) : Parser (List (Stmt Unit)) := do
  let body ← bounded (declarations declaration)
  let _ ← expect .rightBrace .blockEnd
  return body

/-- A function without its keyword, which is all of a method. -/
def functionDecl (declaration : Declaration) (role : FunctionRole) :
    Parser (FunctionDecl Unit) := do
  let name ← expect .identifier (.functionName role)
  let _ ← expect .leftParen (.functionParams role)
  let (params, _) ← parenthesized (expect .identifier .parameterName) .tooManyParams .paramsEnd
  let _ ← expect .leftBrace (.functionBody role)
  let body ← block declaration
  return ⟨name, params, body⟩

/-- Methods up to a closing brace or the end of input. -/
def methods (declaration : Declaration) : Nat → Parser (List (FunctionDecl Unit))
  | 0 => pure []
  | n + 1 => fun ts =>
      match ts with
      | [] => .ok [] [] []
      | t :: _ =>
          if t.kind = .rightBrace then
            .ok [] ts []
          else
            (do
              let first ← functionDecl declaration .method
              let others ← methods declaration n
              return first :: others : Parser _) ts

def superclassClause : Parser (Option (Token × Unit)) := do
  match ← accept? [.less] with
  | some _ => return some (← expect .identifier .superclassName, ())
  | none => return none

def classDeclaration (declaration : Declaration) : Statement := do
  let name ← expect .identifier .className
  let superclass ← superclassClause
  let _ ← expect .leftBrace .classBody
  let methods ← bounded (methods declaration)
  let _ ← expect .rightBrace .classEnd
  return .class name superclass methods

/-- Keywords and braces with which a statement starts; another statement is an expression. -/
def statementWith (declaration : Declaration) (statement : Statement) : Statement
  | [] => expressionStatement []
  | t :: ts =>
      match t.kind with
      | .forWord => forStatement statement ts
      | .ifWord => ifStatement statement ts
      | .printWord => printStatement ts
      | .returnWord => returnStatement t ts
      | .whileWord => whileStatement statement ts
      | .leftBrace => (Stmt.block <$> block declaration) ts
      | _ => expressionStatement (t :: ts)

def declarationWith (declaration : Declaration) (statement : Statement) : Statement
  | [] => statementWith declaration statement []
  | t :: ts =>
      match t.kind with
      | .classWord => classDeclaration declaration ts
      | .funWord => (Stmt.function <$> functionDecl declaration .function) ts
      | .varWord => variableDeclaration ts
      | _ => statementWith declaration statement (t :: ts)

mutual

def statementIn : Nat → Statement
  | 0 => fail .expression
  | n + 1 => statementWith (declarationIn n) (statementIn n)

def declarationIn : Nat → Declaration
  | 0 => recovering (fail .expression)
  | n + 1 => recovering (declarationWith (declarationIn n) (statementIn n))

end

def declaration : Declaration :=
  fun ts => declarationIn (ts.length + 1) ts

/-- Declarations up to the end of input. -/
def program : Nat → Parser (List (Stmt Unit))
  | 0 => pure []
  | n + 1 => fun ts =>
      match ts with
      | [] => .ok [] [] []
      | _ :: _ =>
          (do
            let first ← declaration
            let others ← program n
            return first.toList ++ others : Parser _) ts

end Parser

/-- The statements without faults of a token list, and its faults. -/
structure Parsed where
  program : List (Stmt Unit)
  errors : List SyntaxError

def Parsed.ofTokens (tokens : List Token) : Parsed :=
  match Parser.bounded Parser.program tokens with
  | .ok program _ errors => ⟨program, errors⟩
  | .failed _ errors => ⟨[], errors⟩

end Lox
