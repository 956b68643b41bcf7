import Lox.Text.Blank
import Lox.Text.LowerCase

/-!
Declarations of syntax tree nodes, written from a short description: a sealed interface, and for each kind
of node a struct with its fields and the method that puts it behind the interface. Declarations are
written plainly first; in their final form the types of the fields of a struct stand in one column.
-/

namespace Lox

/-- A kind of node and its fields, each a name with its type. -/
structure NodeType where
  name : Bytes
  fields : List Bytes
  deriving DecidableEq, Repr

/-- A family of node kinds that share an interface. -/
structure NodeFamily where
  base : Bytes
  description : Bytes
  types : List NodeType
  deriving DecidableEq, Repr

namespace NodeType

def fieldsOf (text : Bytes) : List Bytes :=
  (Bytes.splitOn 44 text).map trimmed

/-- Reads a name, a colon and fields between commas. -/
def ofDescription? (text : Bytes) : Option NodeType :=
  match text.dropWhile (· != 58) with
  | [] => none
  | _ :: fields => some ⟨trimmed (text.takeWhile (· != 58)), fieldsOf (trimmed fields)⟩

/-- A line inside a struct. -/
def indented (text : Bytes) : Bytes :=
  Bytes.tab :: Bytes.line text

/-- A struct with the given body, and its marker method. -/
def declaration (base marker name body : Bytes) : Bytes :=
  let struct := name ++ base
  bytes "type " ++ struct ++ bytes " struct \x7b\n" ++ body ++ bytes "\x7d\n\n" ++
    bytes "func (*" ++ struct ++ bytes ") " ++ marker ++ bytes "() \x7b\x7d\n\n"

def plain (base marker : Bytes) (t : NodeType) : Bytes :=
  declaration base marker t.name (t.fields.flatMap indented)

def isBlankByte (b : UInt8) : Bool :=
  b == Bytes.space || b == Bytes.tab || b == Bytes.carriageReturn

/-- A text in which one space stands for each run of blanks. -/
def spaced (text : Bytes) : Bytes :=
  let marked := text.map fun b => if isBlankByte b then Bytes.space else b
  Bytes.joined [Bytes.space] ((Bytes.splitOn Bytes.space marked).filter (!·.isEmpty))

/-- The name of a field and its type; an embedded type stands alone. -/
def nameAndType (text : Bytes) : Bytes × Bytes :=
  (text.takeWhile (!isBlankByte ·), spaced (text.dropWhile (!isBlankByte ·)))

def isEmbedded (text : Bytes) : Bool :=
  (nameAndType text).2.isEmpty

def width (text : Bytes) : Nat :=
  (Utf8.items text).length

/-- Pads the names of some fields to one width. -/
def alignedRun (texts : List Bytes) : List Bytes :=
  let column := (texts.map fun text => width (nameAndType text).1).foldl max 0
  texts.map fun text =>
    let (name, type) := nameAndType text
    name ++ List.replicate (column + 1 - width name) Bytes.space ++ type

/-- Aligns each run of fields that have a name; `run` holds the current one, last field first. -/
def alignFrom (run : List Bytes) : List Bytes → List Bytes
  | [] => alignedRun run.reverse
  | text :: rest =>
      if isEmbedded text then alignedRun run.reverse ++ text :: alignFrom [] rest
      else alignFrom (text :: run) rest

/-- Lines without blank ones at either end or two in a row. -/
def withoutBlankLines : List Bytes → List Bytes
  | [] => []
  | text :: rest =>
      let others := withoutBlankLines rest
      if text.isEmpty && (others.isEmpty || others.head? == some []) then others
      else text :: others

def aligned (lines : List Bytes) : List Bytes :=
  alignFrom [] (withoutBlankLines (lines.dropWhile List.isEmpty))

/-- The lines of a struct: a field may hold line feeds. -/
def lines (t : NodeType) : List Bytes :=
  t.fields.flatMap fun field => (Bytes.splitOn Bytes.lineFeed field).map trimmed

/-- A blank line is not indented. -/
def formatted (base marker : Bytes) (t : NodeType) : Bytes :=
  declaration base marker t.name ((aligned t.lines).flatMap fun line =>
    if line.isEmpty then Bytes.line [] else indented line)

end NodeType

namespace NodeFamily

def ofDescriptions? (base description : Bytes) (types : List Bytes) : Option NodeFamily :=
  (types.mapM NodeType.ofDescription?).map fun types => ⟨base, description, types⟩

/-- The method that seals the interface. -/
def marker (family : NodeFamily) : Bytes :=
  lowerCase family.base ++ bytes "Node"

def header (family : NodeFamily) : Bytes :=
  bytes "// Code generated by genast; DO NOT EDIT.\n\n" ++
    bytes "package ast\n\n" ++
    bytes "import \"lox/internal/tokens\"\n\n" ++
    bytes "// " ++ family.base ++ bytes " is implemented by every node that is " ++
    family.description ++ bytes ".\n" ++
    bytes "//\n//gosumtype:decl " ++ family.base ++ bytes "\n" ++
    bytes "type " ++ family.base ++ bytes " interface \x7b\n\t" ++ family.marker ++
    bytes "()\n\x7d\n\n"

def plain (family : NodeFamily) : Bytes :=
  family.header ++ family.types.flatMap (NodeType.plain family.base family.marker)

def formatted (family : NodeFamily) : Bytes :=
  (family.header ++ family.types.flatMap (NodeType.formatted family.base family.marker)).dropLast

def fileName (family : NodeFamily) : Bytes :=
  lowerCase family.base ++ bytes ".go"

def expressionTypes : List Bytes :=
  ["Assign: Name *tokens.Token, Value Expr",
    "Binary: Left Expr, Operator *tokens.Token, Right Expr",
    "Call: Callee Expr, Paren *tokens.Token, Arguments []Expr",
    "Get: Object Expr, Name *tokens.Token",
    "Grouping: Expression Expr",
    "Literal: Value interface\x7b\x7d",
    "Logical: Left Expr, Operator *tokens.Token, Right Expr",
    "Set: Object Expr, Name *tokens.Token, Value Expr",
    "Super: Keyword *tokens.Token, Method *tokens.Token",
    "This: Keyword *tokens.Token",
    "Unary: Operator *tokens.Token, Right Expr",
    "Variable: Name *tokens.Token"].map bytes

def statementTypes : List Bytes :=
  ["Block: Stmts []Stmt",
    "Class: Name *tokens.Token, Superclass *VariableExpr, Methods []*FunctionStmt",
    "Expression: Expression Expr",
    "Function: Name *tokens.Token, Params []*tokens.Token, Body []Stmt",
    "If: Condition Expr, ThenBranch Stmt, ElseBranch Stmt",
    "Print: Expression Expr",
    "Return: Keyword *tokens.Token, Value Expr",
    "Var: Name *tokens.Token, Initializer Expr",
    "While: Condition Expr, Body Stmt"].map bytes

end NodeFamily

end Lox
