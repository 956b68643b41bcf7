import Lox.Number.Layout
import Lox.Text.Quoted

/-!
Tokens: their kinds with names and codes, the reserved words, and the values of literals.
-/

namespace Lox

inductive Token.Kind where
  | eof
  | leftParen
  | rightParen
  | leftBrace
  | rightBrace
  | comma
  | dot
  | minus
  | plus
  | semicolon
  | slash
  | star
  | bang
  | bangEqual
  | equal
  | equalEqual
  | greater
  | greaterEqual
  | less
  | lessEqual
  | identifier
  | string
  | number
  | andWord
  | classWord
  | elseWord
  | falseWord
  | funWord
  | forWord
  | ifWord
  | nilWord
  | orWord
  | printWord
  | returnWord
  | superWord
  | thisWord
  | trueWord
  | varWord
  | whileWord
  deriving DecidableEq, Repr

namespace Token.Kind

/-- All kinds in the order of their codes. -/
def all : List Kind :=
  [.eof, .leftParen, .rightParen, .leftBrace, .rightBrace, .comma, .dot, .minus, .plus, .semicolon,
    .slash, .star, .bang, .bangEqual, .equal, .equalEqual, .greater, .greaterEqual, .less,
    .lessEqual, .identifier, .string, .number, .andWord, .classWord, .elseWord, .falseWord,
    .funWord, .forWord, .ifWord, .nilWord, .orWord, .printWord, .returnWord, .superWord, .thisWord,
    .trueWord, .varWord, .whileWord]

def name : Kind → String
  | .eof => "EOF"
  | .leftParen => "LEFT_PAREN"
  | .rightParen => "RIGHT_PAREN"
  | .leftBrace => "LEFT_BRACE"
  | .rightBrace => "RIGHT_BRACE"
  | .comma => "COMMA"
  | .dot => "DOT"
  | .minus => "MINUS"
  | .plus => "PLUS"
  | .semicolon => "SEMICOLON"
  | .slash => "SLASH"
  | .star => "STAR"
  | .bang => "BANG"
  | .bangEqual => "BANG_EQUAL"
  | .equal => "EQUAL"
  | .equalEqual => "EQUAL_EQUAL"
  | .greater => "GREATER"
  | .greaterEqual => "GREATER_EQUAL"
  | .less => "LESS"
  | .lessEqual => "LESS_EQUAL"
  | .identifier => "IDENTIFIER"
  | .string => "STRING"
  | .number => "NUMBER"
  | .andWord => "AND"
  | .classWord => "CLASS"
  | .elseWord => "ELSE"
  | .falseWord => "FALSE"
  | .funWord => "FUN"
  | .forWord => "FOR"
  | .ifWord => "IF"
  | .nilWord => "NIL"
  | .orWord => "OR"
  | .printWord => "PRINT"
  | .returnWord => "RETURN"
  | .superWord => "SUPER"
  | .thisWord => "THIS"
  | .trueWord => "TRUE"
  | .varWord => "VAR"
  | .whileWord => "WHILE"

/-- The end of input has code -1, and the other kinds count from zero. -/
def ofCode? : Int → Option Kind
  | .ofNat n => all[n + 1]?
  | .negSucc 0 => some .eof
  | .negSucc _ => none

def ofName? (name : String) : Option Kind :=
  all.find? fun kind => kind.name == name

/-- The name of the kind with a given code; other codes are shown as numbers. -/
def nameOfCode (code : Int) : Bytes :=
  match ofCode? code with
  | some kind => bytes kind.name
  | none => bytes "TokenType(" ++ Bytes.ofInt code ++ bytes ")"

def reservedWords : List (Bytes × Kind) :=
  [(bytes "and", .andWord), (bytes "class", .classWord), (bytes "else", .elseWord),
    (bytes "false", .falseWord), (bytes "for", .forWord), (bytes "fun", .funWord),
    (bytes "if", .ifWord), (bytes "nil", .nilWord), (bytes "or", .orWord),
    (bytes "print", .printWord), (bytes "return", .returnWord), (bytes "super", .superWord),
    (bytes "this", .thisWord), (bytes "true", .trueWord), (bytes "var", .varWord),
    (bytes "while", .whileWord)]

def reserved? (word : Bytes) : Option Kind :=
  reservedWords.lookup word

/-- The kind of a word: a reserved word or an identifier. -/
def ofWord (word : Bytes) : Kind :=
  (reserved? word).getD .identifier

end Token.Kind

inductive Literal where
  | nil
  | bool (b : Bool)
  | num (x : Number)
  | str (s : Bytes)
  deriving DecidableEq, Repr

namespace Literal

/-- A literal in a dumped tree: strings are quoted. -/
def dump : Literal → Bytes
  | .nil => bytes "nil"
  | .bool true => bytes "true"
  | .bool false => bytes "false"
  | .num x => x.write Number.dumped
  | .str s => quoted s

/-- A literal in a listed token: strings stand as they are. -/
def list : Literal → Bytes
  | .nil => bytes "<nil>"
  | .bool true => bytes "true"
  | .bool false => bytes "false"
  | .num x => x.write Number.listed
  | .str s => s

end Literal

/-- A piece of source text with its kind, the value it denotes and the line on which it ends. -/
structure Token where
  kind : Token.Kind
  lexeme : Bytes
  literal : Literal
  line : Int
  deriving DecidableEq, Repr

namespace Token

def list (t : Token) : Bytes :=
  bytes t.kind.name ++ Bytes.space :: t.lexeme ++ Bytes.space :: t.literal.list

/-- The end of input on a given line. -/
def atEnd (line : Int) : Token :=
  ⟨.eof, [], .nil, line⟩

end Token

end Lox
