import Lox.Text.Quoted

/-!
The arguments of the command. Flags come first, with one hyphen or two; the first argument that is no
flag ends them, and so does `--`.
-/

namespace Lox

structure Flags where
  dumpTree : Bool
  configPath : Bytes
  verbose : Bool
  operands : List Bytes
  deriving DecidableEq, Repr

namespace Flags

inductive Error where
  | malformed (argument : Bytes)
  | undefined (name : Bytes)
  | notBoolean (value name : Bytes)
  | needsArgument (name : Bytes)
  | help
  deriving DecidableEq, Repr

/-- The message of an error; asking for help needs none. -/
def Error.message? : Error → Option Bytes
  | .malformed argument => some (bytes "bad flag syntax: " ++ argument)
  | .undefined name => some (bytes "flag provided but not defined: -" ++ name)
  | .notBoolean value name =>
      some (bytes "invalid boolean value " ++ quoted value ++ bytes " for -" ++ name ++
        bytes ": parse error")
  | .needsArgument name => some (bytes "flag needs an argument: -" ++ name)
  | .help => none

def usage : Bytes :=
  bytes "Usage: lox [flags] [script]\n  -ast\n    \tprint the syntax tree instead of running the script\n  -config string\n    \tconfig file (default $HOME/.loxrc.yml)\n  -v\tdebug logging\n"

def none : Flags :=
  ⟨false, [], false, []⟩

def hyphen : UInt8 := 45

def equalsSign : UInt8 := 61

def bool? (text : Bytes) : Option Bool :=
  if (["1", "t", "T", "true", "TRUE", "True"].map bytes).contains text then some true
  else if (["0", "f", "F", "false", "FALSE", "False"].map bytes).contains text then some false
  else .none

/-- The name of a flag and the value behind its equals sign. -/
def nameAndValue (flag : Bytes) : Bytes × Option Bytes :=
  match flag with
  | [] => ([], .none)
  | b :: rest =>
      match rest.dropWhile (· != equalsSign) with
      | [] => (flag, .none)
      | _ :: value => (b :: rest.takeWhile (· != equalsSign), some value)

/-- What an argument is when flags may still come. -/
inductive Shape where
  | operand
  | terminator
  | flag (name : Bytes) (value : Option Bytes)
  | malformed

def shapeOfName (flag : Bytes) : Shape :=
  match flag with
  | [] => .malformed
  | b :: _ =>
      if b == hyphen || b == equalsSign then
        .malformed
      else
        let (name, value) := nameAndValue flag
        .flag name value

def shape : Bytes → Shape
  | [45, 45] => .terminator
  | 45 :: 45 :: flag => shapeOfName flag
  | 45 :: b :: flag => shapeOfName (b :: flag)
  | _ => .operand

/-- A flag that is on or off; alone it is on. -/
def switch (name : Bytes) (value : Option Bytes) : Except Error Bool :=
  match value with
  | .none => .ok true
  | some text =>
      match bool? text with
      | some b => .ok b
      | .none => .error (.notBoolean text name)

def astName : Bytes := bytes "ast"

def verboseName : Bytes := bytes "v"

def configName : Bytes := bytes "config"

def unknown (name : Bytes) : Error :=
  if name = bytes "help" ∨ name = bytes "h" then .help else .undefined name

def parseFrom (flags : Flags) : List Bytes → Except Error Flags
  | [] => .ok flags
  | argument :: rest =>
      match shape argument with
      | .operand => .ok { flags with operands := argument :: rest }
      | .terminator => .ok { flags with operands := rest }
      | .malformed => .error (.malformed argument)
      | .flag name value =>
          if name = astName then
            match switch name value with
            | .ok b => parseFrom { flags with dumpTree := b } rest
            | .error e => .error e
          else if name = verboseName then
            match switch name value with
            | .ok b => parseFrom { flags with verbose := b } rest
            | .error e => .error e
          else if name = configName then
            match value, rest with
            | some path, rest => parseFrom { flags with configPath := path } rest
            | .none, path :: rest => parseFrom { flags with configPath := path } rest
            | .none, [] => .error (.needsArgument name)
          else
            .error (unknown name)

def parse (arguments : List Bytes) : Except Error Flags :=
  parseFrom none arguments

end Flags

end Lox
