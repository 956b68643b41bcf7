import Lox.Yaml.Node

/-!
What scalars stand for. A quoted scalar is a text. A plain one may be null, a truth value or a number by
the way it is spelled, and a tag demands that it is of a certain kind.
-/

namespace Lox.Yaml

inductive Kind where
  | null
  | bool
  | int
  | float
  | str
  deriving DecidableEq, Repr

namespace Kind

def nullWords : List String :=
  ["", "~", "null", "Null", "NULL"]

def trueWords : List String :=
  ["true", "True", "TRUE"]

def falseWords : List String :=
  ["false", "False", "FALSE"]

/-- Infinities and the number that is none. -/
def floatWords : List String :=
  [".nan", ".NaN", ".NAN", ".inf", ".Inf", ".INF", "+.inf", "+.Inf", "+.INF", "-.inf", "-.Inf", "-.INF"]

def isOneOf (words : List String) (text : List Char) : Bool :=
  words.any (·.toList == text)

def withoutSign : List Char → List Char
  | '+' :: rest => rest
  | '-' :: rest => rest
  | text => text

def digitOf (c : Char) : Nat :=
  (Scalar.hexValue? c).getD 16

/-- The number that digits of a base write, at least one. -/
def natural? (base : Nat) (digits : List Char) : Option Nat :=
  if digits.isEmpty || digits.any (base ≤ digitOf ·) then none
  else some (digits.foldl (fun n c => base * n + digitOf c) 0)

/-- A number without its sign, whose first digits may choose the base. -/
def magnitude? : List Char → Option Nat
  | '0' :: 'x' :: digits => natural? 16 digits
  | '0' :: 'X' :: digits => natural? 16 digits
  | '0' :: 'o' :: digits => natural? 8 digits
  | '0' :: 'O' :: digits => natural? 8 digits
  | '0' :: 'b' :: digits => natural? 2 digits
  | '0' :: 'B' :: digits => natural? 2 digits
  | '0' :: d :: digits => natural? 8 (d :: digits)
  | digits => natural? 10 digits

/-- Whole numbers fit in 64 bits, with a sign if they have one. -/
def isInt (text : List Char) : Bool :=
  match magnitude? (withoutSign text) with
  | none => false
  | some n =>
      match text.head? with
      | some '-' => n ≤ 0x8000000000000000
      | some '+' => n < 0x8000000000000000
      | _ => n < 0x10000000000000000

def isExponent : List Char → Bool
  | [] => true
  | e :: rest =>
      let digits := withoutSign rest
      (e == 'e' || e == 'E') && !digits.isEmpty && digits.all (·.isDigit)

/-- Digits with a point among them or at either end, and an exponent. -/
def isFloat (text : List Char) : Bool :=
  let text := withoutSign text
  let whole := text.takeWhile (·.isDigit)
  match text.drop whole.length with
  | '.' :: rest =>
      let fraction := rest.takeWhile (·.isDigit)
      !(whole.isEmpty && fraction.isEmpty) && isExponent (rest.drop fraction.length)
  | rest => !whole.isEmpty && isExponent rest

/-- Characters with which a number starts. -/
def startsNumber (text : List Char) : Bool :=
  text.head?.any fun c => c.isDigit || c == '+' || c == '-' || c == '.'

def ofText (text : List Char) : Kind :=
  let digits := text.filter (· != '_')
  if isOneOf nullWords text then .null
  else if isOneOf trueWords text || isOneOf falseWords text then .bool
  else if isOneOf floatWords text then .float
  else if !startsNumber text then .str
  else if isInt digits then .int
  else if isFloat digits then .float
  else .str

/-- The kind that a tag demands, if it demands one. A single exclamation mark demands none. -/
def ofTag? (tag : List Char) : Option Kind :=
  [("null", Kind.null), ("bool", .bool), ("int", .int), ("float", .float), ("str", .str)].findSome?
    fun (name, kind) => if NodeReader.standard ++ name.toList == tag then some kind else none

/-- Whether a tag takes a text of a kind. -/
def fits (wanted found : Kind) : Bool :=
  wanted == found || (wanted == .float && found == .int)

end Kind

/-- The kind of a scalar, unless its tag does not fit its text. -/
def kind? (tag : Option (List Char)) (isPlain : Bool) (text : List Char) : Option Kind :=
  match tag.filter (· != ['!']) with
  | none => some (if isPlain then .ofText text else .str)
  | some tag =>
      match Kind.ofTag? tag with
      | none => none
      | some .str => some .str
      | some wanted => if wanted.fits (.ofText text) then some (.ofText text) else none

/-- The text of a scalar as bytes. -/
def encoded (text : List Char) : Bytes :=
  text.flatMap fun c => Utf8.encode c.toNat

namespace Node

/-- The part that an alias stands for, and any other part itself. -/
def content : Node → Node
  | .alias _ target => content target
  | node => node

/-- The text of a scalar: null has none, and what is no scalar is malformed. -/
def text? (node : Node) : Option (Option Bytes) :=
  match node.content with
  | .scalar tag isPlain text =>
      match kind? tag isPlain text with
      | some .null => some none
      | some _ => some (some (encoded text))
      | none => none
  | _ => none

def yesWords : List String :=
  ["y", "Y", "yes", "Yes", "YES", "on", "On", "ON"]

def noWords : List String :=
  ["n", "N", "no", "No", "NO", "off", "Off", "OFF"]

/-- The truth value of a scalar. Beside the spellings of truth values, some texts are taken for one. -/
def bool? (node : Node) : Option (Option Bool) :=
  match node.content with
  | .scalar tag isPlain text =>
      match kind? tag isPlain text with
      | some .null => some none
      | some .bool => some (some (Kind.isOneOf Kind.trueWords text))
      | some .str =>
          if Kind.isOneOf yesWords text then some (some true)
          else if Kind.isOneOf noWords text then some (some false)
          else none
      | _ => none
  | _ => none

/-- Whether a key asks to take over the entries of other mappings. -/
def isMerge : Node → Bool
  | .scalar tag isPlain text =>
      text == ['<', '<'] &&
        match tag.filter (· != ['!']) with
        | none => isPlain
        | some tag => tag == NodeReader.standard ++ "merge".toList
  | _ => false

/-- Whether two keys are the same as they are written. -/
def sameKey : Node → Node → Bool
  | .scalar _ _ a, .scalar _ _ b => a == b
  | .alias a _, .alias b _ => a == b
  | .sequence _, .sequence _ => true
  | .mapping _, .mapping _ => true
  | _, _ => false

end Node

end Lox.Yaml
