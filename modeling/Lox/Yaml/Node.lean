import Lox.Yaml.Scan

/-!
The structure of a document: scalars, sequences and mappings. Of several documents in one text only the
first is read.
-/

namespace Lox.Yaml

/-- A part of a document. An alias stands for the part that it names; a part that it lies in has no end. -/
inductive Node where
  | scalar (tag : Option (List Char)) (isPlain : Bool) (text : List Char)
  | sequence (items : List Node)
  | mapping (entries : List (Node × Node))
  | alias (name : List Char) (target : Node)
  | cycle

/-- A scalar that is not written. -/
def Node.empty : Node :=
  .scalar none true []

/-- What is left of a document, the parts that were given names, and what tag handles stand for. -/
structure Source where
  tokens : List Token
  anchors : List (List Char × Node)
  handles : List (List Char × List Char)

abbrev NodeReader :=
  StateT Source Option

namespace NodeReader

def peek : NodeReader Token := do
  match (← get).tokens with
  | t :: _ => return t
  | [] => failure

def skip : NodeReader Unit :=
  modify fun s => { s with tokens := s.tokens.drop 1 }

def name (anchor : Option (List Char)) (node : Node) : NodeReader Unit :=
  match anchor with
  | some name => modify fun s => { s with anchors := (name, node) :: s.anchors }
  | none => return

def named (name : List Char) : NodeReader Node := do
  match (← get).anchors.lookup name with
  | some target => return .alias name target
  | none => failure

/-- The full name of a tag. -/
def tagName (t : Tag) : NodeReader (List Char) := do
  if t.handle.isEmpty then
    return t.suffix
  match (← get).handles.lookup t.handle with
  | some start => return start ++ t.suffix
  | none => failure

def anchor? : NodeReader (Option (List Char)) := do
  match ← peek with
  | .anchor name => skip; return some name
  | _ => return none

def tag? : NodeReader (Option (List Char)) := do
  match ← peek with
  | .tag t => skip; return some (← tagName t)
  | _ => return none

/-- The anchor and the tag in front of a node, in any order. -/
def properties : NodeReader (Option (List Char) × Option (List Char)) := do
  match ← anchor? with
  | some name => return (some name, ← tag?)
  | none =>
      let tag ← tag?
      if tag.isSome then return (← anchor?, tag) else return (none, none)

def isKeyEnd (t : Token) : Bool :=
  t == .key || t == .value || t == .blockEnd

def isPairEnd (t : Token) : Bool :=
  t == .comma || t == .closeSequence

def isEntryEnd (t : Token) : Bool :=
  t == .comma || t == .closeMapping

/-- A node, or an empty one in front of a token that ends it. -/
def orEmpty (ends : Token → Bool) (node : NodeReader Node) : NodeReader Node := do
  if ends (← peek) then return .empty else node

/-- The node behind a colon. Without a colon it is empty. -/
def valueOrEmpty (ends : Token → Bool) (node : NodeReader Node) : NodeReader Node := do
  if (← peek) == .value then
    skip
    orEmpty ends node
  else
    return .empty

mutual

/-- A node. In block style it may be a block collection, and `indentless` allows a sequence whose dashes
stand in the column of the mapping around it. -/
def node : Nat → Bool → Bool → NodeReader Node
  | 0, _, _ => failure
  | n + 1, isBlock, indentless => do
      match ← peek with
      | .alias name =>
          skip
          named name
      | _ =>
          let (anchor, tag) ← properties
          name anchor .cycle
          let node ← content n isBlock indentless (anchor.isSome || tag.isSome) tag
          name anchor node
          return node

def content : Nat → Bool → Bool → Bool → Option (List Char) → NodeReader Node
  | 0, _, _, _, _ => failure
  | n + 1, isBlock, indentless, mayBeEmpty, tag => do
      let t ← peek
      if t == .entry && indentless then
        return .sequence (← indentlessItems n)
      else
        match t with
        | .scalar isPlain text =>
            skip
            return .scalar tag isPlain text
        | .openSequence =>
            skip
            return .sequence (← flowItems n true)
        | .openMapping =>
            skip
            return .mapping (← flowEntries n true)
        | _ =>
            if t == .sequenceStart && isBlock then
              skip
              return .sequence (← blockItems n)
            else if t == .mappingStart && isBlock then
              skip
              return .mapping (← blockEntries n)
            else if mayBeEmpty then
              return .scalar tag true []
            else
              failure

def blockItems : Nat → NodeReader (List Node)
  | 0 => failure
  | n + 1 => do
      match ← peek with
      | .entry =>
          skip
          let item ← orEmpty (fun t => t == .entry || t == .blockEnd) (node n true false)
          return item :: (← blockItems n)
      | .blockEnd =>
          skip
          return []
      | _ => failure

def indentlessItems : Nat → NodeReader (List Node)
  | 0 => failure
  | n + 1 => do
      match ← peek with
      | .entry =>
          skip
          let item ← orEmpty (fun t => t == .entry || isKeyEnd t) (node n true false)
          return item :: (← indentlessItems n)
      | _ => return []

def blockEntries : Nat → NodeReader (List (Node × Node))
  | 0 => failure
  | n + 1 => do
      match ← peek with
      | .key =>
          skip
          let key ← orEmpty isKeyEnd (node n true true)
          let value ← valueOrEmpty isKeyEnd (node n true true)
          return (key, value) :: (← blockEntries n)
      | .blockEnd =>
          skip
          return []
      | _ => failure

/-- The items of a sequence in brackets, with commas between them. An item may be a single pair. -/
def flowItems : Nat → Bool → NodeReader (List Node)
  | 0, _ => failure
  | n + 1, isFirst => do
      if (← peek) == .closeSequence then
        skip
        return []
      if !isFirst then
        if (← peek) == .comma then skip else failure
      match ← peek with
      | .key =>
          skip
          let pair ← flowPair n
          return .mapping [pair] :: (← flowItems n false)
      | .closeSequence =>
          skip
          return []
      | _ =>
          let item ← node n false false
          return item :: (← flowItems n false)

/-- A pair in a sequence. Where its key is missing, a token is lost. -/
def flowPair : Nat → NodeReader (Node × Node)
  | 0 => failure
  | n + 1 => do
      let t ← peek
      let key ←
        if t == .value || isPairEnd t then do
          skip
          pure Node.empty
        else
          node n false false
      return (key, ← valueOrEmpty isPairEnd (node n false false))

/-- The entries of a mapping in braces, with commas between them. A node alone is a key. -/
def flowEntries : Nat → Bool → NodeReader (List (Node × Node))
  | 0, _ => failure
  | n + 1, isFirst => do
      if (← peek) == .closeMapping then
        skip
        return []
      if !isFirst then
        if (← peek) == .comma then skip else failure
      match ← peek with
      | .key =>
          skip
          let key ← orEmpty (fun t => t == .value || isEntryEnd t) (node n false false)
          let value ← valueOrEmpty isEntryEnd (node n false false)
          return (key, value) :: (← flowEntries n false)
      | .closeMapping =>
          skip
          return []
      | _ =>
          let key ← node n false false
          return (key, .empty) :: (← flowEntries n false)

end

/-- The name that the standard tags start with. -/
def standard : List Char :=
  "tag:yaml.org,2002:".toList

def standardHandles : List (List Char × List Char) :=
  [(['!'], ['!']), (['!', '!'], standard)]

/-- The directives of a document: its version, given once, and handles, each given once. -/
def directives : Nat → Bool → NodeReader Unit
  | 0, _ => failure
  | n + 1, hasVersion => do
      match ← peek with
      | .version major minor =>
          if hasVersion || major != 1 || minor != 1 then failure
          skip
          directives n true
      | .tagHandle handle start =>
          if ((← get).handles.lookup handle).isSome then failure
          skip
          modify fun s => { s with handles := s.handles ++ [(handle, start)] }
          directives n hasVersion
      | _ => return

/-- Whether a token stands outside of all documents. -/
def isOutside : Token → Bool
  | .version .. | .tagHandle .. | .documentStart | .documentEnd | .streamEnd => true
  | _ => false

/-- The first document, if there is one. -/
def document (n : Nat) : NodeReader (Option Node) := do
  match ← peek with
  | .streamEnd => return none
  | .version .. | .tagHandle .. | .documentStart =>
      directives n false
      modify fun s => { s with handles := s.handles ++ standardHandles }
      if (← peek) == .documentStart then
        skip
        return some (← orEmpty isOutside (node n true false))
      else
        failure
  | _ =>
      modify fun s => { s with handles := standardHandles }
      return some (← node n true false)

end NodeReader

/-- Characters that a document may hold. -/
def isAllowed (c : Char) : Bool :=
  c == '\t' || c == '\n' || c == '\r' || (' ' ≤ c && c ≤ '~') || c.toNat == 0x85 ||
    (0xA0 ≤ c.toNat && c.toNat != 0xFFFE && c.toNat != 0xFFFF)

def byteOrderMark : Char := Char.ofNat 0xFEFF

/-- The characters of a document, without a byte order mark in front. -/
def characters? (document : Bytes) : Option (List Char) := do
  let text ← (Utf8.items document).mapM fun item =>
    match item with
    | .char code _ => if isAllowed (Char.ofNat code) then some (Char.ofNat code) else none
    | .stray _ => none
  return if text.head? == some byteOrderMark then text.drop 1 else text

/-- Reads the first document of a text. It is `none` inside if there is no document, and `none` if the text
is malformed up to the end of the document. -/
def read? (text : Bytes) : Option (Option Node) := do
  let stream := Stream.scan (← characters? text)
  let (node, rest) ← (NodeReader.document (4 * stream.tokens.length + 4)).run ⟨stream.tokens, [], []⟩
  if rest.tokens.isEmpty || stream.failsAt (stream.tokens.length - rest.tokens.length) then none
  else some node

end Lox.Yaml
