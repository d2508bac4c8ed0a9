/-
Graphs of YAML nodes.

Where a text names an anchor again, the same node stands in another place.  So a text is a graph:
nodes are numbered, and collections hold the numbers of their parts (`Node`).  A node may even be
among its own parts.
-/
import SchemaLoom.Yaml.Scalar
import SchemaLoom.Yaml.Token.Lexer

namespace SchemaLoom.Yaml

/-- What a node holds. -/
inductive Content where
  | scalar (text : String)
  | sequence (items : List Nat)
  | mapping (entries : List (Nat × Nat))
  deriving Repr

/-- A node. -/
structure Node where
  tag : String
  content : Content
  deriving Repr

/-- The nodes of a text by their numbers. -/
abbrev Graph := Array Node

/-- What is known while tokens are read. -/
structure Composition where
  tokens : List Token
  nodes : Graph := #[]
  anchors : List (String × Nat) := []
  handles : List (String × String) := []
  /-- The number of collections around the next node. -/
  depth : Nat := 0

/-- The greatest number of collections around a node. -/
def readingDepth : Nat := 489

/-- A reader of tokens. -/
abbrev Composer := StateT Composition (Except Fault)

namespace Composer

/-- The short forms of tags that are always known. -/
def usualHandles : List (String × String) := [("!", "!"), ("!!", coreTag "")]

/-- The next token; a text that ends in a fault has it here. -/
def peek : Composer Token := do
  match (← get).tokens with
  | .invalid fault :: _ => throw fault
  | t :: _ => return t
  | [] => return .streamEnd

/-- Takes the next token. -/
def advance : Composer Unit := modify fun s => { s with tokens := s.tokens.drop 1 }

/-- Takes a token if it comes next. -/
def optional (t : Token) : Composer Bool := do
  if (← peek) = t then
    advance
    return true
  else return false

/-- Fails. -/
def malformed {α : Type} : Composer α := throw .malformed

/-- Takes a token that must come next. -/
def require (t : Token) : Composer Unit := do unless ← optional t do malformed

/-! ### Nodes -/

/-- The anchor and the tag in front of a node. -/
structure Properties where
  anchor : Option String := none
  tag : Option String := none

/-- The tag of a node with these properties follows from its form. -/
def Properties.open (p : Properties) : Bool := p.tag.all (· == "!")

/-- Adds a node and returns its number, under which its anchor is then known. -/
def add (p : Properties) (tag : String) (content : Content) : Composer Nat := do
  let s ← get
  if readingDepth < s.depth then throw .nestedTooDeeply
  let id := s.nodes.size
  let anchors := (p.anchor.map fun name => (name, id)).toList ++ s.anchors
  set { s with nodes := s.nodes.push ⟨tag, content⟩, anchors }
  return id

/-- Gives a node its parts. -/
def fill (id : Nat) (content : Content) : Composer Unit :=
  modify fun s =>
    { s with nodes := s.nodes.modify id fun node => { node with content } }

/-- Reads the parts of a collection. -/
def inside {α : Type} (parts : Composer α) : Composer α := do
  modify fun s => { s with depth := s.depth + 1 }
  let found ← parts
  modify fun s => { s with depth := s.depth - 1 }
  return found

/-- The node where nothing is written. -/
def absent : Composer Nat := add {} (coreTag "null") (.scalar "")

/-- The full form of a tag. -/
def fullTag (handle : Option String) (suffix : String) : Composer String := do
  match handle with
  | none => return suffix
  | some short =>
    match (← get).handles.lookup short with
    | some long => return long ++ suffix
    | none => malformed

/-- Takes a tag if it comes next. -/
def optionalTag : Composer (Option String) := do
  match ← peek with
  | .tag handle suffix =>
    advance
    return some (← fullTag handle suffix)
  | _ => return none

/-- Takes an anchor if it comes next. -/
def optionalAnchor : Composer (Option String) := do
  match ← peek with
  | .anchor name =>
    advance
    return some name
  | _ => return none

/-- Takes the anchor and the tag in front of a node, in either order. -/
def properties : Composer Properties := do
  match ← optionalAnchor with
  | some name => return { anchor := some name, tag := ← optionalTag }
  | none =>
    match ← optionalTag with
    | some tag => return { anchor := ← optionalAnchor, tag := some tag }
    | none => return {}

/-- The tag of a scalar. -/
def scalarTag (p : Properties) (text : String) (plain : Bool) : String :=
  match p.tag with
  | some "!" => resolve text
  | some tag => tag
  | none => if plain then resolve text else coreTag "str"

/-- The tag of a collection. -/
def collectionTag (p : Properties) (kind : String) : String :=
  if p.open then coreTag kind else p.tag.getD ""

/-- Where a node stands: only in blocks there are blocks, and behind a key the items of a sequence
need not be indented. -/
inductive Place where
  | flow | block | behindKey
  deriving DecidableEq

/-- The tokens at which an item of a sequence without indentation, or a part of a mapping, is
absent. -/
def endsEntry (t : Token) : Bool := t == .key || t == .value || t == .blockEnd

/-- The marks in front of which a part of a flow collection is absent. -/
def endsFlowPart (closing : Token) (t : Token) : Bool := t == .flowEntry || t == closing

mutual

/-- A node, with at most `fuel` steps. -/
def node (fuel : Nat) (place : Place) : Composer Nat := do
  match fuel with
  | 0 => malformed
  | fuel + 1 =>
    match ← peek with
    | .reference name =>
      advance
      match (← get).anchors.lookup name with
      | some id => return id
      | none => malformed
    | _ =>
      let p ← properties
      let known := (← get).anchors
      if p.anchor.any fun name => (known.lookup name).isSome then malformed
      content fuel place p

/-- The part of a node behind its properties. -/
def content (fuel : Nat) (place : Place) (p : Composer.Properties) : Composer Nat := do
  match fuel with
  | 0 => malformed
  | fuel + 1 =>
    let sequence := add p (collectionTag p "seq") (.sequence [])
    let mapping := add p (collectionTag p "map") (.mapping [])
    let t ← peek
    match t with
    | .scalar text plain =>
      advance
      add p (scalarTag p text plain) (.scalar text)
    | .flowSequenceStart =>
      advance
      let id ← sequence
      fill id (.sequence (← inside (flowItems fuel true)))
      return id
    | .flowMappingStart =>
      advance
      let id ← mapping
      fill id (.mapping (← inside (flowEntries fuel true)))
      return id
    | _ =>
      if t = .blockEntry ∧ place = .behindKey then
        let id ← sequence
        fill id (.sequence (← inside (bareItems fuel)))
        return id
      else if t = .blockSequenceStart ∧ place ≠ .flow then
        advance
        let id ← sequence
        fill id (.sequence (← inside (blockItems fuel)))
        return id
      else if t = .blockMappingStart ∧ place ≠ .flow then
        advance
        let id ← mapping
        fill id (.mapping (← inside (blockEntries fuel)))
        return id
      else if p.anchor.isSome || p.tag.isSome then
        add p (if p.open then coreTag "null" else p.tag.getD "") (.scalar "")
      else malformed

/-- The items of a block sequence, up to its end. -/
def blockItems (fuel : Nat) : Composer (List Nat) := do
  match fuel with
  | 0 => malformed
  | fuel + 1 =>
    if ← optional .blockEntry then
      let t ← peek
      let first ← if t == .blockEntry || t == .blockEnd then absent else node fuel .block
      return first :: (← blockItems fuel)
    else
      require .blockEnd
      return []

/-- The items of a sequence without indentation. -/
def bareItems (fuel : Nat) : Composer (List Nat) := do
  match fuel with
  | 0 => malformed
  | fuel + 1 =>
    if ← optional .blockEntry then
      let t ← peek
      let first ← if t == .blockEntry || endsEntry t then absent else node fuel .block
      return first :: (← bareItems fuel)
    else return []

/-- The entries of a block mapping, up to its end. -/
def blockEntries (fuel : Nat) : Composer (List (Nat × Nat)) := do
  match fuel with
  | 0 => malformed
  | fuel + 1 =>
    if ← optional .key then
      let key ← if endsEntry (← peek) then absent else node fuel .behindKey
      let value ←
        if ← optional .value then
          (do if endsEntry (← peek) then absent else node fuel .behindKey)
        else absent
      return (key, value) :: (← blockEntries fuel)
    else
      require .blockEnd
      return []

/-- The items of a flow sequence, up to its end; a key begins an item that is a mapping. -/
def flowItems (fuel : Nat) (first : Bool) : Composer (List Nat) := do
  match fuel with
  | 0 => malformed
  | fuel + 1 =>
    if ← optional .flowSequenceEnd then return []
    unless first do require .flowEntry
    let t ← peek
    if t = .key then
      let id ← add {} (coreTag "map") (.mapping [])
      fill id (.mapping [← inside (flowPair fuel .flowSequenceEnd)])
      return id :: (← flowItems fuel false)
    else if t = .flowSequenceEnd then
      advance
      return []
    else
      let item ← node fuel .flow
      return item :: (← flowItems fuel false)

/-- A key and a value of a flow collection; the mark in front of the key is still to be read. -/
def flowPair (fuel : Nat) (closing : Token) : Composer (Nat × Nat) := do
  match fuel with
  | 0 => malformed
  | fuel + 1 =>
    advance
    let t ← peek
    let key ← if t == .value || endsFlowPart closing t then absent else node fuel .flow
    let value ←
      if ← optional .value then
        (do if endsFlowPart closing (← peek) then absent else node fuel .flow)
      else absent
    return (key, value)

/-- The entries of a flow mapping, up to its end. -/
def flowEntries (fuel : Nat) (first : Bool) : Composer (List (Nat × Nat)) := do
  match fuel with
  | 0 => malformed
  | fuel + 1 =>
    if ← optional .flowMappingEnd then return []
    unless first do require .flowEntry
    let t ← peek
    if t = .key then
      let entry ← flowPair fuel .flowMappingEnd
      return entry :: (← flowEntries fuel false)
    else if t = .flowMappingEnd then
      advance
      return []
    else
      let key ← node fuel .flow
      let value ← absent
      return (key, value) :: (← flowEntries fuel false)

end

/-! ### Documents -/

/-- Takes the directives in front of a document, at most `fuel` of them. -/
def directives : Nat → Bool → List (String × String) → Composer (List (String × String))
  | 0, _, _ => malformed
  | fuel + 1, versioned, handles => do
    match ← peek with
    | .directive d =>
      advance
      match d with
      | .version major =>
        if versioned || major != 1 then malformed
        directives fuel true handles
      | .handle short long =>
        if (handles.lookup short).isSome then malformed
        directives fuel versioned (handles ++ [(short, long)])
      | .other => directives fuel versioned handles
    | _ => return handles

/-- Skips the marks of document ends, at most `fuel` of them. -/
def skipEnds : Nat → Composer Unit
  | 0 => malformed
  | fuel + 1 => do if ← optional .documentEnd then skipEnds fuel

/-- The number of the root node of the only document, `none` for a text without documents. -/
def document (fuel : Nat) : Composer (Option Nat) := do
  match ← peek with
  | .streamEnd => return none
  | .directive _ | .documentStart =>
    let handles ← directives fuel false []
    modify fun s => { s with handles := handles ++ usualHandles }
    require .documentStart
    let root ←
      match ← peek with
      | .directive _ | .documentStart | .documentEnd | .streamEnd => absent
      | _ => node fuel .block
    finish root
  | _ =>
    modify fun s => { s with handles := usualHandles }
    finish (← node fuel .block)
where
  /-- Requires that nothing follows but marks of document ends.  A second document is refused behind
  its directives. -/
  finish (root : Nat) : Composer (Option Nat) := do
    skipEnds fuel
    if ← optional .streamEnd then return some root
    let _ ← directives fuel false []
    malformed

end Composer

/-- The graph of a text and the number of its root, `none` for a text without documents. -/
def compose (text : String) : Except Fault (Option (Graph × Nat)) := do
  let tokens := lex text
  let (root, s) ← StateT.run (Composer.document (4 * tokens.length + 8)) { tokens }
  return root.map fun root => (s.nodes, root)

end SchemaLoom.Yaml
