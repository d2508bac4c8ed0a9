/-
Reading YAML text.

A text denotes a forest.  Nodes become values level by level: first the root, then the parts
of the root, and so on, so of several faults the one nearest to the root is reported.  Before
a mapping is taken apart, the mappings it merges are put in front of its own entries.

A collection that stands in several places becomes a shared part.
-/
import SchemaLoom.Tree
import SchemaLoom.Yaml.Graph

namespace SchemaLoom.Yaml

/-- The value of a node; parts are still numbers of nodes. -/
inductive Value where
  | scalar (s : Scalar)
  | list (items : List Nat)
  /-- A list of pairs. -/
  | pairs (entries : List (Nat × Nat))
  | map (entries : List (Scalar × Nat))
  | set (members : List Scalar)

/-- The node with a number. -/
def Graph.node (g : Graph) (id : Nat) : Node := g.getD id ⟨"", .scalar ""⟩

/-- The entries of a mapping. -/
def Graph.entries? (g : Graph) (id : Nat) : Option (List (Nat × Nat)) :=
  match (g.node id).content with
  | .mapping entries => some entries
  | _ => none

/-- A graph with other entries for a mapping. -/
def Graph.setEntries (g : Graph) (id : Nat) (entries : List (Nat × Nat)) : Graph :=
  g.modify id fun node => { node with content := .mapping entries }

/-! ### Merging -/

/-- A graph in which a key that is only an equals sign counts as text. -/
def Graph.retag (g : Graph) (keys : List Nat) : Graph :=
  keys.foldl
    (fun g key =>
      if (g.node key).tag = coreTag "value" then
        g.modify key fun node => { node with tag := coreTag "str" }
      else g)
    g

/-- The entry `e` of a mapping merges other mappings. -/
def Graph.isMerge (g : Graph) (e : Nat × Nat) : Bool := (g.node e.1).tag == coreTag "merge"

/-- The number of entries that merge other mappings. -/
def Graph.mergeCount (g : Graph) : Nat :=
  (List.range g.size).foldl
    (fun count id => count + ((g.entries? id).getD []).countP fun e => g.isMerge e) 0

/-- The first entry of a mapping that merges others, and a graph without it. -/
def Graph.takeMerge? (g : Graph) (id : Nat) : Option ((Nat × Nat) × Graph) :=
  let entries := (g.entries? id).getD []
  (entries.find? fun e => g.isMerge e).map fun e =>
    (e, g.setEntries id (entries.eraseP fun e => g.isMerge e))

/-- A graph in which a mapping has the entries of those that it merges in front of its own; the
nesting of merges is at most `fuel`.  A mapping may merge itself: what it merges further on is then
settled on the way. -/
def flatten (fuel : Nat) (id : Nat) (g : Graph) : Except Fault Graph :=
  match fuel with
  | 0 => .error .malformed
  | fuel + 1 =>
    match g.entries? id with
    | none => .ok g
    | some entries => do
      let (merges, own) := entries.partition fun e => g.isMerge e
      let part := fun (state : Graph × List (List (Nat × Nat))) (id : Nat) => do
        if (state.1.entries? id).isNone then throw .malformed
        let g ← flatten fuel id state.1
        return (g, state.2 ++ [(g.entries? id).getD []])
      let source := fun (state : Graph × List (Nat × Nat)) (_ : Nat × Nat) => do
        match state.1.takeMerge? id with
        | none => return state
        | some (e, g) =>
          match (g.node e.2).content with
          | .mapping _ =>
            let (g, parts) ← part (g, []) e.2
            return (g, state.2 ++ parts.flatten)
          | .sequence items =>
            let (g, parts) ← items.foldlM part (g, [])
            return (g, state.2 ++ parts.reverse.flatten)
          | .scalar _ => throw .malformed
      let (g, merged) ← merges.foldlM source (g.retag (own.map (·.1)), [])
      return g.setEntries id (merged ++ (g.entries? id).getD [])

/-! ### Values -/

/-- What is known while nodes become values. -/
structure Assembly where
  graph : Graph
  values : Array (Option Value)
  /-- The collections whose parts are still to be looked at. -/
  pending : List Nat := []

/-- A step of the assembly. -/
abbrev Assembler := StateT Assembly (Except Fault)

/-- The tags of collections. -/
def collectionTags : List String := ["seq", "map", "omap", "pairs", "set"].map coreTag

/-- The text of a scalar; a mapping with an equals sign as key stands for the value of that key.
The way to it has at most `fuel` steps, as many as there are nodes unless it never ends. -/
def scalarText (g : Graph) : Nat → Nat → Except Fault String
  | 0, _ => .error .nestedTooDeeply
  | fuel + 1, id =>
    match (g.node id).content with
    | .scalar text => .ok text
    | .mapping entries =>
      match entries.find? fun e => (g.node e.1).tag = coreTag "value" with
      | some e => scalarText g fuel e.2
      | none => .error .malformed
    | .sequence _ => .error .malformed

namespace Assembler

/-- Notes the value of a node. -/
def note (id : Nat) (v : Value) : Assembler Unit :=
  modify fun s => { s with values := s.values.set! id (some v) }

/-- Makes a value of a node; collections have to wait for their parts. -/
def visit (id : Nat) : Assembler Unit := do
  let s ← get
  if ((s.values[id]?).getD none).isSome then return
  let tag := (s.graph.node id).tag
  if collectionTags.contains tag then
    note id (.list [])
    modify fun s => { s with pending := s.pending ++ [id] }
  else
    let text ← scalarText s.graph (s.graph.size + 1) id
    if tag = coreTag "timestamp" ∧ (s.graph.entries? id).isSome then throw .timeInMapping
    note id (.scalar (← readScalar id tag text))

/-- Makes a key of a node; a collection is none. -/
def key (id : Nat) : Assembler Scalar := do
  visit id
  match ((← get).values[id]?).getD none with
  | some (.scalar s) => return s
  | _ => throw .malformed

/-- The entries of a mapping with those that it merges, later values replacing earlier ones. -/
def entries (id : Nat) : Assembler (List (Scalar × Nat)) := do
  let s ← get
  let graph ← flatten (s.graph.mergeCount + 1) id s.graph
  set { s with graph }
  match graph.entries? id with
  | none => throw .malformed
  | some es =>
    es.foldlM
      (fun acc e => do
        let k ← key e.1
        visit e.2
        return Tree.insert k e.2 acc)
      []

/-- The pairs of a list of mappings with one entry each. -/
def pairs (id : Nat) : Assembler (List (Nat × Nat)) := do
  let g := (← get).graph
  match (g.node id).content with
  | .sequence items =>
    items.mapM fun item => do
      match (← get).graph.entries? item with
      | some [e] =>
        visit e.1
        visit e.2
        return e
      | _ => throw .malformed
  | _ => throw .malformed

/-- Looks at the parts of a collection. -/
def expand (id : Nat) : Assembler Unit := do
  let node := (← get).graph.node id
  if node.tag = coreTag "map" then note id (.map (← entries id))
  else if node.tag = coreTag "set" then note id (.set ((← entries id).map (·.1)))
  else if node.tag = coreTag "seq" then
    match node.content with
    | .sequence items =>
      items.forM visit
      note id (.list items)
    | _ => throw .malformed
  else note id (.pairs (← pairs id))

/-- Looks at the parts of all collections, at most `fuel` of them. -/
def settle : Nat → Assembler Unit
  | 0 => return ()
  | fuel + 1 => do
    match (← get).pending with
    | [] => return ()
    | id :: rest =>
      modify fun s => { s with pending := rest }
      expand id
      settle fuel

end Assembler

/-! ### Sharing -/

/-- The parts of a value. -/
def Value.parts : Value → List Nat
  | .list items => items
  | .pairs entries => entries.flatMap fun e => [e.1, e.2]
  | .map entries => entries.map (·.2)
  | .scalar _ | .set _ => []

/-- The value is a collection. -/
def Value.isCollection : Value → Bool
  | .scalar _ => false
  | _ => true

/-- The value with a number. -/
def valueAt (values : Array (Option Value)) (id : Nat) : Value :=
  ((values[id]?).getD none).getD (.scalar .null)

/-- The collections that stand in several places. -/
def sharedNodes (values : Array (Option Value)) (root : Nat) : List Nat :=
  let uses := root :: values.toList.flatMap fun v => (v.map (·.parts)).getD []
  (List.range values.size).filter fun id =>
    (valueAt values id).isCollection && 1 < uses.count id

/-- The tree of a value, in which shared nodes stand for themselves; the nesting of the others is at
most `fuel`. -/
def treeOf (values : Array (Option Value)) (shared : List Nat) : Nat → Value → Tree
  | 0, _ => .null
  | fuel + 1, v =>
    let part := fun (id : Nat) =>
      match shared.idxOf? id with
      | some index => .shared index
      | none => treeOf values shared fuel (valueAt values id)
    match v with
    | .scalar s => .leaf s
    | .list items => .list (items.map part)
    | .pairs entries => .list (entries.map fun e => .list [part e.1, part e.2])
    | .map entries => .map (entries.map fun e => (e.1, part e.2))
    | .set members => .set members

/-- The forest that values make up. -/
def forestOf (values : Array (Option Value)) (root : Nat) : Forest :=
  let shared := sharedNodes values root
  let tree := treeOf values shared (values.size + 1)
  let rootTree :=
    match shared.idxOf? root with
    | some index => .shared index
    | none => tree (valueAt values root)
  ⟨rootTree, shared.map fun id => tree (valueAt values id)⟩

/-- The forest that a text denotes; a text without documents denotes nothing. -/
def read (text : String) : Except Fault Forest := do
  match ← compose text with
  | none => return .ofTree .null
  | some (graph, root) =>
    let start : Assembly := { graph, values := Array.replicate graph.size none }
    let assemble := do
      Assembler.visit root
      Assembler.settle (graph.size + 1)
    let (_, s) ← StateT.run assemble start
    return forestOf s.values root

end SchemaLoom.Yaml
