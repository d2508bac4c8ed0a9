/-
Edits of trees.

An edit addresses a place in a tree by a path of keys.  Mappings that are missing on the way
are created; anything else on the way that is no mapping is a fault.  At the end of the path
a list is extended and any other value replaced, or, when only lists will do, anything but a
list refused.

### Shared parts

In a forest the path may lead into a shared part.  An edit behind that point changes the
part, in every place where it stands.  So a forest is edited in two steps: `Forest.enter`
follows the path to the last shared part on it, and the rest of the path is an edit of that
part alone.

A list at the end of the path is not changed but replaced by a longer one with the same items.
If the former list is shared, its items then stand in several places.

### Depth

An edit copies the mapping that it changes before it follows the path, and the new value at the
end of it.  Trees are copied up to a depth.
-/
import SchemaLoom.Text.Layout
import SchemaLoom.Tree

namespace SchemaLoom

/-- An edit of a tree; the path is a text of keys with number signs between them. -/
inductive TreePatch where
  /-- Sets the value at a path, or appends it to a list there. -/
  | replaceAt (path : String) (value : Tree)
  /-- Appends a value to the list at a path, creating the list if nothing is there. -/
  | appendAt (path : String) (value : Tree)
  deriving Repr

/-- Why a tree cannot be edited. -/
inductive TreeFault where
  /-- A value on the way is no mapping. -/
  | notAMapping (segment path : String)
  /-- The value at the path is no list. -/
  | notAList (path : String)
  /-- A list was to be extended, but no path was given. -/
  | emptyPath
  /-- A tree is too deep to be copied. -/
  | tooDeep
  deriving DecidableEq, Repr

/-- The wording of a fault. -/
def TreeFault.message : TreeFault → String
  | notAMapping segment path =>
    "Path segment '" ++ segment ++ "' of '" ++ path ++ "' is not a mapping"
  | notAList path => "Cannot append to non-list value at '" ++ path ++ "'"
  | emptyPath => "List append requires a non-empty path"
  | tooDeep => "The tree is nested too deeply"

/-- The character between the keys of a path. -/
def pathSeparator : Char := '#'

/-- The keys of a path. -/
def pathSegments (path : String) : List String := Text.splitAtChar pathSeparator path

namespace Tree

mutual

/-- Nothing in the tree stands in more than so many collections. -/
def isWithin : Nat → Tree → Bool
  | depth + 1, list items => areWithin depth items
  | depth + 1, map es => entriesWithin depth es
  | depth, set members => members.isEmpty || 0 < depth
  | 0, list items => items.isEmpty
  | 0, map es => es.isEmpty
  | _, leaf _ | _, shared _ => true

/-- All items are within a depth. -/
def areWithin (depth : Nat) : List Tree → Bool
  | [] => true
  | t :: ts => t.isWithin depth && areWithin depth ts

/-- The values of all entries are within a depth. -/
def entriesWithin (depth : Nat) : List (Scalar × Tree) → Bool
  | [] => true
  | e :: es => e.2.isWithin depth && entriesWithin depth es

end

/-- The greatest number of collections around anything that is copied. -/
def copyingDepth : Nat := 493

/-- A tree, if it can be copied. -/
def copied (t : Tree) : Except TreeFault Tree :=
  if t.isWithin copyingDepth then .ok t else .error .tooDeep

/-- The entries of a mapping; any other tree counts as the empty mapping. -/
def entries : Tree → List (Scalar × Tree)
  | map es => es
  | _ => []

/-- What an edit makes of the value that stood at the end of the path. -/
abbrev LeafEdit := Option Tree → Except TreeFault Tree

/-- Edits the value under a path of keys, of which the last is `key` and `keys` lead to it. -/
def editUnder (path : String) (edit : LeafEdit) (es : List (Scalar × Tree)) :
    List String → String → Except TreeFault (List (Scalar × Tree))
  | [], key => do
    return insert (.text key) (← edit (lookup (.text key) es)) es
  | segment :: keys, key => do
    match lookup (.text segment) es with
    | none | some null =>
      return insert (.text segment) (.map (← editUnder path edit [] keys key)) es
    | some (map inner) =>
      return insert (.text segment) (.map (← editUnder path edit inner keys key)) es
    | some _ => throw (.notAMapping segment path)

/-- Sets a value, extending a list. -/
def replaceEdit (value : Tree) : LeafEdit
  | some (list items) => do return list (items ++ [← value.copied])
  | _ => value.copied

/-- Extends a list, starting one where nothing is. -/
def appendEdit (path : String) (value : Tree) : LeafEdit
  | none | some null => do return list [← value.copied]
  | some (list items) => do return list (items ++ [← value.copied])
  | some _ => .error (.notAList path)

/-- Edits the value at a path given by its keys; without keys nothing is edited. -/
def editAt (path : String) (edit : LeafEdit) (segments : List String) (t : Tree) :
    Except TreeFault Tree :=
  match segments.getLast? with
  | none => .ok t
  | some key => (editUnder path edit t.entries segments.dropLast key).map map

/-- What a patch does at the end of its path. -/
def leafEdit : TreePatch → LeafEdit
  | .replaceAt _ value => replaceEdit value
  | .appendAt path value => appendEdit path value

end Tree

/-- The path of a patch. -/
def TreePatch.path : TreePatch → String
  | replaceAt path _ | appendAt path _ => path

namespace Forest

/-- A place that trees hang on: the root or a shared part. -/
abbrev Anchor := Option Nat

/-- The tree at a place. -/
def tree (f : Forest) : Anchor → Tree
  | none => f.root
  | some index => f.parts.getD index .null

/-- A forest with another tree at a place. -/
def setTree (f : Forest) (t : Tree) : Anchor → Forest
  | none => { f with root := t }
  | some index => { f with parts := f.parts.set index t }

/-- The last shared part on the way to the end of a path, and the keys behind it.  `at` is the place
from which the keys read so far lead to `entries`, and `behind` holds those keys. -/
def enter (f : Forest) (anchor : Anchor) (behind : List String) (entries : List (Scalar × Tree)) :
    List String → Anchor × List String
  | [] => (anchor, behind)
  | [key] => (anchor, behind ++ [key])
  | segment :: keys =>
    match Tree.lookup (.text segment) entries with
    | some (.shared index) =>
      match f.parts.getD index .null with
      | .map inner => enter f (some index) [] inner keys
      | _ => (anchor, behind ++ segment :: keys)
    | some (.map inner) => enter f anchor (behind ++ [segment]) inner keys
    | _ => (anchor, behind ++ segment :: keys)

/-- What the keys behind a place lead to. -/
def leaf? (f : Forest) (anchor : Anchor) (segments : List String) : Option Tree :=
  segments.foldl (fun t key => t.bind (·.get? key)) (some (f.tree anchor))

/-- A forest in which the collections among some trees are shared parts, and those trees. -/
def shareAll (f : Forest) (ts : List Tree) : Forest × List Tree :=
  ts.foldl
    (fun acc t =>
      match t with
      | .list _ | .map _ | .set _ =>
        ({ acc.1 with parts := acc.1.parts ++ [t] }, acc.2 ++ [.shared acc.1.parts.length])
      | .leaf _ | .shared _ => (acc.1, acc.2 ++ [t]))
    (f, [])

/-- A forest in which the items of a shared list are shared themselves. -/
def shareItems (f : Forest) (index : Nat) : Forest :=
  match f.parts.getD index .null with
  | .list items =>
    let (f, items) := f.shareAll items
    f.setTree (.list items) (some index)
  | _ => f

/-- A forest, if all its trees can be copied. -/
def copied (f : Forest) : Except TreeFault Forest := do
  (f.root :: f.parts).forM fun t => (fun _ => ()) <$> t.copied
  return f

/-- Edits a forest. -/
def patch (f : Forest) (p : TreePatch) : Except TreeFault Forest :=
  match p with
  | .replaceAt "" value => ofTree <$> value.copied
  | .appendAt "" _ => .error .emptyPath
  | p => do
    let segments := pathSegments p.path
    let f ← match f.resolve f.root with | .map _ => f.copied | _ => .ok (ofTree (.map []))
    let anchor := match f.root with | .shared index => some index | _ => none
    let (anchor, segments) := f.enter anchor [] (f.tree anchor).entries segments
    let f :=
      match f.leaf? anchor segments with | some (.shared index) => f.shareItems index | _ => f
    let edit : Tree.LeafEdit := fun old => Tree.leafEdit p (old.map f.resolve)
    (Tree.editAt p.path edit segments (f.tree anchor)).map fun t => f.setTree t anchor

end Forest

/-- Edits a tree without shared parts. -/
def Tree.patch (t : Tree) (p : TreePatch) : Except TreeFault Tree :=
  ((Forest.ofTree t).patch p).map (·.root)

end SchemaLoom
