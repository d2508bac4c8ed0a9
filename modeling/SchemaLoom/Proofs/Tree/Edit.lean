/-
Edits at the end of a way through mappings.

Where the keys of a path lead from mapping to mapping, an edit changes the value of the last key
in the last of them, and nothing else.  `Enters` is the way, by recursion on the keys, and
`within` puts other entries at its end.

A patch works on a forest, in which parts may be shared between places.  A tree that is written
out shares nothing, so its forest is followed from the root (`enter_ofTree`) and the patch is an
edit of the tree (`patch_ofTree`).  A tree that is too deep to be copied is not edited at all.
-/
import SchemaLoom.Outcome
import SchemaLoom.Tree.Patch

namespace SchemaLoom

@[simp] theorem Scalar.sameKey_text (a b : String) :
    (Scalar.text a).sameKey (.text b) = decide (a = b) := by
  by_cases hsame : a = b
  · simp [Scalar.sameKey, Scalar.quantity?, hsame]
  · simp [Scalar.sameKey, Scalar.quantity?, hsame]

namespace Tree

@[simp] theorem get?_record_self (key : String) (value : Tree) (rest : List (String × Tree)) :
    (record ((key, value) :: rest)).get? key = some value := by
  simp [record, get?, lookup]

theorem get?_record_of_ne {key other : String} (h : other ≠ key) (value : Tree)
    (rest : List (String × Tree)) :
    (record ((other, value) :: rest)).get? key = (record rest).get? key := by
  simp [record, get?, lookup, h]

/-! ### Depth -/

@[simp] theorem isWithin_leaf (depth : Nat) (value : Scalar) :
    (leaf value).isWithin depth = true := by
  cases depth <;> rfl

@[simp] theorem isWithin_list {depth : Nat} {ts : List Tree} :
    (list ts).isWithin (depth + 1) = true ↔ ∀ t ∈ ts, t.isWithin depth = true := by
  show areWithin depth ts = true ↔ _
  induction ts with
  | nil => simp [areWithin]
  | cons t ts ih => simp [areWithin, ih]

@[simp] theorem isWithin_record {depth : Nat} {es : List (String × Tree)} :
    (record es).isWithin (depth + 1) = true ↔ ∀ e ∈ es, e.2.isWithin depth = true := by
  show entriesWithin depth (es.map fun e => (.text e.1, e.2)) = true ↔ _
  induction es with
  | nil => simp [entriesWithin]
  | cons e es ih => simp [entriesWithin, ih]

/-! ### Following keys

`Enters` says that keys lead through mappings that are there, and `within` puts other entries at
the end of their way.
-/

variable {es last : List (Scalar × Tree)} {keys : List String}

/-- The keys lead through mappings from some entries to others. -/
inductive Enters : List (Scalar × Tree) → List String → List (Scalar × Tree) → Prop
  | here (es : List (Scalar × Tree)) : Enters es [] es
  | deeper {es inner last : List (Scalar × Tree)} {segment : String} {keys : List String}
      (hfound : lookup (.text segment) es = some (.map inner)) (hrest : Enters inner keys last) :
      Enters es (segment :: keys) last

/-- Entries with others at the end of the way that keys lead. -/
def within (new : List (Scalar × Tree)) : List String → List (Scalar × Tree) → List (Scalar × Tree)
  | [], _ => new
  | segment :: keys, es =>
    insert (.text segment)
      (.map (within new keys ((lookup (.text segment) es).getD .null).entries)) es

/-- An edit changes the value at the end of the way. -/
theorem editUnder_of_enters (h : Enters es keys last) (path : String) (edit : LeafEdit)
    (key : String) :
    editUnder path edit es keys key
      = (edit (lookup (.text key) last)).map fun v =>
          within (insert (.text key) v last) keys es := by
  induction h with
  | here es =>
    rw [editUnder]
    cases edit (lookup (.text key) es) <;> rfl
  | @deeper es inner last segment keys hfound _ ih =>
    rw [editUnder, hfound]
    dsimp only
    rw [ih]
    cases edit (lookup (.text key) last) with
    | error fault => rfl
    | ok v => simp [within, hfound, entries, Except.map]

end Tree

/-- What a patch does at the end of its path. -/
def TreePatch.atEnd (p : TreePatch) : Tree.LeafEdit := fun old =>
  Tree.leafEdit p (old.map (Forest.ofTree .null).resolve)

namespace Forest

open SchemaLoom.Tree

variable {es last : List (Scalar × Tree)} {keys : List String}

/-- Without shared parts a path is followed from the root. -/
theorem enter_ofTree (t : Tree) (anchor : Anchor) (behind : List String)
    (es : List (Scalar × Tree)) (segments : List String) :
    (ofTree t).enter anchor behind es segments = (anchor, behind ++ segments) := by
  fun_induction enter (ofTree t) anchor behind es segments <;> simp_all [ofTree]

/-- The edit of a forest at a place below one of its trees. -/
def editBelow (f : Forest) (p : TreePatch) (anchor : Anchor) (segments : List String) :
    Except TreeFault Forest :=
  let f := match f.leaf? anchor segments with | some (.shared index) => f.shareItems index | _ => f
  (editAt p.path (fun old => leafEdit p (old.map f.resolve)) segments (f.tree anchor)).map
    fun t => f.setTree t anchor

theorem editBelow_ofTree (t : Tree) (p : TreePatch) (segments : List String) :
    (ofTree t).editBelow p none segments = (editAt p.path p.atEnd segments t).map ofTree := by
  unfold editBelow
  split <;> rfl

/-- A patch with a path copies the forest and edits it below the tree that the path comes to. -/
theorem patch_eq {p : TreePatch} (hpath : p.path ≠ "") (f : Forest) :
    f.patch p = (do
      let f ← match f.resolve f.root with | .map _ => f.copied | _ => .ok (ofTree (.map []))
      let anchor := match f.root with | .shared index => some index | _ => none
      let (anchor, segments) := f.enter anchor [] (f.tree anchor).entries (pathSegments p.path)
      f.editBelow p anchor segments) := by
  cases p with
  | replaceAt path value =>
    rw [patch]
    · rfl
    · rintro other ⟨rfl⟩
      exact hpath rfl
    · intro _ hsame
      cases hsame
  | appendAt path value =>
    rw [patch]
    · rfl
    · intro _ hsame
      cases hsame
    · rintro other ⟨rfl⟩
      exact hpath rfl

/-- A tree that can be copied is edited under the keys of the path. -/
theorem patch_ofTree {p : TreePatch} {key : String} (hpath : p.path ≠ "")
    (hsegments : pathSegments p.path = keys ++ [key])
    (hdepth : (Tree.map es).isWithin copyingDepth = true) :
    (ofTree (.map es)).patch p
      = (editUnder p.path p.atEnd es keys key).map fun fs => ofTree (.map fs) := by
  have hcopied : (ofTree (.map es)).copied = .ok (ofTree (.map es)) := by
    simp [copied, ofTree, Tree.copied, hdepth]
  rw [patch_eq hpath]
  show ((ofTree (.map es)).copied >>= _) = _
  rw [hcopied]
  show (ofTree (.map es)).editBelow p ((ofTree (.map es)).enter none [] es (pathSegments p.path)).1
    ((ofTree (.map es)).enter none [] es (pathSegments p.path)).2 = _
  rw [enter_ofTree, editBelow_ofTree, List.nil_append, hsegments, editAt, List.getLast?_concat,
    List.dropLast_concat]
  show ((editUnder p.path p.atEnd es keys key).map Tree.map).map ofTree = _
  cases editUnder p.path p.atEnd es keys key <;> rfl

/-- Other trees are not edited. -/
theorem patch_of_deep {p : TreePatch} (hpath : p.path ≠ "")
    (hdepth : ¬ (Tree.map es).isWithin copyingDepth = true) :
    (ofTree (.map es)).patch p = .error .tooDeep := by
  have hcopied : (ofTree (.map es)).copied = .error .tooDeep := by
    simp [copied, ofTree, Tree.copied, hdepth]
  rw [patch_eq hpath]
  show ((ofTree (.map es)).copied >>= _) = _
  rw [hcopied]
  rfl

/-- **A patch whose path leads through mappings edits the value of the last key** (`leafEdit`). -/
theorem patch_of_enters (h : Enters es keys last) {p : TreePatch} {key : String}
    (hpath : p.path ≠ "") (hsegments : pathSegments p.path = keys ++ [key])
    (hleaf : ∀ index, lookup (.text key) last ≠ some (.shared index))
    (hdepth : (Tree.map es).isWithin copyingDepth = true) :
    (ofTree (.map es)).patch p
      = (leafEdit p (lookup (.text key) last)).map fun v =>
          ofTree (.map (within (insert (.text key) v last) keys es)) := by
  have hplain : (lookup (.text key) last).map (ofTree .null).resolve = lookup (.text key) last := by
    cases hvalue : lookup (.text key) last with
    | none => rfl
    | some v =>
      cases v with
      | shared index => exact absurd hvalue (hleaf index)
      | leaf _ | list _ | map _ | set _ => rfl
  rw [patch_ofTree hpath hsegments hdepth, editUnder_of_enters h, TreePatch.atEnd, hplain]
  cases leafEdit p (lookup (.text key) last) <;> rfl

end Forest

end SchemaLoom
