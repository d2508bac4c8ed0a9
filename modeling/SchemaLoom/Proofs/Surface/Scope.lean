/-
What generated declarations read of a document.

Generated inputs ask for the categories of types, and the search for the types in use asks for
the fields of object types.  Neither looks at directives, and only directives in scope are
stripped.  So over a document that agrees within the scope the same is declared and stripped.

Documents that agree have the same outline: types of the same kinds and names, and fields of the
same names and types.  The lemmas `…_upon` go through the builders, from the category of a type
(`category_upon`) to the documents of tables and of what they share, and each says that the
builder returns the same over both documents, faults included.
-/
import SchemaLoom.Proofs.Catalog.Scope
import SchemaLoom.Proofs.Surface.Generated
import SchemaLoom.Surface.Published
import SchemaLoom.Surface.RelationField
import SchemaLoom.Surface.Shared

namespace SchemaLoom.Surface

open Artifact
open Sdl (Document)

variable {c : Catalog} {doc : Document}

/-! ### Categories -/

theorem declares_upon (h : c.document.AgreesIn c.scope doc) (kinds : List Sdl.DefinitionKind)
    (name : String) : (c.upon doc).declares kinds name = c.declares kinds name := by
  have hdocument : (c.upon doc).document = doc := rfl
  unfold Catalog.declares
  rw [hdocument, h.namesOf_eq]

/-- Types have the same categories. -/
theorem category_upon (h : c.document.AgreesIn c.scope doc) (name : String) :
    (c.upon doc).category name = c.category name := by
  have htable : (c.upon doc).table? name = c.table? name := rfl
  unfold Catalog.category
  rw [htable, declares_upon h, declares_upon h, declares_upon h]

theorem inputShape?_upon (h : c.document.AgreesIn c.scope doc) (action : Access.Action)
    (shape : Sdl.Shape) : inputShape? (c.upon doc) action shape = inputShape? c action shape := by
  unfold inputShape?
  rw [category_upon h]

theorem filterInput?_upon (h : c.document.AgreesIn c.scope doc) (name : String) :
    (c.upon doc).filterInput? name = c.filterInput? name := by
  unfold Catalog.filterInput?
  rw [category_upon h]

/-! ### Operations -/

theorem filterFields_upon (h : c.document.AgreesIn c.scope doc) (t : Table) (name : String) :
    filterFields (c.upon doc) t name = filterFields c t name := by
  have hentry : filterEntry (c.upon doc) t = filterEntry c t := by
    funext f
    simp only [filterEntry, filterInput?_upon h]
  unfold filterFields
  rw [hentry]

theorem createFields_upon (h : c.document.AgreesIn c.scope doc) (t : Table) :
    createFields (c.upon doc) t = createFields c t := by
  have hentry : createEntry (c.upon doc) t = createEntry c t := by
    funext isGenerated f
    simp only [createEntry, inputShape?_upon h]
  unfold createFields
  rw [hentry]

theorem updateFields_upon (h : c.document.AgreesIn c.scope doc) (t : Table) :
    updateFields (c.upon doc) t = updateFields c t := by
  have hentry : updateEntry (c.upon doc) t = updateEntry c t := by
    funext f
    simp only [updateEntry, inputShape?_upon h]
  unfold updateFields
  rw [hentry]

/-- The operations of a table are the same. -/
theorem operationFragments_upon (h : c.document.AgreesIn c.scope doc) (t : Table) :
    operationFragments (c.upon doc) t = operationFragments c t := by
  have hdeclarations : operationDeclarations (c.upon doc) t = operationDeclarations c t := by
    simp only [operationDeclarations, filterFields_upon h, createFields_upon h, updateFields_upon h]
  have hedits : typeEdits (c.upon doc) t = typeEdits c t := rfl
  unfold operationFragments operationSchema
  rw [hdeclarations, hedits]

/-! ### Types in use -/

/-- What the fields of an object type add to a search. -/
def listed? (c : Catalog) (name : String) : Option (Except Fault (List String)) :=
  (c.objectType? name).map fun o => baseTypes o.fields

/-- An object type is looked up alike, as far as its outline goes. -/
theorem map_objectType?_upon {α : Type} {f : Sdl.ObjectType → α}
    {g : String × List (String × Sdl.TypeRef) → α} (houtline : ∀ o, f o = g o.outline)
    (h : c.document.AgreesIn c.scope doc) (name : String) :
    ((c.upon doc).objectType? name).map f = (c.objectType? name).map f := by
  have hfind : ∀ os : List Sdl.ObjectType, (os.find? fun o => o.name = name).map f
      = ((os.map Sdl.ObjectType.outline).find? fun o => o.1 = name).map g := by
    intro os
    rw [List.find?_map, Option.map_map, funext houtline]
    rfl
  have hdocument : (c.upon doc).document = doc := rfl
  unfold Catalog.objectType?
  rw [hfind, hfind, hdocument, h.outlines_eq]

theorem listed?_upon (h : c.document.AgreesIn c.scope doc) (name : String) :
    listed? (c.upon doc) name = listed? c name := by
  refine map_objectType?_upon (g := fun o => o.2.mapM fun f => do
    return (← shapeOf f.2).base) (fun o => ?_) h name
  rw [Sdl.ObjectType.outline, List.mapM_map]
  rfl

/-- How a search goes on from the first type that it waits for. -/
theorem visit_cons (c : Catalog) (name : String) (rest : List String) (met : TypesInUse) :
    visit c (name :: rest) met =
      match c.category name with
      | .enum => visit c rest { met with enums := addNew name met.enums }
      | .object =>
        if name ∈ met.objects then visit c rest met
        else (listed? c name).elim (visit c rest met) fun types => do
          visit c (rest ++ (← types)) { met with objects := met.objects ++ [name] }
      | _ => visit c rest met := by
  rw [visit]
  cases hcategory : c.category name with
  | object =>
    dsimp only
    split
    · rfl
    · unfold listed?
      split
      next hnone =>
        rw [hnone]
        rfl
      next o hfound =>
        rw [hfound, Option.map_some, Option.elim_some]
        split
        next fault hfault => rw [hfault]; rfl
        next more hmore => rw [hmore]; rfl
  | _ => rfl

/-- The search meets the same types. -/
theorem visit_upon (h : c.document.AgreesIn c.scope doc) (pending : List String)
    (met : TypesInUse) : visit (c.upon doc) pending met = visit c pending met := by
  fun_induction visit c pending met with
  | case1 met => rw [visit]
  | case2 met name rest henum ih => rw [visit_cons, category_upon h, henum, ih]
  | case3 met name rest hobject hmet ih =>
    rw [visit_cons, category_upon h, hobject]
    exact (if_pos hmet).trans ih
  | case4 met name rest hobject hnew hnone ih =>
    have hlisted : listed? c name = none := by rw [listed?, hnone, Option.map_none]
    rw [visit_cons, category_upon h, listed?_upon h, hobject, hlisted]
    exact (if_neg hnew).trans ih
  | case5 met name rest hobject hnew o hfound fault hfault =>
    have hlisted : listed? c name = some (.error fault) := by
      rw [listed?, hfound, Option.map_some, hfault]
    rw [visit_cons, category_upon h, listed?_upon h, hobject, hlisted]
    exact if_neg hnew
  | case6 met name rest hobject hnew o hfound more hmore ih =>
    have hlisted : listed? c name = some (.ok more) := by
      rw [listed?, hfound, Option.map_some, hmore]
    rw [visit_cons, category_upon h, listed?_upon h, hobject, hlisted]
    exact (if_neg hnew).trans ih
  | case7 met name rest hnotenum hnotobject ih =>
    rw [visit_cons, category_upon h]
    split
    next henum => exact (hnotenum henum).elim
    next hobject => exact (hnotobject hobject).elim
    next => exact ih

/-! ### Shared declarations -/

/-- The input that mirrors an object type is the same. -/
theorem mirrorFields_upon (h : c.document.AgreesIn c.scope doc) (name : String) :
    mirrorFields (c.upon doc) name = mirrorFields c name := by
  have hentry : mirrorEntry (c.upon doc) = mirrorEntry c := by
    funext f
    simp only [mirrorEntry, category_upon h]
  have hentries : ∀ o? : Option Sdl.ObjectType, (o?.elim [] (·.fields)).mapM (mirrorEntry c)
      = (o?.map fun o => o.fields.mapM (mirrorEntry c)).elim (pure []) id := by
    rintro (_ | o) <;> rfl
  -- An entry is made of the name and the type of a field.
  have hsame := map_objectType?_upon (f := fun o => o.fields.mapM (mirrorEntry c))
    (g := fun o => o.2.mapM fun f => mirrorEntry c ⟨none, f.1, [], f.2, []⟩)
    (fun o => by rw [Sdl.ObjectType.outline, List.mapM_map]; rfl) h name
  unfold mirrorFields
  rw [hentry, hentries, hentries, hsame]

/-- The shared declarations are the same. -/
theorem sharedFragments_upon (h : c.document.AgreesIn c.scope doc) :
    sharedFragments (c.upon doc) = sharedFragments c := by
  have htables : (c.upon doc).tables = c.tables := rfl
  have hused : typesInUse (c.upon doc) = typesInUse c := by
    unfold typesInUse
    simp only [htables, visit_upon h]
  have hmirror : mirror? (c.upon doc) = mirror? c := by
    funext name
    unfold mirror?
    rw [mirrorFields_upon h]
  have hdeclarations : sharedDeclarations (c.upon doc) = sharedDeclarations c := by
    simp only [sharedDeclarations, declares_upon h, hused, hmirror]
  unfold sharedFragments sharedSchema
  rw [htables, hdeclarations]

/-! ### What is stripped -/

/-- The same is stripped. -/
theorem stripFragments_upon (h : c.document.AgreesIn c.scope doc) :
    stripFragments (c.upon doc) = stripFragments c := by
  have hdocument : (c.upon doc).document.sites.filter (·.inScope (c.upon doc).scope)
      = c.document.sites.filter (·.inScope c.scope) := h.sites_eq.symm
  have hlocation : (c.upon doc).publishedLocation = c.publishedLocation := rfl
  unfold stripFragments stripEdits
  rw [hdocument, hlocation]

end SchemaLoom.Surface
