/-
Documents that agree within the scope of a run.

Directives out of scope have no say: two documents that differ in nothing else compile to the
same tables and the same fragments, or are at fault in the same way (`SameRun`).  The one
fragment that may differ is the one that the published schema starts from, which is the document
itself (`SameButSeed`).

What is emitted besides that fragment is looked at part by part, and each part is the same over
both documents (`unseeded_upon`).  Whether the published schema is edited is the same then, too,
so the document is put in front of both lists of fragments or of none.

Faults and notices are part of what is compared.  A directive out of scope that would be at
fault, had it been looked at, is no reason for a fault.
-/
import SchemaLoom.Proofs.Surface.Scope
import SchemaLoom.Compile

namespace SchemaLoom

open Artifact Surface
open Sdl (Document Scope)

namespace Catalog

variable {c : Catalog} {doc : Document}

/-! ### Fragments -/

/-- The fragments of a catalog besides the one that the published schema starts from. -/
def unseeded (c : Catalog) : Report Fault (List Fragment) := do
  let tables ← c.tables.mapM c.tableFragments
  let shared ← sharedFragments c
  return tables.flatten ++ c.bindings.flatMap (bindingFragments c) ++ shared ++ stripFragments c

/-- Fragments together with the start of the published schema, if any of them edits it. -/
def seeded (c : Catalog) (fs : List Fragment) : List Fragment :=
  if fs.any fun f => f.location = c.publishedLocation then c.seed :: fs else fs

theorem emit_eq (c : Catalog) : c.emit = c.seeded <$> c.unseeded := by
  unfold emit unseeded seeded
  simp only [map_bind, map_pure]

theorem tableFragments_upon (h : c.document.AgreesIn c.scope doc) (t : Table) :
    (c.upon doc).tableFragments t = c.tableFragments t := by
  have hpart : (c.upon doc).partFragments t = c.partFragments t := by
    funext part
    cases part with
    | operations => exact operationFragments_upon h t
    | _ => rfl
  unfold tableFragments
  rw [hpart]

/-- **What is emitted besides the document itself is the same.** -/
theorem unseeded_upon (h : c.document.AgreesIn c.scope doc) :
    (c.upon doc).unseeded = c.unseeded := by
  have htables : (c.upon doc).tables = c.tables := rfl
  have hfragments : (c.upon doc).tableFragments = c.tableFragments :=
    funext (tableFragments_upon h)
  have hbindings : (c.upon doc).bindings.flatMap (bindingFragments (c.upon doc))
      = c.bindings.flatMap (bindingFragments c) := by
    refine congrArg (List.flatMap · c.bindings) (funext fun b => ?_)
    cases b <;> rfl
  unfold unseeded
  rw [htables, hfragments, sharedFragments_upon h, hbindings, stripFragments_upon h]

end Catalog

/-! ### Runs

Two runs on documents that agree within the scope are the same but for the seed, which shows the
document as it was written (`SameRun`).
-/

/-- The fragments are the same, but for the document that the published schema starts from. -/
inductive SameButSeed (location : String) (doc doc' : Document) :
    List Fragment → List Fragment → Prop where
  | same (fs : List Fragment) : SameButSeed location doc doc' fs fs
  | seed (fs : List Fragment) : SameButSeed location doc doc'
      (.ofText location doc.render :: fs) (.ofText location doc'.render :: fs)

theorem SameButSeed.length_eq {location : String} {doc doc' : Document} {fs fs' : List Fragment}
    (h : SameButSeed location doc doc' fs fs') : fs.length = fs'.length := by
  cases h <;> rfl

/-- The compilations come to the same fault, or to the same catalog and fragments, but for the
documents themselves. -/
inductive SameRun (location : String) (doc doc' : Document) :
    Except Fault Compilation → Except Fault Compilation → Prop where
  | fault (fault : Fault) : SameRun location doc doc' (.error fault) (.error fault)
  | value {k k' : Compilation} (htables : k.catalog.tables = k'.catalog.tables)
    (hbindings : k.catalog.bindings = k'.catalog.bindings)
    (hrules : k.catalog.fieldRules = k'.catalog.fieldRules)
    (hfragments : SameButSeed location doc doc' k.fragments k'.fragments) :
    SameRun location doc doc' (.ok k) (.ok k')

variable {scope : Scope} {doc doc' : Document}

/-- The start of the published schema is added to both lists of fragments or to none. -/
theorem Catalog.seeded_upon (c : Catalog) (doc : Document) (fs : List Fragment) :
    SameButSeed c.publishedLocation c.document doc (c.seeded fs) ((c.upon doc).seeded fs) := by
  have hlocation : (c.upon doc).publishedLocation = c.publishedLocation := rfl
  unfold seeded
  rw [hlocation]
  split
  · exact .seed fs
  · exact .same fs

/-- What is left to do for a catalog that was gathered. -/
def Catalog.finish (schemaName : String) (c : Catalog) : Report Fault Compilation := do
  let fragments ← c.emit
  Report.tell (.compiled schemaName c.tables.length fragments.length)
  return ⟨c, fragments⟩

/-- What is left to do comes to the same over both documents. -/
theorem Catalog.finish_upon {c : Catalog} (h : c.document.AgreesIn c.scope doc')
    (schemaName : String) :
    (c.finish schemaName).notices = ((c.upon doc').finish schemaName).notices ∧
      SameRun c.publishedLocation c.document doc' (c.finish schemaName).outcome
        ((c.upon doc').finish schemaName).outcome := by
  have htables : (c.upon doc').tables = c.tables := rfl
  unfold finish
  rw [emit_eq, emit_eq, unseeded_upon h, htables, bind_map_left, bind_map_left]
  rcases c.unseeded with ⟨fault | fs, notices⟩
  · exact ⟨rfl, .fault fault⟩
  · have hseeded := c.seeded_upon doc' fs
    refine ⟨congrArg (notices ++ ·) ?_, .value rfl rfl rfl hseeded⟩
    dsimp only
    rw [hseeded.length_eq]
    rfl

/-- **Directives out of scope have no say in a compilation**: documents that agree within the scope
have the same run (`SameRun`). -/
theorem compileDocument_agrees (h : doc.AgreesIn scope doc') (schemaName : String) :
    (compileDocument schemaName scope doc).notices
        = (compileDocument schemaName scope doc').notices ∧
      SameRun ("schema/" ++ schemaName) doc doc' (compileDocument schemaName scope doc).outcome
        (compileDocument schemaName scope doc').outcome := by
  have hparts : ∀ document, compileDocument schemaName scope document
      = Catalog.gather { document, schemaName, scope } >>= Catalog.finish schemaName :=
    fun _ => rfl
  rw [hparts, hparts, Catalog.gather_upon h]
  rcases hgather : Catalog.gather { document := doc, schemaName, scope } with ⟨fault | c, notices⟩
  · exact ⟨rfl, .fault fault⟩
  · obtain ⟨-, hdocument, hscope, hname⟩ :=
      Catalog.rooted_of_gather (congrArg Report.outcome hgather)
    subst hdocument hscope hname
    rw [Report.map_ok]
    obtain ⟨hnotices, houtcome⟩ := Catalog.finish_upon h c.schemaName
    exact ⟨congrArg (notices ++ ·) hnotices, houtcome⟩

/-- A field that holds a key. -/
def idField (marks : List Sdl.Directive) : Sdl.Field where
  description := none
  name := "id"
  arguments := []
  type := .nonNull (.named "ID")
  directives := marks

/-- An object type of a name with a key. -/
def keyedType (name : String) (marks fieldMarks : List Sdl.Directive) : Sdl.ObjectType where
  description := none
  name
  interfaces := []
  directives := marks
  fields := [idField fieldMarks]

/-- A document of posts, which are a table, and of authors. -/
def posts (marks : List Sdl.Directive) : Document where
  definitions := [.object (keyedType "Post" [⟨"model", []⟩] []),
    .object (keyedType "Author" marks marks)]

/-- Directives on authors that would be at fault do nothing in a run that is restricted to posts. -/
theorem posts_agree : ∃ marks,
    (posts []).AgreesIn (some ["Post"]) (posts marks) ∧
      ¬ Outcome.Holds (compileDocument "schema.graphql" none (posts marks)).outcome
        (fun _ => True) ∧
      Outcome.Holds (compileDocument "schema.graphql" (some ["Post"]) (posts [])).outcome
        (fun k => k.catalog.tableNames = ["Post"]) ∧
      SameRun "schema/schema.graphql" (posts []) (posts marks)
        (compileDocument "schema.graphql" (some ["Post"]) (posts [])).outcome
        (compileDocument "schema.graphql" (some ["Post"]) (posts marks)).outcome := by
  have hagrees : (posts []).AgreesIn (some ["Post"]) (posts [⟨"model", []⟩, ⟨"key", []⟩]) :=
    .cons (.same _) (.cons (.outside (d := .object _) (e := .object _) rfl rfl rfl) .nil)
  exact ⟨_, hagrees, by decide +kernel, by decide +kernel,
    (compileDocument_agrees hagrees "schema.graphql").2⟩

end SchemaLoom
