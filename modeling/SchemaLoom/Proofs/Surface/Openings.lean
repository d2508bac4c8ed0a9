/-
By which annotations operations and types are opened to callers.

The rules of a table admit the callers of providers to actions.  A generated operation carries
the annotations of the providers that rules admit to its action, and nothing else (`OpensOnly`).
The type of the table is edited instead: whatever it carried, it has each annotation of its table
once (`OpensEach`), and the edits behind that neither add to these nor take any of them away.

A generated document can be known by its place, for names have no points in them.  So whatever is
generated at the place of an operation declares that operation with the same annotations
(`Generates.opens`).

`Offers` lists the operations of a table with their places, root types and actions, so that each
statement about operations is one statement and not one for each of them.
-/
import SchemaLoom.Proofs.Catalog.PublishedEdit
import SchemaLoom.Proofs.Catalog.ResolverPlace
import SchemaLoom.Proofs.Sdl.Marks
import SchemaLoom.Proofs.Surface.Entries
import SchemaLoom.Proofs.Surface.Generated

namespace SchemaLoom

open Sdl (Directive addDirectives dropDirective)
open Sdl.Reader (bare)

/-! ### Annotations of rules

What is generated carries the annotations of its rules and nothing else (`OpensOnly`).  A type of
the source may have other directives beside them (`OpensEach`).
-/

namespace Access

variable {rules : List Rule} {ds es : List Directive} {n : String}

/-- The directives `ds` are the annotations of the providers of `rules`, each once, and nothing
else. -/
def OpensOnly (rules : List Rule) (ds : List Directive) : Prop :=
  ds.Nodup ∧ ∀ d, d ∈ ds ↔ ∃ r ∈ rules, d = ⟨r.provider.directive, []⟩

/-- The annotation of every provider of `rules` is exactly once among `ds`. -/
def OpensEach (rules : List Rule) (ds : List Directive) : Prop :=
  ∀ r ∈ rules, (ds.filter fun d => d.name = r.provider.directive) = [⟨r.provider.directive, []⟩]

theorem mem_annotations : n ∈ annotations (Table.providersOf rules) ↔
    ∃ r ∈ rules, n = r.provider.directive := by
  simp [annotations, Table.providersOf, eq_comm]

/-- What opens an operation to the callers of some rules opens a type to those of more. -/
theorem OpensOnly.subset {more : List Rule} (h : OpensOnly rules ds) (hmore : OpensEach more es)
    (hrules : rules ⊆ more) : ds ⊆ es := by
  intro d hd
  obtain ⟨r, hr, rfl⟩ := (h.2 d).1 hd
  have honly := hmore r (hrules hr)
  exact (List.mem_filter.1 (honly ▸ List.mem_singleton_self _)).1

theorem filter_addDirectives (names : List String) (ds : List Directive) (n : String) :
    ((addDirectives names ds).filter fun d => d.name = n)
      = if n ∈ names then [⟨n, []⟩] else ds.filter fun d => d.name = n := by
  have hnew : (((Text.distinct names).map bare).filter fun d => d.name = n)
      = if n ∈ names then [bare n] else [] := by
    have hequal : (fun d : Directive => decide (d.name = n)) ∘ bare = (· == n) := by
      funext m
      by_cases hname : m = n <;> simp [bare, hname]
    rw [List.filter_map, hequal, List.filter_beq, (Text.nodup_distinct names).count]
    split <;> rename_i hmem
    · rw [if_pos (Text.mem_distinct.1 hmem)]
      rfl
    · rw [if_neg (fun h => hmem (Text.mem_distinct.2 h))]
      rfl
  have hold :
      ((ds.filter fun d => !(Text.distinct names).contains d.name).filter fun d => d.name = n)
      = if n ∈ names then [] else ds.filter fun d => d.name = n := by
    rw [List.filter_filter]
    split
    next hmem =>
      refine List.filter_eq_nil_iff.2 fun d _ => ?_
      simp only [Bool.and_eq_true, decide_eq_true_eq, not_and]
      rintro rfl
      simpa using hmem
    next hnot =>
      refine List.filter_congr fun d _ => ?_
      by_cases hname : d.name = n
      · simp [hname, hnot]
      · simp [hname]
  show ((ds.filter fun d => !(Text.distinct names).contains d.name)
    ++ (Text.distinct names).map bare).filter _ = _
  rw [List.filter_append, hold, hnew]
  split
  · rfl
  · exact List.append_nil _

theorem filter_dropDirective {name : String} (hother : n ≠ name) (ds : List Directive) :
    ((dropDirective name ds).filter fun d => d.name = n) = ds.filter fun d => d.name = n := by
  rw [dropDirective, List.filter_filter]
  refine List.filter_congr fun d _ => ?_
  by_cases hname : d.name = n
  · simp [hname, hother]
  · simp [hname]

/-- A type has the annotations that are added to it. -/
theorem opensEach_addDirectives (rules : List Rule) (ds : List Directive) :
    OpensEach rules (addDirectives (annotations (Table.providersOf rules)) ds) := by
  intro r hr
  rw [filter_addDirectives, if_pos (mem_annotations.2 ⟨r, hr, rfl⟩)]

end Access

namespace Surface

open Artifact Access

variable {c : Catalog} {t : Table} {ds : List Declaration} {ops : List Operation}
  {location root name : String} {action : Action}

/-- **The directives of an operation are the annotations of the rules about its action
(`Table.rulesFor`).** -/
theorem opensOnly_openedTo (t : Table) (action : Action) :
    OpensOnly (t.rulesFor action) ((openedTo t action).map bare) := by
  refine ⟨?_, fun d => ?_⟩
  · refine (Text.nodup_distinct _).map fun m n hsame => ?_
    exact congrArg Directive.name hsame
  · rw [List.mem_map]
    constructor
    · rintro ⟨n, hn, rfl⟩
      obtain ⟨r, hr, rfl⟩ := mem_annotations.1 hn
      exact ⟨r, hr, rfl⟩
    · rintro ⟨r, hr, rfl⟩
      exact ⟨_, mem_annotations.2 ⟨r, hr, rfl⟩, rfl⟩

/-! ### Operations -/

theorem schemaLocation_inj {stem other : String} :
    schemaLocation stem = schemaLocation other ↔ stem = other := by
  rw [schemaLocation, schemaLocation, String.append_left_inj, String.append_right_inj]

/-- The operations that are generated for a table, each with the place of its document, the type
that it extends and the action that its callers are admitted to. -/
inductive Offers (t : Table) : String → String → String → Action → Prop where
  | get : Offers t (schemaLocation t.name) "Query" (getName t) .read
  | list : Offers t (schemaLocation t.name) "Query" (listName t) .read
  | mutation {action : Action} (haction : action ∈ mutations) :
    Offers t (schemaLocation t.name) "Mutation" (mutationName t action) action
  | query {key : Key} (hkey : key ∈ t.queryKeys) :
    Offers t (schemaLocation (t.name ++ "." ++ queryName key)) "Query" (queryName key) .read

/-- Among `ops` there is an operation of the name `name`, and all of that name are opened to those
who may perform `action`. -/
def Opens (t : Table) (name : String) (action : Action) (ops : List Operation) : Prop :=
  (∃ o ∈ ops, o.name = name) ∧ ∀ o ∈ ops, o.name = name → o.directives = openedTo t action

theorem mutationName_inj {action other : Action}
    (h : mutationName t action = mutationName t other) :
    action = other := by
  have htext := String.append_left_inj _ |>.1 h
  cases action <;> cases other <;> first | rfl | exact absurd htext (by decide)

/-- The operations of a table extend both root types. -/
theorem exists_extensions (h : operationDeclarations c t = .ok ds) : ∃ get list : Operation,
    get.name = getName t ∧ list.name = listName t ∧ get.directives = openedTo t .read ∧
      list.directives = openedTo t .read ∧ ∀ root ops, .extension root ops ∈ ds ↔
        root = "Query" ∧ ops = [get, list] ∨ root = "Mutation" ∧
          ops = mutations.map (mutation t) := by
  obtain ⟨key, condition, filter, create, update, -, -, -, -, -, rfl⟩ := of_operationDeclarations h
  refine ⟨getOperation t key, listOperation t, rfl, rfl, rfl, rfl, fun root ops => ?_⟩
  simp only [List.mem_cons, List.not_mem_nil, or_false, reduceCtorEq, Declaration.extension.injEq]

/-- A query by key is the only operation of its document. -/
theorem exists_extension_of_query {key : Key} (h : queryDeclarations t key = .ok ds) :
    ∃ o : Operation, o.name = queryName key ∧ o.directives = openedTo t .read ∧
      ∀ root ops, .extension root ops ∈ ds ↔ root = "Query" ∧ ops = [o] := by
  obtain ⟨operation, inputs, rfl, hoperation, -⟩ := of_queryDeclarations h
  unfold queryOperation at hoperation
  obtain ⟨_, -, hoperation⟩ := Outcome.of_bind_eq_ok hoperation
  obtain ⟨_, -, hoperation⟩ := Outcome.of_bind_eq_ok hoperation
  have hname : operation.name = queryName key := by
    cases hoperation
    rfl
  have hdirectives : operation.directives = openedTo t .read := by
    cases hoperation
    rfl
  refine ⟨operation, hname, hdirectives, fun root ops => ?_⟩
  have hinput : .extension root ops ∉ inputs := fun hmem => by
    obtain ⟨_, _, hsame⟩ := exists_input_of_query h hmem
    cases hsame
  simp [hinput]

/-- What is shared extends no type. -/
theorem extension_not_mem_shared (h : sharedDeclarations c = .ok ds) :
    .extension root ops ∉ ds := by
  intro hmem
  obtain ⟨used, -, -, hdeclared⟩ := mem_sharedDeclarations h
  rcases (hdeclared _).1 hmem with
      ⟨name, -, -, hsame⟩ | hcommon | ⟨enum, -, hsame⟩ | ⟨type, -, hmirror⟩
  · cases hsame
  · have hkinds : ∀ d ∈ commonDeclarations, d.toDefinition.kind ≠ .objectExtension := by decide
    exact hkinds _ hcommon rfl
  · cases hsame
  · obtain ⟨_, -, -, hsame⟩ := of_mirror?_eq_some hmirror
    cases hsame

theorem opens_operations (h : operationDeclarations c t = .ok ds) (hmem : .extension root ops ∈ ds)
    (hoffers : Offers t (schemaLocation t.name) root name action)
    (hplain : '.' ∉ t.name.toList) : Opens t name action ops := by
  obtain ⟨get, list, hget, hlist, hfirst, hsecond, hdeclared⟩ := exists_extensions h
  generalize hplace : schemaLocation t.name = location at hoffers
  have hboth : ∀ o ∈ [get, list], o.directives = openedTo t .read := by
    simp [hfirst, hsecond]
  rcases (hdeclared root ops).1 hmem with ⟨hroot, rfl⟩ | ⟨hroot, rfl⟩
  · cases hoffers with
    | get => exact ⟨⟨get, by simp, hget⟩, fun o ho _ => hboth o ho⟩
    | list => exact ⟨⟨list, by simp, hlist⟩, fun o ho _ => hboth o ho⟩
    | mutation _ => exact absurd hroot (by decide)
    | query _ => exact absurd (schemaLocation_inj.1 hplace).symm (not_plain_stem hplain)
  · cases hoffers with
    | mutation haction =>
      refine ⟨⟨_, List.mem_map_of_mem haction, rfl⟩, fun o ho hname => ?_⟩
      obtain ⟨other, -, rfl⟩ := List.mem_map.1 ho
      rw [← mutationName_inj hname]
      rfl
    | _ => exact absurd hroot (by decide)

/-! ### Types -/

/-- The input types that the operations of a table declare. -/
def inputNames (t : Table) : List String :=
  [conditionName t.name, filterName t.name] ++ mutations.map (inputName t.name)

/-- Operations declare a connection, and inputs. -/
theorem of_isTarget_operations (h : operationDeclarations c t = .ok ds) {d : Declaration}
    (hd : d ∈ ds)
    (htarget : d.toDefinition.isTarget name = true) :
    name = connectionName t.name ∨ d.toDefinition.kind = .input ∧ name ∈ inputNames t := by
  obtain ⟨key, condition, filter, create, update, -, -, -, -, -, rfl⟩ := of_operationDeclarations h
  simp only [Sdl.Definition.isTarget, Bool.and_eq_true, decide_eq_true_eq] at htarget
  obtain ⟨heditable, hname⟩ := htarget
  simp only [List.mem_cons, List.not_mem_nil, or_false] at hd
  rcases hd with rfl | rfl | rfl | rfl | rfl | rfl | rfl | rfl
  case inl | inr.inl => cases heditable
  case inr.inr.inl => exact Or.inl (Option.some.inj hname).symm
  all_goals
    cases hname
    exact Or.inr ⟨rfl, by simp [inputNames, mutations, Sdl.Reader.plainInputType]⟩

end Surface

/-! ### Documents -/

namespace Catalog

open Surface Access

variable {c : Catalog} {t : Table} {ds : List Declaration} {ops : List Operation}
  {location root name : String} {action : Action}

/-- **No edit of the published schema adds to the annotations of a type, or takes any of them away
(`OpensEach`).** -/
theorem Publishes.opensEach {rules : List Access.Rule} {ds : List Directive} {e : Sdl.Edit}
    (he : c.Publishes e) (h : OpensEach rules ds) : OpensEach rules (e.change ds) := by
  intro r hr
  cases he with
  | access | computed =>
    rw [Sdl.Edit.change, filter_addDirectives, h r hr]
    exact ite_self _
  | strip _ _ _ hname =>
    rw [Sdl.Edit.change, filter_dropDirective, h r hr]
    rintro rfl
    exact not_internal_directive _ (mem_internalNames.1 hname).2
  | tenant | relation => exact h r hr
  | foreign =>
    unfold foreignInputEdit
    split <;> exact h r hr

/-- **Whatever is generated at the place of an operation declares it, opened to those who may
perform its action** (`Offers`, `Opens`). -/
theorem Generates.opens (h : c.Generates location ds) (hnodup : c.tableNames.Nodup)
    (htables : c.IsNamed) (ht : t ∈ c.tables) (hoffers : Offers t location root name action)
    (hmem : .extension root ops ∈ ds) : Opens t name action ops := by
  have hplain : ∀ s ∈ c.tables, '.' ∉ s.name.toList := fun s hs =>
    Sdl.not_mem_of_isName (by decide) (htables s hs).name
  have hsame : ∀ s ∈ c.tables, s.name = t.name → s = t := fun s hs hname =>
    List.inj_on_of_nodup_map hnodup hs ht hname
  cases h with
  | @operations s _ hs hdeclarations =>
    have hname : s.name = t.name := by
      generalize hplace : schemaLocation s.name = location at hoffers
      cases hoffers with
      | query hkey => exact absurd (schemaLocation_inj.1 hplace).symm (not_plain_stem (hplain s hs))
      | _ => exact schemaLocation_inj.1 hplace
    obtain rfl := hsame s hs hname
    exact opens_operations hdeclarations hmem hoffers (hplain _ hs)
  | @query s key _ hs hkey hdeclarations =>
    generalize hplace : schemaLocation (s.name ++ "." ++ queryName key) = location at hoffers
    obtain ⟨o, hoperation, hdirectives, hdeclared⟩ := exists_extension_of_query hdeclarations
    obtain ⟨-, rfl⟩ := (hdeclared root ops).1 hmem
    cases hoffers with
    | query hother =>
      obtain ⟨hname, hquery⟩ :=
        eq_of_point (hplain s hs) (hplain t ht) (schemaLocation_inj.1 hplace)
      obtain rfl := hsame s hs hname
      refine ⟨⟨o, List.mem_singleton_self o, hoperation.trans hquery⟩, fun other hmem _ => ?_⟩
      rw [List.mem_singleton.1 hmem, hdirectives]
    | _ => exact absurd (schemaLocation_inj.1 hplace) (not_plain_stem (hplain t ht))
  | shared _ hdeclarations => exact absurd hmem (extension_not_mem_shared hdeclarations)

/-- The document of an operation is generated. -/
theorem exists_generates_of_offers {fs : List Artifact.Fragment} (h : c.emit.outcome = .ok fs)
    (ht : t ∈ c.tables) (hoffers : Offers t location root name action) :
    ∃ ds ops, c.Generates location ds ∧ .extension root ops ∈ ds := by
  obtain ⟨ds, hdeclarations, -⟩ := exists_operations_of_emit h ht
  obtain ⟨get, list, -, -, -, -, hdeclared⟩ := exists_extensions hdeclarations
  have hgenerates := Generates.operations ht hdeclarations
  cases hoffers with
  | get => exact ⟨ds, _, hgenerates, (hdeclared _ _).2 (Or.inl ⟨rfl, rfl⟩)⟩
  | list => exact ⟨ds, _, hgenerates, (hdeclared _ _).2 (Or.inl ⟨rfl, rfl⟩)⟩
  | mutation _ => exact ⟨ds, _, hgenerates, (hdeclared _ _).2 (Or.inr ⟨rfl, rfl⟩)⟩
  | query hkey =>
    obtain ⟨queries, hquery, -⟩ := exists_query_of_emit h ht hkey
    obtain ⟨o, -, -, honly⟩ := exists_extension_of_query hquery
    exact ⟨queries, _, .query ht hkey hquery, (honly _ _).2 ⟨rfl, rfl⟩⟩

end Catalog

end SchemaLoom
