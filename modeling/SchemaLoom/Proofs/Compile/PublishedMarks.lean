/-
What the published schema keeps of descriptions and directives.

Edits of the published schema strip internal directives and open types and fields to the callers
of providers, both of which leave all other marks alone (`Publishes.keptIn_after`).  Only two
edits put a field in the place of another: a relation of an input type gives way to its key, and
a relation to many to a field that lists items (`lists_or_foreign_of_displaces`).  The listing
field is made from its name and its type.  So of what the relation carried, it has again what the
compiler itself adds to it, and nothing else (`exists_marks_of_lists`).

Marks are followed through the edits by address.  At an address that is not displaced, what an
edit does to the marks is a change of directives; at one that is, the edits of tables come first
and leave no marks, and the edits of bindings add the annotations that open the field
(`foldl_laterEdits`).

An annotation may take the place of a directive of its name that was there, and that counts as
being kept (`StaysIn`).
-/
import SchemaLoom.Proofs.Catalog.Stripping
import SchemaLoom.Proofs.Compile.Ending
import SchemaLoom.Proofs.Compile.PublishedFile
import SchemaLoom.Proofs.Sdl.Marks
import SchemaLoom.Proofs.Sdl.Restoring.Document

namespace SchemaLoom

open Artifact Sdl Surface Workspace

/-! ### Marks that are kept

A description is to be the same.  A directive that is not internal is to be there, or an
annotation of its name that opens the declaration.
-/

/-- The directive `d` is among `ds`, or gave way to the annotation of its name that opens a
declaration to the callers of a provider. -/
def Sdl.Directive.StaysIn (d : Directive) (ds : List Directive) : Prop :=
  d ∈ ds ∨ ∃ p : Access.Provider, d.name = p.directive ∧ ⟨p.directive, []⟩ ∈ ds

/-- The description is the same, and all directives but the internal ones stay. -/
def Sdl.Marks.KeptIn (source published : Marks) : Prop :=
  published.description = source.description ∧
    ∀ d ∈ source.directives, d.name ∉ internalDirectives → d.StaysIn published.directives

/-- The type or field at `site` has its marks in `published`, too. -/
def Sdl.Site.IsKept (site : Site) (published : Document) : Prop :=
  ∃ s ∈ published.sites, s.address = site.address ∧ site.marks.KeptIn s.marks

theorem Sdl.Marks.keptIn_refl (m : Marks) : m.KeptIn m := ⟨rfl, fun _ hd _ => Or.inl hd⟩

/-- Annotations are put in the place of directives of their names only. -/
theorem Sdl.Directive.StaysIn.addDirectives {d : Directive} {ds : List Directive}
    {names : List String} (h : d.StaysIn ds)
    (hnames : ∀ n ∈ names, ∃ p : Access.Provider, n = p.directive) :
    d.StaysIn (Sdl.addDirectives names ds) := by
  have hstays : ∀ other ∈ ds, other.name ∉ names → other ∈ Sdl.addDirectives names ds := by
    intro other hother hnew
    refine List.mem_append_left _ (List.mem_filter.2 ⟨hother, ?_⟩)
    simpa [Text.mem_distinct] using hnew
  have hadded : ∀ n ∈ names, (⟨n, []⟩ : Directive) ∈ Sdl.addDirectives names ds := fun n hn =>
    List.mem_append_right _ (List.mem_map.2 ⟨n, (Text.mem_distinct ..).2 hn, rfl⟩)
  rcases h with hthere | ⟨p, hname, hthere⟩
  · by_cases hagain : d.name ∈ names
    · obtain ⟨p, hp⟩ := hnames _ hagain
      exact Or.inr ⟨p, hp, hp ▸ hadded _ hagain⟩
    · exact Or.inl (hstays d hthere hagain)
  · by_cases hagain : p.directive ∈ names
    · exact Or.inr ⟨p, hname, hadded _ hagain⟩
    · exact Or.inr ⟨p, hname, hstays _ hthere hagain⟩

/-- Taking an internal directive away takes no other. -/
theorem Sdl.Directive.StaysIn.dropDirective {d : Directive} {ds : List Directive} {n : String}
    (h : d.StaysIn ds) (hown : d.name ∉ internalDirectives) (hinternal : n ∈ internalDirectives) :
    d.StaysIn (Sdl.dropDirective n ds) := by
  have hstays : ∀ other ∈ ds, other.name ∉ internalDirectives →
      other ∈ Sdl.dropDirective n ds := by
    intro other hother hplain
    refine List.mem_filter.2 ⟨hother, ?_⟩
    simpa using fun hsame : other.name = n => hplain (hsame ▸ hinternal)
  rcases h with hthere | ⟨p, hname, hthere⟩
  · exact Or.inl (hstays d hthere hown)
  · exact Or.inr ⟨p, hname, hstays _ hthere (Catalog.not_internal_directive p)⟩

namespace Catalog

variable {c : Catalog}

/-- **Marks outlast every edit of the published schema that is about them** (`Marks.KeptIn`). -/
theorem Publishes.keptIn_after {e : Edit} {source m : Marks} (he : c.Publishes e)
    (h : source.KeptIn m) : source.KeptIn (m.after e) := by
  refine ⟨h.1, fun d hd hplain => ?_⟩
  have hstays := h.2 d hd hplain
  cases he with
  | access _ hnames => exact hstays.addDirectives hnames
  | tenant _ _ _ => exact hstays
  | relation _ _ => exact hstays
  | computed _ hnames => exact hstays.addDirectives hnames
  | foreign _ =>
    unfold foreignInputEdit Marks.after
    split <;> exact hstays
  | strip _ _ _ hname => exact hstays.dropDirective hplain (mem_internalNames.1 hname).2

/-! ### Edits of relations of input types -/

section ForeignInput

variable {type field key : String} {isCondition : Bool}

theorem type_foreignInputEdit : (foreignInputEdit type field key isCondition).type = type := by
  unfold foreignInputEdit
  split <;> rfl

theorem displaces_foreignInputEdit {place : Option String} :
    (foreignInputEdit type field key isCondition).Displaces place ↔ place = some field := by
  unfold foreignInputEdit
  split <;> rfl

/-- No object type has the name of an input type that is bound. -/
theorem Rooted.foreign_ne_object (hrooted : c.Rooted) (hdistinct : c.document.IsDistinct)
    (hbinding : .foreignInput type field key isCondition ∈ c.bindings) {body : ObjectType}
    (hbody : .object body ∈ c.document.declarations) : type ≠ body.name := by
  obtain ⟨input, f, hsite, -, rfl, -⟩ := hrooted.foreign type field key isCondition hbinding
  intro hname
  cases hdistinct.declaration_eq (Document.field_mem_sites.1 hsite).1 hbody hname

end ForeignInput

/-! ### Fields that give way

An edit displaces a field for two reasons: the field lists items now, or it is one of an input
type that is given by a key.
-/

/-- The site is a relation to many that a field which lists items takes the place of. -/
def Lists (c : Catalog) (site : Site) : Prop :=
  ∃ t ∈ c.tables, ∃ r ∈ t.relations, t.isResolvable r = true ∧ r.toMany = true ∧
    site.address = (t.name, some r.field)

instance (c : Catalog) (site : Site) : Decidable (c.Lists site) :=
  inferInstanceAs (Decidable (∃ t ∈ c.tables, ∃ r ∈ t.relations, t.isResolvable r = true ∧
    r.toMany = true ∧ site.address = (t.name, some r.field)))

/-- The annotations by which a field that is computed is opened to its callers. -/
def openings (c : Catalog) (type field : String) : List String :=
  if c.isFunction type field then
    Access.annotations ((c.rulesOfField type field).map (·.provider))
  else []

/-- The site carries nothing but what the compiler acts on or adds to it. -/
def IsPlain (c : Catalog) (site : Site) : Prop :=
  site.description = none ∧ ∀ d ∈ site.directives, d.name ∉ internalDirectives →
    ∀ field, site.fieldName? = some field → d.name ∈ c.openings site.typeName field

theorem of_mem_partEdits {t : Table} {part : TablePart} (hpart : part ∈ t.parts) {e : Edit}
    (he : e ∈ partEdits t part) :
    e.field? = none ∨ ∃ r ∈ t.relations, t.isResolvable r = true ∧ r.toMany = true ∧
      e = .replaceField t.name r.field (listedField r).render := by
  cases part with
  | storage => cases he
  | operations =>
    rcases List.mem_append.1 he with he | he
    · split at he
      · cases he
      · rw [List.mem_singleton.1 he]
        exact Or.inl rfl
    · rw [Option.mem_toList, Option.map_eq_some_iff] at he
      obtain ⟨tenancy, -, rfl⟩ := he
      exact Or.inl rfl
  | query key => cases he
  | relation r =>
    rw [partEdits] at he
    split at he
    next hmany =>
      rw [List.mem_singleton.1 he]
      simp only [Table.parts, List.mem_append, List.mem_map, List.mem_filter] at hpart
      rcases hpart with (hpart | ⟨key, -, hpart⟩) | ⟨other, ⟨hrelation, hresolvable⟩, hpart⟩
      · simp at hpart
      · cases hpart
      · cases hpart
        exact Or.inr ⟨r, hrelation, hresolvable, hmany, rfl⟩
    · cases he

/-- **Only relations to many (`Catalog.Lists`) and relations of input types (`isForeignInput`) give
way to other fields.** -/
theorem lists_or_foreign_of_displaces (hrooted : c.Rooted) (hdistinct : c.document.IsDistinct)
    {site : Site} (hsite : site ∈ c.document.sites) {e : Edit} (he : e ∈ c.publishedEdits)
    (htype : e.type = site.typeName) (hdisplaces : e.Displaces site.fieldName?) :
    c.Lists site ∨ isForeignInput site = true ∧ site.inScope c.scope = true := by
  simp only [publishedEdits, List.mem_append, List.mem_flatMap] at he
  -- An edit is from a table, from a binding or for stripping, and only the first two displace
  -- fields.
  rcases he with (⟨t, ht, part, hpart, he⟩ | ⟨b, hb, he⟩) | he
  · have htable := type_of_partEdits he
    rcases of_mem_partEdits hpart he with hnone | ⟨r, hr, hresolvable, hmany, rfl⟩
    · cases e with
      | removeField _ _ => cases hnone
      | replaceField _ _ _ => cases hnone
      | _ => exact hdisplaces.elim
    · exact Or.inl ⟨t, ht, r, hr, hresolvable, hmany, Prod.ext htype.symm hdisplaces⟩
  · refine Or.inr ?_
    cases b with
    | function type field source =>
      rw [bindingEdits] at he
      split at he
      · cases he
      · rw [List.mem_singleton] at he
        subst he
        exact hdisplaces.elim
    | foreignInput type field key isCondition =>
      rw [bindingEdits, List.mem_singleton] at he
      obtain ⟨body, f, hfield, hscope, rfl, rfl, d, hd, hname⟩ :=
        hrooted.foreign type field key isCondition hb
      rw [he, type_foreignInputEdit] at htype
      rw [he, displaces_foreignInputEdit] at hdisplaces
      have haddress : (Site.field (.input body) (.input f)).address = site.address :=
        Prod.ext htype hdisplaces.symm
      have hsame := List.inj_on_of_nodup_map hdistinct.nodup_sites hfield hsite haddress
      subst hsame
      refine ⟨?_, hscope⟩
      simp only [isForeignInput, List.any_eq_true, decide_eq_true_eq]
      exact ⟨d, hd, hname⟩
  · simp only [stripEdits, List.mem_flatMap] at he
    obtain ⟨other, -, he⟩ := he
    unfold stripSite at he
    split at he
    · cases he
    · obtain ⟨n, -, rfl⟩ := List.mem_map.1 he
      exact hdisplaces.elim

/-! ### Fields that list items

What stands in place of such a field is told exactly, since no other edit that comes later
displaces it.
-/

theorem marks_listedField (r : Relation) :
    Described.marks (listedField r).toField = ⟨none, []⟩ := rfl

/-- The fields of tenants are names. -/
def NamesTenants (c : Catalog) : Prop :=
  ∀ t ∈ c.tables, ∀ tenancy ∈ t.tenancy, isName tenancy.field = true

instance (c : Catalog) : Decidable c.NamesTenants :=
  inferInstanceAs (Decidable (∀ t ∈ c.tables, ∀ tenancy ∈ t.tenancy, isName tenancy.field = true))

/-- The edits of an object type leave the only field of a name the only one. -/
theorem Publishes.steady {e : Edit} {body : ObjectType} {f : Sdl.Field} (he : c.Publishes e)
    (hrooted : c.Rooted) (hdistinct : c.document.IsDistinct) (hnamed : c.document.IsNamed)
    (htenants : c.NamesTenants) (hbody : .object body ∈ c.document.declarations)
    (hf : f ∈ body.fields) (htype : e.type = body.name) : e.Steady Sdl.Field f.name := by
  cases he with
  | access _ _ => trivial
  | @tenant t tenancy htable htenancy habsent =>
    intro g hparse
    have hentry : (Entry.plain tenancy.field "String").IsNamed :=
      Entry.isNamed_plain (htenants t htable tenancy htenancy) (by decide)
    obtain rfl := Except.ok.inj (hentry.parse.symm.trans hparse)
    have hsame := hdistinct.declaration_eq (hrooted.mem_declarations htable).1 hbody htype
    cases hsame
    have hother := List.find?_eq_none.1 habsent f hf
    intro hname
    exact hother (decide_eq_true (show f.name = tenancy.field from hname.symm))
  | relation htable hrelation =>
    intro g hparse
    obtain ⟨hfield, htarget⟩ := hrooted.isName_relation hnamed htable hrelation
    obtain rfl := Except.ok.inj ((isNamed_listedField hfield htarget).parse.symm.trans hparse)
    rfl
  | computed _ _ => trivial
  | foreign hbinding =>
    rw [type_foreignInputEdit] at htype
    exact absurd htype (hrooted.foreign_ne_object hdistinct hbinding hbody)
  | strip _ _ _ _ => trivial

/-- The edits of tables. -/
def tableEdits (c : Catalog) : List Edit := c.tables.flatMap fun t => t.parts.flatMap (partEdits t)

/-- The edits of bindings, and those that strip. -/
def laterEdits (c : Catalog) : List Edit := c.bindings.flatMap (bindingEdits c) ++ stripEdits c

theorem publishedEdits_eq (c : Catalog) : c.publishedEdits = c.tableEdits ++ c.laterEdits :=
  List.append_assoc ..

/-- The edits of tables leave nothing of the marks of a relation to many. -/
theorem foldl_tableEdits (hrooted : c.Rooted) (hnamed : c.document.IsNamed) {site : Site}
    (hlists : c.Lists site) {name : String} (hname : site.fieldName? = some name) (m : Marks) :
    (editsOf site.typeName c.tableEdits).foldl (fun m e => e.effect Sdl.Field name m) m
      = ⟨none, []⟩ := by
  have hlisted : ∀ t ∈ c.tables, ∀ r ∈ t.relations, ∀ m,
      (Edit.replaceField t.name r.field (listedField r).render).effect Sdl.Field name m
        = if r.field = name then ⟨none, []⟩ else m := by
    intro t ht r hr m
    obtain ⟨hfield, htarget⟩ := hrooted.isName_relation hnamed ht hr
    split
    next hsame =>
      subst hsame
      have hparse : (Member.parse (listedField r).render : Except EditFault Sdl.Field)
          = .ok (listedField r).toField := (isNamed_listedField hfield htarget).parse
      rw [Edit.effect_replaceField hparse, marks_listedField]
    next hother => exact Edit.effect_of_ne (by simpa [Edit.field?] using hother)
  refine foldl_of_one (P := fun m => m = ⟨none, []⟩) ?_ ?_ m
  · obtain ⟨t, ht, r, hr, hresolvable, hmany, haddress⟩ := hlists
    obtain ⟨htype, hfield⟩ := Prod.mk.inj haddress
    refine ⟨.replaceField t.name r.field (listedField r).render, ?_, fun m => ?_⟩
    · have hpart : TablePart.relation r ∈ t.parts := by simp [Table.parts, hr, hresolvable]
      refine mem_editsOf.2 ⟨List.mem_flatMap.2 ⟨t, ht, List.mem_flatMap.2 ⟨_, hpart, ?_⟩⟩,
        htype.symm⟩
      simp [partEdits, hmany]
    · rw [hlisted t ht r hr, if_pos (Option.some.inj (hfield.symm.trans hname))]
  · intro e he m hm
    obtain ⟨he, -⟩ := mem_editsOf.1 he
    simp only [tableEdits, List.mem_flatMap] at he
    obtain ⟨t, ht, part, hpart, he⟩ := he
    rcases of_mem_partEdits hpart he with hnone | ⟨r, hr, -, -, rfl⟩
    · rw [Edit.effect_of_ne (by simp [hnone]), hm]
    · rw [hlisted t ht r hr, hm, ite_self]

/-- A later edit of a field opens it to its callers or strips it. -/
theorem of_mem_laterEdits (hrooted : c.Rooted) (hdistinct : c.document.IsDistinct)
    {body : ObjectType} (hbody : .object body ∈ c.document.declarations) {name : String} {e : Edit}
    (he : e ∈ c.laterEdits) (htype : e.type = body.name) (hfield : e.field? = some name) :
    e = .addDirectives body.name (some name) (c.openings body.name name) ∨
      ∃ n ∈ internalDirectives, e = .removeDirective body.name (some name) n := by
  simp only [laterEdits, List.mem_append, List.mem_flatMap] at he
  rcases he with ⟨b, hb, he⟩ | he
  · cases b with
    | function type field source =>
      rw [bindingEdits] at he
      split at he
      · cases he
      · rw [List.mem_singleton] at he
        subst he
        cases htype
        cases hfield
        have hfunction : c.isFunction body.name name = true :=
          List.any_eq_true.2 ⟨_, hb, by simp⟩
        exact Or.inl (by rw [openings, if_pos hfunction])
    | foreignInput type field key isCondition =>
      rw [bindingEdits, List.mem_singleton] at he
      rw [he, type_foreignInputEdit] at htype
      exact absurd htype (hrooted.foreign_ne_object hdistinct hb hbody)
  · simp only [stripEdits, List.mem_flatMap] at he
    obtain ⟨site, -, he⟩ := he
    unfold stripSite at he
    split at he
    · cases he
    · obtain ⟨n, hn, rfl⟩ := List.mem_map.1 he
      have htype : site.typeName = body.name := htype
      have hfield : site.fieldName? = some name := hfield
      exact Or.inr ⟨n, (mem_internalNames.1 hn).2, by rw [htype, hfield]⟩

theorem exists_provider_of_opening {type field n : String} (h : n ∈ c.openings type field) :
    ∃ p : Access.Provider, n = p.directive := by
  unfold openings at h
  split at h
  · exact exists_provider_of_annotation h
  · cases h

/-- What a later edit does to the marks of a field of an object type. -/
theorem effect_of_mem_laterEdits (hrooted : c.Rooted) (hdistinct : c.document.IsDistinct)
    {body : ObjectType} (hbody : .object body ∈ c.document.declarations) {name : String} {e : Edit}
    (he : e ∈ editsOf body.name c.laterEdits) (m : Marks) :
    e.effect Sdl.Field name m = m ∨
      e.effect Sdl.Field name m
        = { m with directives := addDirectives (c.openings body.name name) m.directives } ∨
      ∃ n ∈ internalDirectives,
        e.effect Sdl.Field name m = { m with directives := dropDirective n m.directives } := by
  obtain ⟨he, htype⟩ := mem_editsOf.1 he
  by_cases hfield : e.field? = some name
  · rcases of_mem_laterEdits hrooted hdistinct hbody he htype hfield with
      rfl | ⟨n, hn, rfl⟩
    · exact Or.inr (Or.inl (Edit.effect_of_stays rfl id))
    · exact Or.inr (Or.inr ⟨n, hn, Edit.effect_of_stays rfl id⟩)
  · exact Or.inl (Edit.effect_of_ne hfield)

/-- What opens a field is given to it by the edit of its binding. -/
theorem mem_laterEdits_of_opening {body : ObjectType} {name n : String}
    (h : n ∈ c.openings body.name name) :
    .addDirectives body.name (some name) (c.openings body.name name)
      ∈ editsOf body.name c.laterEdits := by
  have hfunction : c.isFunction body.name name = true := by
    by_contra hnone
    rw [openings, if_neg hnone] at h
    cases h
  obtain ⟨b, hb, hbound⟩ := List.any_eq_true.1 hfunction
  cases b with
  | foreignInput => cases hbound
  | function type field source =>
    simp only [Bool.and_eq_true, decide_eq_true_eq] at hbound
    obtain ⟨htype, hfield⟩ := hbound
    subst htype hfield
    rw [openings, if_pos hfunction] at h ⊢
    refine mem_editsOf.2 ⟨List.mem_append_left _ (List.mem_flatMap.2 ⟨_, hb, ?_⟩), rfl⟩
    rw [bindingEdits, if_neg (by simpa using List.ne_nil_of_mem h)]
    exact List.mem_singleton_self _

theorem mem_addDirectives_iff {names : List String} {ds : List Directive} {d : Directive} :
    d ∈ addDirectives names ds ↔ d ∈ ds ∧ d.name ∉ names ∨ ∃ n ∈ names, d = ⟨n, []⟩ := by
  simp only [addDirectives, List.mem_append, List.mem_filter, List.mem_map, List.contains_iff_mem,
    Text.mem_distinct, Bool.not_eq_true', ← Bool.not_eq_true]
  refine or_congr_right (exists_congr fun n => and_congr_right fun _ => eq_comm)

/-- The edits behind those of tables give a field without marks the annotations that open it. -/
theorem foldl_laterEdits (hrooted : c.Rooted) (hdistinct : c.document.IsDistinct)
    {body : ObjectType} (hbody : .object body ∈ c.document.declarations) (name : String) {m : Marks}
    (hfold : (editsOf body.name c.laterEdits).foldl (fun m e => e.effect Sdl.Field name m)
      ⟨none, []⟩ = m) :
    m.description = none ∧ ∀ d, d ∈ m.directives ↔
      ∃ n ∈ c.openings body.name name, d = ⟨n, []⟩ := by
  have hstep := @effect_of_mem_laterEdits c hrooted hdistinct body hbody name
  have hwithin : m.description = none ∧
      ∀ d ∈ m.directives, ∃ n ∈ c.openings body.name name, d = ⟨n, []⟩ := by
    rw [← hfold]
    refine List.foldlRecOn (motive := fun m : Marks => m.description = none ∧
      ∀ d ∈ m.directives, ∃ n ∈ c.openings body.name name, d = ⟨n, []⟩) _ _ ⟨rfl, nofun⟩ ?_
    rintro m ⟨hdescription, hdirectives⟩ e he
    rcases hstep he m with hsame | hadd | ⟨n, -, hdrop⟩
    · rw [hsame]
      exact ⟨hdescription, hdirectives⟩
    · rw [hadd]
      refine ⟨hdescription, fun d hd => ?_⟩
      rcases mem_addDirectives_iff.1 hd with ⟨hold, -⟩ | hnew
      · exact hdirectives d hold
      · exact hnew
    · rw [hdrop]
      exact ⟨hdescription, fun d hd => hdirectives d (mem_dropDirective hd).1⟩
  refine ⟨hwithin.1, fun d => ⟨hwithin.2 d, ?_⟩⟩
  rintro ⟨n, hn, rfl⟩
  rw [← hfold]
  refine foldl_of_one (P := fun m : Marks => (⟨n, []⟩ : Directive) ∈ m.directives) ?_ ?_ _
  · refine ⟨_, mem_laterEdits_of_opening hn, fun m => ?_⟩
    rw [Edit.effect_of_stays rfl id]
    exact mem_addDirectives_iff.2 (Or.inr ⟨n, hn, rfl⟩)
  · intro e he m hm
    rcases hstep he m with hsame | hadd | ⟨other, hother, hdrop⟩
    · rw [hsame]
      exact hm
    · rw [hadd]
      exact mem_addDirectives_iff.2 (Or.inr ⟨n, hn, rfl⟩)
    · rw [hdrop]
      obtain ⟨p, rfl⟩ := exists_provider_of_opening hn
      refine List.mem_filter.2 ⟨hm, ?_⟩
      simpa using fun hsame : p.directive = other => not_internal_directive p (hsame ▸ hother)

/-- **What stands in the place of a relation to many carries the annotations that open it, and
nothing else.** -/
theorem exists_marks_of_lists (hrooted : c.Rooted) (hdistinct : c.document.IsDistinct)
    (hnamed : c.document.IsNamed) (htenants : c.NamesTenants) {body : ObjectType} {f : Sdl.Field}
    (hbody : .object body ∈ c.document.declarations) (hf : f ∈ body.fields)
    (hlists : c.Lists (.field (.object body) (.output f))) {d' : Definition}
    (h : (Definition.object body).editAll (editsOf body.name c.publishedEdits) = .ok d') :
    ∃ m, d'.marksAt (some f.name) = [m] ∧ m.description = none ∧
      ∀ d, d ∈ m.directives ↔ ∃ n ∈ c.openings body.name f.name, d = ⟨n, []⟩ := by
  have hnodup : (body.fields.map (·.name)).Nodup := by
    simpa [Declaration.fields, Function.comp_def, DeclaredField.name] using hdistinct.fields _ hbody
  have hsteady : ∀ e ∈ editsOf body.name c.publishedEdits, e.Steady Sdl.Field f.name := by
    intro e he
    obtain ⟨he, htype⟩ := mem_editsOf.1 he
    exact (publishes_of_mem he).steady hrooted hdistinct hnamed htenants hbody hf htype
  have htables : (editsOf body.name c.tableEdits).foldl
      (fun m e => e.effect Sdl.Field f.name m) (Described.marks f) = ⟨none, []⟩ :=
    foldl_tableEdits hrooted hnamed hlists rfl _
  have hmarks := fieldMarks_of_editAll h hsteady (fieldMarks_of_nodup hnodup hf)
  rw [publishedEdits_eq, editsOf_append, List.foldl_append, htables] at hmarks
  exact ⟨_, hmarks, foldl_laterEdits hrooted hdistinct hbody f.name rfl⟩

end Catalog

/-! ### The published schema -/

/-- A type of a document that is edited after being appended to nothing. -/
theorem exists_edited {edits : List Edit} {source published : Document}
    (htypes : (targetNames source.definitions).Nodup)
    (h : edits.foldlM Document.edit (Document.empty.append source.definitions) = .ok published)
    {d : Definition} (hd : d ∈ source.definitions) {name : String}
    (htarget : d.isTarget name = true) :
    ∃ d' ∈ published.definitions, d.editAll (editsOf name edits) = .ok d' ∧
      d'.isTarget name = true ∧ ∀ e ∈ published.definitions, e.isTarget name = true → e = d' := by
  rw [foldlM_edit] at h
  obtain ⟨ds, hedited, rfl⟩ := Outcome.of_map_eq_ok h
  obtain ⟨hnodup, -⟩ := targetNames_append_empty htypes
  obtain ⟨d', hd', hedit⟩ :=
    exists_of_editAll hedited hnodup (mem_append_empty htypes hd htarget) htarget
  have hreached : d'.isTarget name = true := by
    have hkey := Definition.key_editAll hedit
    have hname : d'.name? = d.name? := congrArg Prod.snd hkey
    rw [Definition.isTarget, Definition.isEditable_eq_of_key hkey, hname]
    exact htarget
  refine ⟨d', hd', hedit, hreached, fun e he hagain => ?_⟩
  have hnames := targetNames_eq_of_keys (keys_editAll hedited)
  exact eq_of_isTarget (hnames ▸ hnodup) name he hd' hagain hreached

theorem exists_declaration_of_marksAt {place : Option String} {d : Definition} {m : Marks}
    (h : m ∈ d.marksAt place) : ∃ declaration : Sdl.Declaration, d = declaration.toDefinition := by
  cases d with
  | object body => exact ⟨.object body, rfl⟩
  | input body => exact ⟨.input body, rfl⟩
  | _ => cases place <;> cases h

/-- A site is kept if its marks are those of the type that its own became. -/
theorem Sdl.Site.isKept_iff {site : Site} {published : Document} {d' : Definition}
    (hd' : d' ∈ published.definitions) (htarget : d'.isTarget site.typeName = true)
    (honly : ∀ e ∈ published.definitions, e.isTarget site.typeName = true → e = d') :
    site.IsKept published ↔ ∃ m ∈ d'.marksAt site.fieldName?, site.marks.KeptIn m := by
  constructor
  · rintro ⟨s, hs, haddress, hkept⟩
    obtain ⟨htype, hfield⟩ := Prod.mk.inj haddress
    obtain ⟨declaration, hdeclaration, hsite⟩ := Document.mem_sites.1 hs
    have hown : s.declaration = declaration := by
      rcases List.mem_cons.1 hsite with rfl | hsite
      · rfl
      · obtain ⟨f, -, rfl⟩ := List.mem_map.1 hsite
        rfl
    have hsame := honly _ (Document.mem_declarations.1 hdeclaration)
      (by rw [← htype, Site.typeName, hown]; exact declaration.isTarget)
    refine ⟨s.marks, ?_, hkept⟩
    rw [← hsame, ← hfield]
    exact Declaration.mem_marksAt.2 ⟨s, hsite, rfl, rfl⟩
  · rintro ⟨m, hm, hkept⟩
    obtain ⟨declaration, rfl⟩ := exists_declaration_of_marksAt hm
    obtain ⟨s, hsite, hfield, rfl⟩ := Declaration.mem_marksAt.1 hm
    have hdeclaration := Document.mem_declarations.2 hd'
    refine ⟨s, Document.mem_sites.2 ⟨declaration, hdeclaration, hsite⟩, Prod.ext ?_ hfield, hkept⟩
    have hname := isTarget_name htarget
    rw [isTarget_name declaration.isTarget] at hname
    rcases List.mem_cons.1 hsite with rfl | hsite
    · exact Option.some.inj hname
    · obtain ⟨f, -, rfl⟩ := List.mem_map.1 hsite
      exact Option.some.inj hname

namespace Catalog

variable {c : Catalog} {published : Document}

theorem mem_definitions_of_site {doc : Document} {site : Site} (h : site ∈ doc.sites) :
    site.declaration ∈ doc.declarations ∧ site ∈ site.declaration.sites := by
  cases site with
  | type d => exact ⟨Document.type_mem_sites.1 h, List.mem_cons_self⟩
  | field d f =>
    obtain ⟨hd, hf⟩ := Document.field_mem_sites.1 h
    exact ⟨hd, List.mem_cons_of_mem _ (List.mem_map_of_mem hf)⟩

/-- **A site is kept unless its field gives way.** -/
theorem isKept_of_not_lists (hrooted : c.Rooted) (hdistinct : c.document.IsDistinct)
    (h : c.publishedEdits.foldlM Document.edit (Document.empty.append c.document.definitions)
      = .ok published) {site : Site} (hsite : site ∈ c.document.sites)
    (hown : ¬ (isForeignInput site = true ∧ site.inScope c.scope = true))
    (hstays : ¬ c.Lists site) : site.IsKept published := by
  obtain ⟨hdeclaration, hhere⟩ := mem_definitions_of_site hsite
  obtain ⟨d', hd', hedit, htarget, honly⟩ := exists_edited hdistinct.types h
    (Document.mem_declarations.1 hdeclaration) site.declaration.isTarget
  rw [Site.isKept_iff hd' htarget honly]
  refine Definition.exists_marks_of_editAll hedit ?_ ?_
    ⟨site.marks, Declaration.mem_marksAt.2 ⟨site, hhere, rfl, rfl⟩, site.marks.keptIn_refl⟩
  · intro e he hdisplaces
    obtain ⟨he, htype⟩ := mem_editsOf.1 he
    rcases lists_or_foreign_of_displaces hrooted hdistinct hsite he htype hdisplaces with
      hlists | hforeign
    · exact hstays hlists
    · exact hown hforeign
  · intro e he m hkept
    exact (publishes_of_mem (mem_editsOf.1 he).1).keptIn_after hkept

/-- What is listed is a field of an object type. -/
theorem Lists.exists_field (hrooted : c.Rooted) (hdistinct : c.document.IsDistinct) {site : Site}
    (hsite : site ∈ c.document.sites) (h : c.Lists site) : ∃ body f,
      site = .field (.object body) (.output f) ∧ .object body ∈ c.document.declarations ∧
        f ∈ body.fields := by
  obtain ⟨t, ht, r, -, -, -, haddress⟩ := h
  obtain ⟨htype, hfield⟩ := Prod.mk.inj haddress
  cases site with
  | type d => cases hfield
  | field d f =>
    obtain ⟨hd, hf⟩ := Document.field_mem_sites.1 hsite
    have hsame := hdistinct.declaration_eq hd (hrooted.mem_declarations ht).1 htype
    subst hsame
    obtain ⟨field, hmem, rfl⟩ := List.mem_map.1 hf
    exact ⟨t.definition, field, rfl, hd, hmem⟩

/-- **A relation to many that gives way is kept exactly if there is nothing to be lost**
(`Catalog.IsPlain`). -/
theorem isKept_iff_of_lists (hrooted : c.Rooted) (hdistinct : c.document.IsDistinct)
    (hnamed : c.document.IsNamed) (htenants : c.NamesTenants)
    (h : c.publishedEdits.foldlM Document.edit (Document.empty.append c.document.definitions)
      = .ok published) {site : Site} (hsite : site ∈ c.document.sites) (hlists : c.Lists site) :
    site.IsKept published ↔ c.IsPlain site := by
  obtain ⟨body, f, rfl, hbody, hf⟩ := hlists.exists_field hrooted hdistinct hsite
  obtain ⟨d', hd', hedit, htarget, honly⟩ := exists_edited hdistinct.types h
    (Document.mem_declarations.1 hbody) (Declaration.object body).isTarget
  obtain ⟨m, hmarks, hdescription, hdirectives⟩ :=
    exists_marks_of_lists hrooted hdistinct hnamed htenants hbody hf hlists hedit
  have hkept : (Site.field (.object body) (.output f)).IsKept published ↔
      ∃ m ∈ d'.marksAt (some f.name), (Site.field (.object body) (.output f)).marks.KeptIn m :=
    Site.isKept_iff hd' htarget honly
  rw [hkept, hmarks, IsPlain]
  simp only [List.mem_singleton, exists_eq_left]
  refine and_congr (by rw [hdescription, eq_comm]; rfl) (forall₃_congr fun d hd hplain => ?_)
  simp only [Directive.StaysIn, hdirectives]
  constructor
  · rintro (⟨n, hn, rfl⟩ | ⟨p, hname, n, hn, hsame⟩) field hfield
    · cases hfield
      exact hn
    · cases hfield
      cases hsame
      rw [hname]
      exact hn
  · intro hopens
    have hn := hopens f.name rfl
    obtain ⟨p, hname⟩ := exists_provider_of_opening hn
    exact Or.inr ⟨p, hname, _, hn, by rw [hname]⟩

/-- An interface is published as it is. -/
theorem interface_mem_published (hrooted : c.Rooted) (hdistinct : c.document.IsDistinct)
    (h : c.publishedEdits.foldlM Document.edit (Document.empty.append c.document.definitions)
      = .ok published) {body : ObjectType} (hbody : .interface body ∈ c.document.definitions) :
    .interface body ∈ published.definitions := by
  have hreached : (Definition.interface body).isTarget body.name = true := by
    simp [Definition.isTarget, Definition.isEditable, Definition.name?]
  obtain ⟨d', hd', hedit, -⟩ := exists_edited hdistinct.types h hbody hreached
  have hnone : editsOf body.name c.publishedEdits = [] := by
    rw [List.eq_nil_iff_forall_not_mem]
    intro e he
    obtain ⟨he, htype⟩ := mem_editsOf.1 he
    obtain ⟨d, hd, hname, -⟩ := (publishes_of_mem he).declaration hrooted hdistinct
    have hsame := eq_of_isTarget hdistinct.types body.name (Document.mem_declarations.1 hd) hbody
      (by rw [← htype, ← hname]; exact d.isTarget) hreached
    cases d <;> cases hsame
  rw [hnone] at hedit
  cases hedit
  exact hd'

end Catalog

variable {schemaName text : String} {scope : Scope} {first : Compilation} {source : Document}

/-- **The published schema keeps the description and all directives but the internal ones of every
type and field (`Site.IsKept`), except for relations that give way to other fields.** Those of input
types do so by design. Of a relation to many the published field carries nothing but the annotations
which the compiler adds to it, so it is kept exactly if it carried no description and no other
directive. -/
theorem published_marks {former : Option (FileTree × Path)} {files : List File}
    (hsdl : medium ("schema/" ++ schemaName) = .sdl)
    (hfiles : (filesOf schemaName scope text former).outcome = .ok files)
    (hparse : Document.parse text = .ok source) (hdistinct : source.IsDistinct)
    (hfirst : (compile schemaName scope text).outcome = .ok first)
    (hspares : SparesPublished schemaName scope first)
    (hback : Document.parse source.render = .ok source) :
    ∃ file ∈ files, file.location = "schema/" ++ schemaName ∧ ∃ published : Document,
      file.body = published.render ∧
      (∀ site ∈ source.sites, ¬ (isForeignInput site = true ∧ site.inScope scope = true) →
        ¬ first.catalog.Lists site → site.IsKept published) ∧
      (∀ body, .interface body ∈ source.definitions → .interface body ∈ published.definitions) ∧
      (first.catalog.NamesTenants → ∀ site ∈ source.sites, first.catalog.Lists site →
        (site.IsKept published ↔ first.catalog.IsPlain site)) := by
  obtain ⟨hdocument, file, hfile, hlocation, published, hbody, hedited⟩ :=
    exists_published hsdl hfiles hparse hfirst hspares hback
  obtain ⟨hrooted, -, -⟩ := Compilation.of_compile hfirst
  have hscope : first.catalog.scope = scope := by
    obtain ⟨document, -, hcompile⟩ := SchemaLoom.of_compile hfirst
    obtain ⟨hgather, -⟩ := of_compileDocument hcompile
    exact (Catalog.rooted_of_gather hgather).2.2.1
  have hnamed := Document.isNamed_of_parse hparse
  subst hscope hdocument
  refine ⟨file, hfile, hlocation, published, hbody, ?_, ?_, ?_⟩
  · intro site hsite hown hstays
    exact Catalog.isKept_of_not_lists hrooted hdistinct hedited hsite hown hstays
  · intro body hbody
    exact Catalog.interface_mem_published hrooted hdistinct hedited hbody
  · intro htenants site hsite hlists
    exact Catalog.isKept_iff_of_lists hrooted hdistinct hnamed htenants hedited hsite hlists

/-- A schema that gives rise to its published schema alone is built if all edits go through. -/
theorem exists_files (hsdl : medium ("schema/" ++ schemaName) = .sdl)
    (hgives : GivesNames schemaName scope text) (hparse : Document.parse text = .ok source)
    (hfirst : (compile schemaName scope text).outcome = .ok first)
    (hspares : SparesPublished schemaName scope first)
    (hback : Document.parse source.render = .ok source)
    (honly : ∀ f ∈ first.fragments, f.location = "schema/" ++ schemaName)
    (hedited : ∃ published, first.catalog.publishedEdits.foldlM Document.edit
      (Document.empty.append source.definitions) = .ok published) :
    ∃ files, (filesOf schemaName scope text none).outcome = .ok files := by
  obtain ⟨fragments, hpublish, hhere⟩ : ∃ fragments,
      (publish schemaName scope text).outcome = .ok fragments ∧
        ∀ f ∈ fragments, f.location = "schema/" ++ schemaName := by
    unfold publish
    dsimp only
    rw [Report.outcome_bind, outcome_compileAll hgives hfirst, Outcome.ok_bind]
    split
    · exact ⟨_, rfl, honly⟩
    · exact ⟨_, rfl, List.forall_mem_cons.2 ⟨rfl, honly⟩⟩
  have hdocument := Compilation.document_eq hfirst
  rw [hparse] at hdocument
  cases hdocument
  obtain ⟨start, hstart, haddressed⟩ := addressedTo_publish hpublish hfirst hspares hback
  obtain ⟨published, hpublished⟩ := hedited
  obtain ⟨files, hfiles⟩ : ∃ files, (assemble fragments []).outcome = .ok files := by
    refine exists_assemble fun location hlocation => ⟨published.render, ?_⟩
    rw [locations, Text.mem_distinct] at hlocation
    obtain ⟨f, hf, rfl⟩ := List.mem_map.1 hlocation
    have hdocument : assembleDocument ("schema/" ++ schemaName) none
        (addressedTo ("schema/" ++ schemaName) fragments) = .ok published := by
      rw [haddressed, assembleDocument_ofText hstart, hpublished]
      rfl
    rw [hhere f hf]
    unfold assembleBody
    rw [hsdl]
    exact congrArg (Except.map Document.render) hdocument
  refine ⟨files, ?_⟩
  unfold filesOf
  simp only [Report.outcome_bind, Report.outcome_mapError, Report.outcome_lift, hpublish]
  exact congrArg (Except.mapError BuildFault.compile) hfiles

/-- A schema with marks of every kind on types and fields, and with access rules. -/
def almanacSchema : String :=
  "\"sky and sea\"
type Query @auth(provider: IAM) @owner(team: \"sky\") \x7b
  \"in metres\"
  tide(port: String): Int @auth(provider: API_KEY) @cost(weight: 3)
\x7d

input Port @tagged \x7b
  \"in degrees\"
  latitude: Float @range(max: 90)
\x7d\n"

theorem almanac_keeps_marks : ∃ files source,
    (filesOf "schema.graphql" none almanacSchema none).outcome = .ok files ∧
      Document.parse almanacSchema = .ok source ∧
      ∃ file ∈ files, file.location = "schema/" ++ "schema.graphql" ∧ ∃ published : Document,
        file.body = published.render ∧ ∀ site ∈ source.sites, site.IsKept published := by
  have hchecks : Outcome.Holds (Document.parse almanacSchema) fun source =>
      (source.IsApart ∧ source.IsDistinct) ∧
        Outcome.Holds (Catalog.collected source "schema.graphql" none) (·.GivesNames) ∧
        Outcome.Holds (compileDocument "schema.graphql" none source).outcome fun first =>
          first.Spares "schema.graphql" ∧
            (∀ f ∈ first.fragments, f.location = "schema/" ++ "schema.graphql" ∧
              Rounds.generated? first.catalog.publishedLocation f = none) ∧
            Outcome.Holds (first.catalog.publishedEdits.foldlM Document.edit
              (Document.empty.append source.definitions)) (fun _ => True) ∧
            ∀ site ∈ source.sites, isForeignInput site = false ∧ ¬ first.catalog.Lists site := by
    set_option maxRecDepth 2000 in refine Document.holds_parse rfl ?_
    decide +kernel
  obtain ⟨source, hparse, ⟨hapart, hdistinct⟩, ⟨before, hcollected, hnames⟩, first, hcompile,
    hspares, honly, ⟨edited, hedited, -⟩, hplain⟩ := hchecks
  have hfirst := (outcome_compile_of_parse hparse).trans hcompile
  have hback := Document.parse_render hparse hapart
  have hall : SparesPublished "schema.graphql" none first :=
    sparesPublished_of_none hspares fun f hf => (honly f hf).2
  obtain ⟨files, hfiles⟩ := exists_files (by decide)
    (givesNames_of_collected hparse hcollected hnames) hparse hfirst hall hback
    (fun f hf => (honly f hf).1) ⟨edited, hedited⟩
  obtain ⟨file, hfile, hlocation, published, hbody, hkept, -⟩ :=
    published_marks (by decide) hfiles hparse hdistinct hfirst hall hback
  refine ⟨files, source, hfiles, hparse, file, hfile, hlocation, published, hbody, ?_⟩
  intro site hsite
  obtain ⟨hown, hstays⟩ := hplain site hsite
  exact hkept site hsite (by simp [hown]) hstays

end SchemaLoom
