/-
Edits of the published schema.

The edits of a published schema come from tables, relations, bindings and stripping; `Publishes`
has a constructor for each.  Each edit names a type that is in scope, and perhaps a field of it
(`Publishes.declaration`).  What they put in is in order: it is made of names, and carries no
internal directive (`Splices`).

Edits are applied in sequence, and one may remove the field that a later one looks for.  That can
happen only where a relation of an input type is replaced, so an edit of an object type may be
made before any others (`Publishes.admissible_object`), and one of an input type before those
that do without its field (`Publishes.admissible_input`).
-/
import SchemaLoom.Proofs.Catalog.Emission
import SchemaLoom.Proofs.Catalog.Gathering
import SchemaLoom.Proofs.Sdl.Named
import SchemaLoom.Proofs.Sdl.Settling
import SchemaLoom.Proofs.Sdl.Site
import SchemaLoom.Proofs.Surface.Declaration

namespace SchemaLoom

open Sdl Surface

namespace Catalog

/-! ### Kinds of edits

There is one case of `Publishes` for each reason to make an edit.  Everything below goes through
these cases and does not return to the fragments.
-/

/-- What edits the published schema. -/
inductive Publishes (c : Catalog) : Edit → Prop where
  /-- A type is opened to the callers of its table. -/
  | access {t : Table} {names : List String} (htable : t ∈ c.tables)
    (hnames : ∀ n ∈ names, ∃ p : Access.Provider, n = p.directive) :
    Publishes c (.addDirectives t.name none names)
  /-- The field of the tenant is added. -/
  | tenant {t : Table} {tenancy : Tenancy} (htable : t ∈ c.tables)
    (htenancy : t.tenancy = some tenancy) (habsent : t.field? tenancy.field = none) :
    Publishes c (.addField t.name (Entry.plain tenancy.field "String").render)
  /-- A relation to many lists items. -/
  | relation {t : Table} {r : Relation} (htable : t ∈ c.tables) (hrelation : r ∈ t.relations) :
    Publishes c (.replaceField t.name r.field (listedField r).render)
  /-- A computed field is opened to its callers. -/
  | computed {type field source : String} {names : List String}
    (hbinding : Binding.function type field source ∈ c.bindings)
    (hnames : ∀ n ∈ names, ∃ p : Access.Provider, n = p.directive) :
    Publishes c (.addDirectives type (some field) names)
  /-- A relation of an input type is given by a key. -/
  | foreign {type field key : String} {isCondition : Bool}
    (hbinding : Binding.foreignInput type field key isCondition ∈ c.bindings) :
    Publishes c (foreignInputEdit type field key isCondition)
  /-- An internal directive is stripped. -/
  | strip {site : Site} {n : String} (hsite : site ∈ c.document.sites)
    (hscope : site.inScope c.scope = true) (hown : isForeignInput site = false)
    (hname : n ∈ internalNames site) :
    Publishes c (.removeDirective site.typeName site.fieldName? n)

theorem exists_provider_of_annotation {providers : List Access.Provider} {n : String}
    (h : n ∈ Access.annotations providers) : ∃ p : Access.Provider, n = p.directive := by
  rw [Access.annotations, Text.mem_distinct] at h
  obtain ⟨p, -, rfl⟩ := List.mem_map.1 h
  exact ⟨p, rfl⟩

theorem publishes_part {c : Catalog} {t : Table} (htable : t ∈ c.tables) {part : TablePart}
    (hpart : part ∈ t.parts) {e : Edit} (he : e ∈ partEdits t part) : c.Publishes e := by
  cases part with
  | storage => cases he
  | operations =>
    rcases List.mem_append.1 he with he | he
    · split at he
      · cases he
      · rw [List.mem_singleton] at he
        subst he
        exact .access htable fun n hn => exists_provider_of_annotation hn
    · rw [Option.mem_toList, Option.map_eq_some_iff] at he
      obtain ⟨tenancy, htenancy, rfl⟩ := he
      obtain ⟨htenancy, habsent⟩ := Option.filter_eq_some_iff.1 htenancy
      exact .tenant htable htenancy (by simpa using habsent)
  | query key => cases he
  | relation r =>
    rw [partEdits] at he
    split at he
    · rw [List.mem_singleton] at he
      subst he
      simp only [Table.parts, List.mem_append, List.mem_map, List.mem_filter] at hpart
      rcases hpart with (hpart | ⟨key, -, hpart⟩) | ⟨other, ⟨hrelation, -⟩, hpart⟩
      · simp at hpart
      · cases hpart
      · cases hpart
        exact .relation htable hrelation
    · cases he

theorem publishes_binding {c : Catalog} {b : Binding} (hb : b ∈ c.bindings) {e : Edit}
    (he : e ∈ bindingEdits c b) : c.Publishes e := by
  cases b with
  | function type field source =>
    rw [bindingEdits] at he
    split at he
    · cases he
    · rw [List.mem_singleton] at he
      subst he
      exact .computed hb fun n hn => exists_provider_of_annotation hn
  | foreignInput type field key isCondition =>
    rw [bindingEdits, List.mem_singleton] at he
    subst he
    exact .foreign hb

theorem publishes_strip {c : Catalog} {e : Edit} (he : e ∈ stripEdits c) : c.Publishes e := by
  simp only [stripEdits, List.mem_flatMap, List.mem_filter] at he
  obtain ⟨site, ⟨hsite, hscope⟩, he⟩ := he
  unfold stripSite at he
  split at he
  · cases he
  next hown =>
    obtain ⟨n, hn, rfl⟩ := List.mem_map.1 he
    exact .strip hsite hscope (by simpa using hown) hn

theorem publishes_of_mem {c : Catalog} {e : Edit} (he : e ∈ c.publishedEdits) : c.Publishes e := by
  simp only [publishedEdits, List.mem_append, List.mem_flatMap] at he
  rcases he with (⟨t, ht, part, hpart, he⟩ | ⟨b, hb, he⟩) | he
  · exact publishes_part ht hpart he
  · exact publishes_binding hb he
  · exact publishes_strip he

/-! ### Where edits go

An edit names its type by a declaration of the document, which is therefore there to be edited.
-/

variable {c : Catalog}

/-- The type of a table is a declaration of the document. -/
theorem Rooted.mem_declarations (h : c.Rooted) {t : Table} (ht : t ∈ c.tables) :
    .object t.definition ∈ c.document.declarations ∧
      (Site.type (.object t.definition)).inScope c.scope = true := by
  obtain ⟨hsite, hscope⟩ := h.tables t ht
  exact ⟨Document.type_mem_sites.1 hsite, hscope⟩

/-- **An edit of the published schema names a type in scope and, if any, a field of it.** -/
theorem Publishes.declaration {e : Edit} (he : c.Publishes e) (hrooted : c.Rooted)
    (hdistinct : c.document.IsDistinct) :
    ∃ d ∈ c.document.declarations, d.name = e.type ∧ (Site.type d).inScope c.scope = true ∧
      ∀ n, e.field? = some n → ∃ f ∈ d.fields, f.name = n := by
  cases he with
  | @access t names htable hnames =>
    obtain ⟨hmem, hscope⟩ := hrooted.mem_declarations htable
    exact ⟨_, hmem, rfl, hscope, fun n hn => by cases hn⟩
  | @tenant t tenancy htable htenancy habsent =>
    obtain ⟨hmem, hscope⟩ := hrooted.mem_declarations htable
    exact ⟨_, hmem, rfl, hscope, fun n hn => by cases hn⟩
  | @relation t r htable hrelation =>
    obtain ⟨hmem, hscope⟩ := hrooted.mem_declarations htable
    obtain ⟨d, f, hsite, hname, hfield, -, -⟩ := hrooted.relations t htable r hrelation
    rw [Document.field_mem_sites] at hsite
    have hsame : d = .object t.definition := hdistinct.declaration_eq hsite.1 hmem hname
    subst hsame
    refine ⟨_, hmem, rfl, hscope, fun n hn => ?_⟩
    cases hn
    exact ⟨f, hsite.2, hfield.symm⟩
  | @computed type field source names hbinding hnames =>
    obtain ⟨d, f, hsite, hscope, rfl, rfl⟩ := hrooted.functions type field source hbinding
    rw [Document.field_mem_sites] at hsite
    refine ⟨d, hsite.1, rfl, hscope, fun n hn => ?_⟩
    cases hn
    exact ⟨_, hsite.2, rfl⟩
  | @foreign type field key isCondition hbinding =>
    obtain ⟨body, f, hsite, hscope, rfl, rfl, -⟩ :=
      hrooted.foreign type field key isCondition hbinding
    rw [Document.field_mem_sites] at hsite
    refine ⟨_, hsite.1, ?_, hscope, fun n hn => ?_⟩
    · unfold foreignInputEdit
      split <;> rfl
    · refine ⟨_, hsite.2, ?_⟩
      unfold foreignInputEdit at hn
      split at hn <;> cases hn <;> rfl
  | @strip site n hsite hscope hown hname =>
    cases site with
    | type d => exact ⟨d, Document.type_mem_sites.1 hsite, rfl, hscope, fun n hn => by cases hn⟩
    | field d f =>
      rw [Document.field_mem_sites] at hsite
      refine ⟨d, hsite.1, rfl, hscope, fun n hn => ?_⟩
      cases hn
      exact ⟨f, hsite.2, rfl⟩

/-- A type of the document and an edit of its name belong together. -/
theorem Publishes.declaration_eq {e : Edit} (he : c.Publishes e) (hrooted : c.Rooted)
    (hdistinct : c.document.IsDistinct) {d : Sdl.Declaration}
    (hd : d ∈ c.document.declarations)
    (hname : e.type = d.name) :
    (Site.type d).inScope c.scope = true ∧
      ∀ n, e.field? = some n → ∃ f ∈ d.fields, f.name = n := by
  obtain ⟨other, hother, htype, hscope, hfield⟩ := he.declaration hrooted hdistinct
  have hsame := hdistinct.declaration_eq hother hd (htype.trans hname)
  subst hsame
  exact ⟨hscope, hfield⟩

/-! ### What has to go

What is stripped is found by sites: every internal directive at a site in scope has an edit that
removes it, but for those on relations of input types, which go with the field.
-/

/-- The directive `directive` has to go from the type `type` and from its fields: it is internal,
and the type is in scope. -/
def Hides (c : Catalog) (type directive : String) : Prop :=
  directive ∈ internalDirectives ∧
    ∃ d ∈ c.document.declarations, d.name = type ∧ (Site.type d).inScope c.scope = true

theorem mem_internalNames {site : Site} {n : String} :
    n ∈ internalNames site ↔ (∃ d ∈ site.directives, d.name = n) ∧ n ∈ internalDirectives := by
  simp [internalNames]

/-- A site with an internal directive is stripped of it, unless it is a relation of an input
type. -/
theorem mem_stripEdits {site : Site} (hsite : site ∈ c.document.sites)
    (hscope : site.inScope c.scope = true) (hown : isForeignInput site = false) {d : Directive}
    (hd : d ∈ site.directives) (hinternal : d.name ∈ internalDirectives) :
    Edit.removeDirective site.typeName site.fieldName? d.name ∈ stripEdits c := by
  rw [stripEdits, List.mem_flatMap]
  refine ⟨site, List.mem_filter.2 ⟨hsite, hscope⟩, ?_⟩
  rw [stripSite, if_neg (by simp [hown])]
  exact List.mem_map.2 ⟨d.name, mem_internalNames.2 ⟨⟨d, hd, rfl⟩, hinternal⟩, rfl⟩

theorem strip_mem {site : Site} (hsite : site ∈ c.document.sites)
    (hscope : site.inScope c.scope = true) (hown : isForeignInput site = false) {d : Directive}
    (hd : d ∈ site.directives) (hinternal : d.name ∈ internalDirectives) :
    Edit.removeDirective site.typeName site.fieldName? d.name ∈ c.publishedEdits :=
  List.mem_append_right _ (mem_stripEdits hsite hscope hown hd hinternal)

/-- A relation of an input type is replaced as a whole. -/
theorem foreign_mem {body : InputType} {f : InputField}
    (hbound : (body.name, f.name) ∈ c.foreignPlaces) :
    ∃ e ∈ c.publishedEdits, e.type = body.name ∧ ∀ n, e.Purges (some f.name) n := by
  obtain ⟨b, hb, hplace⟩ := List.mem_filterMap.1 hbound
  cases b with
  | function type field source => cases hplace
  | foreignInput type field key isCondition =>
    cases hplace
    refine ⟨foreignInputEdit body.name f.name key isCondition, ?_, ?_, ?_⟩
    · refine List.mem_append_left _ (List.mem_append_right _ ?_)
      exact List.mem_flatMap.2 ⟨_, hb, List.mem_singleton_self _⟩
    · unfold foreignInputEdit
      split <;> rfl
    · intro n
      unfold foreignInputEdit
      split <;> rfl

/-! ### What is put in

A field that is put in is read back as the field that was meant (`Splices`).  Its directives are
those of providers, none of which is internal.
-/

/-- The key that the binding puts in the place of a relation of an input type is a name, and that of
no other field.  A relation whose key every input has is dropped. -/
def FitsInput (doc : Document) : Binding → Prop
  | .function .. => True
  | .foreignInput type field key _ => key ≠ "id" → isName key = true ∧
      ∀ d ∈ doc.declarations, d.name = type → ∀ f ∈ d.inputFields, f.name ≠ field → f.name ≠ key

instance (doc : Document) (b : Binding) : Decidable (FitsInput doc b) :=
  match b with
  | .function .. => isTrue trivial
  | .foreignInput .. => by
    unfold FitsInput
    infer_instance

/-- What the names that go into the published schema have to be. -/
structure Splices (c : Catalog) : Prop where
  tenants : ∀ t ∈ c.tables, ∀ tenancy ∈ t.tenancy, isName tenancy.field = true
  keys : ∀ b ∈ c.bindings, FitsInput c.document b

instance (c : Catalog) : Decidable c.Splices :=
  decidable_of_iff ((∀ t ∈ c.tables, ∀ tenancy ∈ t.tenancy, isName tenancy.field = true) ∧
      ∀ b ∈ c.bindings, FitsInput c.document b)
    ⟨fun h => ⟨h.1, h.2⟩, fun h => ⟨h.tenants, h.keys⟩⟩

theorem not_internal_directive (p : Access.Provider) : p.directive ∉ internalDirectives := by
  cases p <;> decide

/-- The shape of a type keeps its base. -/
theorem base_of_shapeOf {type : TypeRef} {shape : Shape} (h : shapeOf type = .ok shape) :
    shape.base = type.base := by
  have hnullable : ∀ {ref : TypeRef} {s : Shape}, Shape.ofNullable? ref = some s →
      s.base = ref.base := by
    intro ref s hs
    unfold Shape.ofNullable? at hs
    split at hs <;> cases hs <;> rfl
  unfold shapeOf at h
  split at h
  next s hs =>
    cases h
    unfold Shape.ofRef? at hs
    split at hs
    next inner =>
      obtain ⟨s', hs', rfl⟩ := Option.map_eq_some_iff.1 hs
      show s'.base = inner.base
      exact hnullable hs'
    next ref => exact hnullable hs
  · cases h

/-- The base of the type of a field is a name. -/
theorem isName_base_of_shapeOf {type : TypeRef} {shape : Shape} (hbase : isName type.base = true)
    (h : shapeOf type = .ok shape) : isName shape.base = true :=
  (base_of_shapeOf h).symm ▸ hbase

/-- The field and the target of a relation are names. -/
theorem Rooted.isName_relation (hrooted : c.Rooted) (hnamed : c.document.IsNamed) {t : Table}
    (ht : t ∈ c.tables) {r : Relation} (hr : r ∈ t.relations) :
    isName r.field = true ∧ isName r.target = true := by
  obtain ⟨d, f, hsite, -, hfield, hshape, htarget⟩ := hrooted.relations t ht r hr
  rw [Document.field_mem_sites] at hsite
  have hdefinition := hnamed _ (Document.mem_declarations.1 hsite.1)
  have hnames : isName f.name = true ∧ isName f.type.base = true := by
    cases d with
    | object body =>
      obtain ⟨field, hmem, rfl⟩ := List.mem_map.1 hsite.2
      exact ⟨(hdefinition.2 field hmem).name, (hdefinition.2 field hmem).base⟩
    | input body =>
      obtain ⟨field, hmem, rfl⟩ := List.mem_map.1 hsite.2
      exact ⟨(hdefinition.2 field hmem).name, (hdefinition.2 field hmem).base⟩
  rw [hfield, htarget]
  exact ⟨hnames.1, isName_base_of_shapeOf hnames.2 hshape⟩

theorem isNamed_listedField {r : Relation} (hfield : isName r.field = true)
    (htarget : isName r.target = true) : (listedField r).IsNamed := by
  have haround : ∀ ending : String, isName ending = true →
      isName ("Model" ++ r.target ++ ending) = true := fun ending hending =>
    isName_append (isName_append (by decide) (continuesName_of_isName htarget))
      (continuesName_of_isName hending)
  have harguments : ∀ e ∈ (listedField r).arguments, e.IsNamed := by
    simp only [listedField, List.forall_mem_cons, List.not_mem_nil, false_implies, implies_true,
      and_true]
    exact ⟨Entry.isNamed_plain (by decide) (haround "FilterInput" (by decide)),
      Entry.isNamed_plain (by decide) (by decide), Entry.isNamed_plain (by decide) (by decide),
      Entry.isNamed_plain (by decide) (by decide)⟩
  exact ⟨hfield, haround "Connection" (by decide), by simp [listedField], harguments,
    fun d hd => by cases hd⟩

/-! ### Orderly edits

A field that an edit gives up must not be asked for later.  For fields of objects that follows
from the order of the parts; the fields of input types are edited once each.
-/

/-- An edit of an object type may be made before any others. -/
theorem Publishes.admissible_object {e : Edit} {rest : List Edit} {body : ObjectType}
    (he : c.Publishes e) (hrooted : c.Rooted) (hdistinct : c.document.IsDistinct)
    (hnamed : c.document.IsNamed) (hsplices : c.Splices)
    (hbody : .object body ∈ c.document.declarations) (htype : e.type = body.name)
    (hrest : ∀ other ∈ rest, c.Publishes other) :
    Admissible Sdl.Field (c.Hides body.name) e rest := by
  cases he with
  | access htable hnames =>
    intro n hn hhidden
    obtain ⟨p, rfl⟩ := hnames n hn
    exact not_internal_directive p hhidden.1
  | @tenant t tenancy htable htenancy habsent =>
    have hentry : (Entry.plain tenancy.field "String").IsNamed := Entry.isNamed_plain
      (hsplices.tenants t htable tenancy htenancy) (by decide)
    refine ⟨tenancy.field, ⟨_, hentry.parse, rfl, fun d hd => by cases hd⟩, ?_⟩
    rintro ⟨other, hother, htypes, hfields⟩
    obtain ⟨hmem, -⟩ := hrooted.mem_declarations htable
    obtain ⟨-, hfield⟩ := (hrest other hother).declaration_eq hrooted hdistinct hmem htypes
    obtain ⟨f, hf, hname⟩ := hfield _ hfields
    obtain ⟨field, hmem, rfl⟩ := List.mem_map.1 hf
    have hnone := List.find?_eq_none.1 habsent field hmem
    simp only [decide_eq_true_eq] at hnone
    exact hnone hname
  | @relation t r htable hrelation =>
    obtain ⟨hfield, htarget⟩ := hrooted.isName_relation hnamed htable hrelation
    exact ⟨r.field, ⟨_, (isNamed_listedField hfield htarget).parse, rfl, fun d hd => by cases hd⟩,
      Or.inl rfl⟩
  | computed hbinding hnames =>
    intro n hn hhidden
    obtain ⟨p, rfl⟩ := hnames n hn
    exact not_internal_directive p hhidden.1
  | @foreign type field key isCondition hbinding =>
    obtain ⟨other, f, hsite, -, rfl, -⟩ := hrooted.foreign type field key isCondition hbinding
    rw [Document.field_mem_sites] at hsite
    have hname : other.name = body.name := by
      rw [← htype]
      unfold foreignInputEdit
      split <;> rfl
    have hsame := hdistinct.declaration_eq hsite.1 hbody hname
    cases hsame
  | strip hsite hscope hown hname => trivial

/-- The edit `e` does without what `other` replaces or removes. -/
def Spares (c : Catalog) (e other : Edit) : Prop :=
  ∀ body n, .input body ∈ c.document.declarations → e.type = body.name →
    (∀ directive, e.Purges (some n) directive) → ¬ (other.type = body.name ∧ other.field? = some n)

/-- An edit of an input type may be made before others that do without the field that it edits. -/
theorem Publishes.admissible_input {e : Edit} {rest : List Edit} {body : InputType}
    (he : c.Publishes e) (hrooted : c.Rooted) (hdistinct : c.document.IsDistinct)
    (hsplices : c.Splices) (hbody : .input body ∈ c.document.declarations)
    (htype : e.type = body.name) (hrest : ∀ other ∈ rest, c.Publishes other)
    (hspared : ∀ other ∈ rest, c.Spares e other) :
    Admissible Sdl.InputField (c.Hides body.name) e rest := by
  -- No table has the name of an input type, which leaves the edits of fields.
  have hobject : ∀ t ∈ c.tables, t.name ≠ body.name := by
    intro t ht hname
    have hsame := hdistinct.declaration_eq (hrooted.mem_declarations ht).1 hbody hname
    cases hsame
  cases he with
  | access htable hnames => exact absurd htype (hobject _ htable)
  | tenant htable htenancy habsent => exact absurd htype (hobject _ htable)
  | relation htable hrelation => exact absurd htype (hobject _ htable)
  | computed hbinding hnames =>
    intro n hn hhidden
    obtain ⟨p, rfl⟩ := hnames n hn
    exact not_internal_directive p hhidden.1
  | @foreign type field key isCondition hbinding =>
    have hname : type = body.name := by
      rw [← htype]
      unfold foreignInputEdit
      split <;> rfl
    subst hname
    by_cases hid : key = "id"
    · have hedit : foreignInputEdit body.name field key isCondition
          = .removeField body.name field := if_pos hid
      rw [hedit] at hspared ⊢
      rintro ⟨other, hother, htypes, hfields⟩
      exact hspared other hother body field hbody rfl (fun directive => rfl)
        ⟨htypes, hfields⟩
    · have hedit : foreignInputEdit body.name field key isCondition
          = .replaceField body.name field
            (Entry.plain key (if isCondition then Catalog.textFilter else "String")).render :=
        if_neg hid
      rw [hedit] at hspared ⊢
      have hentry : (Entry.plain key
          (if isCondition then Catalog.textFilter else "String")).IsNamed := Entry.isNamed_plain
        (hsplices.keys _ hbinding hid).1 (by split <;> decide)
      have hparse := hentry.parseInput
      refine ⟨key, ⟨_, hparse, rfl, fun d hd => by cases hd⟩, ?_⟩
      by_cases hsame : key = field
      · exact Or.inl hsame
      refine Or.inr ⟨?_, ?_⟩
      · rintro ⟨other, hother, htypes, hfields⟩
        exact hspared other hother body field hbody rfl (fun directive => rfl)
          ⟨htypes, hfields⟩
      · rintro ⟨other, hother, htypes, hfields⟩
        obtain ⟨-, hfield⟩ := (hrest other hother).declaration_eq hrooted hdistinct hbody htypes
        obtain ⟨f, hf, hname⟩ := hfield _ hfields
        obtain ⟨own, hmem, rfl⟩ := List.mem_map.1 hf
        have hname : own.name = key := hname
        refine (hsplices.keys _ hbinding hid).2 _ hbody rfl own hmem ?_ hname
        exact fun heq => hsame (hname.symm.trans heq)
  | strip hsite hscope hown hname => trivial

end Catalog

end SchemaLoom
