/-
Documents in which types and fields can be told apart.

Edits and tables address types and fields by name.  If no two types that have fields share a
name, and no two fields of a type do (`Document.IsDistinct`), then a name says which type or
field is meant, and every site has an address of its own (`Site.address`).

Types without fields are left out of the condition.  A scalar may share its name with an object,
as no edit reaches it.
-/
import SchemaLoom.Proofs.Lists
import SchemaLoom.Proofs.Sdl.Edit
import SchemaLoom.Sdl.Site

namespace SchemaLoom.Sdl

/-- The types of a document that directives act on. -/
def Document.declarations (doc : Document) : List Declaration :=
  doc.definitions.filterMap Declaration.ofDefinition?

/-- The fields of an input type. -/
def Declaration.inputFields : Declaration → List InputField
  | .object _ => []
  | .input body => body.fields

/-- Names tell types with fields apart, and the fields of such a type. -/
structure Document.IsDistinct (doc : Document) : Prop where
  types : (targetNames doc.definitions).Nodup
  fields : ∀ d ∈ doc.declarations, (d.fields.map (·.name)).Nodup

instance (doc : Document) : Decidable doc.IsDistinct :=
  decidable_of_iff ((targetNames doc.definitions).Nodup ∧
      ∀ d ∈ doc.declarations, (d.fields.map (·.name)).Nodup)
    ⟨fun h => ⟨h.1, h.2⟩, fun h => ⟨h.types, h.fields⟩⟩

/-! ### Sites -/

theorem Document.mem_sites {doc : Document} {s : Site} :
    s ∈ doc.sites ↔ ∃ d ∈ doc.declarations, s ∈ d.sites := by
  simp [Document.sites, Document.declarations]

@[simp] theorem Document.type_mem_sites {doc : Document} {d : Declaration} :
    Site.type d ∈ doc.sites ↔ d ∈ doc.declarations := by
  rw [mem_sites]
  constructor
  · rintro ⟨other, hother, hsite⟩
    rcases List.mem_cons.1 hsite with hsame | hfield
    · cases hsame
      exact hother
    · obtain ⟨f, -, hsame⟩ := List.mem_map.1 hfield
      cases hsame
  · intro hd
    exact ⟨d, hd, List.mem_cons_self⟩

@[simp] theorem Document.field_mem_sites {doc : Document} {d : Declaration} {f : DeclaredField} :
    Site.field d f ∈ doc.sites ↔ d ∈ doc.declarations ∧ f ∈ d.fields := by
  rw [mem_sites]
  constructor
  · rintro ⟨other, hother, hsite⟩
    rcases List.mem_cons.1 hsite with hsame | hfield
    · cases hsame
    · obtain ⟨g, hg, hsame⟩ := List.mem_map.1 hfield
      cases hsame
      exact ⟨hother, hg⟩
  · rintro ⟨hd, hf⟩
    exact ⟨d, hd, List.mem_cons_of_mem _ (List.mem_map_of_mem hf)⟩

/-- The definition that declares a type. -/
def Declaration.toDefinition : Declaration → Definition
  | .object body => .object body
  | .input body => .input body

theorem Document.mem_declarations {doc : Document} {d : Declaration} :
    d ∈ doc.declarations ↔ d.toDefinition ∈ doc.definitions := by
  simp only [declarations, List.mem_filterMap]
  constructor
  · rintro ⟨definition, hmem, hof⟩
    cases definition <;> first | cases hof; exact hmem | cases hof
  · intro hmem
    exact ⟨_, hmem, by cases d <;> rfl⟩

theorem Document.mem_objects {doc : Document} {o : ObjectType} :
    o ∈ doc.objects ↔ Definition.object o ∈ doc.definitions := by
  unfold Document.objects
  rw [List.mem_filterMap]
  constructor
  · rintro ⟨d, hd, hobject⟩
    cases d with
    | object body =>
      cases hobject
      exact hd
    | _ => cases hobject
  · intro h
    exact ⟨_, h, rfl⟩

theorem Declaration.isTarget (d : Declaration) : d.toDefinition.isTarget d.name = true := by
  cases d <;> simp [toDefinition, Definition.isTarget, Definition.isEditable, Definition.name?,
    name]

/-! ### Names

A name that occurs once tells which type is meant, and with the name of a field which field.
-/

/-- Of definitions with names of their own, one is reached by a name. -/
theorem eq_of_isTarget {ds : List Definition} (hnodup : (targetNames ds).Nodup) (name : String)
    {d e : Definition} (hd : d ∈ ds) (he : e ∈ ds) (hdname : d.isTarget name = true)
    (hename : e.isTarget name = true) : d = e := by
  induction ds with
  | nil => cases hd
  | cons first ds ih =>
    rw [targetNames_cons, List.nodup_append] at hnodup
    have hapart :
        ∀ other ∈ ds, first.isTarget name = true → other.isTarget name = true → False := by
      intro other hother hfirst hagain
      simp only [Definition.isTarget, Bool.and_eq_true, decide_eq_true_eq] at hfirst
      exact hnodup.2.2 name (by simp [hfirst.1, hfirst.2]) name
        (mem_targetNames.2 ⟨other, hother, hagain⟩) rfl
    rcases List.mem_cons.1 hd with rfl | hdrest <;> rcases List.mem_cons.1 he with rfl | herest
    · rfl
    · exact (hapart e herest hdname hename).elim
    · exact (hapart d hdrest hename hdname).elim
    · exact ih hnodup.2.1 hdrest herest

/-- A name says which type is meant. -/
theorem Document.IsDistinct.declaration_eq {doc : Document} (h : doc.IsDistinct) {d e : Declaration}
    (hd : d ∈ doc.declarations) (he : e ∈ doc.declarations) (hname : d.name = e.name) : d = e := by
  have hsame := eq_of_isTarget h.types d.name (mem_declarations.1 hd) (mem_declarations.1 he)
    d.isTarget (hname ▸ e.isTarget)
  cases d <;> cases e <;> first | cases hsame; rfl | cases hsame

/-- The names of a type and of a field in it say which field is meant. -/
theorem Document.IsDistinct.field_eq {doc : Document} (h : doc.IsDistinct) {d e : Declaration}
    {f g : DeclaredField} (hf : Site.field d f ∈ doc.sites) (hg : Site.field e g ∈ doc.sites)
    (htype : d.name = e.name) (hfield : f.name = g.name) : d = e ∧ f = g := by
  rw [field_mem_sites] at hf hg
  have hsame := h.declaration_eq hf.1 hg.1 htype
  subst hsame
  exact ⟨rfl, List.inj_on_of_nodup_map (h.fields d hf.1) hf.2 hg.2 hfield⟩

/-! ### Addresses -/

/-- The names of the type and of the field of a site. -/
def Site.address (s : Site) : String × Option String := (s.typeName, s.fieldName?)

theorem Document.declarationNames_sublist (ds : List Definition) :
    ((ds.filterMap Declaration.ofDefinition?).map (·.name)).Sublist (targetNames ds) := by
  induction ds with
  | nil => exact List.nil_sublist _
  | cons d ds ih =>
    rw [targetNames_cons]
    cases d with
    | object body => exact ih.cons_cons body.name
    | input body => exact ih.cons_cons body.name
    | interface body => exact ih.cons body.name
    | _ => exact ih

theorem Declaration.nodup_sites {d : Declaration} (h : (d.fields.map (·.name)).Nodup) :
    (d.sites.map Site.address).Nodup := by
  rw [sites, List.map_cons, List.nodup_cons]
  constructor
  · intro hmem
    rw [List.map_map] at hmem
    obtain ⟨f, -, hsame⟩ := List.mem_map.1 hmem
    cases congrArg Prod.snd hsame
  · rw [List.map_map, List.nodup_iff_pairwise_ne, List.pairwise_map]
    refine (List.pairwise_map.1 h).imp ?_
    intro f g hne hsame
    exact hne (Option.some.inj (congrArg Prod.snd hsame))

/-- **Every site has an address of its own (`Site.address`).** -/
theorem Document.IsDistinct.nodup_sites {doc : Document} (h : doc.IsDistinct) :
    (doc.sites.map Site.address).Nodup := by
  have hnames := h.types.sublist (Document.declarationNames_sublist doc.definitions)
  have hsites : doc.sites = doc.declarations.flatMap (·.sites) := rfl
  rw [hsites, List.map_flatMap, List.nodup_iff_pairwise_ne, List.pairwise_flatMap]
  refine ⟨fun d hd => Declaration.nodup_sites (h.fields d hd), ?_⟩
  refine (List.pairwise_map.1 hnames).imp ?_
  intro d e hne x hx y hy hsame
  have htype : ∀ (d : Declaration), ∀ s ∈ d.sites, s.typeName = d.name := by
    intro d s hs
    rcases List.mem_cons.1 hs with rfl | hs
    · rfl
    · obtain ⟨f, -, rfl⟩ := List.mem_map.1 hs
      rfl
  obtain ⟨s, hs, rfl⟩ := List.mem_map.1 hx
  obtain ⟨t, ht, rfl⟩ := List.mem_map.1 hy
  exact hne ((htype d s hs).symm.trans ((congrArg Prod.fst hsame).trans (htype e t ht)))

end SchemaLoom.Sdl
