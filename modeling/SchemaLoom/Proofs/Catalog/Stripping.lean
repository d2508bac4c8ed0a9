/-
The published schema is rid of internal directives.

The edits in front of another leave in place what that one names: only relations of input types
give up the names of their fields, each of which is edited once (`pairwise_spares`).  And
wherever an internal directive stands that is in scope, there is an edit that takes it away: it
is stripped, or its field as a whole is replaced (`exists_purge`).

So all edits can be made one after the other, and the result has no internal directive left.
That no field of an input type is declared a relation twice is needed for the first half
(`RelatesOnce`): the second edit would not find the field that the first has replaced.

Both halves are stated for a document and then carried over to the file.  The file is put
together from the text of the document, so it is asked that the text can be read back.
-/
import SchemaLoom.Compile
import SchemaLoom.Proofs.Artifact.Assembly
import SchemaLoom.Proofs.Catalog.PublishedEdit
import SchemaLoom.Proofs.Sdl.Append

namespace SchemaLoom

open Sdl Surface

namespace Catalog

variable {c : Catalog}

/-! ### Relations of input types are edited once

Two edits of one such field would make the second one miss it.  They are kept apart by their
addresses, of which each is that of a field.
-/

/-- No field of an input type of `doc` is declared to be a relation more than once. -/
def RelatesOnce (doc : Document) : Prop :=
  ∀ d ∈ doc.declarations, ∀ f ∈ d.inputFields,
    (f.directives.filter fun d => d.name = Role.connection.name).length ≤ 1

instance (doc : Document) : Decidable (RelatesOnce doc) := by
  unfold RelatesOnce
  infer_instance

/-- What a place of a relation of an input type stands for. -/
theorem of_foreignPlaceOf? {scope : Scope} {o : Occurrence} {place : String × String}
    (h : foreignPlaceOf? scope o = some place) :
    ∃ body f, o.1 = .field (.input body) (.input f) ∧ o.2.name = Role.connection.name ∧
      place = (body.name, f.name) := by
  unfold foreignPlaceOf? at h
  split at h
  next body f hsite =>
    split at h
    next hforeign =>
      cases h
      exact ⟨body, f, hsite, hforeign.1, rfl⟩
    · cases h
  · cases h

/-- **No two bindings are about one relation of an input type.** -/
theorem nodup_foreignPlaces {doc : Document} {scope : Scope} (hdistinct : doc.IsDistinct)
    (honce : RelatesOnce doc) : ((occurrences doc).filterMap (foreignPlaceOf? scope)).Nodup := by
  rw [List.nodup_iff_pairwise_ne, List.pairwise_filterMap, occurrences, List.pairwise_flatMap]
  constructor
  · intro site hsite
    rw [List.pairwise_map]
    cases site with
    | type d =>
      refine List.pairwise_of_forall fun x y place hx => ?_
      obtain ⟨body, f, hsame, -⟩ := of_foreignPlaceOf? hx
      cases hsame
    | field d f =>
      rw [Document.field_mem_sites] at hsite
      by_cases hforeign : ∃ body field, d = .input body ∧ f = .input field
      · obtain ⟨body, field, rfl, rfl⟩ := hforeign
        obtain ⟨g, hg, hsame⟩ := List.mem_map.1 hsite.2
        cases hsame
        have hpairs := pairwise_of_length_filter_le_one (honce _ hsite.1 field hg)
        refine hpairs.imp ?_
        intro x y hnot place hx place' hy hsame
        obtain ⟨-, -, -, hxname, -⟩ := of_foreignPlaceOf? hx
        obtain ⟨-, -, -, hyname, -⟩ := of_foreignPlaceOf? hy
        exact hnot ⟨by simpa using hxname, by simpa using hyname⟩
      · refine List.pairwise_of_forall fun x y place hx => ?_
        obtain ⟨body, field, hsame, -⟩ := of_foreignPlaceOf? hx
        cases hsame
        exact (hforeign ⟨body, field, rfl, rfl⟩).elim
  · refine (List.pairwise_map.1 hdistinct.nodup_sites).imp ?_
    intro s t hne x hx y hy place hplace place' hplace' hsame
    obtain ⟨d, -, rfl⟩ := List.mem_map.1 hx
    obtain ⟨e, -, rfl⟩ := List.mem_map.1 hy
    obtain ⟨body, f, hs, -, rfl⟩ := of_foreignPlaceOf? hplace
    obtain ⟨body', f', ht, -, rfl⟩ := of_foreignPlaceOf? hplace'
    dsimp only at hs ht
    subst hs ht
    obtain ⟨htype, hfield⟩ := Prod.mk.inj hsame
    exact hne (Prod.ext htype (congrArg some hfield))

/-! ### The edits as a whole

Edits come in four groups, from tables, from relations, from bindings and from stripping.  Within
a group and between groups it is shown which edits spare each other; only bindings remove fields,
so only they need an argument.
-/

/-- An edit of the type of a table spares all others. -/
theorem spares_table (hrooted : c.Rooted) (hdistinct : c.document.IsDistinct) {t : Table}
    (ht : t ∈ c.tables) {e other : Edit} (htype : e.type = t.name) : c.Spares e other := by
  intro body n hbody hname hpurges
  have hsame := hdistinct.declaration_eq (hrooted.mem_declarations ht).1 hbody
    (htype.symm.trans hname)
  cases hsame

theorem spares_addDirectives {type : String} {place : Option String} {names : List String}
    {other : Edit} : c.Spares (.addDirectives type place names) other :=
  fun _ _ _ _ hpurges => (hpurges "").elim

theorem spares_removeDirective {type directive : String} {place : Option String} {other : Edit} :
    c.Spares (.removeDirective type place directive) other := by
  intro body n hbody htype hpurges
  have hempty : "" = directive := (hpurges "").2
  have hother : "a" = directive := (hpurges "a").2
  exact absurd (hempty.trans hother.symm) (by decide)

/-- The edit of a relation of an input type spares whatever is about another place. -/
theorem spares_foreign {type field key : String} {isCondition : Bool} {other : Edit}
    (h : ¬ (other.type = type ∧ other.field? = some field)) :
    c.Spares (foreignInputEdit type field key isCondition) other := by
  intro body n hbody htype hpurges hother
  have hsame : type = body.name := by
    rw [← htype]
    unfold foreignInputEdit
    split <;> rfl
  have hfield : n = field := by
    have hpurged := hpurges ""
    unfold foreignInputEdit at hpurged
    split at hpurged <;> exact Option.some.inj hpurged
  subst hsame hfield
  exact h hother

/-- The place that the edit of a binding names, if it is about an input type. -/
theorem foreignPlace_of_edit {b : Binding} (hb : b ∈ c.bindings) (hrooted : c.Rooted)
    (hdistinct : c.document.IsDistinct) {e : Edit} (he : e ∈ bindingEdits c b) {body : InputType}
    (hbody : .input body ∈ c.document.declarations) (htype : e.type = body.name) {field : String}
    (hfield : e.field? = some field) : foreignPlace? b = some (body.name, field) := by
  cases b with
  | function type name source =>
    obtain ⟨d, f, hsite, -, rfl, rfl⟩ := hrooted.functions type name source hb
    rw [Document.field_mem_sites] at hsite
    rw [bindingEdits] at he
    split at he
    · cases he
    · rw [List.mem_singleton] at he
      subst he
      have hsame := hdistinct.declaration_eq hsite.1 hbody htype
      subst hsame
      obtain ⟨g, -, hg⟩ := List.mem_map.1 hsite.2
      cases hg
  | foreignInput type name key isCondition =>
    rw [bindingEdits, List.mem_singleton] at he
    subst he
    unfold foreignInputEdit at htype hfield
    split at htype
    next hid =>
      rw [if_pos hid] at hfield
      cases htype
      cases hfield
      rfl
    next hid =>
      rw [if_neg hid] at hfield
      cases htype
      cases hfield
      rfl

theorem type_of_partEdits {t : Table} {part : TablePart} {e : Edit} (he : e ∈ partEdits t part) :
    e.type = t.name := by
  cases part with
  | storage => cases he
  | operations =>
    rcases List.mem_append.1 he with he | he
    · split at he
      · cases he
      · rw [List.mem_singleton] at he
        rw [he]
        rfl
    · rw [Option.mem_toList, Option.map_eq_some_iff] at he
      obtain ⟨tenancy, -, rfl⟩ := he
      rfl
  | query key => cases he
  | relation r =>
    rw [partEdits] at he
    split at he
    · rw [List.mem_singleton] at he
      rw [he]
      rfl
    · cases he

/-- The edits of two bindings spare each other if the bindings are about two places. -/
theorem spares_bindings (hrooted : c.Rooted) (hdistinct : c.document.IsDistinct) {a b : Binding}
    (ha : a ∈ c.bindings) (hb : b ∈ c.bindings)
    (hplaces : ∀ place, foreignPlace? a = some place → foreignPlace? b ≠ some place)
    {e other : Edit}
    (he : e ∈ bindingEdits c a) (hother : other ∈ bindingEdits c b) : c.Spares e other := by
  cases a with
  | function type field source =>
    rw [bindingEdits] at he
    split at he
    · cases he
    · rw [List.mem_singleton] at he
      subst he
      exact spares_addDirectives
  | foreignInput type field key isCondition =>
    rw [bindingEdits, List.mem_singleton] at he
    subst he
    obtain ⟨body, f, hsite, -, rfl, rfl, -⟩ := hrooted.foreign type field key isCondition ha
    rw [Document.field_mem_sites] at hsite
    exact spares_foreign fun hagain => hplaces _ rfl
      (foreignPlace_of_edit hb hrooted hdistinct hother hsite.1 hagain.1 hagain.2)

/-- Relations of input types are not stripped, so their edits spare those that strip. -/
theorem spares_strip (hrooted : c.Rooted) (hdistinct : c.document.IsDistinct) {b : Binding}
    (hb : b ∈ c.bindings) {e other : Edit} (he : e ∈ bindingEdits c b)
    (hother : other ∈ stripEdits c) : c.Spares e other := by
  cases b with
  | function type field source =>
    rw [bindingEdits] at he
    split at he
    · cases he
    · rw [List.mem_singleton] at he
      subst he
      exact spares_addDirectives
  | foreignInput type field key isCondition =>
    rw [bindingEdits, List.mem_singleton] at he
    subst he
    obtain ⟨body, f, hsite, -, rfl, rfl, d, hd, hname⟩ :=
      hrooted.foreign type field key isCondition hb
    refine spares_foreign ?_
    rintro ⟨htype, hfield⟩
    simp only [stripEdits, List.mem_flatMap, List.mem_filter] at hother
    obtain ⟨site, ⟨hstripped, -⟩, hother⟩ := hother
    unfold stripSite at hother
    split at hother
    · cases hother
    next hown =>
      obtain ⟨n, -, rfl⟩ := List.mem_map.1 hother
      cases site with
      | type _ => cases hfield
      | field e g =>
        obtain ⟨rfl, rfl⟩ := hdistinct.field_eq hstripped hsite htype (Option.some.inj hfield)
        refine hown ?_
        simp only [isForeignInput, List.any_eq_true, decide_eq_true_eq]
        exact ⟨d, hd, hname⟩

/-- **No edit asks for what an edit before it has replaced or removed** (`Catalog.Spares`). -/
theorem pairwise_spares (hrooted : c.Rooted) (hdistinct : c.document.IsDistinct)
    (hplaces : c.foreignPlaces.Nodup) : c.publishedEdits.Pairwise c.Spares := by
  -- Edits of tables spare whatever follows; those of bindings need their places to be different.
  have htable : ∀ e ∈ c.tables.flatMap (fun t => t.parts.flatMap (partEdits t)),
      ∀ other, c.Spares e other := by
    intro e he other
    simp only [List.mem_flatMap] at he
    obtain ⟨t, ht, part, -, he⟩ := he
    exact spares_table hrooted hdistinct ht (type_of_partEdits he)
  have hbindings : (c.bindings.flatMap (bindingEdits c)).Pairwise c.Spares := by
    rw [foreignPlaces, List.nodup_iff_pairwise_ne, List.pairwise_filterMap] at hplaces
    refine List.pairwise_flatMap.2 ⟨?_, ?_⟩
    · intro b _
      cases b with
      | function type field source =>
        rw [bindingEdits]
        split
        · exact List.Pairwise.nil
        · exact List.pairwise_singleton ..
      | foreignInput type field key isCondition => exact List.pairwise_singleton ..
    · refine hplaces.imp_of_mem ?_
      intro a b ha hb hne e he other hother
      exact spares_bindings hrooted hdistinct ha hb (fun place hplace hsame =>
        hne place hplace place hsame rfl) he hother
  have hstrip : (stripEdits c).Pairwise c.Spares := by
    refine List.pairwise_of_forall_mem_list fun e he other _ => ?_
    simp only [stripEdits, List.mem_flatMap] at he
    obtain ⟨site, -, he⟩ := he
    unfold stripSite at he
    split at he
    · cases he
    · obtain ⟨n, -, rfl⟩ := List.mem_map.1 he
      exact spares_removeDirective
  rw [publishedEdits, List.pairwise_append, List.pairwise_append]
  refine ⟨⟨List.pairwise_of_forall_mem_list fun e he other _ => htable e he other, hbindings,
    fun e he other _ => htable e he other⟩, hstrip, ?_⟩
  intro e he other hother
  rcases List.mem_append.1 he with he | he
  · exact htable e he other
  · obtain ⟨b, hb, he⟩ := List.mem_flatMap.1 he
    exact spares_strip hrooted hdistinct hb he hother

/-! ### Every edit can be made

The edits are orderly, all fields they ask for are there once, and what has to go has an edit that
takes it away.  That is what `Settles` asks for, and `editAll_settles` does the rest.
-/

theorem orderly_of_pairwise {α : Type} [Member α] [Marked α] {hidden : String → Prop}
    {type : String}
    {edits : List Edit} (hspares : edits.Pairwise c.Spares)
    (heach : ∀ e ∈ edits, e.type = type → ∀ rest : List Edit, (∀ other ∈ rest, other ∈ edits) →
      (∀ other ∈ rest, c.Spares e other) → Admissible α hidden e rest) :
    Orderly α hidden type edits := by
  induction edits with
  | nil => trivial
  | cons e rest ih =>
    rw [List.pairwise_cons] at hspares
    refine ⟨fun htype => heach e List.mem_cons_self htype rest
      (fun other hother => List.mem_cons_of_mem e hother) hspares.1, ih hspares.2 ?_⟩
    intro other hother htype behind hbehind hspared
    exact heach other (List.mem_cons_of_mem e hother) htype behind
      (fun last hlast => List.mem_cons_of_mem e (hbehind last hlast)) hspared

/-- The fields that edits address are there once. -/
theorem count_of_addressed (hrooted : c.Rooted) (hdistinct : c.document.IsDistinct)
    {d : Sdl.Declaration} (hd : d ∈ c.document.declarations) {name : String}
    (h : Addressed c.publishedEdits d.name name) : (d.fields.map (·.name)).count name = 1 := by
  obtain ⟨e, he, htype, hfield⟩ := h
  obtain ⟨-, hfields⟩ := (publishes_of_mem he).declaration_eq hrooted hdistinct hd htype
  obtain ⟨f, hf, rfl⟩ := hfields name hfield
  rw [(hdistinct.fields d hd).count, if_pos (List.mem_map_of_mem hf)]

/-- What has to go from a type of the document has to go since the type is in scope. -/
theorem Hides.scope (hdistinct : c.document.IsDistinct) {d : Sdl.Declaration}
    (hd : d ∈ c.document.declarations) {n : String} (h : c.Hides d.name n) :
    n ∈ internalDirectives ∧ (Site.type d).inScope c.scope = true := by
  obtain ⟨hinternal, other, hother, hname, hscope⟩ := h
  have hsame := hdistinct.declaration_eq hother hd hname
  subst hsame
  exact ⟨hinternal, hscope⟩

/-- **Every internal directive in scope is taken away by some edit** of `Catalog.publishedEdits`. -/
theorem exists_purge (hdistinct : c.document.IsDistinct)
    (hbound : c.foreignPlaces = (occurrences c.document).filterMap (foreignPlaceOf? c.scope))
    (site : Site) (hsite : site ∈ c.document.sites) {d : Directive} (hd : d ∈ site.directives)
    (hhides : c.Hides site.typeName d.name) :
    ∃ e ∈ c.publishedEdits, e.type = site.typeName ∧ e.Purges site.fieldName? d.name := by
  have hdeclaration : site.declaration ∈ c.document.declarations := by
    cases site with
    | type _ => exact Document.type_mem_sites.1 hsite
    | field _ _ => exact (Document.field_mem_sites.1 hsite).1
  obtain ⟨hinternal, hscope⟩ := Hides.scope hdistinct hdeclaration hhides
  have hscope : site.inScope c.scope = true := by
    cases site <;> exact hscope
  by_cases hforeign : isForeignInput site = true
  · cases site with
    | type _ => cases hforeign
    | field declaration f =>
      cases declaration with
      | object _ => cases hforeign
      | input body =>
        obtain ⟨field, -, rfl⟩ := List.mem_map.1 (Document.field_mem_sites.1 hsite).2
        obtain ⟨connection, hconnection, hname⟩ := List.any_eq_true.1 hforeign
        have hplace : (body.name, field.name) ∈ c.foreignPlaces := by
          rw [hbound, List.mem_filterMap]
          refine ⟨(.field (.input body) (.input field), connection),
            mem_occurrences.2 ⟨hsite, hconnection⟩, ?_⟩
          have hrole : connection.name = Role.connection.name := by simpa using hname
          simp [foreignPlaceOf?, hrole, hscope]
        obtain ⟨e, he, htype, hpurges⟩ := foreign_mem hplace
        exact ⟨e, he, htype, hpurges d.name⟩
  · exact ⟨_, strip_mem hsite hscope (by simpa using hforeign) hd hinternal, rfl, rfl, rfl⟩

/-- Every definition of the document is settled by the edits of the published schema. -/
theorem settles_publishedEdits (hrooted : c.Rooted) (hdistinct : c.document.IsDistinct)
    (hnamed : c.document.IsNamed) (hsplices : c.Splices) (honce : RelatesOnce c.document)
    (hbound : c.foreignPlaces = (occurrences c.document).filterMap (foreignPlaceOf? c.scope)) :
    ∀ d ∈ c.document.definitions, d.Settles c.Hides c.publishedEdits := by
  have hplaces : c.foreignPlaces.Nodup := hbound ▸ nodup_foreignPlaces hdistinct honce
  have hpairs := pairwise_spares hrooted hdistinct hplaces
  intro definition hmem
  cases definition with
  | object body =>
    have hbody : .object body ∈ c.document.declarations := Document.mem_declarations.2 hmem
    refine ⟨orderly_of_pairwise hpairs ?_, ?_, ?_, ?_⟩
    · intro e he htype rest hrest _
      exact (publishes_of_mem he).admissible_object hrooted hdistinct hnamed hsplices hbody htype
        fun other hother => publishes_of_mem (hrest other hother)
    · intro name hname
      have hcount := count_of_addressed hrooted hdistinct hbody hname
      simpa [Declaration.fields, Function.comp_def, DeclaredField.name, Member.name] using hcount
    · intro d hd hhides
      exact exists_purge hdistinct hbound (.type (.object body))
        (Document.type_mem_sites.2 hbody) hd hhides
    · intro f hf d hd hhides
      exact exists_purge hdistinct hbound (.field (.object body) (.output f))
        (Document.field_mem_sites.2 ⟨hbody, List.mem_map_of_mem hf⟩) hd hhides
  | input body =>
    have hbody : .input body ∈ c.document.declarations := Document.mem_declarations.2 hmem
    refine ⟨orderly_of_pairwise hpairs ?_, ?_, ?_, ?_⟩
    · intro e he htype rest hrest hspared
      exact (publishes_of_mem he).admissible_input hrooted hdistinct hsplices hbody htype
        (fun other hother => publishes_of_mem (hrest other hother)) hspared
    · intro name hname
      have hcount := count_of_addressed hrooted hdistinct hbody hname
      simpa [Declaration.fields, Function.comp_def, DeclaredField.name, Member.name] using hcount
    · intro d hd hhides
      exact exists_purge hdistinct hbound (.type (.input body))
        (Document.type_mem_sites.2 hbody) hd hhides
    · intro f hf d hd hhides
      exact exists_purge hdistinct hbound (.field (.input body) (.input f))
        (Document.field_mem_sites.2 ⟨hbody, List.mem_map_of_mem hf⟩) hd hhides
  | interface body =>
    -- Edits are about object and input types, none of which shares the name of an interface.
    have hapart : ∀ d ∈ c.document.declarations, d.name ≠ body.name := by
      intro d hd hname
      have hreached : (Definition.interface body).isTarget d.name = true := by
        rw [hname]
        simp [Definition.isTarget, Definition.isEditable, Definition.name?]
      have hsame := eq_of_isTarget hdistinct.types d.name (Document.mem_declarations.1 hd) hmem
        d.isTarget hreached
      cases d <;> cases hsame
    have hnone : ∀ e ∈ c.publishedEdits, e.type ≠ body.name := by
      intro e he htype
      obtain ⟨d, hd, hname, -⟩ := (publishes_of_mem he).declaration hrooted hdistinct
      exact hapart d hd (hname.trans htype)
    refine ⟨orderly_of_pairwise hpairs fun e he htype => absurd htype (hnone e he), ?_, ?_, ?_⟩
    · rintro name ⟨e, he, htype, -⟩
      exact absurd htype (hnone e he)
    · rintro d - ⟨-, other, hother, hname, -⟩
      exact absurd hname (hapart other hother)
    · rintro f - d - ⟨-, other, hother, hname, -⟩
      exact absurd hname (hapart other hother)
  | _ => trivial

/-! ### The published schema -/

/-- No internal directive is left at sites of `result` in scope, be it that they are still in scope
or that the types of their names were in `source`. -/
def IsStripped (scope : Scope) (source result : Document) : Prop :=
  ∀ site ∈ result.sites,
    (site.inScope scope = true ∨
      ∃ s ∈ source.sites, s.typeName = site.typeName ∧ s.inScope scope = true) →
    ∀ d ∈ site.directives, d.name ∉ internalDirectives

/-- A document that holds the types of another one, and nothing else, can be edited like it. -/
theorem exists_stripped (hrooted : c.Rooted) (hdistinct : c.document.IsDistinct)
    (hsettles : ∀ d ∈ c.document.definitions, d.Settles c.Hides c.publishedEdits) {doc : Document}
    (hwithin : ∀ d ∈ doc.definitions, d ∈ c.document.definitions)
    (hnodup : (targetNames doc.definitions).Nodup)
    (htargets : ∀ n ∈ targetNames c.document.definitions, n ∈ targetNames doc.definitions) :
    ∃ result, c.publishedEdits.foldlM Document.edit doc = .ok result ∧
      IsStripped c.scope c.document result := by
  have hreach : ∀ e ∈ c.publishedEdits, e.type ∈ targetNames doc.definitions := by
    intro e he
    obtain ⟨d, hd, hname, -⟩ := (publishes_of_mem he).declaration hrooted hdistinct
    refine htargets _ (mem_targetNames.2 ⟨_, Document.mem_declarations.1 hd, ?_⟩)
    rw [← hname]
    exact d.isTarget
  obtain ⟨ds, hedited, hsettled⟩ := editAll_settles hnodup hreach
    fun d hd => hsettles d (hwithin d hd)
  refine ⟨⟨ds⟩, by rw [foldlM_edit, hedited]; rfl, ?_⟩
  intro site hsite hscope d hd hinternal
  have hdeclaration : site.declaration ∈ Document.declarations ⟨ds⟩ := by
    cases site with
    | type _ => exact Document.type_mem_sites.1 hsite
    | field _ _ => exact (Document.field_mem_sites.1 hsite).1
  have hdefinition := Document.mem_declarations.1 hdeclaration
  have hhides : c.Hides site.typeName d.name := by
    refine ⟨hinternal, ?_⟩
    rcases hscope with hstill | ⟨s, hs, hname, hwas⟩
    · -- A type that no edit reaches is one of the source; any other was reached for being in scope.
      rcases mem_or_reached_of_editAll hedited hdefinition with hold | ⟨e, he, hreached⟩
      · refine ⟨_, Document.mem_declarations.2 (hwithin _ hold), rfl, ?_⟩
        cases site <;> exact hstill
      · obtain ⟨other, hother, hname, hin, -⟩ :=
          (publishes_of_mem he).declaration hrooted hdistinct
        refine ⟨other, hother, ?_, hin⟩
        simp only [Definition.isTarget, Bool.and_eq_true, decide_eq_true_eq] at hreached
        have hsame := site.declaration.isTarget
        simp only [Definition.isTarget, Bool.and_eq_true, decide_eq_true_eq] at hsame
        exact hname.trans (Option.some.inj (hreached.2.symm.trans hsame.2))
    · cases s with
      | type declaration =>
        exact ⟨declaration, Document.type_mem_sites.1 hs, hname, hwas⟩
      | field declaration f =>
        exact ⟨declaration, (Document.field_mem_sites.1 hs).1, hname, hwas⟩
  -- No edit is left, so none can be still to come for a directive that has to go.
  have hdone := hsettled _ hdefinition
  have hnone :
      ∀ place, ¬ ∃ e ∈ ([] : List Edit), e.type = site.typeName ∧ e.Purges place d.name := by
    rintro place ⟨e, he, -⟩
    cases he
  cases site with
  | type declaration =>
    cases declaration with
    | object body => exact hnone _ (hdone.2.own d hd hhides)
    | input body => exact hnone _ (hdone.2.own d hd hhides)
  | field declaration f =>
    obtain ⟨-, hfield⟩ := Document.field_mem_sites.1 hsite
    cases declaration with
    | object body =>
      obtain ⟨g, hg, rfl⟩ := List.mem_map.1 hfield
      exact hnone _ (hdone.2.inner g hg d hd hhides)
    | input body =>
      obtain ⟨g, hg, rfl⟩ := List.mem_map.1 hfield
      exact hnone _ (hdone.2.inner g hg d hd hhides)

end Catalog

open Artifact in
/-- **All that is emitted for the published schema are edits that can be made, and they leave no
internal directive in scope (`Catalog.IsStripped`).** This holds for the document that was compiled,
and for the file that is put together from it if its text can be read back. -/
theorem published_stripped {schemaName text : String} {scope : Scope} {document : Document}
    {compilation : Compilation} (hparse : Document.parse text = .ok document)
    (hdistinct : document.IsDistinct) (honce : Catalog.RelatesOnce document)
    (hcompile : (compileDocument schemaName scope document).outcome = .ok compilation)
    (hsplices : compilation.catalog.Splices)
    (hplace : "schema/" ++ schemaName ∉ compilation.catalog.documentLocations) :
    ∃ edits : List Edit,
      (addressedTo ("schema/" ++ schemaName) compilation.fragments).filterMap (·.patch)
        = edits.map .sdl ∧
      (∃ result, edits.foldlM Document.edit document = .ok result ∧
        Catalog.IsStripped scope document result) ∧
      (Document.parse document.render = .ok document →
        addressedTo ("schema/" ++ schemaName) compilation.fragments ≠ [] →
        ∃ result, assembleDocument ("schema/" ++ schemaName) none
            (addressedTo ("schema/" ++ schemaName) compilation.fragments) = .ok result ∧
          Catalog.IsStripped scope document result) := by
  obtain ⟨hgather, hemit⟩ := of_compileDocument hcompile
  generalize compilation.catalog = c at *
  obtain ⟨hrooted, hdocument, hscope, hname⟩ := Catalog.rooted_of_gather hgather
  have hbound := Catalog.foreignPlaces_of_gather hgather
  have hnamed := Document.isNamed_of_parse hparse
  subst hdocument hscope
  have hpublished : "schema/" ++ schemaName = c.publishedLocation := by
    rw [Catalog.publishedLocation, hname]
  have hsettles := Catalog.settles_publishedEdits hrooted hdistinct hnamed hsplices honce hbound
  have hedits := @Catalog.exists_stripped c hrooted hdistinct hsettles
  rw [hpublished] at hplace ⊢
  have haddressed := Catalog.addressedTo_emit hplace hemit
  refine ⟨c.publishedEdits, ?_, hedits (fun d hd => hd) hdistinct.types (fun n hn => hn), ?_⟩
  · rw [haddressed]
    split
    next hnone => rw [hnone]; rfl
    · simp [Catalog.seed, Fragment.ofText, Fragment.ofEdit, List.filterMap_map, Function.comp_def]
  · intro hback hsome
    rw [haddressed] at hsome ⊢
    have hnone : c.publishedEdits ≠ [] := fun hnone => hsome (if_pos hnone)
    obtain ⟨hnodup, htargets⟩ := targetNames_append_empty hdistinct.types
    have hwithin : ∀ d ∈ (Document.empty.append c.document.definitions).definitions,
        d ∈ c.document.definitions := by
      intro d hd
      rcases mem_append hd with hempty | hmem
      · cases hempty
      · exact hmem
    obtain ⟨result, hresult, hstripped⟩ := hedits hwithin hnodup htargets
    refine ⟨result, ?_, hstripped⟩
    rw [if_neg hnone, Catalog.seed, assembleDocument_ofText hback, hresult]
    rfl

/-- A schema with tables, a relation between them, and an input that refers to one of them. -/
def blogSchema : String :=
  "type Query \x7b feed: [Post] @function(name: \"feed\") \x7d
  type Post @model @multiTenancy \x7b id: ID! comments: [Comment] @connection(name: \"PC\") \x7d
  type Comment @model @auth(provider: IAM) \x7b id: ID! post: Post @connection(name: \"PC\") \x7d
  input NewComment @modelInput(name: \"Comment\") \x7b text: String post: Post @connection \x7d"

open Artifact in
theorem published_stripped_blog : ∃ document compilation,
    Document.parse blogSchema = .ok document ∧
      (compileDocument "schema.graphql" none document).outcome = .ok compilation ∧
      ∃ edits : List Edit,
        (addressedTo ("schema/" ++ "schema.graphql") compilation.fragments).filterMap (·.patch)
          = edits.map .sdl ∧
        ∃ result, edits.foldlM Document.edit document = .ok result ∧
          Catalog.IsStripped none document result := by
  have hchecks : Outcome.Holds (Document.parse blogSchema) fun document =>
      document.IsDistinct ∧ Catalog.RelatesOnce document ∧
        Outcome.Holds (compileDocument "schema.graphql" none document).outcome fun compilation =>
          compilation.catalog.Splices ∧
            "schema/" ++ "schema.graphql" ∉ compilation.catalog.documentLocations := by
    decide +kernel
  obtain ⟨document, hparse, hdistinct, honce, compilation, hcompile, hsplices, hplace⟩ := hchecks
  obtain ⟨edits, hpatches, hresult, -⟩ :=
    published_stripped hparse hdistinct honce hcompile hsplices hplace
  exact ⟨document, compilation, hparse, hcompile, edits, hpatches, hresult⟩

end SchemaLoom
