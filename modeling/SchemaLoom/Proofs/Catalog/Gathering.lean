/-
What a catalog gathers from a document.

One occurrence of a directive registers a table, adds to the table of its site, binds a field, or
does nothing; `acts_of_act` says that once, as the relation `Acts`, and what a table gains is the
relation `Table.Gains`.  Whatever every such act preserves, a phase preserves (`run_invariant`),
and both phases together (`exists_classify_of_gather`).

From that it follows what the entries of a catalog rest on (`Rooted`): every table is an object
type of the document, and every relation and every binding a field of it.
`foreignPlaces_of_gather` counts instead of bounding: every relation of an input type that is in
scope has been bound, once for each occurrence.

Nothing is said here about which item an occurrence adds.  That is the subject of the modules
about topics and collection, which go by the kind of the occurrence.
-/
import SchemaLoom.Compile
import SchemaLoom.Outcome
import SchemaLoom.Proofs.Catalog.Classification

namespace SchemaLoom

open Sdl (Site)

/-- The declaration of a table: an object type that is marked as one. -/
def tableOf (name : String) (fields : List Sdl.Field) : Sdl.Definition :=
  .object { description := none, name, interfaces := [], directives := [⟨"model", []⟩], fields }

/-! ### What an occurrence does

A role acts at a site by one of few changes of the catalog.  A fault ends a phase, so only acts
that succeed are told; what a table gains leaves its definition alone, so tables keep their names.
-/

/-- What an occurrence of a directive adds to the table of its site. -/
inductive Table.Gains (site : Site) (t : Table) : Table → Prop where
  | key {key : Key} (hkey : ∀ k ∈ t.keys, k.name ≠ key.name) :
    Table.Gains site t { t with keys := t.keys ++ [key] }
  | relation {d : Sdl.Declaration} {field : Sdl.DeclaredField} {r : Relation}
    (hsite : site = .field d field) (hshape : shapeOf field.type = .ok r.shape)
    (hfield : r.field = field.name) (htarget : r.target = r.shape.base) :
    Table.Gains site t (t.addRelation r)
  | rule {r : Access.Rule} : Table.Gains site t (t.addRule r)
  | unique {d : Sdl.Declaration} {field : Sdl.DeclaredField} (hsite : site = .field d field) :
    Table.Gains site t (t.addUnique field.name)
  | tenancy {tenancy : Tenancy} : Table.Gains site t { t with tenancy := some tenancy }

/-- A table that gains something stays the table of its type. -/
theorem Table.Gains.definition {site : Site} {t t' : Table} (h : t.Gains site t') :
    t'.definition = t.definition := by
  cases h with
  | unique _ =>
    unfold Table.addUnique
    split <;> rfl
  | _ => rfl

/-- A relation that a table gains is a field at the site. -/
theorem Table.Gains.relations {site : Site} {t t' : Table} (h : t.Gains site t') {r : Relation}
    (hr : r ∈ t'.relations) : r ∈ t.relations ∨ ∃ d f, site = .field d f ∧ r.field = f.name ∧
      shapeOf f.type = .ok r.shape ∧ r.target = r.shape.base := by
  cases h with
  | relation hsite hshape hfield htarget =>
    rcases List.mem_append.1 hr with hold | hnew
    · exact Or.inl hold
    · rw [List.mem_singleton] at hnew
      subst hnew
      exact Or.inr ⟨_, _, hsite, hfield, hshape, htarget⟩
  | unique _ =>
    refine Or.inl ?_
    unfold Table.addUnique at hr
    split at hr <;> exact hr
  | _ => exact Or.inl hr

namespace Catalog

/-- What an occurrence of a directive does to a catalog. -/
inductive Acts (o : Occurrence) (c : Catalog) : Catalog → Prop where
  | idle : Acts o c c
  | register {body : Sdl.ObjectType} (hsite : o.1 = .type (.object body))
    (hnew : c.table? body.name = none) :
    Acts o c { c with tables := c.tables ++ [{ definition := body }] }
  | gain {t t' : Table} (htable : c.table? o.1.typeName = some t) (hgains : t.Gains o.1 t') :
    Acts o c (c.putTable t')
  | function {d : Sdl.Declaration} {field : Sdl.Field} {source : String}
    (hsite : o.1 = .field d (.output field)) :
    Acts o c (c.bind (.function o.1.typeName field.name source))
  | foreign {body : Sdl.InputType} {field : Sdl.InputField} {shape : Sdl.Shape}
    (hsite : o.1 = .field (.input body) (.input field)) (hname : o.2.name = Role.connection.name)
    (hshape : shapeOf field.type = .ok shape) :
    Acts o c (c.bind (foreignInput body field shape.base o.2.entries))
  | rule {d : Sdl.Declaration} {field : Sdl.DeclaredField} {rule : Access.Rule}
    (hsite : o.1 = .field d field) :
    Acts o c (c.addFieldRule o.1.typeName field.name rule)

end Catalog

/-- A relation that a field declares has the ends that the field gives it. -/
theorem Relation.ends_of_declared {field : String} {shape : Sdl.Shape} {options : Form.Fields}
    {r : Relation} (h : Relation.declared field shape options = .ok r) :
    r.field = field ∧ r.target = shape.base ∧ r.shape = shape := by
  unfold declared readOptions at h
  obtain ⟨name, -, h⟩ := Outcome.of_bind_eq_ok h
  obtain ⟨foreignKey, -, h⟩ := Outcome.of_bind_eq_ok h
  obtain ⟨myKey, -, h⟩ := Outcome.of_bind_eq_ok h
  obtain ⟨yourKey, -, h⟩ := Outcome.of_bind_eq_ok h
  obtain ⟨sortField, -, h⟩ := Outcome.of_bind_eq_ok h
  obtain ⟨kind, -, h⟩ := Outcome.of_bind_eq_ok h
  cases h
  exact ⟨rfl, rfl, rfl⟩

namespace Catalog

theorem of_checked_eq_ok {α : Type} {role : Role} {site : Site} {check : Form.Check α} {a : α}
    (h : checked role site check = .ok a) : check = .ok a := by
  cases check with
  | error fault => cases h
  | ok b =>
    cases h
    rfl

/-- A change of the table of a site is made if there is one. -/
theorem of_onTable {c c' : Catalog} {role : Role} {site : Site}
    {change : Table → Except Fault Table}
    (h : (c.onTable role site change).outcome = .ok c') :
    c.table? site.typeName = none ∧ c' = c ∨
      ∃ t t', c.table? site.typeName = some t ∧ change t = .ok t' ∧ c' = c.putTable t' := by
  unfold onTable at h
  split at h
  next htable =>
    cases h
    exact Or.inl ⟨htable, rfl⟩
  next t htable =>
    rw [Report.outcome_bind] at h
    obtain ⟨t', hchange, h⟩ := Outcome.of_bind_eq_ok h
    cases h
    exact Or.inr ⟨t, t', htable, hchange, rfl⟩

theorem acts_onTable {o : Occurrence} {c c' : Catalog} {role : Role}
    {change : Table → Except Fault Table}
    (hchange : ∀ t t', change t = .ok t' → t.Gains o.1 t')
    (h : (c.onTable role o.1 change).outcome = .ok c') : Acts o c c' := by
  rcases of_onTable h with ⟨-, rfl⟩ | ⟨t, t', htable, hnext, rfl⟩
  · exact .idle
  · exact .gain htable (hchange t t' hnext)

theorem gains_of_declareRelation {site : Site} {d : Sdl.Declaration} {field : Sdl.DeclaredField}
    {shape : Sdl.Shape} {args : Form.Fields} {t t' : Table} (hsite : site = .field d field)
    (hshape : shapeOf field.type = .ok shape)
    (h : declareRelation site field shape args t = .ok t') : t.Gains site t' := by
  unfold declareRelation at h
  obtain ⟨r, hrelation, h⟩ := Outcome.of_bind_eq_ok h
  cases h
  obtain ⟨hfield, htarget, hsame⟩ := Relation.ends_of_declared (of_checked_eq_ok hrelation)
  subst hsame
  exact .relation hsite hshape hfield htarget

/-- **One occurrence of a directive does one of a few things** (`Acts`). -/
theorem acts_of_act {o : Occurrence} {c c' : Catalog} {role : Role}
    (hrole : role.name = o.2.name) (h : (c.act role o.1 o.2.entries).outcome = .ok c') :
    Acts o c c' := by
  obtain ⟨site, directive⟩ := o
  dsimp only at h hrole
  unfold act at h
  -- The cases are those of `act`, in its order: one for each role at the sites that fit it.
  split at h
  next body =>
    unfold registerType register at h
    rw [Report.outcome_bind] at h
    obtain ⟨next, hnext, h⟩ := Outcome.of_bind_eq_ok h
    cases h
    rw [Report.outcome_lift] at hnext
    split at hnext
    · cases hnext
    next hfree =>
      cases hnext
      exact .register rfl (by simpa [Table.name] using hfree)
  next =>
    refine acts_onTable (o := (site, directive)) ?_ h
    intro t t' hchange
    obtain ⟨key, -, hchange⟩ := Outcome.of_bind_eq_ok hchange
    unfold Table.addKey at hchange
    split at hchange
    · cases hchange
    next hfree =>
      cases hchange
      exact .key (by simpa using hfree)
  next body field =>
    rw [Report.outcome_bind] at h
    obtain ⟨shape, hshape, h⟩ := Outcome.of_bind_eq_ok h
    cases h
    exact .foreign rfl hrole.symm hshape
  next d field _ =>
    rw [Report.outcome_bind] at h
    obtain ⟨shape, hshape, h⟩ := Outcome.of_bind_eq_ok h
    exact acts_onTable (o := (.field d field, directive))
      (fun t t' hchange => gains_of_declareRelation rfl hshape hchange) h
  next d field =>
    rw [Report.outcome_bind] at h
    obtain ⟨binding, hbinding, h⟩ := Outcome.of_bind_eq_ok h
    cases h
    simp only [Report.outcome_lift, functionBinding] at hbinding
    split at hbinding
    · cases hbinding
      exact .function rfl
    · cases hbinding
  next =>
    rw [Report.outcome_bind] at h
    obtain ⟨rule, -, h⟩ := Outcome.of_bind_eq_ok h
    cases site with
    | field d field =>
      cases h
      exact .rule rfl
    | type d =>
      refine acts_onTable (o := (.type d, directive)) ?_ h
      intro t t' hchange
      cases hchange
      exact .rule
  next d field =>
    refine acts_onTable (o := (.field d field, directive)) ?_ h
    intro t t' hchange
    cases hchange
    exact .unique rfl
  next =>
    refine acts_onTable (o := (site, directive)) ?_ h
    intro t t' hchange
    obtain ⟨tenancy, -, hchange⟩ := Outcome.of_bind_eq_ok hchange
    cases hchange
    exact .tenancy
  next =>
    cases h
    exact .idle

/-- A role that an occurrence plays is that of its directive, at a site in scope. -/
theorem of_roleOf? {scope : Sdl.Scope} {phase : Phase} {o : Occurrence} {role : Role}
    (h : roleOf? scope phase o = some role) :
    role.name = o.2.name ∧ role.phase = phase ∧ role.fits o.1 = true ∧
      o.1.inScope scope = true := by
  unfold roleOf? at h
  obtain ⟨hrole, hplays⟩ := Option.filter_eq_some_iff.1 h
  have hname := List.find?_some hrole
  simp only [Bool.and_eq_true, decide_eq_true_eq] at hplays hname
  exact ⟨hname, hplays.1.1, hplays.1.2, hplays.2⟩

/-- What a step does, it does in the phase of its role and at a site in scope. -/
theorem acts_of_step {phase : Phase} {o : Occurrence} {c c' : Catalog}
    (h : (step phase c o).outcome = .ok c') :
    c' = c ∨ o.1.inScope c.scope = true ∧ Acts o c c' ∧
      ∃ role : Role, role.name = o.2.name ∧ role.phase = phase := by
  unfold step at h
  split at h
  · cases h
    exact Or.inl rfl
  next role hrole =>
    obtain ⟨hname, hphase, -, hscope⟩ := of_roleOf? hrole
    exact Or.inr ⟨hscope, acts_of_act hname h, role, hname, hphase⟩

/-- What came of a phase is the catalog that it ended with. -/
theorem catalog_of_report {p : Progress} {c : Catalog} (h : p.report.outcome = .ok c) :
    p.catalog = c := by
  cases hfault : p.fault with
  | some fault => simp [Progress.report, hfault] at h
  | none => simpa [Progress.report, hfault] using h

/-- What every step of a phase preserves holds wherever the phase ends. -/
theorem run_keeps {phase : Phase} (P : Catalog → Prop) {os : List Occurrence}
    (hstep : ∀ o ∈ os, ∀ c c', P c → (step phase c o).outcome = .ok c' → P c') {c : Catalog}
    (hc : P c) : P (run phase c os).catalog := by
  induction os generalizing c with
  | nil => exact hc
  | cons o os ih =>
    rw [run]
    cases houtcome : (step phase c o).outcome with
    | error fault => exact hc
    | ok next =>
      exact ih (fun o ho => hstep o (List.mem_cons_of_mem _ ho))
        (hstep o List.mem_cons_self c next hc houtcome)

/-- What every step of a phase preserves holds at its end. -/
theorem run_invariant {phase : Phase} (P : Catalog → Prop) {os : List Occurrence}
    (hstep : ∀ o ∈ os, ∀ c c', P c → (step phase c o).outcome = .ok c' → P c') {c c' : Catalog}
    (hc : P c) (h : (run phase c os).report.outcome = .ok c') : P c' :=
  catalog_of_report h ▸ run_keeps P hstep hc

/-- What every occurrence preserves, it preserves in both phases together; then relations are
classified. -/
theorem exists_classify_of_gather {c c' : Catalog} (h : c.gather.outcome = .ok c') :
    ∃ registered collected,
      (run .register c (occurrences c.document)).report.outcome = .ok registered ∧
        (run .collect registered (occurrences registered.document)).report.outcome = .ok collected ∧
        c' = collected.classify.1 := by
  unfold gather dispatch at h
  rw [Report.outcome_bind] at h
  obtain ⟨registered, hregistered, h⟩ := Outcome.of_bind_eq_ok h
  rw [Report.outcome_bind] at h
  obtain ⟨collected, hcollected, h⟩ := Outcome.of_bind_eq_ok h
  cases h
  exact ⟨registered, collected, hregistered, hcollected, rfl⟩

/-! ### What entries rest on

Each part of `Rooted` speaks of one kind of entry, and an act makes at most one new entry.  So
each kind of act has its own lemma, and `Rooted.acts` only puts them together.
-/

/-- Every entry of a catalog stands for something that the document declares. -/
structure Rooted (c : Catalog) : Prop where
  tableNames : c.tableNames.Nodup
  tables : ∀ t ∈ c.tables,
    Site.type (.object t.definition) ∈ c.document.sites ∧
      (Site.type (.object t.definition)).inScope c.scope = true
  relations : ∀ t ∈ c.tables, ∀ r ∈ t.relations, ∃ d f,
    Site.field d f ∈ c.document.sites ∧ d.name = t.name ∧ r.field = f.name ∧
      shapeOf f.type = .ok r.shape ∧ r.target = r.shape.base
  functions : ∀ type field source, Binding.function type field source ∈ c.bindings → ∃ d f,
    Site.field d (.output f) ∈ c.document.sites ∧
      (Site.field d (.output f)).inScope c.scope = true ∧
      d.name = type ∧ f.name = field
  foreign : ∀ type field key isCondition,
    Binding.foreignInput type field key isCondition ∈ c.bindings → ∃ body f,
      Site.field (.input body) (.input f) ∈ c.document.sites ∧
        (Site.field (.input body) (.input f)).inScope c.scope = true ∧
        body.name = type ∧ f.name = field ∧ ∃ d ∈ f.directives, d.name = Role.connection.name

theorem rooted_empty (document : Sdl.Document) (schemaName : String) (scope : Sdl.Scope) :
    Rooted { document, schemaName, scope } where
  tableNames := List.nodup_nil
  tables t ht := by cases ht
  relations t ht := by cases ht
  functions _ _ _ h := by cases h
  foreign _ _ _ _ h := by cases h

theorem mem_occurrences {document : Sdl.Document} {o : Occurrence} :
    o ∈ occurrences document ↔ o.1 ∈ document.sites ∧ o.2 ∈ o.1.directives := by
  obtain ⟨site, directive⟩ := o
  simp [occurrences]

/-- A table whose name is not taken yet may be added. -/
theorem nodup_tableNames_register {c : Catalog} {t : Table} (hnodup : c.tableNames.Nodup)
    (hnew : c.table? t.name = none) : ((c.tables ++ [t]).map (·.name)).Nodup := by
  rw [List.map_append, List.map_singleton, ← List.concat_eq_append]
  refine hnodup.concat fun hthere => ?_
  obtain ⟨u, hu, hsame⟩ := List.mem_map.1 hthere
  have hfresh := List.find?_eq_none.1 hnew u hu
  simp only [decide_eq_true_eq] at hfresh
  exact hfresh hsame

/-- A type of the document that has no table yet may be given one. -/
theorem Rooted.register {c : Catalog} {body : Sdl.ObjectType} (h : c.Rooted)
    (hsite : Site.type (.object body) ∈ c.document.sites)
    (hscope : (Site.type (.object body)).inScope c.scope = true)
    (hnew : c.table? body.name = none) :
    Rooted { c with tables := c.tables ++ [{ definition := body }] } := by
  refine ⟨nodup_tableNames_register h.tableNames hnew, ?_, ?_, h.functions, h.foreign⟩
  · intro t ht
    rcases List.mem_append.1 ht with hold | hadded
    · exact h.tables t hold
    · rw [List.mem_singleton] at hadded
      subst hadded
      exact ⟨hsite, hscope⟩
  · intro t ht r hr
    rcases List.mem_append.1 ht with hold | hadded
    · exact h.relations t hold r hr
    · rw [List.mem_singleton] at hadded
      subst hadded
      cases hr

/-- What a table gains at a place of the document rests on the document. -/
theorem Rooted.gain {c : Catalog} {site : Site} {t t' : Table} (h : c.Rooted)
    (hsite : site ∈ c.document.sites) (htable : c.table? site.typeName = some t)
    (hgains : t.Gains site t') : (c.putTable t').Rooted := by
  obtain ⟨hmem, hname⟩ := mem_of_table? htable
  have hsamename : t'.name = t.name := by rw [Table.name, Table.name, hgains.definition]
  refine ⟨(tableNames_putTable c t').symm ▸ h.tableNames, ?_, ?_, h.functions, h.foreign⟩
  · intro other hother
    rcases mem_putTable hother with rfl | hold
    · rw [hgains.definition]
      exact h.tables t hmem
    · exact h.tables other hold
  · intro other hother r hr
    rcases mem_putTable hother with rfl | hold
    · rcases hgains.relations hr with hbefore | ⟨d, f, hfield, hshape, htype, htarget⟩
      · rw [hsamename]
        exact h.relations t hmem r hbefore
      · refine ⟨d, f, hfield ▸ hsite, ?_, hshape, htype, htarget⟩
        rw [hsamename, hname, hfield]
        rfl
    · exact h.relations other hold r hr

/-- A field of the document may be bound to a function. -/
theorem Rooted.bindFunction {c : Catalog} {d : Sdl.Declaration} {field : Sdl.Field}
    {source : String}
    (h : c.Rooted) (hsite : Site.field d (.output field) ∈ c.document.sites)
    (hscope : (Site.field d (.output field)).inScope c.scope = true) :
    (c.bind (.function d.name field.name source)).Rooted := by
  refine ⟨h.tableNames, h.tables, h.relations, ?_, ?_⟩
  · intro type name other hmem
    rcases List.mem_append.1 hmem with hold | hadded
    · exact h.functions type name other hold
    · rw [List.mem_singleton] at hadded
      cases hadded
      exact ⟨d, field, hsite, hscope, rfl, rfl⟩
  · intro type name key isCondition hmem
    rcases List.mem_append.1 hmem with hold | hadded
    · exact h.foreign type name key isCondition hold
    · rw [List.mem_singleton] at hadded
      cases hadded

/-- A field of an input type of the document may be bound to a relation, if a directive asks for
it. -/
theorem Rooted.bindForeign {c : Catalog} {body : Sdl.InputType} {field : Sdl.InputField}
    {directive : Sdl.Directive} (h : c.Rooted)
    (hsite : Site.field (.input body) (.input field) ∈ c.document.sites)
    (hscope : (Site.field (.input body) (.input field)).inScope c.scope = true)
    (hdirective : directive ∈ field.directives) (hname : directive.name = Role.connection.name)
    (base : String) (entries : Form.Fields) :
    (c.bind (foreignInput body field base entries)).Rooted := by
  refine ⟨h.tableNames, h.tables, h.relations, ?_, ?_⟩
  · intro type name other hmem
    rcases List.mem_append.1 hmem with hold | hadded
    · exact h.functions type name other hold
    · rw [List.mem_singleton] at hadded
      cases hadded
  · intro type name key isCondition hmem
    rcases List.mem_append.1 hmem with hold | hadded
    · exact h.foreign type name key isCondition hold
    · rw [List.mem_singleton] at hadded
      cases hadded
      exact ⟨body, field, hsite, hscope, rfl, rfl, directive, hdirective, hname⟩

/-- **What an occurrence does rests on the document**: a catalog stays `Rooted`, with the document
and the scope that it had. -/
theorem Rooted.acts {o : Occurrence} {c c' : Catalog} (h : c.Rooted)
    (ho : o ∈ occurrences c.document) (hscope : o.1.inScope c.scope = true)
    (hacts : Acts o c c') : c'.Rooted ∧ c'.document = c.document ∧ c'.scope = c.scope ∧
      c'.schemaName = c.schemaName := by
  obtain ⟨site, directive⟩ := o
  obtain ⟨hsites, hdirectives⟩ := mem_occurrences.1 ho
  dsimp only at hscope hsites hdirectives
  cases hacts with
  | idle => exact ⟨h, rfl, rfl, rfl⟩
  | register hsite hnew =>
    cases hsite
    exact ⟨h.register hsites hscope hnew, rfl, rfl, rfl⟩
  | gain htable hgains => exact ⟨h.gain hsites htable hgains, rfl, rfl, rfl⟩
  | function hsite =>
    cases hsite
    exact ⟨h.bindFunction hsites hscope, rfl, rfl, rfl⟩
  | foreign hsite hname hshape =>
    cases hsite
    exact ⟨h.bindForeign hsites hscope hdirectives hname _ _, rfl, rfl, rfl⟩
  | rule hsite =>
    exact ⟨⟨h.tableNames, h.tables, h.relations, h.functions, h.foreign⟩, rfl, rfl, rfl⟩

theorem Rooted.kin {c c' : Catalog} (h : c.Rooted) (hkin : c.Kin c') : c'.Rooted where
  tableNames := hkin.tableNames ▸ h.tableNames
  tables t' ht' := by
    obtain ⟨t, ht, hsame⟩ := hkin.tables t' ht'
    rw [hsame.definition, hkin.document, hkin.scope]
    exact h.tables t ht
  relations t' ht' r' hr' := by
    obtain ⟨t, ht, hsame⟩ := hkin.tables t' ht'
    obtain ⟨r, hr, hends⟩ := hsame.exists_relation hr'
    obtain ⟨d, f, hsite, hname, hfield, hshape, htarget⟩ := h.relations t ht r hr
    simp only [Relation.ends, Prod.mk.injEq] at hends
    rw [← hends.1, ← hends.2.1, ← hends.2.2.1, hkin.document, hsame.name]
    exact ⟨d, f, hsite, hname, hfield, hshape, htarget⟩
  functions := by
    rw [hkin.bindings, hkin.document, hkin.scope]
    exact h.functions
  foreign := by
    rw [hkin.bindings, hkin.document, hkin.scope]
    exact h.foreign

/-- What a phase preserves that starts from a catalog of a document. -/
theorem Rooted.run {phase : Phase} {c c' : Catalog} (h : c.Rooted)
    (hrun : (Catalog.run phase c (occurrences c.document)).report.outcome = .ok c') :
    c'.Rooted ∧ c'.document = c.document ∧ c'.scope = c.scope ∧ c'.schemaName = c.schemaName := by
  refine run_invariant (fun next => next.Rooted ∧ next.document = c.document ∧
    next.scope = c.scope ∧ next.schemaName = c.schemaName) ?_ ⟨h, rfl, rfl, rfl⟩ hrun
  rintro o ho next after ⟨hrooted, hdocument, hscope, hname⟩ hstep
  rcases acts_of_step hstep with rfl | ⟨hin, hacts, -⟩
  · exact ⟨hrooted, hdocument, hscope, hname⟩
  · obtain ⟨hafter, hdocument', hscope', hname'⟩ := hrooted.acts (hdocument ▸ ho) hin hacts
    exact ⟨hafter, hdocument'.trans hdocument, hscope'.trans hscope, hname'.trans hname⟩

/-- **The entries of a catalog that was gathered from a document rest on it.** -/
theorem rooted_of_gather {document : Sdl.Document} {schemaName : String} {scope : Sdl.Scope}
    {c : Catalog} (h : (gather { document, schemaName, scope }).outcome = .ok c) :
    c.Rooted ∧ c.document = document ∧ c.scope = scope ∧ c.schemaName = schemaName := by
  obtain ⟨registered, collected, hregistered, hcollected, rfl⟩ := exists_classify_of_gather h
  obtain ⟨hfirst, hdocument, hscope, hname⟩ :=
    (rooted_empty document schemaName scope).run hregistered
  obtain ⟨hsecond, hdocument', hscope', hname'⟩ := hfirst.run hcollected
  have hkin := kin_classify collected
  exact ⟨hsecond.kin hkin, hkin.document.trans (hdocument'.trans hdocument),
    hkin.scope.trans (hscope'.trans hscope), hkin.schemaName.trans (hname'.trans hname)⟩

/-! ### Relations of input types

A binding of a relation stands for the place of the relation.  Collecting adds the place of the
occurrence at hand, if there is one, so the places of a run are those of its occurrences in order.
-/

/-- The place of a relation of an input type that a binding stands for. -/
def foreignPlace? : Binding → Option (String × String)
  | .function .. => none
  | .foreignInput type field _ _ => some (type, field)

/-- The places of the relations of input types that are bound. -/
def foreignPlaces (c : Catalog) : List (String × String) := c.bindings.filterMap foreignPlace?

/-- The place of the relation of an input type that an occurrence in scope declares. -/
def foreignPlaceOf? (scope : Sdl.Scope) (o : Occurrence) : Option (String × String) :=
  match o.1 with
  | .field (.input body) (.input field) =>
    if o.2.name = Role.connection.name ∧ o.1.inScope scope = true then some (body.name, field.name)
    else none
  | _ => none

/-- An occurrence that declares no relation of an input type binds none. -/
theorem Acts.foreignPlaces {o : Occurrence} {c c' : Catalog} (hacts : Acts o c c')
    (hscope : o.1.inScope c.scope = true) (hnone : foreignPlaceOf? c.scope o = none) :
    c'.foreignPlaces = c.foreignPlaces := by
  cases hacts with
  | function hsite => simp [Catalog.foreignPlaces, bind, foreignPlace?]
  | foreign hsite hname hshape =>
    rw [hsite] at hscope
    simp [foreignPlaceOf?, hsite, hname, hscope] at hnone
  | _ => rfl

/-- **Collecting binds every relation of an input type in scope, and once for each occurrence.** -/
theorem foreignPlaces_step {o : Occurrence} {c c' : Catalog}
    (h : (step .collect c o).outcome = .ok c') :
    c'.foreignPlaces = c.foreignPlaces ++ (foreignPlaceOf? c.scope o).toList := by
  cases hplace : foreignPlaceOf? c.scope o with
  | none =>
    rw [Option.toList_none, List.append_nil]
    rcases acts_of_step h with rfl | ⟨hscope, hacts, -⟩
    · rfl
    · exact hacts.foreignPlaces hscope hplace
  | some place =>
    obtain ⟨site, directive⟩ := o
    unfold foreignPlaceOf? at hplace
    split at hplace
    next body field hsite =>
      dsimp only at hsite
      subst hsite
      split at hplace
      next hforeign =>
        cases hplace
        obtain ⟨hname, hscope⟩ := hforeign
        have hrole : roleOf? c.scope .collect (.field (.input body) (.input field), directive)
            = some .connection := by
          dsimp only at hname hscope
          have hof : Role.ofName? Role.connection.name = some .connection := by decide
          simp [roleOf?, hname, hof, hscope, Role.phase, Role.fits]
        simp only [step, hrole, act, Report.outcome_bind] at h
        obtain ⟨_, -, h⟩ := Outcome.of_bind_eq_ok h
        obtain ⟨shape, -, h⟩ := Outcome.of_bind_eq_ok h
        cases h
        simp [Catalog.foreignPlaces, bind, foreignInput, foreignPlace?]
      · cases hplace
    · cases hplace

theorem foreignPlaces_run {os : List Occurrence} {c c' : Catalog} (h : c.Rooted)
    (hos : ∀ o ∈ os, o ∈ occurrences c.document)
    (hrun : (run .collect c os).report.outcome = .ok c') :
    c'.foreignPlaces = c.foreignPlaces ++ os.filterMap (foreignPlaceOf? c.scope) := by
  induction os generalizing c with
  | nil =>
    cases hrun
    simp [run]
  | cons o os ih =>
    cases houtcome : (step .collect c o).outcome with
    | error fault => simp [run, houtcome, Progress.report] at hrun
    | ok next =>
      have hrest : (run .collect next os).report.outcome = .ok c' := by
        simpa [run, houtcome, Progress.report] using hrun
      have hnext : next.Rooted ∧ next.document = c.document ∧ next.scope = c.scope := by
        rcases acts_of_step houtcome with rfl | ⟨hin, hacts, -⟩
        · exact ⟨h, rfl, rfl⟩
        · obtain ⟨hrooted, hdocument, hscope, -⟩ := h.acts (hos o List.mem_cons_self) hin hacts
          exact ⟨hrooted, hdocument, hscope⟩
      rw [ih hnext.1 (fun o ho => hnext.2.1 ▸ hos o (List.mem_cons_of_mem _ ho)) hrest,
        foreignPlaces_step houtcome, hnext.2.2, List.filterMap_cons]
      cases foreignPlaceOf? c.scope o <;> simp

/-- Registering tables binds nothing. -/
theorem foreignPlaces_register {os : List Occurrence} {c c' : Catalog}
    (hrun : (run .register c os).report.outcome = .ok c') : c'.foreignPlaces = c.foreignPlaces := by
  refine run_invariant (fun next => next.foreignPlaces = c.foreignPlaces) ?_ rfl hrun
  intro o _ next after hnext hstep
  rcases acts_of_step hstep with rfl | ⟨hscope, hacts, role, hname, hphase⟩
  · exact hnext
  · refine (hacts.foreignPlaces hscope ?_).trans hnext
    have hmodel : o.2.name ≠ Role.connection.name := by
      rw [← hname]
      cases role <;> first | decide | cases hphase
    unfold foreignPlaceOf?
    split
    · simp [hmodel]
    · rfl

/-- **The relations of input types that are bound are those that the document declares in
scope.** -/
theorem foreignPlaces_of_gather {document : Sdl.Document} {schemaName : String} {scope : Sdl.Scope}
    {c : Catalog} (h : (gather { document, schemaName, scope }).outcome = .ok c) :
    c.foreignPlaces = (occurrences document).filterMap (foreignPlaceOf? scope) := by
  obtain ⟨registered, collected, hregistered, hcollected, rfl⟩ := exists_classify_of_gather h
  obtain ⟨hfirst, hdocument, hscope, -⟩ := (rooted_empty document schemaName scope).run hregistered
  have hrun := foreignPlaces_run hfirst (fun o ho => ho) hcollected
  rw [foreignPlaces_register hregistered, hdocument, hscope] at hrun
  rw [Catalog.foreignPlaces, (kin_classify collected).bindings]
  exact hrun

end Catalog

/-- What a compiled document is gathered to and emits. -/
theorem of_compileDocument {schemaName : String} {scope : Sdl.Scope} {document : Sdl.Document}
    {compilation : Compilation}
    (h : (compileDocument schemaName scope document).outcome = .ok compilation) :
    (Catalog.gather { document, schemaName, scope }).outcome = .ok compilation.catalog ∧
      compilation.catalog.emit.outcome = .ok compilation.fragments := by
  unfold compileDocument at h
  rw [Report.outcome_bind] at h
  obtain ⟨catalog, hgather, h⟩ := Outcome.of_bind_eq_ok h
  rw [Report.outcome_bind] at h
  obtain ⟨fragments, hemit, h⟩ := Outcome.of_bind_eq_ok h
  cases h
  exact ⟨hgather, hemit⟩

/-- A text is compiled as the document that it is. -/
theorem outcome_compile_of_parse {schemaName text : String} {scope : Sdl.Scope}
    {document : Sdl.Document} (hparse : Sdl.Document.parse text = .ok document) :
    (compile schemaName scope text).outcome
      = (compileDocument schemaName scope document).outcome := by
  unfold compile
  rw [Report.outcome_bind, Report.outcome_lift, parseSchema, hparse]
  rfl

/-- What a compiled text is read as. -/
theorem of_compile {schemaName text : String} {scope : Sdl.Scope} {compilation : Compilation}
    (h : (compile schemaName scope text).outcome = .ok compilation) :
    ∃ document, Sdl.Document.parse text = .ok document ∧
      (compileDocument schemaName scope document).outcome = .ok compilation := by
  unfold compile at h
  rw [Report.outcome_bind] at h
  obtain ⟨document, hparse, h⟩ := Outcome.of_bind_eq_ok h
  refine ⟨document, ?_, h⟩
  rw [Report.outcome_lift, parseSchema] at hparse
  cases htext : Sdl.Document.parse text with
  | error fault =>
    rw [htext] at hparse
    cases hparse
  | ok found =>
    rw [htext] at hparse
    cases hparse
    rfl

end SchemaLoom
