/-
What one directive is about, and what comes of it.

An occurrence of a directive is about one thing, which its name and the kind of its site tell:
a table, an item of a table, a rule of a field, or a binding.  `topicOf?` reads that off the
occurrence alone, so it does not depend on what the catalog holds by then.

`Collects` says what a catalog becomes by one occurrence, with a case for each thing that an
occurrence may be about; the step of the collection is taken apart once, in `collects_of_step`,
and nothing after it unfolds the roles again.  What an item is made from its arguments is left to
the readers of the items (`SaysKey`, `SaysRelation` and their like), which are run, not redone.
-/
import SchemaLoom.Proofs.Catalog.Locality

namespace SchemaLoom

open Sdl (Site Scope Document)

/-! ### What an occurrence is about

The topic of an occurrence is read off its site and its name.  The kinds of items that a directive
says something about each have a predicate: `SaysKey`, `SaysRelation`, `SaysRule`, `SaysTenancy`
and `SaysBinding` run the reader of the item on the arguments of the directive and say what it
returns.
-/

/-- What an occurrence of a directive may be about. -/
inductive Topic where
  | table
  | key
  | relation
  /-- A rule about the items of a table. -/
  | rule
  | unique
  | tenancy
  /-- A rule about a field. -/
  | fieldRule
  | binding
  deriving DecidableEq, Repr

namespace Catalog

/-- What an occurrence that is in scope is about. -/
def topicOf? (scope : Scope) (o : Occurrence) : Option Topic :=
  if o.1.inScope scope then
    match o.1 with
    | .type (.object _) =>
      if o.2.name = "model" then some .table
      else if o.2.name = "key" then some .key
      else if o.2.name = "auth" then some .rule
      else if o.2.name = "multiTenancy" then some .tenancy
      else none
    | .field (.object _) (.output _) =>
      if o.2.name = "connection" then some .relation
      else if o.2.name = "unique" then some .unique
      else if o.2.name = "auth" then some .fieldRule
      else if o.2.name = "function" then some .binding
      else none
    | .field (.input _) (.input _) => if o.2.name = "connection" then some .binding else none
    | _ => none
  else none

/-- The occurrences of `os` that `topicOf?` says are about `topic`. -/
def about (scope : Scope) (topic : Topic) (os : List Occurrence) : List Occurrence :=
  os.filter fun o => topicOf? scope o = some topic

/-- The occurrences of `os` about `topic` at the type `type` or one of its fields. -/
def aboutType (scope : Scope) (topic : Topic) (type : String) (os : List Occurrence) :
    List Occurrence :=
  (about scope topic os).filter fun o => o.1.typeName = type

/-- `Key.read` makes `key` of the arguments of `o`. -/
def SaysKey (o : Occurrence) (key : Key) : Prop := Key.read (.map o.2.entries) = .ok key

/-- `o` stands at a field, and `Relation.declared` makes `r` of the field and the arguments. -/
def SaysRelation (o : Occurrence) (r : Relation) : Prop :=
  ∃ d field shape, o.1 = .field d field ∧ shapeOf field.type = .ok shape ∧
    Relation.declared field.name shape o.2.entries = .ok r

/-- `Access.Rule.declared` makes `rule` of the arguments of `o`. -/
def SaysRule (o : Occurrence) (rule : Access.Rule) : Prop :=
  Access.Rule.declared o.2.entries = .ok rule

/-- `Tenancy.read` makes `tenancy` of the arguments of `o`. -/
def SaysTenancy (o : Occurrence) (tenancy : Tenancy) : Prop :=
  Tenancy.read (.map o.2.entries) = .ok tenancy

/-- `o` binds its field as `b` says: to a function at an output field, or to a foreign key at an
input field. -/
def SaysBinding (o : Occurrence) (b : Binding) : Prop :=
  (∃ d field, o.1 = .field d (.output field) ∧ functionBinding o.1 field o.2.entries = .ok b) ∨
    ∃ body field shape, o.1 = .field (.input body) (.input field) ∧
      shapeOf field.type = .ok shape ∧ b = foreignInput body field shape.base o.2.entries

/-! ### Roles -/

theorem ofName?_name (role : Role) : Role.ofName? role.name = some role := by
  cases role <;> decide

/-- An occurrence plays the role of its name where the role can be played. -/
theorem roleOf?_eq_some_iff {scope : Scope} {phase : Phase} {o : Occurrence} {role : Role} :
    roleOf? scope phase o = some role ↔ role.name = o.2.name ∧ role.phase = phase ∧
      role.fits o.1 = true ∧ o.1.inScope scope = true := by
  constructor
  · exact of_roleOf?
  · rintro ⟨hname, hphase, hfits, hscope⟩
    rw [roleOf?, ← hname, ofName?_name]
    simp [hphase, hfits, hscope]

/-! ### One occurrence

`Adds` and `Collects` are what a step of the collection does, as relations: one constructor for
each list that may grow.  A step is a role acting at a site, and roles are told apart by name and
site, so `collects_of_step` goes by the kind of the site first and by the role then.
-/

/-- What an occurrence of a directive adds to the table of its type. -/
inductive Adds (o : Occurrence) (t : Table) : Topic → Table → Prop where
  | key {key : Key} (hsaid : SaysKey o key) : Adds o t .key { t with keys := t.keys ++ [key] }
  | relation {r : Relation} (hsaid : SaysRelation o r) : Adds o t .relation (t.addRelation r)
  | rule {rule : Access.Rule} (hsaid : SaysRule o rule) : Adds o t .rule (t.addRule rule)
  | unique {field : String} (hfield : o.1.fieldName? = some field) :
    Adds o t .unique (t.addUnique field)
  | tenancy {tenancy : Tenancy} (hsaid : SaysTenancy o tenancy) :
    Adds o t .tenancy { t with tenancy := some tenancy }

/-- What comes of an occurrence when everything but tables is collected. -/
inductive Collects (o : Occurrence) (c : Catalog) : Option Topic → Catalog → Prop where
  /-- The occurrence is about nothing, or has been registered. -/
  | idle {topic? : Option Topic} (hidle : ∀ topic ∈ topic?, topic = .table) :
    Collects o c topic? c
  /-- The type of the occurrence is no table. -/
  | pass {topic : Topic} (htable : c.table? o.1.typeName = none)
    (hapart : topic ≠ .fieldRule ∧ topic ≠ .binding) : Collects o c (some topic) c
  | add {topic : Topic} {t t' : Table} (htable : c.table? o.1.typeName = some t)
    (hadds : Adds o t topic t') : Collects o c (some topic) (c.putTable t')
  | bind {b : Binding} (hsaid : SaysBinding o b) : Collects o c (some .binding) (c.bind b)
  | fieldRule {field : String} {rule : Access.Rule} (hfield : o.1.fieldName? = some field)
    (hsaid : SaysRule o rule) :
    Collects o c (some .fieldRule) (c.addFieldRule o.1.typeName field rule)

variable {scope : Scope} {o : Occurrence} {c c' : Catalog} {role : Role}

/-- What is about something plays a role. -/
theorem exists_role_of_topicOf? {topic : Topic} (h : topicOf? scope o = some topic) :
    ∃ role, roleOf? scope (if topic = .table then .register else .collect) o = some role := by
  obtain ⟨site, directive⟩ := o
  unfold topicOf? at h
  split at h
  next hscope =>
    have hplays : ∀ role : Role, directive.name = role.name → role.fits site = true →
        roleOf? scope role.phase (site, directive) = some role := fun role hname hfits =>
      roleOf?_eq_some_iff.2 ⟨hname.symm, rfl, hfits, hscope⟩
    dsimp only at h
    split at h
    · split_ifs at h with hmodel hkey hauth htenancy <;> cases h
      · exact ⟨.model, hplays .model hmodel rfl⟩
      · exact ⟨.key, hplays .key hkey rfl⟩
      · exact ⟨.auth, hplays .auth hauth rfl⟩
      · exact ⟨.multiTenancy, hplays .multiTenancy htenancy rfl⟩
    · split_ifs at h with hconnection hunique hauth hfunction <;> cases h
      · exact ⟨.connection, hplays .connection hconnection rfl⟩
      · exact ⟨.unique, hplays .unique hunique rfl⟩
      · exact ⟨.auth, hplays .auth hauth rfl⟩
      · exact ⟨.function, hplays .function hfunction rfl⟩
    · split_ifs at h with hconnection
      cases h
      exact ⟨.connection, hplays .connection hconnection rfl⟩
    · cases h
  next => cases h

/-- What plays no role when everything but tables is collected is about tables if about anything. -/
theorem eq_table_of_roleOf? (h : roleOf? scope .collect o = none) :
    ∀ topic ∈ topicOf? scope o, topic = .table := by
  intro topic htopic
  by_contra hother
  obtain ⟨role, hrole⟩ := exists_role_of_topicOf? htopic
  rw [if_neg hother, h] at hrole
  cases hrole

/-- What changes the table of an occurrence adds to it. -/
theorem collects_onTable {topic : Topic} {change : Table → Except Fault Table}
    (hapart : topic ≠ .fieldRule ∧ topic ≠ .binding)
    (hchange : ∀ t t', change t = .ok t' → Adds o t topic t')
    (h : (c.onTable role o.1 change).outcome = .ok c') : Collects o c (some topic) c' := by
  rcases of_onTable h with ⟨htable, rfl⟩ | ⟨t, t', htable, hnext, rfl⟩
  · exact .pass htable hapart
  · exact .add htable (hchange t t' hnext)

/-- A rule comes of the arguments alone. -/
theorem saysRule_of_declareRule {rule : Access.Rule} (h : declareRule o.1 o.2.entries = .ok rule) :
    SaysRule o rule :=
  Outcome.of_mapError_eq_ok h

/-- What comes of an occurrence at an object type. -/
theorem collects_of_type {body : Sdl.ObjectType} (hsite : o.1 = .type (.object body))
    (hrole : roleOf? c.scope .collect o = some role)
    (h : (c.act role o.1 o.2.entries).outcome = .ok c') : Collects o c (topicOf? c.scope o) c' := by
  obtain ⟨site, directive⟩ := o
  obtain ⟨hname, hphase, hfits, hscope⟩ := of_roleOf? hrole
  dsimp only at hsite
  subst hsite
  have htopic : topicOf? c.scope (.type (.object body), directive) =
      if role.name = "model" then some .table
      else if role.name = "key" then some .key
      else if role.name = "auth" then some .rule
      else if role.name = "multiTenancy" then some .tenancy
      else none := by
    rw [hname]
    exact if_pos hscope
  rw [htopic]
  cases role with
  | model => cases hphase
  | key =>
    refine collects_onTable ⟨by decide, by decide⟩ (fun t t' hchange => ?_) h
    obtain ⟨key, hkey, hchange⟩ := Outcome.of_bind_eq_ok hchange
    unfold Table.addKey at hchange
    split at hchange
    · cases hchange
    · cases hchange
      exact .key (of_checked_eq_ok hkey)
  | auth =>
    unfold act at h
    rw [Report.outcome_bind] at h
    obtain ⟨rule, hrule, h⟩ := Outcome.of_bind_eq_ok h
    refine collects_onTable ⟨by decide, by decide⟩ (fun t t' hchange => ?_) h
    cases hchange
    exact .rule (saysRule_of_declareRule hrule)
  | multiTenancy =>
    refine collects_onTable ⟨by decide, by decide⟩ (fun t t' hchange => ?_) h
    obtain ⟨tenancy, htenancy, hchange⟩ := Outcome.of_bind_eq_ok hchange
    cases hchange
    exact .tenancy (of_checked_eq_ok htenancy)
  | connection => cases hfits
  | function => cases hfits
  | unique => cases hfits

/-- What comes of an occurrence at a field of an object type. -/
theorem collects_of_output {body : Sdl.ObjectType} {field : Sdl.Field}
    (hsite : o.1 = .field (.object body) (.output field))
    (hrole : roleOf? c.scope .collect o = some role)
    (h : (c.act role o.1 o.2.entries).outcome = .ok c') : Collects o c (topicOf? c.scope o) c' := by
  obtain ⟨site, directive⟩ := o
  obtain ⟨hname, hphase, hfits, hscope⟩ := of_roleOf? hrole
  dsimp only at hsite
  subst hsite
  have htopic : topicOf? c.scope (.field (.object body) (.output field), directive) =
      if role.name = "connection" then some .relation
      else if role.name = "unique" then some .unique
      else if role.name = "auth" then some .fieldRule
      else if role.name = "function" then some .binding
      else none := by
    rw [hname]
    exact if_pos hscope
  rw [htopic]
  cases role with
  | connection =>
    unfold act at h
    rw [Report.outcome_bind] at h
    obtain ⟨shape, hshape, h⟩ := Outcome.of_bind_eq_ok h
    refine collects_onTable ⟨by decide, by decide⟩ (fun t t' hchange => ?_) h
    obtain ⟨r, hrelation, hchange⟩ := Outcome.of_bind_eq_ok hchange
    cases hchange
    exact .relation ⟨_, _, shape, rfl, hshape, of_checked_eq_ok hrelation⟩
  | function =>
    unfold act at h
    rw [Report.outcome_bind] at h
    obtain ⟨binding, hbinding, h⟩ := Outcome.of_bind_eq_ok h
    cases h
    exact .bind (Or.inl ⟨_, field, rfl, hbinding⟩)
  | auth =>
    unfold act at h
    rw [Report.outcome_bind] at h
    obtain ⟨rule, hrule, h⟩ := Outcome.of_bind_eq_ok h
    cases h
    exact .fieldRule rfl (saysRule_of_declareRule hrule)
  | unique =>
    refine collects_onTable ⟨by decide, by decide⟩ (fun t t' hchange => ?_) h
    cases hchange
    exact .unique rfl
  | model => cases hfits
  | key => cases hfits
  | multiTenancy => cases hfits

/-- What comes of an occurrence at a field of an input type. -/
theorem collects_of_input {body : Sdl.InputType} {field : Sdl.InputField}
    (hsite : o.1 = .field (.input body) (.input field))
    (hrole : roleOf? c.scope .collect o = some role)
    (h : (c.act role o.1 o.2.entries).outcome = .ok c') : Collects o c (topicOf? c.scope o) c' := by
  obtain ⟨site, directive⟩ := o
  obtain ⟨hname, hphase, hfits, hscope⟩ := of_roleOf? hrole
  dsimp only at hsite
  subst hsite
  have htopic : topicOf? c.scope (.field (.input body) (.input field), directive) =
      if role.name = "connection" then some .binding else none := by
    rw [hname]
    exact if_pos hscope
  rw [htopic]
  cases role with
  | connection =>
    unfold act at h
    rw [Report.outcome_bind] at h
    obtain ⟨shape, hshape, h⟩ := Outcome.of_bind_eq_ok h
    cases h
    exact .bind (Or.inr ⟨body, field, shape, rfl, hshape, rfl⟩)
  | _ => cases hfits

/-- The sites of a document are types, and fields of the kind of their type. -/
theorem site_cases {document : Document} {site : Site} (h : site ∈ document.sites) :
    (∃ body, site = .type (.object body)) ∨ (∃ body, site = .type (.input body)) ∨
      (∃ body field, site = .field (.object body) (.output field)) ∨
      ∃ body field, site = .field (.input body) (.input field) := by
  obtain ⟨d, -, hsite⟩ := Document.mem_sites.1 h
  rcases List.mem_cons.1 hsite with rfl | hfield
  · cases d with
    | object body => exact Or.inl ⟨body, rfl⟩
    | input body => exact Or.inr (Or.inl ⟨body, rfl⟩)
  · obtain ⟨f, hf, rfl⟩ := List.mem_map.1 hfield
    cases d with
    | object body =>
      obtain ⟨field, -, rfl⟩ := List.mem_map.1 hf
      exact Or.inr (Or.inr (Or.inl ⟨body, field, rfl⟩))
    | input body =>
      obtain ⟨field, -, rfl⟩ := List.mem_map.1 hf
      exact Or.inr (Or.inr (Or.inr ⟨body, field, rfl⟩))

/-- **One occurrence comes to what it is about** (`Collects`). -/
theorem collects_of_step {document : Document} (hsite : o.1 ∈ document.sites)
    (h : (step .collect c o).outcome = .ok c') : Collects o c (topicOf? c.scope o) c' := by
  unfold step at h
  split at h
  next hrole =>
    cases h
    exact .idle (eq_table_of_roleOf? hrole)
  next role hrole =>
    rcases site_cases hsite with ⟨body, hkind⟩ | ⟨body, hkind⟩ | ⟨body, field, hkind⟩ |
      ⟨body, field, hkind⟩
    · exact collects_of_type hkind hrole h
    · obtain ⟨-, -, hfits, -⟩ := of_roleOf? hrole
      rw [hkind] at hfits
      cases role <;> cases hfits
    · exact collects_of_output hkind hrole h
    · exact collects_of_input hkind hrole h

end Catalog

end SchemaLoom
