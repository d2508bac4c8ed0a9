/-
What is collected, occurrence by occurrence.

Collection takes the occurrences of a document in order, when all its tables are registered.
`Reflects` is the invariant: for the occurrences seen so far, each list of a table and each list
of the catalog holds what those about it say, in their order.  The order is the point.  One more
occurrence is about one thing, so it makes one list one longer and leaves the others
(`Tells.add`, `Tells.skip`), and `Reflects.run` is the induction on the occurrences.

Fields are unique once however often they are said to be, and of several directives about tenancy
the last one counts; these two are where a list is not simply one longer.
-/
import Mathlib.Data.List.Forall2
import Mathlib.Data.List.Nodup
import SchemaLoom.Proofs.Catalog.Topic
import SchemaLoom.Proofs.Lists

namespace SchemaLoom

open Sdl (Site Scope Document)

namespace Catalog

/-! ### What occurrences say

For each topic the catalog has a list of what was said about it.  `Tells` compares the lists of a
table with the occurrences about its type, and `TellsFields` those of single fields.
-/

/-- The keys, relations, rules, unique fields and tenancy of `t` are what the occurrences of `os` in
`scope` say about its type. -/
structure Tells (scope : Scope) (os : List Occurrence) (t : Table) : Prop where
  keys : List.Forall₂ SaysKey (aboutType scope .key t.name os) t.keys
  relations : List.Forall₂ SaysRelation (aboutType scope .relation t.name os) t.relations
  rules : List.Forall₂ SaysRule (aboutType scope .rule t.name os) t.rules
  /-- Fields are unique once, however often they are said to be. -/
  uniqueFields : t.uniqueFields
    = Text.distinct ((aboutType scope .unique t.name os).filterMap (·.1.fieldName?))
  /-- The last directive about tenancy counts. -/
  tenancy : ∃ all, List.Forall₂ SaysTenancy (aboutType scope .tenancy t.name os) all ∧
    t.tenancy = all.getLast?

/-- The field at an occurrence, with its type. -/
def placeOf? (o : Occurrence) : Option (String × String) :=
  o.1.fieldName?.map fun field => (o.1.typeName, field)

/-- The bindings and field rules of `c` are what the occurrences of `os` in `scope` say. -/
structure TellsFields (scope : Scope) (os : List Occurrence) (c : Catalog) : Prop where
  bindings : List.Forall₂ SaysBinding (about scope .binding os) c.bindings
  /-- The fields with rules stand in the order of their first rules. -/
  places : c.fieldRules.map (·.1) = Text.distinct ((about scope .fieldRule os).filterMap placeOf?)
  rules : ∀ type field, List.Forall₂ SaysRule
    ((about scope .fieldRule os).filter fun o => placeOf? o = some (type, field))
    (c.rulesOfField type field)

/-! ### Occurrences one after the other

An occurrence that is about something else, or about another type, leaves `Tells` as it was
(`Tells.skip`).  One about the table makes the list of its topic one longer and no other
(`Tells.add`), so each of the five parts is proved from that part alone.
-/

variable {scope : Scope} {o : Occurrence} {c c' : Catalog} {os : List Occurrence} {t t' : Table}

theorem about_concat (scope : Scope) (topic : Topic) (os : List Occurrence) (o : Occurrence) :
    about scope topic (os ++ [o])
      = about scope topic os ++ if topicOf? scope o = some topic then [o] else [] := by
  rw [about, List.filter_append]
  simp [about, List.filter_singleton]

theorem aboutType_concat (scope : Scope) (topic : Topic) (type : String) (os : List Occurrence)
    (o : Occurrence) : aboutType scope topic type (os ++ [o]) = aboutType scope topic type os ++
      if topicOf? scope o = some topic ∧ o.1.typeName = type then [o] else [] := by
  rw [aboutType, about_concat, List.filter_append]
  by_cases htopic : topicOf? scope o = some topic
  · simp [aboutType, htopic, List.filter_singleton]
  · simp [aboutType, htopic]

/-- What has nothing to do with a table changes nothing about it. -/
theorem Tells.skip (h : Tells scope os t)
    (hother : ∀ topic ∈ topicOf? scope o, o.1.typeName = t.name →
      topic = .table ∨ topic = .fieldRule ∨ topic = .binding) : Tells scope (os ++ [o]) t := by
  have hsame : ∀ topic, topic ≠ .table → topic ≠ .fieldRule → topic ≠ .binding →
      aboutType scope topic t.name (os ++ [o]) = aboutType scope topic t.name os := by
    intro topic htable hrule hbinding
    rw [aboutType_concat, if_neg, List.append_nil]
    rintro ⟨htopic, htype⟩
    rcases hother topic htopic htype with his | his | his
    · exact htable his
    · exact hrule his
    · exact hbinding his
  constructor
  · rw [hsame _ (by decide) (by decide) (by decide)]
    exact h.keys
  · rw [hsame _ (by decide) (by decide) (by decide)]
    exact h.relations
  · rw [hsame _ (by decide) (by decide) (by decide)]
    exact h.rules
  · rw [hsame _ (by decide) (by decide) (by decide)]
    exact h.uniqueFields
  · rw [hsame _ (by decide) (by decide) (by decide)]
    exact h.tenancy

theorem Adds.definition {topic : Topic} (h : Adds o t topic t') : t'.definition = t.definition := by
  cases h with
  | unique _ =>
    unfold Table.addUnique
    split <;> rfl
  | _ => rfl

/-- **One more occurrence about a table makes one list of its items one longer**, namely the list of
its topic (`Adds`). -/
theorem Tells.add {topic : Topic} (h : Tells scope os t) (htopic : topicOf? scope o = some topic)
    (htype : o.1.typeName = t.name) (hadds : Adds o t topic t') : Tells scope (os ++ [o]) t' := by
  have hname : t'.name = t.name := congrArg Sdl.ObjectType.name hadds.definition
  have hhere :
      aboutType scope topic t.name (os ++ [o]) = aboutType scope topic t.name os ++ [o] := by
    rw [aboutType_concat, if_pos ⟨htopic, htype⟩]
  have hthere : ∀ other, topic ≠ other →
      aboutType scope other t.name (os ++ [o]) = aboutType scope other t.name os := by
    intro other hother
    rw [aboutType_concat, if_neg, List.append_nil]
    rintro ⟨hsame, -⟩
    rw [htopic] at hsame
    exact hother (Option.some.inj hsame)
  -- Every other topic has the list that it had, since nothing was said about it.
  have hkeys : topic ≠ .key →
      List.Forall₂ SaysKey (aboutType scope .key t.name (os ++ [o])) t.keys := by
    intro hother
    rw [hthere _ hother]
    exact h.keys
  have hrelations : topic ≠ .relation →
      List.Forall₂ SaysRelation (aboutType scope .relation t.name (os ++ [o])) t.relations := by
    intro hother
    rw [hthere _ hother]
    exact h.relations
  have hrules : topic ≠ .rule →
      List.Forall₂ SaysRule (aboutType scope .rule t.name (os ++ [o])) t.rules := by
    intro hother
    rw [hthere _ hother]
    exact h.rules
  have hunique : topic ≠ .unique → t.uniqueFields
      = Text.distinct
        ((aboutType scope .unique t.name (os ++ [o])).filterMap (·.1.fieldName?)) := by
    intro hother
    rw [hthere _ hother]
    exact h.uniqueFields
  have htenancy : topic ≠ .tenancy → ∃ all,
      List.Forall₂ SaysTenancy (aboutType scope .tenancy t.name (os ++ [o])) all ∧
        t.tenancy = all.getLast? := by
    intro hother
    rw [hthere _ hother]
    exact h.tenancy
  cases hadds with
  | key hsaid =>
    refine ⟨?_, hrelations (by decide), hrules (by decide), hunique (by decide),
      htenancy (by decide)⟩
    rw [hname, hhere]
    exact forall₂_concat h.keys hsaid
  | relation hsaid =>
    refine ⟨hkeys (by decide), ?_, hrules (by decide), hunique (by decide), htenancy (by decide)⟩
    rw [hname, hhere]
    exact forall₂_concat h.relations hsaid
  | rule hsaid =>
    refine ⟨hkeys (by decide), hrelations (by decide), ?_, hunique (by decide),
      htenancy (by decide)⟩
    rw [hname, hhere]
    exact forall₂_concat h.rules hsaid
  | @unique field hfield =>
    have hfields : (t.addUnique field).uniqueFields = Text.distinct
        ((aboutType scope .unique t.name (os ++ [o])).filterMap (·.1.fieldName?)) := by
      -- A field that is unique already is not listed a second time, on either side.
      have hlast : [o].filterMap (·.1.fieldName?) = [field] := by simp [hfield]
      rw [hhere, List.filterMap_append, hlast, Text.distinct_concat, ← h.uniqueFields,
        Table.addUnique]
      by_cases hthere : field ∈ t.uniqueFields
      · simp [hthere]
      · simp [hthere]
    have hrest :
        Tells scope (os ++ [o]) { t with uniqueFields := (t.addUnique field).uniqueFields } :=
      ⟨hkeys (by decide), hrelations (by decide), hrules (by decide), hfields, htenancy (by decide)⟩
    have heq : t.addUnique field = { t with uniqueFields := (t.addUnique field).uniqueFields } := by
      unfold Table.addUnique
      split <;> rfl
    rw [heq]
    exact hrest
  | @tenancy tenancy hsaid =>
    refine ⟨hkeys (by decide), hrelations (by decide), hrules (by decide), hunique (by decide), ?_⟩
    obtain ⟨all, hall, -⟩ := h.tenancy
    rw [hname, hhere]
    exact ⟨all ++ [tenancy], forall₂_concat hall hsaid, by simp⟩

/-! ### Rules of fields

The rules of fields are kept by field, in the order in which fields got their first rule.  So one
more rule either stands at the end of a list that is there or begins a list at the end.
-/

/-- A rule of a field that had none stands last. -/
theorem map_addRuleTo (place : String × String) (rule : Access.Rule)
    (entries : List ((String × String) × List Access.Rule)) :
    (addRuleTo place rule entries).map (·.1) =
      if place ∈ entries.map (·.1) then entries.map (·.1) else entries.map (·.1) ++ [place] := by
  induction entries with
  | nil => simp [addRuleTo]
  | cons entry rest ih =>
    obtain ⟨other, rules⟩ := entry
    rw [addRuleTo]
    by_cases hsame : other = place
    · simp [hsame]
    · have hother : place ≠ other := Ne.symm hsame
      simp only [hsame, if_false, List.map_cons, ih, List.mem_cons, hother, false_or]
      split <;> rfl

/-- Only the rules of one field become one more. -/
theorem lookup_addRuleTo (place other : String × String) (rule : Access.Rule)
    (entries : List ((String × String) × List Access.Rule)) :
    ((addRuleTo place rule entries).lookup other).getD [] =
      (entries.lookup other).getD [] ++ if place = other then [rule] else [] := by
  induction entries with
  | nil =>
    by_cases hhere : place = other
    · simp [addRuleTo, hhere]
    · have hthere : (other == place) = false := by simpa using Ne.symm hhere
      simp [addRuleTo, List.lookup_cons, hhere, hthere]
  | cons entry rest ih =>
    obtain ⟨first, rules⟩ := entry
    rw [addRuleTo]
    by_cases hsame : first = place
    · subst hsame
      rw [if_pos rfl, List.lookup_cons, List.lookup_cons]
      by_cases hhere : other = first
      · simp [hhere]
      · have hapart : (other == first) = false := by simpa using hhere
        simp [hapart, Ne.symm hhere]
    · rw [if_neg hsame, List.lookup_cons, List.lookup_cons]
      by_cases hhere : other = first
      · subst hhere
        simp [Ne.symm hsame]
      · have hapart : (other == first) = false := by simpa using hhere
        simp [hapart, ih]

/-- What is about no field and no binding changes nothing that is said of them. -/
theorem TellsFields.skip (h : TellsFields scope os c) (hsame : c'.bindings = c.bindings)
    (hrules : c'.fieldRules = c.fieldRules)
    (hother : topicOf? scope o ≠ some .fieldRule ∧ topicOf? scope o ≠ some .binding) :
    TellsFields scope (os ++ [o]) c' := by
  constructor
  · rw [about_concat, if_neg hother.2, List.append_nil, hsame]
    exact h.bindings
  · rw [about_concat, if_neg hother.1, List.append_nil, hrules]
    exact h.places
  · rw [about_concat, if_neg hother.1, List.append_nil]
    unfold rulesOfField
    rw [hrules]
    exact h.rules

theorem TellsFields.bind (h : TellsFields scope os c) (htopic : topicOf? scope o = some .binding)
    {b : Binding} (hsaid : SaysBinding o b) : TellsFields scope (os ++ [o]) (c.bind b) := by
  have hnone : about scope .fieldRule (os ++ [o]) = about scope .fieldRule os := by
    rw [about_concat, htopic, if_neg (by decide), List.append_nil]
  constructor
  · rw [about_concat, if_pos htopic]
    exact forall₂_concat h.bindings hsaid
  · rw [hnone]
    exact h.places
  · rw [hnone]
    exact h.rules

/-- **One more rule of a field is the last one of the field.** -/
theorem TellsFields.addFieldRule (h : TellsFields scope os c)
    (htopic : topicOf? scope o = some .fieldRule) {field : String} {rule : Access.Rule}
    (hfield : o.1.fieldName? = some field) (hsaid : SaysRule o rule) :
    TellsFields scope (os ++ [o]) (c.addFieldRule o.1.typeName field rule) := by
  have hplace : placeOf? o = some (o.1.typeName, field) := by
    rw [placeOf?, hfield]
    rfl
  have hhere : about scope .fieldRule (os ++ [o]) = about scope .fieldRule os ++ [o] := by
    rw [about_concat, if_pos htopic]
  constructor
  · rw [about_concat, htopic, if_neg (by decide), List.append_nil]
    exact h.bindings
  · rw [hhere, List.filterMap_append, List.filterMap_cons_some hplace, List.filterMap_nil,
      Text.distinct_concat, ← h.places]
    show (addRuleTo (o.1.typeName, field) rule c.fieldRules).map (·.1) = _
    convert map_addRuleTo (o.1.typeName, field) rule c.fieldRules
  · intro type name
    have hrules : (c.addFieldRule o.1.typeName field rule).rulesOfField type name
        = c.rulesOfField type name ++ if (o.1.typeName, field) = (type, name) then [rule] else [] :=
      lookup_addRuleTo _ _ _ _
    rw [hhere, hrules, List.filter_append]
    by_cases hsame : (o.1.typeName, field) = (type, name)
    · rw [if_pos hsame, List.filter_cons_of_pos (by simp [hplace, hsame]), List.filter_nil]
      exact forall₂_concat (h.rules type name) hsaid
    · rw [if_neg hsame, List.filter_cons_of_neg (by simpa [hplace] using hsame), List.filter_nil,
        List.append_nil, List.append_nil]
      exact h.rules type name

/-! ### Collection

The catalog reflects the occurrences seen so far (`Reflects`).  One more occurrence is seen by all
topics at once, of which it changes one.
-/

/-- `c` holds the tables of `bodies`, no two of one name, and of them and of fields what the
occurrences of `os` say. -/
structure Reflects (bodies : List Sdl.ObjectType) (os : List Occurrence) (c : Catalog) : Prop where
  names : c.tableNames.Nodup
  definitions : c.tables.map (·.definition) = bodies
  tables : ∀ t ∈ c.tables, Tells c.scope os t
  fields : TellsFields c.scope os c

theorem map_definition_putTable (hnodup : c.tableNames.Nodup) (ht : t ∈ c.tables)
    (hsame : t'.definition = t.definition) :
    (c.putTable t').tables.map (·.definition) = c.tables.map (·.definition) := by
  unfold putTable
  rw [List.map_map]
  refine List.map_congr_left fun other hother => ?_
  by_cases hname : other.name = t'.name
  · have hhere : other = t := by
      refine List.inj_on_of_nodup_map hnodup hother ht (hname.trans ?_)
      exact congrArg Sdl.ObjectType.name hsame
    rw [Function.comp_apply, if_pos hname, hsame, hhere]
  · rw [Function.comp_apply, if_neg hname]

variable {bodies : List Sdl.ObjectType}

/-- **One more occurrence is collected as what it is about** (`Collects`), and the catalog reflects
one occurrence more. -/
theorem Reflects.collects (h : Reflects bodies os c)
    (hcollects : Collects o c (topicOf? c.scope o) c') : Reflects bodies (os ++ [o]) c' := by
  -- The topic is named first: the cases fix it, and it stands in every other hypothesis.
  generalize htopic : topicOf? c.scope o = topic? at hcollects
  cases hcollects with
  | idle hidle =>
    have hother : ∀ topic, topic ≠ .table → topicOf? c.scope o ≠ some topic := by
      intro topic hne hsame
      exact hne (hidle topic (htopic ▸ hsame))
    refine ⟨h.names, h.definitions, fun t ht => (h.tables t ht).skip ?_, h.fields.skip rfl rfl
      ⟨hother _ (by decide), hother _ (by decide)⟩⟩
    intro topic habout _
    exact Or.inl (hidle topic (htopic ▸ habout))
  | @pass topic htable hapart =>
    refine ⟨h.names, h.definitions, fun t ht => (h.tables t ht).skip ?_, h.fields.skip rfl rfl ?_⟩
    · intro _ _ htype
      have hfound := (table?_eq_some_iff h.names).2 ⟨ht, htype.symm⟩
      rw [htable] at hfound
      cases hfound
    · rw [htopic]
      exact ⟨fun hsame => hapart.1 (Option.some.inj hsame),
        fun hsame => hapart.2 (Option.some.inj hsame)⟩
  | @add topic t t' htable hadds =>
    obtain ⟨ht, hname⟩ := mem_of_table? htable
    have hsamename : t'.name = t.name := congrArg Sdl.ObjectType.name hadds.definition
    have hdefinitions := map_definition_putTable h.names ht hadds.definition
    refine ⟨(tableNames_putTable c t').symm ▸ h.names, hdefinitions.trans h.definitions, ?_,
      h.fields.skip rfl rfl ?_⟩
    · intro other hother
      rcases of_mem_putTable hother with rfl | ⟨hold, hne⟩
      · exact (h.tables t ht).add htopic hname.symm hadds
      · refine (h.tables other hold).skip fun _ _ htype => ?_
        exact absurd (htype.symm.trans (hname.symm.trans hsamename.symm)) hne
    · rw [htopic]
      cases hadds <;> exact ⟨by decide, by decide⟩
  | @bind b hsaid =>
    refine ⟨h.names, h.definitions, fun t ht => (h.tables t ht).skip ?_,
      h.fields.bind htopic hsaid⟩
    intro topic habout _
    rw [htopic] at habout
    exact Or.inr (Or.inr (Option.some.inj habout).symm)
  | @fieldRule field rule hfield hsaid =>
    refine ⟨h.names, h.definitions, fun t ht => (h.tables t ht).skip ?_,
      h.fields.addFieldRule htopic hfield hsaid⟩
    intro topic habout _
    rw [htopic] at habout
    exact Or.inr (Or.inl (Option.some.inj habout).symm)

/-- **What is collected is what the occurrences say**, by induction on the run: `Reflects` holds of
the occurrences that are done. -/
theorem Reflects.run {document : Document} {done : List Occurrence} (h : Reflects bodies done c)
    (hsites : ∀ o ∈ os, o.1 ∈ document.sites)
    (hrun : (Catalog.run .collect c os).report.outcome = .ok c') :
    Reflects bodies (done ++ os) c' := by
  rw [outcome_run] at hrun
  induction os generalizing done c with
  | nil =>
    cases hrun
    rwa [List.append_nil]
  | cons o os ih =>
    rw [List.foldl_cons, advance, Outcome.ok_bind] at hrun
    cases hstep : (step .collect c o).outcome with
    | error fault =>
      rw [hstep, foldl_advance_error] at hrun
      cases hrun
    | ok next =>
      rw [hstep] at hrun
      have hnext := h.collects (collects_of_step (hsites o List.mem_cons_self) hstep)
      rw [List.append_cons]
      exact ih hnext (fun other hother => hsites other (List.mem_cons_of_mem o hother)) hrun

end Catalog

end SchemaLoom
