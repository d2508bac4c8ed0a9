/-
What edits do to descriptions and directives.

An edit of a type goes about the marks at a place of it in one of three ways.  It changes the
directives there, it puts another field in the place, or it leaves the place alone.

Marks of a place that no edit empties (`Edit.Displaces`) are followed through any edits, whatever
fields of the same name come to stand beside it.  If the field is the only one of its name and
remains so (`Edit.Steady`), then what its marks come to is told exactly (`Edit.effect`).
-/
import SchemaLoom.Proofs.Sdl.Keeping
import SchemaLoom.Proofs.Sdl.Settling

namespace SchemaLoom.Sdl

/-! ### Marks -/

/-- What a type or a field carries besides its name and its shape. -/
structure Marks where
  description : Option Description
  directives : List Directive

namespace Site

/-- The description of the type or field at a site. -/
def description : Site → Option Description
  | type (.object body) => body.description
  | type (.input body) => body.description
  | field _ (.output f) => f.description
  | field _ (.input f) => f.description

/-- The marks at a site. -/
def marks (s : Site) : Marks := ⟨s.description, s.directives⟩

end Site

/-- What an edit makes of the directives that it is about. -/
def Edit.change : Edit → List Directive → List Directive
  | .addDirectives _ _ names => Sdl.addDirectives names
  | .removeDirective _ _ directive => dropDirective directive
  | _ => id

/-- The edit puts something else, or nothing, in the place of a field. -/
def Edit.Displaces (e : Edit) (place : Option String) : Prop :=
  match e with
  | .removeField _ name | .replaceField _ name _ => place = some name
  | _ => False

/-- Marks after an edit that is about them. -/
def Marks.after (e : Edit) (m : Marks) : Marks := { m with directives := e.change m.directives }

/-! ### Fields -/

/-- Fields whose marks can be told: no change of directives touches a description. -/
class Described (α : Type) [Member α] extends Marked α where
  description : α → Option Description
  description_mapDirectives : ∀ (change : List Directive → List Directive) (f : α),
    description (Member.mapDirectives change f) = description f

instance : Described Field where
  description f := f.description
  description_mapDirectives _ _ := rfl

instance : Described InputField where
  description f := f.description
  description_mapDirectives _ _ := rfl

section Member

variable {α : Type} [Member α] [Described α] {type name place : String} {e : Edit}
  {ds ds' : List Directive} {fields fields' : List α} {m : Marks}

/-- The marks of a field. -/
def Described.marks (f : α) : Marks := ⟨Described.description f, Marked.directives f⟩

theorem Described.marks_mapDirectives (change : List Directive → List Directive) (f : α) :
    marks (Member.mapDirectives change f)
      = { marks f with directives := change (marks f).directives } := by
  unfold marks
  rw [description_mapDirectives, Marked.directives_mapDirectives]

/-- The marks of the fields of a name. -/
def fieldMarks (name : String) (fields : List α) : List Marks :=
  (fields.filter fun f => Member.name f = name).map Described.marks

@[simp] theorem fieldMarks_append (fs gs : List α) :
    fieldMarks name (fs ++ gs) = fieldMarks name fs ++ fieldMarks name gs := by
  simp [fieldMarks]

theorem fieldMarks_cons (f : α) (fs : List α) :
    fieldMarks name (f :: fs)
      = (if Member.name f = name then [Described.marks f] else []) ++ fieldMarks name fs := by
  by_cases hname : Member.name f = name
  · simp [fieldMarks, hname]
  · simp [fieldMarks, hname]

theorem fieldMarks_eq_nil (h : ∀ f ∈ fields, Member.name f ≠ name) :
    fieldMarks name fields = [] := by
  rw [fieldMarks, List.map_eq_nil_iff, List.filter_eq_nil_iff]
  simpa using h

theorem mem_fieldMarks : m ∈ fieldMarks name fields ↔
    ∃ f ∈ fields, Member.name f = name ∧ Described.marks f = m := by
  simp [fieldMarks, and_assoc]

/-- The marks of the first field of a name come first. -/
theorem fieldMarks_split {before behind : List α} {f : α} (hname : Member.name f = name)
    (hfirst : ∀ g ∈ before, Member.name g ≠ name) :
    fieldMarks name (before ++ f :: behind) = Described.marks f :: fieldMarks name behind := by
  rw [fieldMarks_append, fieldMarks_eq_nil hfirst, fieldMarks_cons, if_pos hname]
  rfl

/-- A field of another name does not matter. -/
theorem fieldMarks_split_of_ne {before behind : List α} {f : α} (hname : Member.name f ≠ name) :
    fieldMarks name (before ++ f :: behind) = fieldMarks name (before ++ behind) := by
  rw [fieldMarks_append, fieldMarks_cons, if_neg hname, fieldMarks_append]
  rfl

/-- Of fields with names of their own, the one of a name is all that there is to mark. -/
theorem fieldMarks_of_nodup (hnodup : (fields.map Member.name).Nodup) {f : α} (hf : f ∈ fields) :
    fieldMarks (Member.name f) fields = [Described.marks f] := by
  have honce : (fields.map Member.name).count (Member.name f) = 1 := by
    rw [hnodup.count, if_pos (List.mem_map_of_mem hf)]
  obtain ⟨before, g, behind, rfl, hname, hapart⟩ := exists_split_of_count honce
  have hsame : f = g := List.inj_on_of_nodup_map hnodup hf (by simp) hname.symm
  subst hsame
  rw [List.forall_mem_append] at hapart
  rw [fieldMarks_split rfl hapart.1, fieldMarks_eq_nil hapart.2]

/-- What an edit does to the directives and the fields of a type. -/
inductive Changes (e : Edit) (ds : List Directive) : List α → List Directive → List α → Prop where
  | add {type text : String} {fields : List α} {f : α} (hedit : e = .addField type text)
    (hparse : Member.parse text = .ok f) : Changes e ds fields ds (fields ++ [f])
  | remove {type name : String} {before behind : List α} {f : α}
      (hedit : e = .removeField type name)
    (hname : Member.name f = name) (hfirst : ∀ g ∈ before, Member.name g ≠ name) :
    Changes e ds (before ++ f :: behind) ds (before ++ behind)
  | replace {type name text : String} {before behind : List α} {f new : α}
    (hedit : e = .replaceField type name text) (hname : Member.name f = name)
    (hfirst : ∀ g ∈ before, Member.name g ≠ name) (hparse : Member.parse text = .ok new) :
    Changes e ds (before ++ f :: behind) ds (before ++ new :: behind)
  /-- The directives of the type itself are changed. -/
  | own {fields : List α} (hplace : e.field? = none) : Changes e ds fields (e.change ds) fields
  /-- The directives of a field are changed. -/
  | inner {name : String} {before behind : List α} {f : α} (hplace : e.field? = some name)
    (hstays : ¬ e.Displaces (some name)) (hname : Member.name f = name)
    (hfirst : ∀ g ∈ before, Member.name g ≠ name) :
    Changes e ds (before ++ f :: behind) ds (before ++ Member.mapDirectives e.change f :: behind)

omit [Described α] in
theorem changes_of_mapDirectives (hplace : e.field? = some name)
    (hstays : ¬ e.Displaces (some name))
    (h : changeField type name (fun f => .ok [Member.mapDirectives e.change f]) fields
      = .ok fields') : Changes e ds fields ds fields' := by
  obtain ⟨before, f, behind, out, rfl, hname, hfirst, hout, rfl⟩ := exists_split_of_changeField h
  cases hout
  rw [List.append_assoc]
  exact .inner hplace hstays hname hfirst

omit [Described α] in
theorem changes_of_editMembers (h : editMembers e ds fields = .ok (ds', fields')) :
    Changes e ds fields ds' fields' := by
  cases e with
  | addField _ text =>
    obtain ⟨f, hparse, h⟩ := Outcome.of_bind_eq_ok h
    cases h
    exact .add rfl hparse
  | removeField _ name =>
    obtain ⟨changed, hchange, h⟩ := Outcome.of_bind_eq_ok h
    cases h
    obtain ⟨before, f, behind, out, rfl, hname, hfirst, hout, rfl⟩ :=
      exists_split_of_changeField hchange
    cases hout
    rw [List.append_nil]
    exact .remove rfl hname hfirst
  | replaceField _ name text =>
    obtain ⟨changed, hchange, h⟩ := Outcome.of_bind_eq_ok h
    cases h
    obtain ⟨before, f, behind, out, rfl, hname, hfirst, hout, rfl⟩ :=
      exists_split_of_changeField hchange
    obtain ⟨new, hparse, hout⟩ := Outcome.of_bind_eq_ok hout
    cases hout
    rw [List.append_assoc]
    exact .replace rfl hname hfirst hparse
  | addDirectives _ place names =>
    cases place with
    | none =>
      cases h
      exact .own rfl
    | some name =>
      obtain ⟨changed, hchange, h⟩ := Outcome.of_bind_eq_ok h
      cases h
      exact changes_of_mapDirectives rfl id hchange
  | removeDirective _ place directive =>
    cases place with
    | none =>
      cases h
      exact .own rfl
    | some name =>
      obtain ⟨changed, hchange, h⟩ := Outcome.of_bind_eq_ok h
      cases h
      exact changes_of_mapDirectives rfl id hchange

/-! ### Marks that stay

Several fields may have one name.  Then an edit reaches the first of them, and the marks of the
others stay as they are.
-/

/-- **The marks of a field that an edit does not displace are left as they are, or changed like the
edit says** (`Marks.after`). -/
theorem Changes.mem_fieldMarks (h : Changes e ds fields ds' fields')
    (hstays : ¬ e.Displaces (some name)) (hm : m ∈ fieldMarks name fields) :
    m ∈ fieldMarks name fields' ∨ m.after e ∈ fieldMarks name fields' := by
  have hother : ∀ {place : String}, e.Displaces (some place) → place ≠ name := by
    rintro place hplace rfl
    exact hstays hplace
  cases h with
  | add hedit hparse => exact Or.inl (by simp [hm])
  | remove hedit hname hfirst =>
    have hapart := hother (by rw [hedit]; rfl)
    rw [fieldMarks_split_of_ne (hname ▸ hapart)] at hm
    exact Or.inl hm
  | replace hedit hname hfirst hparse =>
    have hapart := hother (by rw [hedit]; rfl)
    rw [fieldMarks_split_of_ne (hname ▸ hapart), fieldMarks_append, List.mem_append] at hm
    rw [fieldMarks_append, fieldMarks_cons, List.mem_append, List.mem_append]
    exact Or.inl (hm.imp_right Or.inr)
  | own hplace => exact Or.inl hm
  | @inner place before behind f hplace _ hname hfirst =>
    by_cases hhere : place = name
    · subst hhere
      rw [fieldMarks_split hname hfirst, List.mem_cons] at hm
      rw [fieldMarks_split (by rw [Marked.name_mapDirectives, hname]) hfirst,
        Described.marks_mapDirectives]
      rcases hm with rfl | hbehind
      · exact Or.inr List.mem_cons_self
      · exact Or.inl (List.mem_cons_of_mem _ hbehind)
    · rw [fieldMarks_split_of_ne (hname ▸ hhere)] at hm
      rw [fieldMarks_split_of_ne (by rw [Marked.name_mapDirectives, hname]; exact hhere)]
      exact Or.inl hm

omit [Described α] in
/-- The directives of a type are left as they are, or changed like the edit says. -/
theorem Changes.own_eq (h : Changes e ds fields ds' fields') : ds' = ds ∨ ds' = e.change ds := by
  cases h with
  | own _ => exact Or.inr rfl
  | _ => exact Or.inl rfl

/-! ### Marks told exactly

A name is told apart as long as no edit adds a second field of it or takes the only one away
(`Edit.Steady`).
-/

variable (α) in
/-- The edit leaves the only field of the name `name` the only one. -/
def Edit.Steady (name : String) : Edit → Prop
  | .addField _ text => ∀ f : α, Member.parse text = .ok f → Member.name f ≠ name
  | .removeField _ other => other ≠ name
  | .replaceField _ other text => ∀ f : α, Member.parse text = .ok f → Member.name f = other
  | _ => True

variable (α) in
/-- What an edit makes of the marks of the only field of a name. -/
def Edit.effect (name : String) (e : Edit) (m : Marks) : Marks :=
  if e.field? = some name then
    match e with
    | .replaceField _ _ text =>
      match (Member.parse text : Except EditFault α) with
      | .ok f => Described.marks f
      | .error _ => m
    | _ => m.after e
  else m

theorem Edit.effect_of_ne (h : e.field? ≠ some name) : e.effect α name m = m := if_neg h

theorem Edit.effect_replaceField {text : String} {new : α} (hparse : Member.parse text = .ok new) :
    (Edit.replaceField type name text).effect α name m = Described.marks new := by
  simp [Edit.effect, Edit.field?, hparse]

theorem Edit.effect_of_stays (hplace : e.field? = some name) (hstays : ¬ e.Displaces (some name)) :
    e.effect α name m = m.after e := by
  unfold Edit.effect
  rw [if_pos hplace]
  cases e with
  | replaceField _ other text =>
    cases hplace
    exact absurd rfl hstays
  | _ => rfl

/-- **The marks of the only field of a name after an edit that leaves it the only one** are the
edit's `effect`. -/
theorem Changes.fieldMarks_eq (h : Changes e ds fields ds' fields') (hsteady : e.Steady α name)
    (honly : fieldMarks name fields = [m]) : fieldMarks name fields' = [e.effect α name m] := by
  cases h with
  | @add type text _ f hedit hparse =>
    subst hedit
    have hname := hsteady f hparse
    rw [fieldMarks_append, fieldMarks_cons, if_neg hname, honly,
      Edit.effect_of_ne (by simp [Edit.field?])]
    rfl
  | @remove type other before behind f hedit hname hfirst =>
    subst hedit
    have hother : other ≠ name := hsteady
    rw [fieldMarks_split_of_ne (hname ▸ hother)] at honly
    rw [honly, Edit.effect_of_ne (by simpa [Edit.field?] using hother)]
  | @replace type other text before behind f new hedit hname hfirst hparse =>
    subst hedit
    have hnew : Member.name new = other := hsteady new hparse
    -- The field that is replaced is the one of the name, or its name is another and stays so.
    by_cases hhere : other = name
    · subst hhere
      rw [fieldMarks_split hname hfirst] at honly
      rw [fieldMarks_split hnew hfirst, Edit.effect_replaceField hparse,
        (List.cons_eq_cons.1 honly).2]
    · rw [fieldMarks_split_of_ne (hname ▸ hhere)] at honly
      rw [fieldMarks_split_of_ne (hnew ▸ hhere), honly,
        Edit.effect_of_ne (by simpa [Edit.field?] using hhere)]
  | own hplace => rw [honly, Edit.effect_of_ne (by simp [hplace])]
  | @inner place before behind f hplace hstays hname hfirst =>
    have hsame : Member.name (Member.mapDirectives e.change f) = place := by
      rw [Marked.name_mapDirectives, hname]
    by_cases hhere : place = name
    · subst hhere
      rw [fieldMarks_split hname hfirst] at honly
      obtain ⟨hmarks, hbehind⟩ := List.cons_eq_cons.1 honly
      rw [fieldMarks_split hsame hfirst, Edit.effect_of_stays hplace hstays,
        Described.marks_mapDirectives, hmarks, hbehind]
      rfl
    · rw [fieldMarks_split_of_ne (hname ▸ hhere)] at honly
      rw [fieldMarks_split_of_ne (hsame ▸ hhere), honly,
        Edit.effect_of_ne (by simpa [hplace] using hhere)]

end Member

/-! ### Definitions

By induction over the edits.  Those that are about other places of the type come in between and
leave the marks alone.
-/

variable {place : Option String} {e : Edit} {d d' : Definition}

/-- The marks at a place of a type that directives act on: its own, or those of its fields of a
name. -/
def Definition.marksAt : Option String → Definition → List Marks
  | none, .object body => [⟨body.description, body.directives⟩]
  | none, .input body => [⟨body.description, body.directives⟩]
  | some name, .object body => fieldMarks name body.fields
  | some name, .input body => fieldMarks name body.fields
  | _, _ => []

theorem Definition.exists_marks_of_edit {P : Marks → Prop} (h : d.edit e = .ok d')
    (hstays : ¬ e.Displaces place) (hafter : ∀ m, P m → P (m.after e))
    (hmarks : ∃ m ∈ d.marksAt place, P m) : ∃ m ∈ d'.marksAt place, P m := by
  obtain ⟨m, hm, hp⟩ := hmarks
  -- Whatever the kind of the type, the marks are left as they are or changed.
  suffices hend : m ∈ d'.marksAt place ∨ m.after e ∈ d'.marksAt place by
    rcases hend with hsame | hafterwards
    · exact ⟨m, hsame, hp⟩
    · exact ⟨m.after e, hafterwards, hafter m hp⟩
  cases d with
  | object body =>
    obtain ⟨⟨ds', fields'⟩, hmembers, hsame⟩ := Outcome.of_bind_eq_ok h
    cases hsame
    have hchanges := changes_of_editMembers hmembers
    cases place with
    | none =>
      rw [List.mem_singleton.1 hm]
      rcases hchanges.own_eq with hown | hown <;> simp [marksAt, Marks.after, hown]
    | some name => exact hchanges.mem_fieldMarks hstays hm
  | input body =>
    obtain ⟨⟨ds', fields'⟩, hmembers, hsame⟩ := Outcome.of_bind_eq_ok h
    cases hsame
    have hchanges := changes_of_editMembers hmembers
    cases place with
    | none =>
      rw [List.mem_singleton.1 hm]
      rcases hchanges.own_eq with hown | hown <;> simp [marksAt, Marks.after, hown]
    | some name => exact hchanges.mem_fieldMarks hstays hm
  | _ => cases place <;> cases hm

/-- **What holds of marks and outlasts every edit that is about them holds after all edits, if none
displaces them.** -/
theorem Definition.exists_marks_of_editAll {P : Marks → Prop} {edits : List Edit}
    (h : d.editAll edits = .ok d') (hstays : ∀ e ∈ edits, ¬ e.Displaces place)
    (hafter : ∀ e ∈ edits, ∀ m, P m → P (m.after e)) (hmarks : ∃ m ∈ d.marksAt place, P m) :
    ∃ m ∈ d'.marksAt place, P m :=
  Outcome.foldlM_invariant (fun d => ∃ m ∈ d.marksAt place, P m)
    (fun e he _ _ hmarks hedit => exists_marks_of_edit hedit (hstays e he) (hafter e he) hmarks)
    hmarks h

/-- The marks of the only field of a name in an object type after edits that leave it the only
one. -/
theorem fieldMarks_of_editAll {edits : List Edit} {body : ObjectType} {name : String} {m : Marks}
    (h : (Definition.object body).editAll edits = .ok d')
    (hsteady : ∀ e ∈ edits, e.Steady Field name) (honly : fieldMarks name body.fields = [m]) :
    d'.marksAt (some name) = [edits.foldl (fun m e => e.effect Field name m) m] := by
  induction edits generalizing body m with
  | nil =>
    cases h
    exact honly
  | cons e edits ih =>
    obtain ⟨next, hedit, hrest⟩ := Outcome.of_bind_eq_ok h
    obtain ⟨⟨ds', fields'⟩, hmembers, hsame⟩ := Outcome.of_bind_eq_ok hedit
    cases hsame
    have hnext :=
      (changes_of_editMembers hmembers).fieldMarks_eq (hsteady e List.mem_cons_self) honly
    exact ih hrest (fun other hother => hsteady other (List.mem_cons_of_mem e hother)) hnext

/-! ### Documents -/

/-- **A type that can be told apart is edited by the edits of its name, wherever it stands.** -/
theorem exists_of_editAll {edits : List Edit} {ds ds' : List Definition}
    (h : editAll edits ds = .ok ds') (hnodup : (targetNames ds).Nodup) {name : String} (hd : d ∈ ds)
    (htarget : d.isTarget name = true) :
    ∃ d' ∈ ds', d.editAll (editsOf name edits) = .ok d' := by
  induction ds generalizing edits ds' with
  | nil => cases hd
  | cons first ds ih =>
    have hown := targetNames_cons first ds ▸ hnodup
    rw [List.nodup_append] at hown
    cases heditable : first.isEditable with
    | true =>
      obtain ⟨own, hfirst⟩ := Definition.exists_isTarget heditable
      obtain ⟨edited, rest, rfl, hedit, hrest⟩ := (editAll_cons_of_target hfirst).1 h
      by_cases hname : name = own
      · subst hname
        have hsame := eq_of_isTarget hnodup name hd List.mem_cons_self htarget hfirst
        exact ⟨edited, List.mem_cons_self, hsame ▸ hedit⟩
      · have hlater : d ∈ ds := by
          refine (List.mem_cons.1 hd).resolve_left ?_
          rintro rfl
          exact absurd (isTarget_eq_false_of_ne hfirst hname) (by simp [htarget])
        obtain ⟨d', hd', hedited⟩ := ih hrest hown.2.1 hlater
        rw [editsOf_editsBeyond_of_ne hname] at hedited
        exact ⟨d', List.mem_cons_of_mem edited hd', hedited⟩
    | false =>
      obtain ⟨rest, rfl, hrest⟩ := (editAll_cons_of_plain heditable).1 h
      have hlater : d ∈ ds := by
        refine (List.mem_cons.1 hd).resolve_left ?_
        rintro rfl
        simp [Definition.isTarget, heditable] at htarget
      obtain ⟨d', hd', hedited⟩ := ih hrest hown.2.1 hlater
      exact ⟨d', List.mem_cons_of_mem first hd', hedited⟩

/-- The marks at a place of a declaration are those of its sites there. -/
theorem Declaration.mem_marksAt {d : Declaration} {m : Marks} :
    m ∈ d.toDefinition.marksAt place ↔ ∃ s ∈ d.sites, s.fieldName? = place ∧ s.marks = m := by
  cases place with
  | none =>
    cases d <;> simp [toDefinition, Definition.marksAt, sites, Site.fieldName?, Site.marks,
      Site.description, Site.directives, directives, eq_comm]
  | some name =>
    cases d <;> simp [toDefinition, Definition.marksAt, mem_fieldMarks, sites, fields,
      Site.fieldName?, Site.marks, Site.description, Site.directives, DeclaredField.name,
      DeclaredField.directives, Member.name, Described.marks, Described.description,
      Marked.directives]

end SchemaLoom.Sdl
