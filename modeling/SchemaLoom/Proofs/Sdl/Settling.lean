/-
Documents that edits rid of directives.

Edits that are made one after the other depend on each other: each has to find the type and the
field that it addresses, whatever those before it have added, replaced or removed.  Two things
carry a sequence of edits to its end.

  * Every field that is still to be addressed is there exactly once.
  * Every directive that has to go and is still there stands where an edit that is still to
    come takes it away.

When no edit is left, no such directive is.
-/
import SchemaLoom.Proofs.Sdl.Edit

namespace SchemaLoom.Sdl

/-! ### What an edit asks for

Every edit of an orderly sequence can be made when it has its turn: what it adds is in order, and
no later edit asks for a field that it gives up.
-/

/-- The field that an edit addresses within its type. -/
def Edit.field? : Edit → Option String
  | .addField _ _ => none
  | .removeField _ name | .replaceField _ name _ => some name
  | .addDirectives _ name _ | .removeDirective _ name _ => name

/-- The edit takes the directives of a name away from the type, or from the field at `place`. -/
def Edit.Purges (e : Edit) (place : Option String) (directive : String) : Prop :=
  match e with
  | .removeField _ name | .replaceField _ name _ => place = some name
  | .removeDirective _ name n => place = name ∧ directive = n
  | _ => False

/-- One of the edits addresses the field `name` of the type `type`. -/
def Addressed (edits : List Edit) (type name : String) : Prop :=
  ∃ e ∈ edits, e.type = type ∧ e.field? = some name

theorem Addressed.of_cons {edits : List Edit} {e : Edit} {type name : String}
    (h : Addressed edits type name) : Addressed (e :: edits) type name := by
  obtain ⟨other, hother, haddress⟩ := h
  exact ⟨other, List.mem_cons_of_mem e hother, haddress⟩

/-- Fields whose directives can be listed. -/
class Marked (α : Type) [Member α] where
  directives : α → List Directive
  name_mapDirectives : ∀ (change : List Directive → List Directive) (f : α),
    Member.name (Member.mapDirectives change f) = Member.name f
  directives_mapDirectives : ∀ (change : List Directive → List Directive) (f : α),
    directives (Member.mapDirectives change f) = change (directives f)

instance : Marked Field where
  directives f := f.directives
  name_mapDirectives _ _ := rfl
  directives_mapDirectives _ _ := rfl

instance : Marked InputField where
  directives f := f.directives
  name_mapDirectives _ _ := rfl
  directives_mapDirectives _ _ := rfl

section Member

variable (α : Type) [Member α] [Marked α] (hidden : String → Prop)

/-- The text is a field of the name `name`, without a directive that has to go. -/
def Provides (text name : String) : Prop :=
  ∃ f : α, Member.parse text = .ok f ∧ Member.name f = name ∧
    ∀ d ∈ Marked.directives f, ¬ hidden d.name

/-- The edit may be made before those in `rest`: what it adds is in order, and none of those that
follow misses a field or meets one twice for it. -/
def Admissible (e : Edit) (rest : List Edit) : Prop :=
  match e with
  | .addField type text => ∃ name, Provides α hidden text name ∧ ¬ Addressed rest type name
  | .removeField type name => ¬ Addressed rest type name
  | .replaceField type name text => ∃ next, Provides α hidden text next ∧
      (next = name ∨ ¬ Addressed rest type name ∧ ¬ Addressed rest type next)
  | .addDirectives _ _ names => ∀ n ∈ names, ¬ hidden n
  | .removeDirective _ _ _ => True

/-- The edits of the type `type` may be made one after the other. -/
def Orderly (type : String) : List Edit → Prop
  | [] => True
  | e :: rest => (e.type = type → Admissible α hidden e rest) ∧ Orderly type rest

variable {α}

/-- Edits that are still to come will find the fields that they address, and take away all that has
to go. -/
structure Settles (type : String) (edits : List Edit) (ds : List Directive) (fields : List α) :
    Prop where
  reach : ∀ name, Addressed edits type name → (fields.map Member.name).count name = 1
  own : ∀ d ∈ ds, hidden d.name → ∃ e ∈ edits, e.type = type ∧ e.Purges none d.name
  inner : ∀ f ∈ fields, ∀ d ∈ Marked.directives f, hidden d.name →
    ∃ e ∈ edits, e.type = type ∧ e.Purges (some (Member.name f)) d.name

end Member

/-! ### Single fields -/

section Member

variable {α : Type} [Member α] [Marked α] {hidden : String → Prop} {type : String}

omit [Marked α] in
/-- The fields around the only one of a name. -/
theorem exists_split_of_count {fields : List α} {name : String}
    (h : (fields.map Member.name).count name = 1) :
    ∃ before f behind, fields = before ++ f :: behind ∧ Member.name f = name ∧
      ∀ other ∈ before ++ behind, Member.name other ≠ name := by
  induction fields with
  | nil => cases h
  | cons f fields ih =>
    rw [List.map_cons, List.count_cons] at h
    by_cases hname : Member.name f = name
    · have hnone : (fields.map Member.name).count name = 0 := by simpa [hname] using h
      refine ⟨[], f, fields, rfl, hname, ?_⟩
      intro other hother hsame
      exact List.count_eq_zero.1 hnone (List.mem_map.2 ⟨other, hother, hsame⟩)
    · obtain ⟨before, g, behind, rfl, hg, hapart⟩ := ih (by simpa [hname] using h)
      refine ⟨f :: before, g, behind, rfl, hg, ?_⟩
      rw [List.cons_append]
      exact List.forall_mem_cons.2 ⟨hname, hapart⟩

omit [Marked α] in
theorem changeField_append {name : String} {change : α → Except EditFault (List α)}
    {before behind : List α} {f : α} {fs : List α} (hname : Member.name f = name)
    (hapart : ∀ other ∈ before ++ behind, Member.name other ≠ name) (hchange : change f = .ok fs) :
    changeField type name change (before ++ f :: behind) = .ok (before ++ fs ++ behind) := by
  have hfirst : SplitsAt name (before ++ f :: behind) before f behind :=
    ⟨rfl, hname, (List.forall_mem_append.1 hapart).1⟩
  rw [changeField_of_splitsAt hfirst, hchange]
  rfl

/-! ### One edit after another

One lemma for each kind of edit.  The fields that later edits ask for are counted, and the edit
changes no count but that of its own field.
-/

/-- Edits of other types do not matter. -/
theorem Settles.skip {e : Edit} {rest : List Edit} {ds : List Directive} {fields : List α}
    (hother : e.type ≠ type) (h : Settles hidden type (e :: rest) ds fields) :
    Settles hidden type rest ds fields := by
  refine ⟨fun name hname => h.reach name hname.of_cons, ?_, ?_⟩
  · intro d hd hhidden
    obtain ⟨other, hmem, htype, hpurges⟩ := h.own d hd hhidden
    rcases List.mem_cons.1 hmem with rfl | hmem
    · exact absurd htype hother
    · exact ⟨other, hmem, htype, hpurges⟩
  · intro f hf d hd hhidden
    obtain ⟨other, hmem, htype, hpurges⟩ := h.inner f hf d hd hhidden
    rcases List.mem_cons.1 hmem with rfl | hmem
    · exact absurd htype hother
    · exact ⟨other, hmem, htype, hpurges⟩

/-- What the first edit does not take away is left to the others. -/
theorem exists_purge_of_not {e : Edit} {rest : List Edit} {place : Option String}
    {directive : String}
    (h : ∃ other ∈ e :: rest, other.type = type ∧ other.Purges place directive)
    (hnot : ¬ e.Purges place directive) :
    ∃ other ∈ rest, other.type = type ∧ other.Purges place directive := by
  obtain ⟨other, hmem, htype, hpurges⟩ := h
  rcases List.mem_cons.1 hmem with rfl | hmem
  · exact absurd hpurges hnot
  · exact ⟨other, hmem, htype, hpurges⟩

/-- The only field of a name is replaced by fields that are in order; its name may be given up if no
edit asks for it any more. -/
theorem Settles.replace {e : Edit} {rest : List Edit} {ds : List Directive}
    {before behind fs : List α} {f : α}
    (h : Settles hidden type (e :: rest) ds (before ++ f :: behind))
    (hown : ∀ directive, ¬ e.Purges none directive)
    (haway : ∀ g ∈ before ++ behind, ∀ directive, ¬ e.Purges (some (Member.name g)) directive)
    (hcount : ∀ name, Addressed rest type name →
      (fs.map Member.name).count name = if Member.name f = name then 1 else 0)
    (hinner : ∀ g ∈ fs, ∀ d ∈ Marked.directives g, hidden d.name →
      ∃ other ∈ rest, other.type = type ∧ other.Purges (some (Member.name g)) d.name) :
    Settles hidden type rest ds (before ++ fs ++ behind) := by
  refine ⟨?_, ?_, ?_⟩
  · intro name hname
    have hold := h.reach name hname.of_cons
    have hnew := hcount name hname
    simp only [List.map_append, List.map_cons, List.count_append, List.count_cons,
      beq_iff_eq] at hold ⊢
    omega
  · intro d hd hhidden
    exact exists_purge_of_not (h.own d hd hhidden) (hown d.name)
  · intro g hg d hd hhidden
    have hwhere : g ∈ before ++ behind ∨ g ∈ fs := by
      simp only [List.mem_append] at hg ⊢
      grind
    rcases hwhere with hstays | hnew
    · have hold : g ∈ before ++ f :: behind := by
        simp only [List.mem_append, List.mem_cons] at hstays ⊢
        grind
      exact exists_purge_of_not (h.inner g hold d hd hhidden) (haway g hstays d.name)
    · exact hinner g hnew d hd hhidden

/-- The directives of a field that an edit changes still come to be what they should. -/
theorem Settles.mapDirectives {e : Edit} {rest : List Edit} {ds : List Directive}
    {before behind : List α} {f : α} {change : List Directive → List Directive}
    (h : Settles hidden type (e :: rest) ds (before ++ f :: behind))
    (hown : ∀ directive, ¬ e.Purges none directive)
    (haway : ∀ g ∈ before ++ behind, ∀ directive, ¬ e.Purges (some (Member.name g)) directive)
    (hchange : ∀ d ∈ change (Marked.directives f), hidden d.name →
      d ∈ Marked.directives f ∧ ¬ e.Purges (some (Member.name f)) d.name) :
    Settles hidden type rest ds (before ++ [Member.mapDirectives change f] ++ behind) := by
  refine h.replace hown haway ?_ ?_
  · intro name _
    simp [Marked.name_mapDirectives, List.count_singleton, beq_iff_eq]
  · intro g hg d hd hhidden
    rw [List.mem_singleton] at hg
    subst hg
    rw [Marked.directives_mapDirectives] at hd
    rw [Marked.name_mapDirectives]
    obtain ⟨hold, hnot⟩ := hchange d hd hhidden
    exact exists_purge_of_not (h.inner f (by simp) d hold hhidden) hnot

theorem mem_addDirectives {names : List String} {ds : List Directive} {d : Directive}
    (h : d ∈ addDirectives names ds) : d ∈ ds ∨ d.name ∈ names := by
  simp only [addDirectives, List.mem_append, List.mem_filter, List.mem_map,
    Text.mem_distinct] at h
  rcases h with ⟨hold, -⟩ | ⟨n, hn, rfl⟩
  · exact Or.inl hold
  · exact Or.inr hn

/-- The field that an edit asks for is there, and no other has its name. -/
theorem Settles.exists_field {e : Edit} {rest : List Edit} {ds : List Directive} {fields : List α}
    {name : String} (h : Settles hidden type (e :: rest) ds fields) (htype : e.type = type)
    (hfield : e.field? = some name) :
    ∃ before f behind, fields = before ++ f :: behind ∧ Member.name f = name ∧
      ∀ other ∈ before ++ behind, Member.name other ≠ name :=
  exists_split_of_count (h.reach name ⟨e, List.mem_cons_self, htype, hfield⟩)

/-- The edit `e` of a type can be made in front of those in `rest`, which settle what it leaves. -/
def MakesWay (hidden : String → Prop) (type : String) (e : Edit) (rest : List Edit)
    (ds : List Directive) (fields : List α) : Prop :=
  ∃ ds' fields', Sdl.editMembers e ds fields = .ok (ds', fields') ∧
    Settles hidden type rest ds' fields'

/-- A field is put behind the others. -/
theorem Settles.addField {rest : List Edit} {ds : List Directive} {fields : List α}
    {text name : String} (h : Settles hidden type (.addField type text :: rest) ds fields)
    (htext : Provides α hidden text name) (hfree : ¬ Addressed rest type name) :
    MakesWay hidden type (.addField type text) rest ds fields := by
  obtain ⟨f, hparse, hname, hclean⟩ := htext
  refine ⟨ds, fields ++ [f], by simp [Sdl.editMembers, hparse], ?_, ?_, ?_⟩
  · intro other hother
    have hne : name ≠ other := fun heq => hfree (heq ▸ hother)
    have := h.reach other hother.of_cons
    simp [hname, hne, this]
  · intro d hd hhidden
    exact exists_purge_of_not (h.own d hd hhidden) (fun hnone => hnone)
  · intro g hg d hd hhidden
    rcases List.mem_append.1 hg with hold | hnew
    · exact exists_purge_of_not (h.inner g hold d hd hhidden) (fun hnone => hnone)
    · rw [List.mem_singleton] at hnew
      subst hnew
      exact absurd hhidden (hclean d hd)

/-- A field that no later edit asks for is taken out. -/
theorem Settles.removeField {rest : List Edit} {ds : List Directive} {fields : List α}
    {name : String} (h : Settles hidden type (.removeField type name :: rest) ds fields)
    (hfree : ¬ Addressed rest type name) :
    MakesWay hidden type (.removeField type name) rest ds fields := by
  obtain ⟨before, f, behind, rfl, hname, hapart⟩ := h.exists_field rfl rfl
  refine ⟨ds, before ++ [] ++ behind, ?_, ?_⟩
  · rw [Sdl.editMembers, changeField_append hname hapart rfl]
    rfl
  refine h.replace (fun directive hnone => by cases hnone) ?_ ?_ fun g hg => nomatch hg
  · exact fun g hg directive hpurges => hapart g hg (Option.some.inj hpurges)
  · intro other hother
    have hne : Member.name f ≠ other := fun heq => hfree (hname ▸ heq ▸ hother)
    simp [hne]

/-- A field gives way to another, of its name or of one that no later edit asks for. -/
theorem Settles.replaceField {rest : List Edit} {ds : List Directive} {fields : List α}
    {text name next : String}
    (h : Settles hidden type (.replaceField type name text :: rest) ds fields)
    (htext : Provides α hidden text next)
    (hnext : next = name ∨ ¬ Addressed rest type name ∧ ¬ Addressed rest type next) :
    MakesWay hidden type (.replaceField type name text) rest ds fields := by
  obtain ⟨new, hparse, hnew, hclean⟩ := htext
  obtain ⟨before, f, behind, rfl, hname, hapart⟩ := h.exists_field rfl rfl
  have hput : (do return [← (Member.parse text : Except EditFault α)]) = Except.ok [new] := by
    rw [hparse]
    rfl
  refine ⟨ds, before ++ [new] ++ behind, ?_, ?_⟩
  · rw [Sdl.editMembers, changeField_append hname hapart hput]
    rfl
  refine h.replace (fun directive hnone => by cases hnone) ?_ ?_ ?_
  · exact fun g hg directive hpurges => hapart g hg (Option.some.inj hpurges)
  · intro other hother
    rw [List.map_singleton, List.count_singleton, hnew, hname]
    rcases hnext with rfl | ⟨hold, hfree⟩
    · simp [beq_iff_eq]
    · have hne : next ≠ other := fun heq => hfree (heq ▸ hother)
      have hne' : name ≠ other := fun heq => hold (heq ▸ hother)
      simp [hne, hne']
  · intro g hg d hd hhidden
    rw [List.mem_singleton] at hg
    subst hg
    exact absurd hhidden (hclean d hd)

/-- Directives that may stay are added to the type or to one of its fields. -/
theorem Settles.addDirectives {rest : List Edit} {ds : List Directive} {fields : List α}
    {place : Option String} {names : List String}
    (h : Settles hidden type (.addDirectives type place names :: rest) ds fields)
    (hnames : ∀ n ∈ names, ¬ hidden n) :
    MakesWay hidden type (.addDirectives type place names) rest ds fields := by
  cases place with
  | none =>
    refine ⟨Sdl.addDirectives names ds, fields, rfl, fun name hname => h.reach name hname.of_cons,
      ?_, ?_⟩
    · intro d hd hhidden
      rcases mem_addDirectives hd with hold | hnew
      · exact exists_purge_of_not (h.own d hold hhidden) (fun hnone => hnone)
      · exact absurd hhidden (hnames d.name hnew)
    · intro f hf d hd hhidden
      exact exists_purge_of_not (h.inner f hf d hd hhidden) (fun hnone => hnone)
  | some name =>
    obtain ⟨before, f, behind, rfl, hname, hapart⟩ := h.exists_field rfl rfl
    refine ⟨ds, before ++ [Member.mapDirectives (Sdl.addDirectives names) f] ++ behind, ?_, ?_⟩
    · rw [Sdl.editMembers, changeField_append hname hapart rfl]
      rfl
    refine h.mapDirectives (fun directive hnone => hnone) (fun g _ directive hnone => hnone) ?_
    intro d hd hhidden
    rcases mem_addDirectives hd with hold | hnew
    · exact ⟨hold, fun hnone => hnone⟩
    · exact absurd hhidden (hnames d.name hnew)

theorem mem_dropDirective {directive : String} {ds : List Directive} {d : Directive}
    (h : d ∈ dropDirective directive ds) : d ∈ ds ∧ d.name ≠ directive := by
  simpa [dropDirective] using h

/-- A directive is taken from the type or from one of its fields. -/
theorem Settles.removeDirective {rest : List Edit} {ds : List Directive} {fields : List α}
    {place : Option String} {directive : String}
    (h : Settles hidden type (.removeDirective type place directive :: rest) ds fields) :
    MakesWay hidden type (.removeDirective type place directive) rest ds fields := by
  cases place with
  | none =>
    refine ⟨dropDirective directive ds, fields, rfl, fun name hname => h.reach name hname.of_cons,
      ?_, ?_⟩
    · intro d hd hhidden
      obtain ⟨hold, hother⟩ := mem_dropDirective hd
      exact exists_purge_of_not (h.own d hold hhidden) (fun hpurges => hother hpurges.2)
    · intro f hf d hd hhidden
      exact exists_purge_of_not (h.inner f hf d hd hhidden) (fun hpurges => by cases hpurges.1)
  | some name =>
    obtain ⟨before, f, behind, rfl, hname, hapart⟩ := h.exists_field rfl rfl
    refine ⟨ds, before ++ [Member.mapDirectives (dropDirective directive) f] ++ behind, ?_, ?_⟩
    · rw [Sdl.editMembers, changeField_append hname hapart rfl]
      rfl
    refine h.mapDirectives (fun other hpurges => by cases hpurges.1) ?_ ?_
    · exact fun g hg other hpurges => hapart g hg (Option.some.inj hpurges.1)
    · intro d hd hhidden
      obtain ⟨hold, hother⟩ := mem_dropDirective hd
      exact ⟨hold, fun hpurges => hother hpurges.2⟩

/-- **An admissible edit of a type can be made, and what is to come still settles the rest**: the
step of `Settles`. -/
theorem Settles.editMembers {e : Edit} {rest : List Edit} {ds : List Directive} {fields : List α}
    (h : Settles hidden type (e :: rest) ds fields) (htype : e.type = type)
    (hadmissible : Admissible α hidden e rest) : MakesWay hidden type e rest ds fields := by
  subst htype
  cases e with
  | addField _ text =>
    obtain ⟨name, htext, hfree⟩ := hadmissible
    exact h.addField htext hfree
  | removeField _ name => exact h.removeField hadmissible
  | replaceField _ name text =>
    obtain ⟨next, htext, hnext⟩ := hadmissible
    exact h.replaceField htext hnext
  | addDirectives _ place names => exact h.addDirectives hadmissible
  | removeDirective _ place directive => exact h.removeDirective

end Member

/-! ### Documents

Types are settled each by itself.  An edit that is made settles less by itself than was asked for,
and what is left is asked of the edits behind it.
-/

variable {hidden : String → String → Prop}

/-- Edits that are still to come rid a definition of all that has to go; which directives those are
depends on the name of the type. -/
def Definition.Settles (hidden : String → String → Prop) (edits : List Edit) : Definition → Prop
  | .object body | .interface body =>
    Orderly Field (hidden body.name) body.name edits ∧
      Sdl.Settles (hidden body.name) body.name edits body.directives body.fields
  | .input body =>
    Orderly InputField (hidden body.name) body.name edits ∧
      Sdl.Settles (hidden body.name) body.name edits body.directives body.fields
  | _ => True

/-- An edit that does not reach a definition leaves nothing more to do for it. -/
theorem Definition.Settles.skip {e : Edit} {rest : List Edit} {d : Definition}
    (hother : d.isTarget e.type = false) (h : d.Settles hidden (e :: rest)) :
    d.Settles hidden rest := by
  cases d with
  | object body =>
    have hname : e.type ≠ body.name :=
      fun heq => by simp [isTarget, isEditable, name?, heq] at hother
    exact ⟨h.1.2, h.2.skip hname⟩
  | interface body =>
    have hname : e.type ≠ body.name :=
      fun heq => by simp [isTarget, isEditable, name?, heq] at hother
    exact ⟨h.1.2, h.2.skip hname⟩
  | input body =>
    have hname : e.type ≠ body.name :=
      fun heq => by simp [isTarget, isEditable, name?, heq] at hother
    exact ⟨h.1.2, h.2.skip hname⟩
  | _ => trivial

/-- An edit that reaches a definition can be made. -/
theorem Definition.Settles.edit {e : Edit} {rest : List Edit} {d : Definition}
    (htarget : d.isTarget e.type = true) (h : d.Settles hidden (e :: rest)) :
    ∃ d', d.edit e = .ok d' ∧ d'.Settles hidden rest := by
  cases d with
  | object body =>
    have hname : e.type = body.name := by
      simp only [isTarget, isEditable, name?, Bool.true_and, decide_eq_true_eq,
        Option.some.injEq] at htarget
      exact htarget.symm
    obtain ⟨ds', fields', hedit, hrest⟩ := h.2.editMembers hname (h.1.1 hname)
    exact ⟨.object { body with directives := ds', fields := fields' },
      by simp [Definition.edit, edit?, hedit], h.1.2, hrest⟩
  | interface body =>
    have hname : e.type = body.name := by
      simp only [isTarget, isEditable, name?, Bool.true_and, decide_eq_true_eq,
        Option.some.injEq] at htarget
      exact htarget.symm
    obtain ⟨ds', fields', hedit, hrest⟩ := h.2.editMembers hname (h.1.1 hname)
    exact ⟨.interface { body with directives := ds', fields := fields' },
      by simp [Definition.edit, edit?, hedit], h.1.2, hrest⟩
  | input body =>
    have hname : e.type = body.name := by
      simp only [isTarget, isEditable, name?, Bool.true_and, decide_eq_true_eq,
        Option.some.injEq] at htarget
      exact htarget.symm
    obtain ⟨ds', fields', hedit, hrest⟩ := h.2.editMembers hname (h.1.1 hname)
    exact ⟨.input { body with directives := ds', fields := fields' },
      by simp [Definition.edit, edit?, hedit], h.1.2, hrest⟩
  | _ => cases htarget

theorem editDefinitions_settles {e : Edit} {rest : List Edit} {ds : List Definition}
    (hnodup : (targetNames ds).Nodup) (hreach : e.type ∈ targetNames ds)
    (h : ∀ d ∈ ds, d.Settles hidden (e :: rest)) :
    ∃ ds', editDefinitions e ds = .ok ds' ∧ ∀ d ∈ ds', d.Settles hidden rest := by
  induction ds with
  | nil => cases hreach
  | cons d ds ih =>
    rw [targetNames_cons, List.nodup_append] at hnodup
    by_cases htarget : d.isTarget e.type = true
    -- No other definition has the name, so nothing behind the first one is reached.
    · have haway : e.type ∉ targetNames ds := by
        intro hagain
        simp only [Definition.isTarget, Bool.and_eq_true, decide_eq_true_eq] at htarget
        exact hnodup.2.2 e.type (by simp [htarget.1, htarget.2]) e.type hagain rfl
      obtain ⟨d', hedit, hsettled⟩ := (h d List.mem_cons_self).edit htarget
      refine ⟨d' :: ds, by rw [editDefinitions_of_target htarget, hedit]; rfl, ?_⟩
      intro other hother
      rcases List.mem_cons.1 hother with rfl | hother
      · exact hsettled
      · refine (h other (List.mem_cons_of_mem d hother)).skip ?_
        rw [← Bool.not_eq_true]
        exact fun hreached => haway (mem_targetNames.2 ⟨other, hother, hreached⟩)
    · have hother : d.isTarget e.type = false := by simpa using htarget
      have hrest : e.type ∈ targetNames ds := by
        obtain ⟨other, hmem, hreached⟩ := mem_targetNames.1 hreach
        rcases List.mem_cons.1 hmem with rfl | hmem
        · exact absurd hreached htarget
        · exact mem_targetNames.2 ⟨other, hmem, hreached⟩
      obtain ⟨ds', hedit, hsettled⟩ := ih hnodup.2.1 hrest
        fun other hother => h other (List.mem_cons_of_mem d hother)
      refine ⟨d :: ds', by rw [editDefinitions_of_other hother, hedit]; rfl, ?_⟩
      intro other hmem
      rcases List.mem_cons.1 hmem with rfl | hmem
      · exact (h other List.mem_cons_self).skip hother
      · exact hsettled other hmem

/-- **Orderly edits can all be made, and rid a document of what has to go**, by induction on the
edits with `Settles` for the invariant. -/
theorem editAll_settles {edits : List Edit} {ds : List Definition}
    (hnodup : (targetNames ds).Nodup) (hreach : ∀ e ∈ edits, e.type ∈ targetNames ds)
    (h : ∀ d ∈ ds, d.Settles hidden edits) :
    ∃ ds', editAll edits ds = .ok ds' ∧ ∀ d ∈ ds', d.Settles hidden [] := by
  induction edits generalizing ds with
  | nil => exact ⟨ds, rfl, h⟩
  | cons e rest ih =>
    obtain ⟨next, hedit, hnext⟩ :=
      editDefinitions_settles hnodup (hreach e List.mem_cons_self) h
    have hnames := targetNames_eq_of_keys (keys_editDefinitions hedit)
    obtain ⟨ds', hrest, hsettled⟩ := ih (hnames ▸ hnodup)
      (fun other hother => hnames ▸ hreach other (List.mem_cons_of_mem e hother)) hnext
    exact ⟨ds', by simpa [editAll, hedit] using hrest, hsettled⟩

end SchemaLoom.Sdl
