/-
Where inputs demand the key of an item.

An item is read and deleted by its key: every field of the primary key has to be given, under the
type that is declared for it.  An item is changed and created by inputs that have more than the
key, and in those each name is declared by what comes first: the stored fields one after the
other, then the foreign keys that are implied, and only then the key (`entryOf?_input`).

So what an input says of a field of the key is decided by the first stored field that gives the
name (`giver?`).  If that is a relation, which gives the attribute where it keeps its key, then
the name is declared as a text, and one that may be left out when an item is changed.  The same
holds of a name that no field gives, if it is implied.  Otherwise the key is demanded when an
item is changed.

In a new item the declared type stands as it is, so there a field of the key may be left out if
its type allows it, and is given by an input of another type if it holds an object.
-/
import SchemaLoom.Proofs.Surface.StoredNames

namespace SchemaLoom.Surface

open Catalog

variable {c : Catalog} {t : Table} {f : Sdl.Field} {e : Entry} {es : List Entry}
  {name base : String}

/-! ### The first entry of a name

Inputs keep the first entry of each name, so what an input says under a name is what a search
finds in the entries before any were left out.
-/

/-- The first entry of a name. -/
def entryOf? (es : List Entry) (name : String) : Option Entry := es.find? fun e => e.name = name

theorem entryOf?_append (es more : List Entry) (name : String) :
    entryOf? (es ++ more) name = (entryOf? es name).or (entryOf? more name) :=
  List.find?_append

theorem entryOf?_cons_of_ne (h : e.name ≠ name) (es : List Entry) :
    entryOf? (e :: es) name = entryOf? es name :=
  List.find?_cons_of_neg (by simpa using h)

theorem entryOf?_cons_of_eq (h : e.name = name) (es : List Entry) :
    entryOf? (e :: es) name = some e :=
  List.find?_cons_of_pos (by simpa using h)

/-- Leaving out entries of another name does not matter. -/
theorem entryOf?_filter_of_ne {other : String} (h : name ≠ other) (es : List Entry) :
    entryOf? (es.filter fun e => e.name ≠ other) name = entryOf? es name := by
  induction es with
  | nil => rfl
  | cons e es ih =>
    by_cases hname : e.name = name
    · have hkept : e.name ≠ other := hname ▸ h
      rw [List.filter_cons_of_pos (by simpa using hkept), entryOf?_cons_of_eq hname,
        entryOf?_cons_of_eq hname]
    · rw [entryOf?_cons_of_ne hname]
      by_cases hother : e.name = other
      · rw [List.filter_cons_of_neg (by simpa using hother), ih]
      · rw [List.filter_cons_of_pos (by simpa using hother), entryOf?_cons_of_ne hname, ih]

/-- **Of the entries of a name the first is left.** -/
theorem entryOf?_firstOfName (es : List Entry) (name : String) :
    entryOf? (Entry.firstOfName es) name = entryOf? es name := by
  induction es with
  | nil => rfl
  | cons e es ih =>
    rw [Entry.firstOfName]
    by_cases hname : e.name = name
    · rw [entryOf?_cons_of_eq hname, entryOf?_cons_of_eq hname]
    · rw [entryOf?_cons_of_ne hname, entryOf?_cons_of_ne hname,
        entryOf?_filter_of_ne (Ne.symm hname), ih]

theorem of_entry?_eq_some (h : entryOf? es name = some e) : e ∈ es ∧ e.name = name :=
  ⟨List.mem_of_find?_eq_some h, by simpa using List.find?_some h⟩

/-- Where names are declared once, an entry is the first of its name. -/
theorem entryOf?_of_mem (hnodup : (es.map (·.name)).Nodup) (he : e ∈ es) :
    entryOf? es e.name = some e := by
  induction es with
  | nil => cases he
  | cons first es ih =>
    rw [List.map_cons, List.nodup_cons] at hnodup
    rcases List.mem_cons.1 he with rfl | he
    · exact entryOf?_cons_of_eq rfl es
    · have hother : first.name ≠ e.name := by
        intro hsame
        exact hnodup.1 (hsame ▸ List.mem_map_of_mem he)
      rw [entryOf?_cons_of_ne hother, ih hnodup.2 he]

/-- Where entries are made of one name after the other, the first of a name is what is made of
it. -/
theorem entryOf?_of_mapM {names : List String} {make : String → Except Fault Entry}
    (hmake : ∀ name e, make name = .ok e → e.name = name) (h : names.mapM make = .ok es)
    (hname : name ∈ names) : ∃ e, make name = .ok e ∧ entryOf? es name = some e := by
  induction names generalizing es with
  | nil => cases hname
  | cons first names ih =>
    rw [List.mapM_cons] at h
    obtain ⟨e, he, h⟩ := Outcome.of_bind_eq_ok h
    obtain ⟨others, hothers, h⟩ := Outcome.of_bind_eq_ok h
    cases h
    by_cases hfirst : first = name
    · subst hfirst
      exact ⟨e, he, entryOf?_cons_of_eq (hmake first e he) others⟩
    · obtain ⟨other, hother, hfound⟩ :=
        ih hothers ((List.mem_cons.1 hname).resolve_left (Ne.symm hfirst))
      refine ⟨other, hother, ?_⟩
      rw [entryOf?_cons_of_ne (hmake first e he ▸ hfirst), hfound]

/-! ### The field that gives a name

Several fields may give an entry of one name, of which the first counts (`giver?`).
-/

/-- The stored field `f` gives the name `name`: a relation to one item gives the attribute where it
keeps its key, any other field its own name unless it is left out. -/
def gives (t : Table) (leavesOut : Sdl.Field → Bool) (name : String) (f : Sdl.Field) : Bool :=
  match t.relation? f.name with
  | some r => !r.toMany && t.myKey r = name
  | none => f.name = name && !leavesOut f

/-- The first stored field that gives a name. -/
def giver? (t : Table) (leavesOut : Sdl.Field → Bool) (name : String) : Option Sdl.Field :=
  (storedFields t).find? (gives t leavesOut name)

/-- What `make` makes of a field has the name `name` just if the field is one that gives it. -/
def IsMadeOf (make : Sdl.Field → Except Fault (Option Entry)) (name : String)
    (isGiver : Sdl.Field → Bool) : Prop :=
  ∀ f x, make f = .ok x → (isGiver f = true ↔ ∃ e, x = some e ∧ e.name = name)

theorem isMadeOf_of_names {make : Sdl.Field → Except Fault (Option Entry)} {kept : Sdl.Field → Prop}
    {leavesOut : Sdl.Field → Bool} (hnames : Names t make) (hkeeps : Keeps t make kept)
    (hkept : ∀ f x, f.name = name → make f = .ok x → (kept f ↔ leavesOut f = false)) :
    IsMadeOf make name (gives t leavesOut name) := by
  intro f x h
  unfold gives
  cases hrelation : t.relation? f.name with
  | some r =>
    have hkey := hnames.relation f r x hrelation h
    rw [← Option.map_eq_some_iff (f := fun e : Entry => e.name), hkey]
    cases hmany : r.toMany <;> simp [hmany]
  | none =>
    rw [Bool.and_eq_true, decide_eq_true_eq, Bool.not_eq_true']
    constructor
    · rintro ⟨hname, hleft⟩
      have hsome := (hkeeps f x hrelation h).2 ((hkept f x hname h).2 hleft)
      obtain ⟨e, rfl⟩ := Option.isSome_iff_exists.1 hsome
      exact ⟨e, rfl, (hnames.field f e hrelation h).trans hname⟩
    · rintro ⟨e, rfl, rfl⟩
      have hname := (hnames.field f e hrelation h).symm
      exact ⟨hname, (hkept f _ hname h).1 ((hkeeps f _ hrelation h).1 rfl)⟩

/-- **The first entry of a name is what is made of the first field that gives it** (`IsMadeOf`). -/
theorem entryOf?_of_made {make : Sdl.Field → Except Fault (Option Entry)}
    {isGiver : Sdl.Field → Bool}
    (hmade : IsMadeOf make name isGiver) {fs : List Sdl.Field} {own : List (Option Entry)}
    (hown : fs.mapM make = .ok own) :
    (fs.find? isGiver = none ∧ entryOf? (own.filterMap id) name = none) ∨
      ∃ f e, fs.find? isGiver = some f ∧ make f = .ok (some e) ∧
        entryOf? (own.filterMap id) name = some e := by
  induction fs generalizing own with
  | nil =>
    cases hown
    exact Or.inl ⟨rfl, rfl⟩
  | cons f fs ih =>
    rw [List.mapM_cons] at hown
    obtain ⟨x, hx, hown⟩ := Outcome.of_bind_eq_ok hown
    obtain ⟨others, hothers, hown⟩ := Outcome.of_bind_eq_ok hown
    cases hown
    cases hgives : isGiver f with
    | true =>
      obtain ⟨e, rfl, hname⟩ := (hmade f x hx).1 hgives
      exact Or.inr ⟨f, e, List.find?_cons_of_pos hgives, hx, entryOf?_cons_of_eq hname _⟩
    | false =>
      have hother : ∀ e, x = some e → e.name ≠ name := fun e hsome hname => by
        have hgiver := (hmade f x hx).2 ⟨e, hsome, hname⟩
        rw [hgives] at hgiver
        cases hgiver
      rw [List.find?_cons_of_neg (by simp [hgives])]
      cases x with
      | none =>
        rw [List.filterMap_cons_none rfl]
        exact ih hothers
      | some e =>
        have hskip : entryOf? ((some e :: others).filterMap id) name
            = entryOf? (others.filterMap id) name := entryOf?_cons_of_ne (hother e rfl) _
        rw [hskip]
        exact ih hothers

theorem entryOf?_implied (t : Table) (name : String) :
    entryOf? (t.impliedForeignKeys.map fun key => Entry.plain key "String") name
      = if name ∈ t.impliedForeignKeys then some (.plain name "String") else none := by
  induction t.impliedForeignKeys with
  | nil => rfl
  | cons key keys ih =>
    rw [List.map_cons]
    by_cases hname : key = name
    · subst hname
      rw [entryOf?_cons_of_eq (show (Entry.plain key "String").name = key from rfl),
        if_pos List.mem_cons_self]
    · rw [entryOf?_cons_of_ne (show (Entry.plain key "String").name ≠ name from hname), ih]
      simp [Ne.symm hname]

/-- **What an input says of a field of the key**: what the first field that gives the name says, or
that it is a text if it is implied, or what the key says. -/
theorem entryOf?_input {make : Sdl.Field → Except Fault (Option Entry)} {isGiver : Sdl.Field → Bool}
    (hmade : IsMadeOf make name isGiver) {own : List (Option Entry)}
    (hown : (storedFields t).mapM make = .ok own) {keys : List Entry}
    (hkeys : entryOf? keys name = some e) :
    let input := Entry.firstOfName (own.filterMap id
      ++ t.impliedForeignKeys.map (fun key => Entry.plain key "String") ++ keys)
    match (storedFields t).find? isGiver with
    | some f => ∃ given, make f = .ok (some given) ∧ entryOf? input name = some given
    | none => entryOf? input name
        = some (if name ∈ t.impliedForeignKeys then .plain name "String" else e) := by
  intro input
  have hinput : entryOf? input name = ((entryOf? (own.filterMap id) name).or
      (if name ∈ t.impliedForeignKeys then some (.plain name "String") else none)).or (some e) := by
    rw [entryOf?_firstOfName, entryOf?_append, entryOf?_append, entryOf?_implied, hkeys]
  rcases entryOf?_of_made hmade hown with ⟨hnone, hownfirst⟩ | ⟨f, given, hgiver, hgiven, hownfirst⟩
  · rw [hnone]
    rw [hownfirst, Option.none_or] at hinput
    split at hinput
    next himplied => simpa [himplied] using hinput
    next himplied => simpa [himplied] using hinput
  · rw [hgiver]
    rw [hownfirst, Option.some_or, Option.some_or] at hinput
    exact ⟨given, hgiven, hinput⟩

/-! ### Demands -/

/-- Among `es` there is an entry of the name `name` and the type `base`, and it is demanded, unless
it may be left out. -/
def Demands (es : List Entry) (name base : String) (isOptional : Prop) : Prop :=
  ∃ e ∈ es, e.name = name ∧ e.type.base = base ∧ (e.type.required = true ∨ isOptional)

/-- What is demanded is decided by the first entry of the name. -/
theorem demands_iff {isOptional : Prop} (hnodup : (es.map (·.name)).Nodup)
    (hfirst : entryOf? es name = some e) :
    Demands es name base isOptional ↔
      e.type.base = base ∧ (e.type.required = true ∨ isOptional) := by
  constructor
  · rintro ⟨other, hother, rfl, hdemanded⟩
    rw [entryOf?_of_mem hnodup hother, Option.some.injEq] at hfirst
    exact hfirst ▸ hdemanded
  · intro hdemanded
    obtain ⟨he, hname⟩ := of_entry?_eq_some hfirst
    exact ⟨e, he, hname, hdemanded⟩

/-- The fields of the key are demanded by the operations that have nothing else. -/
theorem demands_keyEntriesOf (h : keyEntriesOf t = .ok es) (hname : name ∈ t.primaryKey.fields)
    (hbase : t.keyFieldType name = .ok base) : Demands es name base False := by
  obtain ⟨e, he, hmade⟩ := Outcome.exists_result_of_mem h hname
  rw [hbase, Outcome.ok_bind] at hmade
  cases hmade
  exact ⟨_, he, rfl, rfl, Or.inl rfl⟩

/-- The shape of a field of the key has the type of the key. -/
theorem base_of_fieldShape {shape : Sdl.Shape} (hf : f ∈ storedFields t)
    (hshape : fieldShape t f = .ok shape) (hbase : t.keyFieldType f.name = .ok base) :
    shape.base = base := by
  have hfield : ∃ g, t.field? f.name = some g := by
    rw [← Option.isSome_iff_exists, Table.field?, List.find?_isSome]
    exact ⟨f, mem_fields_of_stored hf, by simp⟩
  obtain ⟨g, hg⟩ := hfield
  rw [fieldShape, hg, Option.getD_some] at hshape
  unfold Table.keyFieldType Table.fieldShape? at hbase
  simp only [hg, hshape] at hbase
  exact Except.ok.inj hbase

/-! ### Changed items

Updating goes through the fields and then adds those of the key.  A field of the key that an
earlier entry has given is not demanded any more.
-/

/-- The field `name` of the key is demanded when an item is changed: the first field that gives its
name is no relation, or there is none and the name is not implied. -/
def KeepsDemand (t : Table) (name : String) : Prop :=
  match giver? t (fun _ => false) name with
  | some f => t.relation? f.name = none
  | none => name ∉ t.impliedForeignKeys

theorem isMadeOf_updateEntry (hname : name ∈ t.primaryKey.fields) :
    IsMadeOf (updateEntry c t) name (gives t (fun _ => false) name) := by
  refine isMadeOf_of_names names_updateEntry keeps_updateEntry ?_
  rintro f x rfl -
  exact ⟨fun _ => rfl, fun _ => Or.inl hname⟩

/-- What is made of a field that gives a field of the key demands it just if the field is no
relation. -/
theorem demands_updateEntry_iff (hf : f ∈ storedFields t)
    (hgives : gives t (fun _ => false) name f = true)
    (hname : name ∈ t.primaryKey.fields) (hbase : t.keyFieldType name = .ok base)
    (h : updateEntry c t f = .ok (some e)) :
    (e.type.base = base ∧ (e.type.required = true ∨ False)) ↔ t.relation? f.name = none := by
  unfold updateEntry at h
  obtain ⟨shape, hshape, h⟩ := Outcome.of_bind_eq_ok h
  unfold gives at hgives
  cases hrelation : t.relation? f.name with
  | some r =>
    rw [hrelation] at h
    obtain ⟨-, hentry⟩ := Option.ite_none_left_eq_some.1 (Except.ok.inj h)
    cases hentry
    simp [Entry.plain]
  | none =>
    rw [hrelation] at h hgives
    have hsame : f.name = name := by simpa using hgives
    subst hsame
    dsimp only at h
    rw [if_pos (by simpa using hname)] at h
    cases h
    simp [Entry.needed, base_of_fieldShape hf hshape hbase]

/-- **A field of the key is demanded from a changed item just if no relation comes first
(`KeepsDemand`).** -/
theorem demands_updateFields_iff (h : updateFields c t = .ok es)
    (hname : name ∈ t.primaryKey.fields)
    (hbase : t.keyFieldType name = .ok base) :
    Demands es name base False ↔ KeepsDemand t name := by
  have hnodup := nodup_names_updateFields h
  unfold updateFields at h
  obtain ⟨own, hown, h⟩ := Outcome.of_bind_eq_ok h
  obtain ⟨keys, hkeys, h⟩ := Outcome.of_bind_eq_ok h
  cases h
  obtain ⟨e, hentry, hkey⟩ := entryOf?_of_mapM (fun name e he => by
    obtain ⟨base, -, he⟩ := Outcome.of_bind_eq_ok he
    cases he
    rfl) hkeys hname
  rw [hbase, Outcome.ok_bind] at hentry
  cases hentry
  have hfirst := entryOf?_input (isMadeOf_updateEntry hname) hown hkey
  unfold KeepsDemand giver?
  cases hgiver : (storedFields t).find? (gives t (fun _ => false) name) with
  | none =>
    rw [hgiver] at hfirst
    rw [demands_iff hnodup hfirst]
    by_cases himplied : name ∈ t.impliedForeignKeys
    · simp [himplied, Entry.plain]
    · simp [himplied, Entry.needed]
  | some f =>
    rw [hgiver] at hfirst
    obtain ⟨given, hmade, hgiven⟩ := hfirst
    rw [demands_iff hnodup hgiven]
    exact demands_updateEntry_iff (List.mem_of_find?_eq_some hgiver) (List.find?_some hgiver) hname
      hbase hmade

/-! ### New items -/

/-- No input can hold the field `f`. -/
def isOpaque (c : Catalog) (t : Table) (f : Sdl.Field) : Bool :=
  match fieldShape t f with
  | .ok shape => c.category shape.base = .opaqueType
  | .error _ => false

/-- The field `name` of the key, of the type `base`, is made up if it is not given. -/
def IsMadeUp (t : Table) (name base : String) : Prop := name = t.primaryKey.partition ∧ base = "ID"

/-- The field `f`, the first that gives the name of a field of the key, demands it under the type
`base` in a new item. -/
def GivesKey (c : Catalog) (t : Table) (name base : String) (f : Sdl.Field) : Prop :=
  ∃ shape, fieldShape t f = .ok shape ∧
    match t.relation? f.name with
    | some _ => base = "String" ∧ shape.required = true
    | none => (c.category base = .scalar ∨ c.category base = .enum) ∧
        (shape.required = true ∨ IsMadeUp t name base)

/-- The field `name` of the key is demanded from a new item, unless it is made up. -/
def StartsDemand (c : Catalog) (t : Table) (name base : String) : Prop :=
  match giver? t (isOpaque c t) name with
  | some f => GivesKey c t name base f
  | none => name ∉ t.impliedForeignKeys

theorem isMadeOf_createEntry (isGenerated : Bool) :
    IsMadeOf (createEntry c t isGenerated) name (gives t (isOpaque c t) name) := by
  refine isMadeOf_of_names (names_createEntry isGenerated) (keeps_createEntry isGenerated) ?_
  rintro f x - h
  obtain ⟨shape, hshape, -⟩ := Outcome.of_bind_eq_ok h
  simp [IsOf, isOpaque, hshape]

/-- No input has the name of its type. -/
theorem inputName_ne (base : String) (action : Access.Action) : inputName base action ≠ base := by
  intro hsame
  have hlength := congrArg String.length hsame
  simp only [inputName, String.length_append] at hlength
  have hinput : "Input".length = 5 := by decide
  omega

/-- What an input holds of a field is of the type of the field just if that is a scalar or an
enum. -/
theorem inputShape?_base_iff {action : Access.Action} {shape given : Sdl.Shape}
    (h : inputShape? c action shape = some given) :
    (given.base = shape.base ↔ c.category shape.base = .scalar ∨ c.category shape.base = .enum) ∧
      given.required = shape.required := by
  unfold inputShape? at h
  cases hcategory : c.category shape.base with
  | opaqueType => simp [hcategory] at h
  | scalar | enum =>
    rw [hcategory] at h
    cases h
    simp
  | model =>
    rw [hcategory] at h
    cases h
    exact ⟨by simp [Sdl.Shape.renamed, inputName_ne], rfl⟩
  | object =>
    rw [hcategory] at h
    cases h
    exact ⟨by simp [Sdl.Shape.renamed], rfl⟩

/-- A key that is made up is no text. -/
theorem IsMadeUp.ne_text (h : IsMadeUp t name base) : base ≠ "String" := by
  rw [h.2]
  decide

/-- What is made of a field that gives a field of the key demands it just if it gives the key as it
is. -/
theorem demands_createEntry_iff {isGenerated : Bool} (hf : f ∈ storedFields t)
    (hgives : gives t (isOpaque c t) name f = true) (hbase : t.keyFieldType name = .ok base)
    (hmadeup : IsMadeUp t name base ↔ (name = t.primaryKey.partition && isGenerated) = true)
    (h : createEntry c t isGenerated f = .ok (some e)) :
    (e.type.base = base ∧ (e.type.required = true ∨ IsMadeUp t name base)) ↔
      GivesKey c t name base f := by
  unfold createEntry at h
  obtain ⟨shape, hshape, h⟩ := Outcome.of_bind_eq_ok h
  have honly : GivesKey c t name base f ↔ match t.relation? f.name with
      | some _ => base = "String" ∧ shape.required = true
      | none => (c.category base = .scalar ∨ c.category base = .enum) ∧
          (shape.required = true ∨ IsMadeUp t name base) := by
    simp [GivesKey, hshape]
  rw [honly]
  unfold gives at hgives
  cases hrelation : t.relation? f.name with
  | some r =>
    rw [hrelation] at h
    obtain ⟨-, hentry⟩ := Option.ite_none_left_eq_some.1 (Except.ok.inj h)
    cases hentry
    constructor
    · rintro ⟨htext, hdemanded | hmade⟩
      · exact ⟨htext.symm, hdemanded⟩
      · exact absurd htext.symm hmade.ne_text
    · rintro ⟨htext, hdemanded⟩
      exact ⟨htext.symm, Or.inl hdemanded⟩
  | none =>
    rw [hrelation] at h hgives
    have hsame : f.name = name := (by simpa using hgives : f.name = name ∧ _).1
    subst hsame
    have htype := base_of_fieldShape hf hshape hbase
    obtain ⟨given, hheld, hentry⟩ := Option.map_eq_some_iff.1 (Except.ok.inj h)
    cases hentry
    obtain ⟨hkept, hrequired⟩ := inputShape?_base_iff hheld
    by_cases hmade : IsMadeUp t f.name base
    · rw [if_pos (hmadeup.1 hmade)] at hkept hrequired
      simp only [hmade, or_true, and_true]
      rw [← htype]
      exact hkept
    · rw [if_neg (mt hmadeup.2 hmade)] at hkept hrequired
      simp only [hmade, or_false, hrequired]
      rw [← htype]
      exact and_congr_left' hkept

/-- **A field of the key is demanded from a new item just if what comes first demands it
(`StartsDemand`).** -/
theorem demands_createFields_iff (h : createFields c t = .ok es)
    (hname : name ∈ t.primaryKey.fields)
    (hbase : t.keyFieldType name = .ok base) :
    Demands es name base (IsMadeUp t name base) ↔ StartsDemand c t name base := by
  have hnodup := nodup_names_createFields h
  unfold createFields at h
  obtain ⟨isGenerated, hgenerated, h⟩ := Outcome.of_bind_eq_ok h
  obtain ⟨own, hown, h⟩ := Outcome.of_bind_eq_ok h
  obtain ⟨keys, hkeys, h⟩ := Outcome.of_bind_eq_ok h
  cases h
  have hmadeup : IsMadeUp t name base ↔ (name = t.primaryKey.partition && isGenerated) = true := by
    rw [Bool.and_eq_true, decide_eq_true_eq]
    refine and_congr_right ?_
    rintro rfl
    unfold generatesId at hgenerated
    rw [hbase, Outcome.ok_bind] at hgenerated
    cases hgenerated
    simp
  obtain ⟨e, hentry, hkey⟩ := entryOf?_of_mapM (fun name e he => by
    obtain ⟨base, -, he⟩ := Outcome.of_bind_eq_ok he
    cases he
    split <;> rfl) hkeys hname
  rw [hbase, Outcome.ok_bind] at hentry
  have hfirst := entryOf?_input (isMadeOf_createEntry isGenerated) hown hkey
  unfold StartsDemand giver?
  -- Without a field that gives the name it is implied, or the entry of the key counts.
  cases hgiver : (storedFields t).find? (gives t (isOpaque c t) name) with
  | none =>
    rw [hgiver] at hfirst
    rw [demands_iff hnodup hfirst]
    by_cases himplied : name ∈ t.impliedForeignKeys
    · simp only [himplied, if_true, not_true_eq_false, iff_false, not_and, not_or]
      intro htext
      exact ⟨Bool.false_ne_true, fun hmade => hmade.ne_text htext.symm⟩
    · simp only [himplied, if_false, not_false_eq_true, iff_true]
      rw [hmadeup]
      cases hentry
      split
      next hhere => exact ⟨rfl, Or.inr hhere⟩
      next => exact ⟨rfl, Or.inl rfl⟩
  | some f =>
    rw [hgiver] at hfirst
    obtain ⟨given, hmade, hgiven⟩ := hfirst
    rw [demands_iff hnodup hgiven]
    exact demands_createEntry_iff (List.mem_of_find?_eq_some hgiver) (List.find?_some hgiver) hbase
      hmadeup hmade

/-! ### All operations -/

/-- The declarations `ds` have the operations of `t` with the inputs `create` and `update`, and with
the arguments `key` by which an item is read and deleted. -/
structure DeclaresInputs (t : Table) (ds : List Declaration) (key create update : List Entry) :
    Prop where
  get : ∃ queries, .extension "Query" queries ∈ ds ∧
    ∃ o ∈ queries, o.name = getName t ∧ o.arguments = key
  create : .input (inputName t.name .create) create ∈ ds
  update : .input (inputName t.name .update) update ∈ ds
  delete : .input (inputName t.name .delete) key ∈ ds

theorem declaresInputs_of_operationDeclarations {ds : List Declaration}
    (h : operationDeclarations c t = .ok ds) : ∃ key create update,
      keyEntriesOf t = .ok key ∧ createFields c t = .ok create ∧ updateFields c t = .ok update ∧
        DeclaresInputs t ds key create update := by
  obtain ⟨key, condition, filter, create, update, hkey, -, -, hcreate, hupdate, rfl⟩ :=
    of_operationDeclarations h
  refine ⟨key, create, update, hkey, hcreate, hupdate, ⟨_, List.mem_cons_self, ?_⟩, ?_, ?_, ?_⟩
  · exact ⟨_, List.mem_cons_self, rfl, rfl⟩
  · simp
  · simp
  · simp

/-- The operations of a table are declared just if the types that its inputs need can be told. -/
theorem exists_operationDeclarations_iff :
    (∃ ds, operationDeclarations c t = .ok ds) ↔ IsTold t := by
  constructor
  · rintro ⟨ds, h⟩
    obtain ⟨-, create, -, -, hcreate, -⟩ := declaresInputs_of_operationDeclarations h
    exact exists_createFields_iff.1 ⟨create, hcreate⟩
  · intro h
    have hfilter : ∀ input, ∃ filter, filterFields c t input = .ok filter :=
      fun input => exists_filterFields_iff.2 fun f hf _ => h.stored f hf
    have hkey := exists_keyEntriesOf_iff.2 h.key
    refine Outcome.exists_bind hkey fun _ => Outcome.exists_bind (hfilter _) fun _ => ?_
    refine Outcome.exists_bind (hfilter _) fun _ => ?_
    refine Outcome.exists_bind (exists_createFields_iff.2 h) fun _ => ?_
    exact Outcome.exists_bind (exists_updateFields_iff.2 h) fun _ =>
      Outcome.exists_bind hkey fun _ => ⟨_, rfl⟩

/-- **The key of an item is demanded under one type by all operations just if nothing comes before
it.** Operations that read and delete an item always demand it.  A changed item does just if no
relation, and no foreign key that is implied, gives the name first.  A new item does, unless the key
is made up, just if what comes first demands it: a relation as a text, another field as its type
allows. -/
theorem key_demanded_iff (h : IsTold t) : ∃ ds key create update,
    operationDeclarations c t = .ok ds ∧ DeclaresInputs t ds key create update ∧
      ∀ name ∈ t.primaryKey.fields, ∃ base, t.keyFieldType name = .ok base ∧
        Demands key name base False ∧
        (Demands update name base False ↔ KeepsDemand t name) ∧
        (Demands create name base (IsMadeUp t name base) ↔ StartsDemand c t name base) := by
  obtain ⟨ds, hdeclared⟩ := exists_operationDeclarations_iff.2 h
  obtain ⟨key, create, update, hkey, hcreate, hupdate, hinputs⟩ :=
    declaresInputs_of_operationDeclarations hdeclared
  refine ⟨ds, key, create, update, hdeclared, hinputs, fun name hname => ?_⟩
  obtain ⟨base, hbase⟩ := h.key name hname
  exact ⟨base, hbase, demands_keyEntriesOf hkey hname hbase,
    demands_updateFields_iff hupdate hname hbase, demands_createFields_iff hcreate hname hbase⟩

/-- Comments that are found by their author, whose relation stands before the key. -/
def ownedComments : Sdl.Document :=
  ⟨[tableOf "Author" [],
    .object {
      description := none, name := "Comment", interfaces := []
      directives := [⟨"model", []⟩, ⟨"key", [("fields", .list [.string "authorId" false])]⟩]
      fields := [⟨none, "author", [], .named "Author",
          [⟨"connection", [("foreignKey", .string "authorId" false)]⟩]⟩,
        ⟨none, "authorId", [], .nonNull (.named "ID"), []⟩] }]⟩

/-- A comment is read and deleted by a key that need not be given to change or create it. -/
theorem ownedComments_undemanded : ∃ c t ds key create update,
    (gather { document := ownedComments, schemaName := "schema.graphql", scope := none }).outcome
        = .ok c ∧
      t ∈ c.tables ∧ t.primaryKey.fields = ["authorId"] ∧ operationDeclarations c t = .ok ds ∧
      DeclaresInputs t ds key create update ∧ Demands key "authorId" "ID" False ∧
      ¬ Demands update "authorId" "ID" False ∧
      ¬ Demands create "authorId" "ID" (IsMadeUp t "authorId" "ID") := by
  have hfacts : Outcome.Holds
      (gather { document := ownedComments, schemaName := "schema.graphql", scope := none }).outcome
      fun c => ∃ t ∈ c.tables, t.primaryKey.fields = ["authorId"] ∧
        Outcome.Holds (createFields c t) (fun _ => True) ∧
        Outcome.Holds (t.keyFieldType "authorId") (· = "ID") ∧
        (∃ f ∈ giver? t (fun _ => false) "authorId", (t.relation? f.name).isSome = true) ∧
        ∃ f ∈ giver? t (isOpaque c t) "authorId", (t.relation? f.name).isSome = true := by
    decide +kernel
  obtain ⟨c, hgather, t, ht, hfields, ⟨new, hnew, -⟩, ⟨base, hbase, rfl⟩,
    ⟨f, hupdated, hchanged⟩, g, hcreated, hadded⟩ := hfacts
  obtain ⟨r, hchanged⟩ := Option.isSome_iff_exists.1 hchanged
  obtain ⟨s, hadded⟩ := Option.isSome_iff_exists.1 hadded
  obtain ⟨ds, key, create, update, hdeclared, hinputs, hdemanded⟩ :=
    key_demanded_iff (c := c) (exists_createFields_iff.1 ⟨new, hnew⟩)
  obtain ⟨base, hsame, hkey, hupdate, hcreate⟩ := hdemanded "authorId" (by simp [hfields])
  cases hbase.symm.trans hsame
  refine ⟨c, t, ds, key, create, update, hgather, ht, hfields, hdeclared, hinputs, hkey, ?_, ?_⟩
  · rw [hupdate, KeepsDemand, Option.mem_def.1 hupdated]
    simp [hchanged]
  · rw [hcreate, StartsDemand, Option.mem_def.1 hcreated]
    simp [GivesKey, hadded]

end SchemaLoom.Surface
