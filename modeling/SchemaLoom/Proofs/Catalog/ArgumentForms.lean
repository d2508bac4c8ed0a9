/-
The forms of directive arguments.

Which arguments a directive has is data: a `Signature` lists their names, whether each must be
given, and the kind of values that each may have.  Readers of arguments are written as chains of
steps, one for each argument, that stop at the first fault.

No step looks at what another one has read.  So a chain has a result exactly if each of its steps
has one, and a record is read exactly if its signature admits it (`reads_record`).  Readers of
single values are told by the kind of values that they accept (`Reads`), from texts up to the
records of a strategy, and the readers of directives are put together from them.

A relation and a rule are more than their arguments: the shape of the field and what the provider
allows come on top.  There the signature is what has been admitted if they are read, and not the
other way around.
-/
import Mathlib.Data.List.Forall2
import SchemaLoom.Catalog.Directive
import SchemaLoom.Outcome
import SchemaLoom.Proofs.Tree.Apart

namespace SchemaLoom

/-! ### Kinds of values

Kinds are tests of trees, so that signatures can be evaluated; `Reads` ties a test to a reader.
-/

namespace Tree

/-- `t` is a text. -/
def isText (t : Tree) : Bool := t.text?.isSome

/-- `t` is a text that is not empty. -/
def isFilledText (t : Tree) : Bool := t.text?.any fun s => s ≠ ""

/-- `t` is one of `words`. -/
def isWord (words : List String) (t : Tree) : Bool := t.text?.any (words.contains ·)

/-- `t` is nothing, or a value of the kind. -/
def isNullOr (kind : Tree → Bool) (t : Tree) : Bool := t.isNull || kind t

/-- `t` is a list of values of the kind. -/
def isListOf (kind : Tree → Bool) : Tree → Bool
  | list ts => ts.all kind
  | _ => false

/-- `t` is a list of values of the kind, and not the empty list. -/
def isFilledListOf (kind : Tree → Bool) : Tree → Bool
  | list ts => !ts.isEmpty && ts.all kind
  | _ => false

/-- `t` is a record of the kind that its entry `tag` selects from `kinds`. -/
def isTagged (tag : String) (kinds : List (String × (Tree → Bool))) : Tree → Bool
  | map fields =>
    (((lookup (.text tag) fields).bind text?).bind (kinds.lookup ·)).any fun kind =>
      kind (map fields)
  | _ => false

end Tree

namespace Form

/-- An argument that a directive has. -/
structure Slot where
  name : String
  /-- The name that counts if the first one is not given. -/
  second : Option String := none
  isNeeded : Bool := false
  kind : Tree → Bool

namespace Slot

/-- The value that is given for an argument. -/
def given? (s : Slot) (fields : Fields) : Option Tree :=
  (Tree.lookup (.text s.name) fields).or (s.second.bind fun name => Tree.lookup (.text name) fields)

/-- Among `fields` the argument has a value of its kind, or none where it needs none. -/
def fits (s : Slot) (fields : Fields) : Bool :=
  match s.given? fields with
  | some t => s.kind t
  | none => !s.isNeeded

/-- The name `key` is the one under which `fields` give the argument. -/
def covers (s : Slot) (fields : Fields) (key : Scalar) : Bool :=
  if (Tree.lookup (.text s.name) fields).isSome then key = .text s.name
  else s.second.any fun name => key = .text name

/-- The names of an argument, as a form knows it. -/
def known (s : Slot) : Known := (s.name, s.second)

end Slot

/-- The arguments that a directive has. -/
structure Signature where
  slots : List Slot
  /-- Other arguments are refused. -/
  isClosed : Bool

namespace Signature

/-- The arguments `fields` are such as the signature lists: each slot fits, and if the signature is
closed there are no others. -/
def admits (s : Signature) (fields : Fields) : Bool :=
  s.slots.all (·.fits fields)
    && (!s.isClosed || fields.all fun f => s.slots.any (·.covers fields f.1))

/-- `t` is a record of arguments that `s` admits. -/
def isRecord (s : Signature) : Tree → Bool
  | .map fields => s.admits fields
  | _ => false

end Signature

end Form

/-! ### Signatures

One signature for each directive that takes arguments.  A form `Reads` what a signature says if it
has a value for just the arguments that the signature admits.
-/

open Form (Slot Signature)

/-- The arguments of a key. -/
def Key.signature : Signature where
  slots := [
    { name := "fields", isNeeded := true, kind := Tree.isFilledListOf Tree.isText },
    { name := "name", kind := Tree.isNullOr Tree.isText },
    { name := "queryField", second := some "query_field", kind := Tree.isNullOr Tree.isText }]
  isClosed := false

/-- The arguments of a relation. -/
def Relation.signature : Signature where
  slots := [
    { name := "name", kind := Tree.isNullOr Tree.isText },
    { name := "foreignKey", second := some "foreign_key", kind := Tree.isNullOr Tree.isText },
    { name := "myKey", second := some "my_key", kind := Tree.isNullOr Tree.isText },
    { name := "yourKey", second := some "your_key", kind := Tree.isNullOr Tree.isText },
    { name := "sortField", second := some "sort_field", kind := Tree.isNullOr Tree.isText }]
  isClosed := false

/-- The arguments of a tenancy. -/
def Tenancy.signature : Signature where
  slots := [
    { name := "field", kind := Tree.isText },
    { name := "indexSuffix", second := some "index_suffix", kind := Tree.isText },
    { name := "ownerField", second := some "claim", kind := Tree.isText }]
  isClosed := true

namespace Access

/-- The entries of an owner strategy. -/
def Owner.signature : Signature where
  slots := [
    { name := "type", kind := Tree.isWord ["OWNER"] },
    { name := "ownerField", second := some "owner_field", kind := Tree.isText },
    { name := "identityClaim", second := some "identity_claim", kind := Tree.isText }]
  isClosed := true

/-- The entries of a group strategy. -/
def Groups.signature : Signature where
  slots := [
    { name := "type", kind := Tree.isWord ["GROUP"] },
    { name := "groups", isNeeded := true, kind := Tree.isFilledListOf Tree.isText },
    { name := "groupClaim", second := some "group_claim", kind := Tree.isText }]
  isClosed := true

/-- `t` is a strategy of owners or of groups, as its type says. -/
def isStrategy : Tree → Bool :=
  Tree.isTagged "type" [("OWNER", Owner.signature.isRecord), ("GROUP", Groups.signature.isRecord)]

/-- The arguments of an access rule. -/
def Rule.signature : Signature where
  slots := [
    { name := "provider", isNeeded := true,
      kind := Tree.isWord ["COGNITO_USER_POOLS", "API_KEY", "IAM"] },
    { name := "actions",
      kind := Tree.isListOf (Tree.isWord ["create", "read", "update", "delete"]) },
    { name := "strategy", kind := Tree.isNullOr isStrategy }]
  isClosed := true

end Access

/-- The arguments of a binding to a function. -/
def Catalog.functionSignature : Signature where
  slots := [{ name := "name", isNeeded := true, kind := Tree.isFilledText }]
  isClosed := false

namespace Form

variable {α β : Type} {fields : Fields} {kind : Tree → Bool}

/-- The reader `read` has a result for exactly the values of `kind`. -/
def Reads (read : Tree → Check α) (kind : Tree → Bool) : Prop :=
  ∀ t, (∃ a, read t = .ok a) ↔ kind t = true

theorem exists_inside_iff (name : String) (check : Check α) :
    (∃ a, inside name check = .ok a) ↔ ∃ a, check = .ok a :=
  Outcome.exists_mapError_iff _ _

/-! ### Single values

The kinds of values are read by small readers, which are put together as the kinds are: an option
from a kind, a list from the kind of its items.
-/

theorem reads_text : Reads text Tree.isText := by
  intro t
  unfold text
  split
  · simp [Tree.isText, Tree.text?]
  next hother =>
    have hnone : t.text? = none := by
      unfold Tree.text?
      split
      next s => exact absurd rfl (hother s)
      · rfl
    simp [Tree.isText, hnone, fault]

theorem reads_oneOf (choices : List (String × α)) :
    Reads (oneOf choices) (Tree.isWord (choices.map (·.1))) := by
  intro t
  unfold oneOf Tree.isWord
  cases t.text? with
  | none => simp [fault]
  | some s =>
    cases hfound : choices.lookup s with
    | none =>
      have hother : ∀ a, (s, a) ∉ choices := by
        intro a ha
        exact absurd (List.lookup_eq_none_iff.1 hfound _ ha) (by simp)
      simpa [hfound, fault] using hother
    | some a =>
      obtain ⟨before, after, rfl, -⟩ := List.lookup_eq_some_iff.1 hfound
      simp [hfound]

theorem Reads.map {read : Tree → Check α} (h : Reads read kind) (f : α → β) :
    Reads (fun t => f <$> read t) kind :=
  fun t => (Outcome.exists_map_iff f (read t)).trans (h t)

theorem Reads.optional {read : Tree → Check α} (h : Reads read kind) :
    Reads (optional read) (Tree.isNullOr kind) := by
  intro t
  unfold Form.optional
  split
  · simp [Tree.isNullOr, Tree.isNull]
  next hother =>
    have hgiven : t.isNull = false := by
      unfold Tree.isNull
      split
      · exact absurd rfl hother
      · rfl
    rw [Outcome.exists_map_iff, h t, Tree.isNullOr, hgiven, Bool.false_or]

theorem Reads.items {read : Tree → Check α} (h : Reads read kind) (i : Nat) (ts : List Tree) :
    (∃ as, items read i ts = .ok as) ↔ ts.all kind = true := by
  induction ts generalizing i with
  | nil => simp [Form.items]
  | cons t ts ih =>
    rw [Form.items, Outcome.exists_steps_iff fun first =>
      (Outcome.exists_steps_iff fun rest => Outcome.exists_pure_iff (first :: rest)).trans
        (and_congr_left' (ih (i + 1)))]
    rw [exists_inside_iff, h t, and_true, List.all_cons, Bool.and_eq_true]

theorem Reads.listOf {read : Tree → Check α} (h : Reads read kind) :
    Reads (listOf read) (Tree.isListOf kind) := by
  intro t
  cases t with
  | list ts => exact h.items 0 ts
  | _ => simp [Form.listOf, Tree.isListOf, fault]

theorem length_items {read : Tree → Check α} {i : Nat} {ts : List Tree} {as : List α}
    (h : items read i ts = .ok as) : as.length = ts.length := by
  induction ts generalizing i as with
  | nil =>
    cases h
    rfl
  | cons t ts ih =>
    obtain ⟨first, -, h⟩ := Outcome.of_bind_eq_ok h
    obtain ⟨rest, hrest, h⟩ := Outcome.of_bind_eq_ok h
    cases h
    rw [List.length_cons, List.length_cons, ih hrest]

theorem Reads.someOf {read : Tree → Check α} (h : Reads read kind) :
    Reads (someOf read) (Tree.isFilledListOf kind) := by
  intro t
  cases t with
  | list ts =>
    have hsteps : Form.someOf read (.list ts) = Form.items read 0 ts >>= fun all =>
        if all.isEmpty then fault .emptyList else pure all := rfl
    have hall := h.items 0 ts
    rw [hsteps, Tree.isFilledListOf]
    cases hitems : Form.items read 0 ts with
    | error other =>
      rw [hitems] at hall
      have hnot : ts.all kind = false := by simpa using hall
      simp [hnot]
    | ok as =>
      rw [hitems] at hall
      have hkind : ts.all kind = true := hall.1 ⟨as, rfl⟩
      -- that there is an item is asked of what was read, which is as long as what was given
      have hsame : as.isEmpty = ts.isEmpty := by
        rw [Bool.eq_iff_iff, List.isEmpty_iff_length_eq_zero, List.isEmpty_iff_length_eq_zero,
          length_items hitems]
      rw [Outcome.ok_bind, hsame, hkind, Bool.and_true]
      cases ts.isEmpty <;> simp [fault]
  | _ => simp [Form.someOf, Form.listOf, Tree.isFilledListOf, fault]

/-- A record is read by the form of its tag if it is of the kind of its tag. -/
theorem reads_tagged {forms : List (String × (Tree → Check α))}
    {kinds : List (String × (Tree → Bool))}
    (h : List.Forall₂ (fun f k => f.1 = k.1 ∧ Reads f.2 k.2) forms kinds) (tag : String) :
    Reads (tagged tag forms) (Tree.isTagged tag kinds) := by
  -- forms and kinds have the same tags, so the first of a tag is the first in both
  have hlookup : ∀ word t, (∃ read, forms.lookup word = some read ∧ ∃ a, read t = .ok a) ↔
      ((kinds.lookup word).any fun kind => kind t) = true := by
    intro word t
    induction h with
    | nil => simp
    | cons hhead _ ih =>
      obtain ⟨hname, hreads⟩ := hhead
      rw [List.lookup_cons, List.lookup_cons, ← hname]
      split
      · simpa using hreads t
      · exact ih
  intro t
  cases t with
  | map fields =>
    unfold tagged Tree.isTagged
    dsimp only
    cases Tree.lookup (.text tag) fields with
    | none => simp [fault]
    | some found =>
      rw [Option.bind_some]
      cases htext : found.text? with
      | none => simp [htext, fault]
      | some word =>
        rw [Option.bind_some, ← hlookup word]
        cases hread : forms.lookup word with
        | none => simp [htext, hread, fault]
        | some read => simp [htext, hread, exists_inside_iff]
  | _ => simp [tagged, Tree.isTagged, fault]

/-! ### Arguments

An argument is needed, or has a default, or goes by a second name.  Under the second name it is
read only if the first is not given, which is also when the second is known (`Slot.covers`).
-/

theorem exists_needed_iff {read : Tree → Check α} (h : Reads read kind) (name : String) :
    (∃ a, needed fields name read = .ok a)
      ↔ ({ name, isNeeded := true, kind } : Slot).fits fields = true := by
  unfold needed Slot.fits Slot.given?
  cases Tree.lookup (.text name) fields with
  | none => simp [exists_inside_iff, fault]
  | some t => simpa [exists_inside_iff] using h t

theorem exists_defaulted_iff {read : Tree → Check α} (h : Reads read kind) (name : String)
    (default : α) :
    (∃ a, defaulted fields name default read = .ok a)
      ↔ ({ name, kind } : Slot).fits fields = true := by
  unfold defaulted Slot.fits Slot.given?
  cases Tree.lookup (.text name) fields with
  | none => simp
  | some t => simpa [exists_inside_iff] using h t

theorem exists_renamed_iff {read : Tree → Check α} (h : Reads read kind) (name second : String)
    (default : α) :
    (∃ a, renamed fields name second default read = .ok a)
      ↔ ({ name, second := some second, kind } : Slot).fits fields = true := by
  unfold renamed Slot.fits Slot.given?
  cases Tree.lookup (.text name) fields with
  | some t => simpa [exists_inside_iff] using h t
  | none =>
    cases hsecond : Tree.lookup (.text second) fields with
    | none => simp [hsecond]
    | some t => simpa [hsecond, exists_inside_iff] using h t

/-- A key is refused unless it is the name under which an argument is given. -/
theorem exists_closed_iff (slots : List Slot) {known : List Known}
    (hknown : known = slots.map Slot.known) :
    (∃ u, closed fields known = .ok u)
      ↔ (fields.all fun f => slots.any (·.covers fields f.1)) = true := by
  -- the names that a form has used are those that its slots cover
  have hused : ∀ f : Scalar × Tree,
      ((slots.map Slot.known).flatMap (usedName fields)).any (fun name =>
        Scalar.sameKey f.1 (.text name))
        = slots.any (·.covers fields f.1) := by
    intro f
    rw [List.flatMap_map, List.any_flatMap]
    refine congrArg (List.any slots) (funext fun s => ?_)
    have hkey : ∀ name, Scalar.sameKey f.1 (.text name) = decide (f.1 = .text name) := by
      intro name
      rw [Bool.eq_iff_iff, Tree.sameKey_text_iff, decide_eq_true_iff]
    unfold Slot.known usedName Slot.covers
    dsimp only
    split
    · simp [hkey]
    · cases s.second <;> simp [hkey]
  unfold closed
  simp only [hknown, hused]
  cases hfind : fields.find? fun f => !slots.any (·.covers fields f.1) with
  | none =>
    have hall : (fields.all fun f => slots.any (·.covers fields f.1)) = true := by
      rw [List.all_eq_true]
      intro f hf
      simpa using List.find?_eq_none.1 hfind f hf
    simp [hall]
  | some f =>
    have hnot : (fields.all fun f => slots.any (·.covers fields f.1)) = false := by
      rw [List.all_eq_false]
      exact ⟨f, List.mem_of_find?_eq_some hfind, by simpa using List.find?_some hfind⟩
    simp [hnot, exists_inside_iff, fault]

/-- A record is read if its fields are. -/
theorem reads_record {form : String} {s : Signature} {next : Fields → Check α}
    (h : ∀ fields, (∃ a, next fields = .ok a) ↔ s.admits fields = true) :
    Reads (fun t => fieldsOf form t >>= next) s.isRecord := by
  intro t
  cases t with
  | map fields => exact h fields
  | _ => simp [fieldsOf, Signature.isRecord, fault]

end Form

/-! ### Directives -/

open Form (Reads reads_text reads_oneOf reads_record reads_tagged exists_needed_iff
  exists_defaulted_iff exists_renamed_iff exists_closed_iff)
open Outcome (exists_steps_iff exists_pure_iff)

/-- **A key is read exactly if its signature admits the arguments.** -/
theorem Key.reads_read : Reads Key.read Key.signature.isRecord := by
  refine reads_record fun fields => ?_
  rw [exists_steps_iff fun names => exists_steps_iff fun name => exists_steps_iff fun query =>
      exists_pure_iff _,
    exists_needed_iff reads_text.someOf, exists_defaulted_iff reads_text.optional,
    exists_renamed_iff reads_text.optional]
  simp [Signature.admits, Key.signature]

/-- What a signature has admitted is all that is asked of the arguments of a relation, but for its
kind. -/
theorem Relation.admits_of_declared {field : String} {shape : Sdl.Shape} {options : Form.Fields}
    {r : Relation} (h : Relation.declared field shape options = .ok r) :
    Relation.signature.admits options = true := by
  have hsome : ∃ r, Relation.declared field shape options = .ok r := ⟨r, h⟩
  unfold declared readOptions at hsome
  rw [exists_steps_iff fun name => exists_steps_iff fun foreignKey => exists_steps_iff fun myKey =>
      exists_steps_iff fun yourKey => exists_steps_iff fun sortField =>
      exists_steps_iff fun kind => exists_pure_iff _,
    exists_defaulted_iff reads_text.optional, exists_renamed_iff reads_text.optional,
    exists_renamed_iff reads_text.optional, exists_renamed_iff reads_text.optional,
    exists_renamed_iff reads_text.optional] at hsome
  obtain ⟨hname, hforeign, hmy, hyour, hsort, -⟩ := hsome
  simp [Signature.admits, Relation.signature, hname, hforeign, hmy, hyour, hsort]

/-- **A tenancy is read exactly if its signature admits the arguments.** -/
theorem Tenancy.reads_read : Reads Tenancy.read Tenancy.signature.isRecord := by
  refine reads_record fun fields => ?_
  rw [exists_steps_iff fun field => exists_steps_iff fun suffix => exists_steps_iff fun claim =>
      exists_steps_iff fun closed => exists_pure_iff _,
    exists_defaulted_iff reads_text, exists_renamed_iff reads_text, exists_renamed_iff reads_text,
    exists_closed_iff Tenancy.signature.slots]
  · simp [Signature.admits, Tenancy.signature, and_assoc]
  · rfl

namespace Access

theorem Owner.reads_read : Reads Owner.read Owner.signature.isRecord := by
  refine reads_record fun fields => ?_
  rw [exists_steps_iff fun type => exists_steps_iff fun field => exists_steps_iff fun claim =>
      exists_steps_iff fun closed => exists_pure_iff _,
    exists_defaulted_iff (reads_oneOf _), exists_renamed_iff reads_text,
    exists_renamed_iff reads_text, exists_closed_iff Owner.signature.slots]
  · simp [Signature.admits, Owner.signature, and_assoc]
  · rfl

theorem Groups.reads_read : Reads Groups.read Groups.signature.isRecord := by
  refine reads_record fun fields => ?_
  rw [exists_steps_iff fun type => exists_steps_iff fun names => exists_steps_iff fun claim =>
      exists_steps_iff fun closed => exists_pure_iff _,
    exists_defaulted_iff (reads_oneOf _), exists_needed_iff reads_text.someOf,
    exists_renamed_iff reads_text, exists_closed_iff Groups.signature.slots]
  · simp [Signature.admits, Groups.signature, and_assoc]
  · rfl

/-- A strategy is read by the signature that its type selects. -/
theorem reads_strategy : Reads Strategy.read isStrategy :=
  reads_tagged
    (.cons ⟨rfl, Owner.reads_read.map _⟩ (.cons ⟨rfl, Groups.reads_read.map _⟩ .nil)) "type"

/-- **A rule is read exactly if its signature admits the arguments.** -/
theorem Rule.reads_read : Reads Rule.read Rule.signature.isRecord := by
  refine reads_record fun fields => ?_
  rw [exists_steps_iff fun provider => exists_steps_iff fun actions =>
    exists_steps_iff fun strategy =>
      exists_steps_iff fun closed => exists_pure_iff _,
    exists_needed_iff (reads_oneOf _), exists_defaulted_iff (reads_oneOf _).listOf,
    exists_defaulted_iff reads_strategy.optional, exists_closed_iff Rule.signature.slots]
  · simp [Signature.admits, Rule.signature, and_assoc, Provider.all, Provider.text, Action.all,
      Action.text]
  · rfl

/-- The signature admits the arguments of a rule; what the provider says of strategies comes on
top. -/
theorem Rule.admits_of_declared {args : Form.Fields} {rule : Rule}
    (h : Rule.declared args = .ok rule) :
    Rule.signature.admits args = true := by
  unfold Rule.declared at h
  dsimp only at h
  split at h
  · cases h
  next provider _ =>
    split at h
    · cases h
    · exact (Rule.reads_read (.map args)).1 ⟨rule, Outcome.of_mapError_eq_ok h⟩

end Access

namespace Catalog

/-- **A field is bound to a function exactly if the signature admits the arguments
(`functionSignature`).** -/
theorem exists_functionBinding_iff (site : Sdl.Site) (field : Sdl.Field) (args : Form.Fields) :
    (∃ b, functionBinding site field args = .ok b) ↔ functionSignature.admits args = true := by
  have hgiven : functionSignature.admits args
      = (present ((Tree.lookup (.text "name") args).bind (·.text?))).isSome := by
    simp only [functionSignature, Signature.admits, Form.Slot.fits, Form.Slot.given?, List.all_cons,
      List.all_nil, Option.bind_none, Option.or_none, Bool.not_true, Bool.not_false, Bool.true_or,
      Bool.and_true]
    cases Tree.lookup (.text "name") args with
    | none => rfl
    | some t =>
      show Tree.isFilledText t = _
      rw [Option.bind_some, Tree.isFilledText]
      cases t.text? with
      | none => rfl
      | some source => by_cases hfilled : source = "" <;> simp [present, hfilled]
  rw [hgiven]
  unfold functionBinding
  cases present ((Tree.lookup (.text "name") args).bind (·.text?)) <;> simp

end Catalog

end SchemaLoom
