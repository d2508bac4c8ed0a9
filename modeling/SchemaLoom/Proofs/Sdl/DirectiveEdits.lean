/-
Laws of edits of directives.

What an edit of directives does is what it does to the list of directives at its address, so its
laws are those of lists.  Attaching names drops all directives of these names and puts each of
them once behind the others (`Attaches`), where a second time finds nothing to do; stripping a
name filters (`Strips`).

Two edits depend on each other only if they meet at one address, and there only if one of them
attaches what the other strips, or if both attach.  All other pairs are `Edit.Independent`, and
`Edit.Independent.changeAt_comm` swaps them.
-/
import SchemaLoom.Proofs.Sdl.Address

namespace SchemaLoom.Sdl

/-! ### What edits make of a list of directives -/

/-- The directives `ds'` are `ds` with those of `names` attached: the others stay in front as they
were, and every name is carried once more behind them, without arguments and in the order in which
the names are first listed. -/
structure Attaches (names : List String) (ds ds' : List Directive) : Prop where
  behind : ∃ listed, ds' = ds.filter (fun d => d.name ∉ names) ++ listed ∧
    (∀ n, n ∈ listed.map (·.name) ↔ n ∈ names) ∧
    (listed.map (·.name)).Pairwise (fun n m => names.idxOf n < names.idxOf m) ∧
    ∀ d ∈ listed, d.arguments = []
  once : ∀ n ∈ names, (ds'.map (·.name)).count n = 1

/-- The directives `ds'` are `ds` without those of a name, the others staying in their order. -/
structure Strips (name : String) (ds ds' : List Directive) : Prop where
  gone : ∀ d ∈ ds', d.name ≠ name
  others : ds'.filter (fun d => d.name ≠ name) = ds.filter fun d => d.name ≠ name

/-- What an edit of directives leaves of the directives at its address. -/
def Edit.Leaves : Edit → List Directive → List Directive → Prop
  | .addDirectives _ _ names => Attaches names
  | .removeDirective _ _ name => Strips name
  | _ => Eq

/-- Directives without arguments. -/
def bare (names : List String) : List Directive := names.map fun n => ⟨n, []⟩

@[simp] theorem names_bare (names : List String) : (bare names).map (·.name) = names := by
  simp [bare, Function.comp_def]

theorem addDirectives_eq (names : List String) (ds : List Directive) :
    addDirectives names ds
      = ds.filter (fun d => d.name ∉ names) ++ bare (Text.distinct names) := by
  simp [addDirectives, bare]

theorem attaches_addDirectives (names : List String) (ds : List Directive) :
    Attaches names ds (addDirectives names ds) where
  behind := by
    refine ⟨bare (Text.distinct names), addDirectives_eq names ds, fun n => ?_, ?_, ?_⟩
    · rw [names_bare, Text.mem_distinct]
    · rw [names_bare]
      exact Text.pairwise_idxOf_distinct names
    · intro d hd
      obtain ⟨n, -, rfl⟩ := List.mem_map.1 hd
      rfl
  once n hn := by
    have helsewhere : ((ds.filter fun d => d.name ∉ names).map (·.name)).count n = 0 := by
      rw [List.count_eq_zero, List.mem_map]
      rintro ⟨d, hd, rfl⟩
      have hother : d.name ∉ names := by simpa using (List.mem_filter.1 hd).2
      exact hother hn
    rw [addDirectives_eq, List.map_append, List.count_append, helsewhere, names_bare,
      (Text.nodup_distinct names).count, if_pos (Text.mem_distinct.2 hn)]

theorem strips_dropDirective (name : String) (ds : List Directive) :
    Strips name ds (dropDirective name ds) where
  gone d hd := (mem_dropDirective hd).2
  others := by simp [dropDirective]

theorem Edit.leaves_change {e : Edit} (h : e.IsOfDirectives) (ds : List Directive) :
    e.Leaves ds (e.change ds) := by
  cases e with
  | addDirectives type place names => exact attaches_addDirectives names ds
  | removeDirective type place name => exact strips_dropDirective name ds
  | _ => exact h.elim

/-! ### Laws

First the laws of the two changes to a list, then the same laws for edits.  At different addresses
there is nothing to show, since each list is changed by one of the two edits.
-/

theorem addDirectives_addDirectives (names : List String) (ds : List Directive) :
    addDirectives names (addDirectives names ds) = addDirectives names ds := by
  have hlisted : (bare (Text.distinct names)).filter (fun d => d.name ∉ names) = [] := by
    simp [bare]
  rw [addDirectives_eq names ds, addDirectives_eq, List.filter_append, List.filter_filter, hlisted]
  simp

theorem dropDirective_dropDirective (name : String) (ds : List Directive) :
    dropDirective name (dropDirective name ds) = dropDirective name ds := by
  simp [dropDirective]

theorem dropDirective_comm (name other : String) (ds : List Directive) :
    dropDirective name (dropDirective other ds) = dropDirective other (dropDirective name ds) :=
  List.filter_comm ..

/-- What is not listed can be dropped before or after the listed directives are attached. -/
theorem dropDirective_addDirectives {names : List String} {name : String} (h : name ∉ names)
    (ds : List Directive) :
    dropDirective name (addDirectives names ds) = addDirectives names (dropDirective name ds) := by
  have hlisted : dropDirective name (bare (Text.distinct names)) = bare (Text.distinct names) := by
    refine List.filter_eq_self.2 fun d hd => ?_
    obtain ⟨n, hn, rfl⟩ := List.mem_map.1 hd
    have hother : n ≠ name := fun hsame => h (hsame ▸ Text.mem_distinct.1 hn)
    simpa using hother
  rw [addDirectives_eq, addDirectives_eq, dropDirective, List.filter_append, List.filter_comm]
  exact congrArg _ hlisted

theorem Edit.change_change (e : Edit) (ds : List Directive) :
    e.change (e.change ds) = e.change ds := by
  cases e with
  | addDirectives type place names => exact addDirectives_addDirectives names ds
  | removeDirective type place name => exact dropDirective_dropDirective name ds
  | _ => rfl

/-- Two edits that do not depend on each other: both strip directives, or they are made at different
addresses, or one attaches directives and the other strips one that is not among them. -/
inductive Edit.Independent : Edit → Edit → Prop where
  | removals {type type' name name' : String} {place place' : Option String} :
    Independent (.removeDirective type place name) (.removeDirective type' place' name')
  | apart {e e' : Edit} (h : e.address ≠ e'.address) : Independent e e'
  | addRemove {type type' name : String} {place place' : Option String} {names : List String}
    (h : name ∉ names) :
    Independent (.addDirectives type place names) (.removeDirective type' place' name)
  | removeAdd {type type' name : String} {place place' : Option String} {names : List String}
    (h : name ∉ names) :
    Independent (.removeDirective type place name) (.addDirectives type' place' names)

theorem Edit.Independent.change_comm {e e' : Edit} (h : e.Independent e')
    (hsame : e.address = e'.address) (ds : List Directive) :
    e'.change (e.change ds) = e.change (e'.change ds) := by
  cases h with
  | removals => exact dropDirective_comm _ _ ds
  | apart hapart => exact absurd hsame hapart
  | addRemove hother => exact dropDirective_addDirectives hother ds
  | removeAdd hother => exact (dropDirective_addDirectives hother ds).symm

/-- Independent edits may be made in any order. -/
theorem Edit.Independent.changeAt_comm {e e' : Edit} (h : e.Independent e') (doc : Document) :
    (doc.changeAt e.address e.change).changeAt e'.address e'.change
      = (doc.changeAt e'.address e'.change).changeAt e.address e.change := by
  by_cases hsame : e.address = e'.address
  · rw [← hsame, Document.changeAt_changeAt, Document.changeAt_changeAt]
    exact congrArg (doc.changeAt e.address) (funext (h.change_comm hsame))
  · exact Document.changeAt_comm (Ne.symm hsame) doc

/-- **An edit of directives can be repeated without effect, leaves at its address the directives
that it is to leave (`Edit.Leaves`), and can be made before or after any edit of directives that it
does not depend on (`Edit.Independent`).** -/
theorem directives_edited (doc : Document) (e : Edit) (he : e.IsOfDirectives) {edited : Document}
    (hedit : doc.edit e = .ok edited) :
    edited.edit e = .ok edited ∧
    (∃ ds ds', doc.directivesAt? e.address = some ds ∧ edited.directivesAt? e.address = some ds' ∧
      e.Leaves ds ds') ∧
    ∀ e' other, e'.IsOfDirectives → doc.edit e' = .ok other → e.Independent e' →
      ∃ both, edited.edit e' = .ok both ∧ other.edit e = .ok both := by
  obtain ⟨hthere, rfl⟩ := (Document.edit_of_directives he).1 hedit
  refine ⟨?_, ?_, ?_⟩
  · refine (Document.edit_of_directives he).2 ⟨?_, ?_⟩
    · rw [Document.isSome_directivesAt?_changeAt]
      exact hthere
    · rw [Document.changeAt_changeAt]
      exact (congrArg (doc.changeAt e.address) (funext e.change_change)).symm
  · obtain ⟨ds, hds⟩ := Option.isSome_iff_exists.1 hthere
    refine ⟨ds, e.change ds, hds, ?_, Edit.leaves_change he ds⟩
    rw [Document.directivesAt?_changeAt, hds, Option.map_some]
  · intro e' other he' hother hindependent
    obtain ⟨hthere', rfl⟩ := (Document.edit_of_directives he').1 hother
    refine ⟨(doc.changeAt e.address e.change).changeAt e'.address e'.change, ?_, ?_⟩
    · refine (Document.edit_of_directives he').2 ⟨?_, rfl⟩
      rw [Document.isSome_directivesAt?_changeAt]
      exact hthere'
    · refine (Document.edit_of_directives he).2 ⟨?_, hindependent.changeAt_comm doc⟩
      rw [Document.isSome_directivesAt?_changeAt]
      exact hthere

/-- A document in which a type is declared twice, with directives and a field that occur twice. -/
def twofoldNote : Document :=
  let body : Field := ⟨none, "body", [], .named "String", [⟨"c", []⟩, ⟨"d", []⟩]⟩
  let directives : List Directive := [⟨"b", []⟩, ⟨"a", [("x", .int "1")]⟩, ⟨"b", [("y", .null)]⟩]
  ⟨[.object ⟨none, "Note", [], directives, [body, body]⟩,
    .object ⟨none, "Note", [], [⟨"a", []⟩], []⟩]⟩

theorem twofoldNote_edited :
    ∃ edited, twofoldNote.edit (.addDirectives "Note" none ["c", "b", "c"]) = .ok edited ∧
      (edited.directivesAt? ⟨"Note", none⟩).map (·.map (·.name)) = some ["a", "c", "b"] ∧
      edited.edit (.addDirectives "Note" none ["c", "b", "c"]) = .ok edited ∧
      ∃ other both, twofoldNote.edit (.removeDirective "Note" none "a") = .ok other ∧
        edited.edit (.removeDirective "Note" none "a") = .ok both ∧
        other.edit (.addDirectives "Note" none ["c", "b", "c"]) = .ok both := by
  obtain ⟨hagain, -, horder⟩ :=
    directives_edited twofoldNote (.addDirectives "Note" none ["c", "b", "c"]) trivial rfl
  obtain ⟨both, hboth, hother⟩ := horder (.removeDirective "Note" none "a") _ trivial rfl
    (.addRemove (by decide))
  exact ⟨_, rfl, rfl, hagain, _, both, rfl, hboth, hother⟩

end SchemaLoom.Sdl
