/-
What the text of a template holds.

Blocks of a template stand in its text as they are (`Template.Holds`).  Guards begin with
remarks, which end with a mark of their own; so a template that shows this mark nowhere holds no
guard (`Template.Unmarked.not_holds`).

That a template is unmarked is shown along the way it is built, from lines, members and blocks.
The requests of relations show names that the schema gives as they are, and one of these may have
the mark in it, so their lemmas ask that it has not.
-/
import SchemaLoom.Resolver.Guard
import SchemaLoom.Resolver.Listing

namespace SchemaLoom.Resolver

/-- The text of `t` holds the text of `block`. -/
def Template.Holds (t block : Template) : Prop := block.text.toList <:+: t.text.toList

theorem Template.holds_append (before block after : Template) :
    (before ++ block ++ after).Holds block := by
  refine ⟨Template.text before |>.toList, Template.text after |>.toList, ?_⟩
  rw [Template.text_append, Template.text_append, String.toList_append, String.toList_append]

theorem Template.text_cons (line : String) (t : Template) :
    Template.text (line :: t) = line ++ "\n" ++ t.text := by
  rw [← List.singleton_append, Template.text_append]
  simp [Template.text]

/-- The characters of a text are those of its lines, and line breaks. -/
theorem Template.mem_text {c : Char} (hbreak : c ≠ '\n') {t : Template} :
    c ∈ t.text.toList ↔ ∃ line ∈ t, c ∈ line.toList := by
  induction t with
  | nil => simp [Template.text]
  | cons line t ih => simp [Template.text_cons, ih, hbreak]

/-! ### Marks

A guard begins with a remark, and remarks end with a mark that other lines do not show.  So a
template without the mark holds no guard.
-/

/-- No line of `t` shows the mark that ends remarks. -/
def Template.Unmarked (t : Template) : Prop := ∀ line ∈ t, '*' ∉ line.toList

section Unmarked

variable {s t : Template}

theorem Template.unmarked_append : Template.Unmarked (s ++ t) ↔ s.Unmarked ∧ t.Unmarked := by
  simp [Template.Unmarked, or_imp, forall_and]

theorem Template.unmarked_cons {line : String} :
    Template.Unmarked (line :: t) ↔ '*' ∉ line.toList ∧ t.Unmarked := by
  simp [Template.Unmarked]

theorem Template.unmarked_nil : Template.Unmarked [] := by
  simp [Template.Unmarked]

theorem unmarked_shifted (h : t.Unmarked) : (shifted t).Unmarked := by
  intro line hline
  obtain ⟨inner, hinner, rfl⟩ := List.mem_map.1 hline
  unfold shiftedLine
  split
  · simp
  · simpa using h inner hinner

theorem unmarked_endedBy (h : t.Unmarked) : (endedBy "," t).Unmarked := by
  induction t with
  | nil => exact h
  | cons line t ih =>
    rw [Template.unmarked_cons] at h
    cases t with
    | nil => simpa [endedBy, Template.Unmarked] using h.1
    | cons next t =>
      rw [endedBy, Template.unmarked_cons]
      · exact ⟨h.1, ih h.2⟩
      · exact List.cons_ne_nil next t

theorem unmarked_members {ms : List Template} (h : ∀ m ∈ ms, m.Unmarked) :
    (members ms).Unmarked := by
  induction ms with
  | nil => exact Template.unmarked_nil
  | cons m ms ih =>
    cases ms with
    | nil => exact h m List.mem_cons_self
    | cons next ms =>
      rw [members, Template.unmarked_append]
      · exact ⟨unmarked_endedBy (h m List.mem_cons_self),
          ih fun other hother => h other (List.mem_cons_of_mem m hother)⟩
      · exact List.cons_ne_nil next ms

theorem unmarked_mapping {lead tail : String} {ms : List Template} (hlead : '*' ∉ lead.toList)
    (htail : '*' ∉ tail.toList) (h : ∀ m ∈ ms, m.Unmarked) : (mapping lead ms tail).Unmarked := by
  rw [mapping, List.cons_append, Template.unmarked_cons, Template.unmarked_append,
    Template.unmarked_cons]
  exact ⟨by simpa using hlead, unmarked_shifted (unmarked_members h), by simpa using htail,
    Template.unmarked_nil⟩

theorem unmarked_submap {name : String} {ms : List String} (hname : '*' ∉ name.toList)
    (h : ∀ m ∈ ms, '*' ∉ m.toList) : (submap name ms).Unmarked := by
  refine unmarked_mapping (by simpa [quoted] using hname) (by simp) ?_
  intro m hm
  obtain ⟨line, hline, rfl⟩ := List.mem_map.1 hm
  exact Template.unmarked_cons.2 ⟨h line hline, Template.unmarked_nil⟩

theorem unmarked_whenever {condition : String} (hcondition : '*' ∉ condition.toList)
    (h : t.Unmarked) : (whenever condition t).Unmarked := by
  rw [whenever, block, List.cons_append, Template.unmarked_cons, Template.unmarked_append]
  exact ⟨by simpa using hcondition, unmarked_shifted h,
    Template.unmarked_cons.2 ⟨by simp, Template.unmarked_nil⟩⟩

end Unmarked

/-- **A template without marks holds no block that begins with a remark** (`Template.Holds`). -/
theorem Template.Unmarked.not_holds {t block : Template} (h : t.Unmarked) {words : String}
    (hremark : remark words ∈ block) : ¬ t.Holds block := by
  intro hholds
  have hmark : '*' ∈ block.text.toList :=
    (Template.mem_text (by decide)).2 ⟨_, hremark, by simp [remark]⟩
  obtain ⟨line, hline, hshown⟩ := (Template.mem_text (by decide)).1 (hholds.subset hmark)
  exact h line hline hshown

/-! ### Related items -/

theorem mark_quoted {name : String} : '*' ∈ (quoted name).toList ↔ '*' ∈ name.toList := by
  simp [quoted]

theorem mark_named {name value : String} :
    '*' ∈ (named name value).toList ↔ '*' ∈ name.toList ∨ '*' ∈ value.toList := by
  simp [named, quoted]

theorem unmarked_named {name value : String} (hname : '*' ∉ name.toList)
    (hvalue : '*' ∉ value.toList) : Template.Unmarked [named name value] :=
  Template.unmarked_cons.2 ⟨by simp [mark_named, hname, hvalue], Template.unmarked_nil⟩

theorem unmarked_request {version operation : String} {more : List Template}
    (hversion : '*' ∉ version.toList) (hoperation : '*' ∉ operation.toList)
    (h : ∀ m ∈ more, m.Unmarked) : (request version operation more).Unmarked := by
  refine unmarked_mapping (by simp) (by simp) ?_
  intro m hm
  rcases List.mem_cons.1 hm with rfl | hm
  · exact unmarked_named (by decide) (by simpa [mark_quoted] using hversion)
  · rcases List.mem_cons.1 hm with rfl | hm
    · exact unmarked_named (by decide) (by simpa [mark_quoted] using hoperation)
    · exact h m hm

section Related

variable {yours mine : String}

theorem unmarked_matching (hyours : '*' ∉ yours.toList) (hmine : '*' ∉ mine.toList) :
    ∀ m ∈ matching yours mine, m.Unmarked := by
  have hvalue : '*' ∉ (stored ("$ctx.source." ++ mine)).toList := by
    unfold stored
    simp only [String.toList_append, List.mem_append, not_or]
    exact ⟨⟨by decide, by decide, hmine⟩, by decide⟩
  intro m hm
  simp only [matching, List.mem_cons, List.not_mem_nil, or_false] at hm
  rcases hm with rfl | rfl | rfl
  · exact unmarked_named (by decide) (by decide)
  · refine unmarked_submap (by decide) fun line hline => ?_
    rw [List.mem_singleton.1 hline, mark_named, mark_quoted, not_or]
    exact ⟨by decide, hyours⟩
  · refine unmarked_submap (by decide) fun line hline => ?_
    rw [List.mem_singleton.1 hline, mark_named, not_or]
    exact ⟨by decide, hvalue⟩

/-- Reading a related item shows a mark only if a name of the relation does. -/
theorem unmarked_relatedItemRequest (hyours : '*' ∉ yours.toList) (hmine : '*' ∉ mine.toList)
    (isPartial : Bool) : (relatedItemRequest yours mine isPartial).Unmarked := by
  rw [relatedItemRequest, Template.unmarked_append]
  constructor
  · exact unmarked_whenever (by simpa using hmine)
      (Template.unmarked_cons.2 ⟨by decide, Template.unmarked_nil⟩)
  · cases isPartial with
    | true =>
      refine unmarked_request (by decide) (by decide) fun m hm => ?_
      simp only [List.mem_cons, List.not_mem_nil, or_false] at hm
      rcases hm with rfl | rfl
      · exact unmarked_mapping (by decide) (by decide) (unmarked_matching hyours hmine)
      · exact unmarked_named (by decide) (by decide)
    | false =>
      refine unmarked_request (by decide) (by decide) fun m hm => ?_
      rw [List.mem_singleton.1 hm]
      refine unmarked_submap (by decide) fun line hline => ?_
      rw [List.mem_singleton.1 hline, mark_named, not_or]
      exact ⟨hyours, by simpa using hmine⟩

/-- Listing related items shows a mark only if a name of the relation does. -/
theorem unmarked_relatedItemsRequest {index : Option String} (hyours : '*' ∉ yours.toList)
    (hmine : '*' ∉ mine.toList) (hindex : ∀ name ∈ index, '*' ∉ name.toList) :
    (relatedItemsRequest yours mine index).Unmarked := by
  unfold relatedItemsRequest
  dsimp only
  rw [List.cons_append, Template.unmarked_cons, Template.unmarked_append]
  refine ⟨by decide,
    unmarked_mapping (by decide) (by decide) (unmarked_matching hyours hmine), ?_⟩
  refine unmarked_request (by decide) (by decide) fun m hm => ?_
  rw [List.mem_append] at hm
  rcases hm with hm | hm
  · simp only [List.mem_cons, List.not_mem_nil, or_false] at hm
    rcases hm with rfl | rfl | rfl | rfl | rfl <;> exact unmarked_named (by decide) (by decide)
  · obtain ⟨name, hname, rfl⟩ := Option.map_eq_some_iff.1 (Option.mem_toList.1 hm)
    have hhere : name ∈ index := (Option.mem_filter_iff.1 hname).1
    exact unmarked_named (by decide) (by simpa [mark_quoted] using hindex name hhere)

/-- What a relation to one item answers with shows no name. -/
theorem unmarked_relatedItemResponse (isPartial : Bool) :
    (relatedItemResponse isPartial).Unmarked := by
  unfold Template.Unmarked
  cases isPartial <;> decide

theorem unmarked_resultResponse : resultResponse.Unmarked := by
  unfold Template.Unmarked
  decide

end Related

end SchemaLoom.Resolver
