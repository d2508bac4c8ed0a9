/-
Generated declarations are printed as they are written.

Declarations are written by one printer, and definitions that were read by another.  On
declarations that are made of names the two agree to the letter: every member takes one line, and
what is left out by one is left out by the other (`render_declarations`).  So a document that is
put together from generated declarations is printed as if it had been generated, and is read back
in the same way.

The printer of documents decides by the text of a member whether it takes more than one line, and
moves lines to the right.  So it is shown of every member that its text stands on one line
(`IsLine`); then moving lines is the same as putting blanks in front of members.
-/
import SchemaLoom.Proofs.Lists
import SchemaLoom.Proofs.Sdl.Writing
import SchemaLoom.Proofs.Surface.Declaration

namespace SchemaLoom

open Text

namespace Sdl

/-! ### Texts on one line -/

/-- The text stands on one line. -/
def IsLine (s : String) : Prop := ∀ c ∈ s.toList, isLineBreak c = false

theorem isLine_of_all {s : String} (h : (s.toList.all fun c => !isLineBreak c) = true) :
    IsLine s := by
  intro c hc
  simpa using List.all_eq_true.1 h c hc

theorem IsLine.append {s t : String} (hs : IsLine s) (ht : IsLine t) : IsLine (s ++ t) := by
  intro c hc
  rw [String.toList_append, List.mem_append] at hc
  exact hc.elim (hs c) (ht c)

theorem isLine_of_isName {s : String} (h : isName s = true) : IsLine s := by
  intro c hc
  have hname := continuesName_of_isName h c hc
  rw [Bool.eq_false_iff]
  intro hbreak
  simp only [isLineBreak, Bool.or_eq_true, beq_iff_eq] at hbreak
  rcases hbreak with rfl | rfl
  · exact absurd hname (by decide)
  · exact absurd hname (by decide)

theorem IsLine.ne_break {s : String} (h : IsLine s) : ∀ c ∈ s.toList, c ≠ '\n' := by
  rintro c hc rfl
  exact absurd (h _ hc) (by decide)

theorem IsLine.ne_return {s : String} (h : IsLine s) : ∀ c ∈ s.toList, c ≠ '\r' := by
  rintro c hc rfl
  exact absurd (h _ hc) (by decide)

theorem IsLine.hasBreak_eq {s : String} (h : IsLine s) : hasBreak s = false := by
  rw [Bool.eq_false_iff, hasBreak, ne_eq, List.contains_iff_mem]
  exact fun hmem => h.ne_break _ hmem rfl

theorem ne_empty_of_isName {s : String} (h : isName s = true) : s ≠ "" := by
  rintro rfl
  exact absurd h (by decide)

theorem isLine_render_typeRef {t : TypeRef} (hbase : isName t.base = true) : IsLine t.render := by
  have hall :
      ∀ mark ∈ ["[", "]", "!"], (mark.toList.all fun c => !isLineBreak c) = true := by decide
  have hmark : ∀ mark ∈ ["[", "]", "!"], IsLine mark := fun mark hmem =>
    isLine_of_all (hall mark hmem)
  induction t with
  | named n => exact isLine_of_isName hbase
  | list item ih => exact ((hmark "[" (by simp)).append (ih hbase)).append (hmark "]" (by simp))
  | nonNull inner ih => exact (ih hbase).append (hmark "!" (by simp))

/-! ### Lines in braces

Names and types hold no line break, so a member is a line, and indenting the lines one by one is
indenting the text.
-/

theorem joinPresent_of_present {separator : String} {pieces : List String}
    (h : ∀ p ∈ pieces, p ≠ "") : joinPresent separator pieces = separator.intercalate pieces := by
  rw [joinPresent, List.filter_eq_self.2 fun p hp => by simpa using h p hp]

/-- Lines are moved to the right one by one. -/
theorem indentBreaks_intercalate {lines : List String} (hsome : lines ≠ [])
    (h : ∀ l ∈ lines, IsLine l) :
    "  " ++ indentBreaks ("\n".intercalate lines) = unlines (lines.map ("  " ++ ·)) := by
  induction lines with
  | nil => exact absurd rfl hsome
  | cons first lines ih =>
    rw [List.forall_mem_cons] at h
    have hfirst : indentBreaks first = first := by
      rw [← String.toList_inj, toList_indentBreaks, shift_eq_self h.1.ne_break]
    cases lines with
    | nil => simp [unlines, hfirst]
    | cons second lines =>
      have hrest := ih (by simp) h.2
      have hbreak : ∀ rest : String,
          indentBreaks (first ++ "\n" ++ rest) = first ++ "\n" ++ ("  " ++ indentBreaks rest) := by
        intro rest
        rw [← String.toList_inj] at hfirst ⊢
        rw [toList_indentBreaks] at hfirst
        simp [toList_indentBreaks, hfirst, shift_break]
      rw [String.intercalate_cons_cons, hbreak, hrest]
      simp [unlines, String.intercalate_cons_cons, String.append_assoc]

/-- Lines in braces, of which none is empty. -/
theorem braced_lines {lines : List String} (hsome : lines ≠ [])
    (h : ∀ l ∈ lines, IsLine l ∧ l ≠ "") :
    braced lines = "\x7b\n" ++ unlines (lines.map ("  " ++ ·)) ++ "\n\x7d" := by
  have hindented := indentBreaks_intercalate hsome fun l hl => (h l hl).1
  have hspaces : indentBreaks ("\n".intercalate lines) ≠ "" := by
    intro hnone
    rw [← String.toList_inj, toList_indentBreaks] at hnone
    have hhead := congrArg List.head? hnone
    rw [head?_shift] at hhead
    exact intercalate_ne_empty hsome (fun l hl => (h l hl).2)
      (String.toList_eq_nil_iff.1 (List.head?_eq_none_iff.1 hhead))
  unfold braced enclosedLines indented
  rw [joinPresent_of_present fun l hl => (h l hl).2]
  simp only [enclose, if_neg hspaces, String.append_empty, hindented]
  rw [if_neg (by simp [← hindented])]
  rfl

end Sdl

namespace Surface

open Sdl Sdl.Reader

variable {e : Entry} {o : Operation} {d : Declaration}

/-! ### Members -/

/-- An entry is printed as it is written. -/
theorem render_plainInput (e : Entry) : (plainInput e.pair).render = e.render := by
  simp [plainInput, InputField.render, renderDescription, renderDefault, renderDirectives,
    joinPresent, Entry.pair, Entry.render, Shape.render]

theorem Entry.render_ne_empty (e : Entry) : e.render ≠ "" := by
  simp [Entry.render]

theorem Entry.IsNamed.isLine (h : e.IsNamed) : IsLine e.render := by
  have hcolon : IsLine ": " := isLine_of_all (by decide)
  have hbase : isName e.type.toRef.base = true := by rw [e.type.base_toRef, h.base]
  exact ((isLine_of_isName h.name).append hcolon).append (isLine_render_typeRef hbase)

/-- Arguments that are entries are printed on one line. -/
theorem renderArguments_entries {es : List Entry} (hsome : es ≠ []) (h : ∀ e ∈ es, e.IsNamed) :
    renderArguments ((es.map Entry.pair).map plainInput)
      = "(" ++ ", ".intercalate (es.map (·.render)) ++ ")" := by
  have hitems : ((es.map Entry.pair).map plainInput).map (·.render) = es.map (·.render) := by
    rw [List.map_map, List.map_map]
    exact List.map_congr_left fun e _ => render_plainInput e
  have hpresent : ∀ s ∈ es.map (·.render), s ≠ "" ∧ hasBreak s = false := by
    intro s hs
    obtain ⟨e, he, rfl⟩ := List.mem_map.1 hs
    exact ⟨e.render_ne_empty, (h e he).isLine.hasBreak_eq⟩
  have hlines : (es.map (·.render)).any hasBreak = false := by
    rw [List.any_eq_false]
    intro s hs
    rw [(hpresent s hs).2]
    exact nofun
  unfold renderArguments
  dsimp only
  rw [hitems, hlines, if_neg (by simp), joinPresent_of_present fun s hs => (hpresent s hs).1,
    enclose, if_neg (intercalate_ne_empty (by simpa using hsome) fun s hs => (hpresent s hs).1)]

/-- Directives without arguments are printed as they are written. -/
theorem renderDirectives_bare (names : List String) :
    enclose " " (renderDirectives (names.map bare)) "" = renderMarks names := by
  have heach : (names.map bare).map (·.render) = names.map ("@" ++ ·) := by
    rw [List.map_map]
    refine List.map_congr_left fun n _ => ?_
    simp [bare, Directive.render, renderEntries, enclose]
  have hpresent : ∀ s ∈ names.map ("@" ++ ·), s ≠ "" := by
    intro s hs
    obtain ⟨n, -, rfl⟩ := List.mem_map.1 hs
    simp
  rw [renderDirectives, heach, joinPresent_of_present hpresent]
  by_cases hnone : names = []
  · rw [hnone]
    rfl
  · have hmarks : names.map (" @" ++ ·) = (names.map ("@" ++ ·)).map (" " ++ ·) := by
      rw [List.map_map]
      refine List.map_congr_left fun n _ => ?_
      rw [← String.toList_inj]
      simp
    rw [enclose, if_neg (intercalate_ne_empty (by simpa using hnone) hpresent), String.append_empty,
      renderMarks, hmarks, join_separated " " (by simpa using hnone)]

/-- **An operation is printed as it is written.** -/
theorem Operation.IsNamed.render_toField (h : o.IsNamed) : o.toField.render = o.render := by
  unfold Field.render Operation.toField plainField
  dsimp only
  rw [renderArguments_entries h.someArguments h.arguments, renderDirectives_bare]
  simp [renderDescription, Operation.render, Shape.render, String.append_assoc]

theorem Entry.render_toField (e : Entry) : e.toField.render = e.render := by
  simp [Entry.toField, plainField, Field.render, renderDescription, renderArguments, joinPresent,
    enclose, renderDirectives, Entry.render, Shape.render]

theorem Operation.IsNamed.isLine (h : o.IsNamed) : IsLine o.render := by
  have hall : ∀ word ∈ ["(", ", ", "): ", " @"],
      (word.toList.all fun c => !isLineBreak c) = true := by decide
  have hword : ∀ word ∈ ["(", ", ", "): ", " @"], IsLine word := fun word hmem =>
    isLine_of_all (hall word hmem)
  have harguments : IsLine (", ".intercalate (o.arguments.map (·.render))) := by
    refine forall_mem_intercalate (hword ", " (by simp)) fun s hs => ?_
    obtain ⟨e, he, rfl⟩ := List.mem_map.1 hs
    exact (h.arguments e he).isLine
  have hbase : isName o.type.toRef.base = true := by rw [o.type.base_toRef, h.base]
  have hmarks : IsLine (renderMarks o.directives) := by
    intro c hc
    rw [renderMarks, String.toList_join, List.mem_flatMap] at hc
    obtain ⟨s, hs, hc⟩ := hc
    obtain ⟨n, hn, rfl⟩ := List.mem_map.1 hs
    exact (hword " @" (by simp)).append (isLine_of_isName (h.directives n hn)) c hc
  exact (((((isLine_of_isName h.name).append (hword "(" (by simp))).append harguments).append
    (hword "): " (by simp))).append (isLine_render_typeRef hbase)).append hmarks

/-! ### Declarations -/

/-- A heading and lines in braces behind it. -/
theorem joinPresent_braced {keyword n : String} {lines : List String} (hkeyword : keyword ≠ "")
    (hname : n ≠ "") (hsome : lines ≠ []) (h : ∀ l ∈ lines, IsLine l ∧ l ≠ "") :
    joinPresent " " [keyword, n, braced lines] = bracedLines (keyword ++ " " ++ n) lines := by
  have hbraced := braced_lines hsome h
  have hpresent : braced lines ≠ "" := by simp [hbraced]
  rw [joinPresent_of_present (by simp [hkeyword, hname, hpresent]), hbraced, ← String.toList_inj]
  simp [String.intercalate_cons_cons, bracedLines]

theorem render_plainObject (keyword n : String) (fields : List Field) :
    (plainObject n fields).render keyword
      = joinPresent " " [keyword, n, braced (fields.map (·.render))] := by
  simp [plainObject, ObjectType.render, renderDescription, renderDirectives, joinPresent, enclose,
    List.filter_cons]

theorem render_plainInputType (keyword n : String) (fields : List InputField) :
    (plainInputType n fields).render keyword
      = joinPresent " " [keyword, n, braced (fields.map (·.render))] := by
  simp [plainInputType, InputType.render, renderDescription, renderDirectives, joinPresent,
    List.filter_cons]

theorem render_plainEnum (keyword n : String) (values : List String) :
    (plainEnum n values).render keyword = joinPresent " " [keyword, n, braced values] := by
  have heach : (plainEnum n values).values.map (·.render) = values := by
    rw [plainEnum, List.map_map]
    refine (List.map_congr_left fun v _ => ?_).trans (List.map_id values)
    by_cases hnone : v = ""
    · subst hnone
      rfl
    · simp [EnumValue.render, renderDescription, renderDirectives, joinPresent, List.filter_cons,
        hnone]
  rw [EnumType.render, heach]
  simp [plainEnum, renderDescription, renderDirectives, joinPresent, List.filter_cons]

/-- **A declaration is printed as it is written.** -/
theorem Declaration.IsNamed.render_toDefinition (h : d.IsNamed) :
    d.toDefinition.render = d.render := by
  have hentries : ∀ {es : List Entry}, (∀ e ∈ es, e.IsNamed) →
      ∀ l ∈ es.map (·.render), IsLine l ∧ l ≠ "" := by
    intro es hes l hl
    obtain ⟨e, he, rfl⟩ := List.mem_map.1 hl
    exact ⟨(hes e he).isLine, e.render_ne_empty⟩
  cases h with
  | @extension root operations hname hsome hall =>
    have heach : (operations.map (·.toField)).map (·.render) = operations.map (·.render) := by
      rw [List.map_map]
      exact List.map_congr_left fun o ho => (hall o ho).render_toField
    have hlines : ∀ l ∈ operations.map (·.render), IsLine l ∧ l ≠ "" := by
      intro l hl
      obtain ⟨o, ho, rfl⟩ := List.mem_map.1 hl
      exact ⟨(hall o ho).isLine, by simp [Operation.render]⟩
    show (plainObject root _).render "extend type" = _
    rw [render_plainObject, heach, joinPresent_braced (by decide) (ne_empty_of_isName hname)
      (by simpa using hsome) hlines]
    rfl
  | @root name hname =>
    show (plainObject name []).render "type" = _
    rw [render_plainObject]
    simp [joinPresent, ne_empty_of_isName hname, braced, enclosedLines, indented, indentBreaks,
      enclose, Declaration.render, String.intercalate_cons_cons]
  | @object name fields hname hsome hall =>
    have heach : (fields.map (·.toField)).map (·.render) = fields.map (·.render) := by
      rw [List.map_map]
      exact List.map_congr_left fun e _ => e.render_toField
    show (plainObject name _).render "type" = _
    rw [render_plainObject, heach, joinPresent_braced (by decide) (ne_empty_of_isName hname)
      (by simpa using hsome) (hentries hall)]
    rfl
  | @input name fields hname hsome hall =>
    have heach :
        (fields.map fun e => plainInput e.pair).map (·.render) = fields.map (·.render) := by
      rw [List.map_map]
      exact List.map_congr_left fun e _ => render_plainInput e
    show (plainInputType name _).render "input" = _
    rw [render_plainInputType, heach, joinPresent_braced (by decide) (ne_empty_of_isName hname)
      (by simpa using hsome) (hentries hall)]
    rfl
  | @enum name values hname hsome hall =>
    have hlines : ∀ v ∈ values, IsLine v ∧ v ≠ "" := fun v hv =>
      ⟨isLine_of_isName (hall v hv).1, ne_empty_of_isName (hall v hv).1⟩
    show (plainEnum name _).render "enum" = _
    rw [render_plainEnum, joinPresent_braced (by decide) (ne_empty_of_isName hname) hsome hlines]
    rfl

/-- **A document of declarations is printed as it is written.** -/
theorem render_declarations {ds : List Declaration} (hsome : ds ≠ []) (h : ∀ d ∈ ds, d.IsNamed) :
    Document.render ⟨ds.map (·.toDefinition)⟩ = renderDocument ds := by
  have heach : (ds.map (·.toDefinition)).map (·.render) = ds.map (·.render) := by
    rw [List.map_map]
    exact List.map_congr_left fun d hd => (h d hd).render_toDefinition
  have hpresent : ∀ s ∈ ds.map (·.render), s ≠ "" := by
    intro s hs
    obtain ⟨d, -, rfl⟩ := List.mem_map.1 hs
    cases d <;> simp [Declaration.render, bracedLines]
  unfold Document.render
  rw [heach, joinPresent_of_present hpresent, enclose,
    if_neg (intercalate_ne_empty (by simpa using hsome) hpresent), String.empty_append]
  rfl

/-! ### Line breaks -/

theorem ne_return_of_all {s : String} (h : (s.toList.all (· ≠ '\r')) = true) :
    ∀ c ∈ s.toList, c ≠ '\r' := by
  intro c hc
  simpa using List.all_eq_true.1 h c hc

theorem ne_return_bracedLines {heading : String} {lines : List String} (hheading : IsLine heading)
    (h : ∀ l ∈ lines, IsLine l) : ∀ c ∈ (bracedLines heading lines).toList, c ≠ '\r' := by
  have hall : ∀ word ∈ [" \x7b\n", "\n", "  ", "\n\x7d"], (word.toList.all (· ≠ '\r')) = true := by
    decide
  have hword : ∀ word ∈ [" \x7b\n", "\n", "  ", "\n\x7d"], ∀ c ∈ word.toList, c ≠ '\r' :=
    fun word hmem => ne_return_of_all (hall word hmem)
  have hlines : ∀ c ∈ (unlines (lines.map ("  " ++ ·))).toList, c ≠ '\r' := by
    refine forall_mem_intercalate (hword "\n" (by simp)) fun s hs c hc => ?_
    obtain ⟨l, hl, rfl⟩ := List.mem_map.1 hs
    rw [String.toList_append, List.mem_append] at hc
    exact hc.elim (hword "  " (by simp) c) ((h l hl).ne_return c)
  intro c hc
  simp only [bracedLines, String.toList_append, List.mem_append] at hc
  rcases hc with ((hc | hc) | hc) | hc
  · exact hheading.ne_return c hc
  · exact hword " \x7b\n" (by simp) c hc
  · exact hlines c hc
  · exact hword "\n\x7d" (by simp) c hc

/-- Lines of declarations are ended by line feeds alone. -/
theorem Declaration.IsNamed.ne_return (h : d.IsNamed) : ∀ c ∈ d.render.toList, c ≠ '\r' := by
  have hheading : ∀ {n : String}, isName n = true →
      ∀ word ∈ ["extend type ", "type ", "input ", "enum "], IsLine (word ++ n) := by
    intro n hname word hword
    have hall : ∀ word ∈ ["extend type ", "type ", "input ", "enum "],
        (word.toList.all fun c => !isLineBreak c) = true := by decide
    exact (isLine_of_all (hall word hword)).append (isLine_of_isName hname)
  have hentries :
      ∀ {es : List Entry}, (∀ e ∈ es, e.IsNamed) → ∀ l ∈ es.map (·.render), IsLine l := by
    intro es hes l hl
    obtain ⟨e, he, rfl⟩ := List.mem_map.1 hl
    exact (hes e he).isLine
  cases h with
  | extension hname _ hall =>
    refine ne_return_bracedLines (hheading hname "extend type " (by simp)) fun l hl => ?_
    obtain ⟨o, ho, rfl⟩ := List.mem_map.1 hl
    exact (hall o ho).isLine
  | root hname => exact (hheading hname "type " (by simp)).ne_return
  | object hname _ hall =>
    exact ne_return_bracedLines (hheading hname "type " (by simp)) (hentries hall)
  | input hname _ hall =>
    exact ne_return_bracedLines (hheading hname "input " (by simp)) (hentries hall)
  | enum hname _ hall =>
    exact ne_return_bracedLines (hheading hname "enum " (by simp)) fun v hv =>
      isLine_of_isName (hall v hv).1

theorem ne_return_renderDocument {ds : List Declaration} (h : ∀ d ∈ ds, d.IsNamed) :
    ∀ c ∈ (renderDocument ds).toList, c ≠ '\r' := by
  have hall : ∀ word ∈ ["\n\n", "\n"], (word.toList.all (· ≠ '\r')) = true := by decide
  have hword : ∀ word ∈ ["\n\n", "\n"], ∀ c ∈ word.toList, c ≠ '\r' := fun word hmem =>
    ne_return_of_all (hall word hmem)
  intro c hc
  rw [renderDocument, String.toList_append, List.mem_append] at hc
  rcases hc with hc | hc
  · refine forall_mem_intercalate (P := (· ≠ '\r')) (hword "\n\n" (by simp)) (fun s hs => ?_) c hc
    obtain ⟨d, hd, rfl⟩ := List.mem_map.1 hs
    exact (h d hd).ne_return
  · exact hword "\n" (by simp) c hc

end Surface

end SchemaLoom
