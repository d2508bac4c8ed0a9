/-
Generated declarations are read back.

The text of generated declarations is made of names, marks and blanks.  If all that stands in for
a name is a name of the language (`Declaration.IsNamed`), then the text is a document, and the
document says what the declarations say (`parse_renderDocument`).

The proof has two halves that meet in a list of tokens.  The text divides into the tokens of a
definition (`Declaration.IsNamed.lexesTo`), which is a matter of characters and of what stands
side by side; and the reader takes these tokens as the definition (`Declaration.takes`), which is
a matter of the grammar.  Each half goes over fields, arguments and types in the way they are
nested.

A declaration without members would be printed without braces and be read as something else, so
being named includes having members, where the kind of declaration asks for some.
-/
import SchemaLoom.Proofs.Sdl.Lexing
import SchemaLoom.Proofs.Sdl.Plain
import SchemaLoom.Surface.Declaration

namespace SchemaLoom.Sdl

theorem lexesTo_typeRef {t : TypeRef} (hbase : isName t.base = true) :
    LexesTo t.render.toList t.tokens := by
  induction t with
  | named n => exact lexesTo_name hbase
  | list item ih =>
    have closing : LexesTo [']'] [.punctuator .bracketRight] := lexesTo_nil.mark rfl
    have inner := (ih hbase).append closing (apart_cons (by decide) [])
    simpa [TypeRef.render, TypeRef.tokens] using inner.mark (c := '[') rfl
  | nonNull inner ih =>
    have closing : LexesTo ['!'] [.punctuator .bang] := lexesTo_nil.mark rfl
    simpa [TypeRef.render, TypeRef.tokens] using
      (ih hbase).append closing (apart_cons (by decide) [])

theorem Shape.base_toRef (s : Shape) : s.toRef.base = s.base := by
  unfold Shape.toRef
  cases s.isList <;> cases s.required <;> cases s.itemRequired <;> rfl

theorem Shape.fits_toRef (s : Shape) : s.toRef.Fits Reader.nestingLimit := by
  unfold Shape.toRef Reader.nestingLimit
  cases s.isList <;> cases s.required <;> cases s.itemRequired <;>
    simp [TypeRef.Fits]

theorem lexesTo_shape {s : Shape} (hbase : isName s.base = true) :
    LexesTo s.render.toList s.toRef.tokens :=
  lexesTo_typeRef (by rwa [s.base_toRef])

end SchemaLoom.Sdl

namespace SchemaLoom.Surface

open Sdl Sdl.Reader

/-! ### Fields -/

/-- The entry is made of names. -/
structure Entry.IsNamed (e : Entry) : Prop where
  name : isName e.name = true
  base : isName e.type.base = true

theorem Entry.isNamed_plain {name base : String} (hname : isName name = true)
    (hbase : isName base = true) : (Entry.plain name base).IsNamed :=
  ⟨hname, hbase⟩

theorem Entry.isNamed_list {name base : String} (hname : isName name = true)
    (hbase : isName base = true) : (Entry.list name base).IsNamed :=
  ⟨hname, hbase⟩

theorem Entry.isNamed_needed {name base : String} (hname : isName name = true)
    (hbase : isName base = true) : (Entry.needed name base).IsNamed :=
  ⟨hname, hbase⟩

/-- The name and the type of an entry. -/
def Entry.pair (e : Entry) : String × TypeRef := (e.name, e.type.toRef)

theorem Entry.IsNamed.lexesTo {e : Entry} (h : e.IsNamed) :
    LexesTo e.render.toList (inputTokens (plainInput e.pair)) := by
  have colon := (LexesTo.ignored (c := ' ') rfl (lexesTo_shape h.base)).mark (c := ':') rfl
  have whole := colon.name h.name (apart_cons (by decide) _)
  simpa [Entry.render, inputTokens, plainInput, Entry.pair] using whole

/-- The operation is made of names, and has arguments. -/
structure Operation.IsNamed (o : Operation) : Prop where
  name : isName o.name = true
  base : isName o.type.base = true
  someArguments : o.arguments ≠ []
  arguments : ∀ e ∈ o.arguments, e.IsNamed
  directives : ∀ d ∈ o.directives, isName d = true

/-- The field that an operation declares. -/
def Operation.toField (o : Operation) : Field :=
  plainField o.name (o.arguments.map Entry.pair) o.type.toRef o.directives

theorem lexesTo_renderMarks {names : List String} (hnames : ∀ n ∈ names, isName n = true) :
    LexesTo (renderMarks names).toList (markTokens names) ∧ Apart (renderMarks names).toList := by
  have parts : ∀ n ∈ names, LexesTo (" @" ++ n).toList [.punctuator .at, .name n] ∧
      Apart (" @" ++ n).toList := by
    intro n hn
    have mark := (lexesTo_name (hnames n hn)).mark (c := '@') rfl
    have whole := mark.ignored (c := ' ') rfl
    exact ⟨by simpa using whole, by simpa using apart_cons (by decide) _⟩
  have all := lexesTo_flatMap parts
  simpa [renderMarks, List.flatMap_map, markTokens] using all

theorem argumentTokens_of_ne_nil {fs : List InputField} (h : fs ≠ []) :
    argumentTokens fs =
      .punctuator .parenLeft :: (fs.flatMap inputTokens ++ [.punctuator .parenRight]) := by
  cases fs with
  | nil => exact absurd rfl h
  | cons f fs => rfl

theorem separates_comma : Separates ", ".toList := ⟨by decide, List.all_eq_true.1 (by decide)⟩

theorem Operation.IsNamed.lexesTo {o : Operation} (h : o.IsNamed) :
    LexesTo o.render.toList (fieldTokens o.toField) := by
  have arguments : LexesTo (", ".intercalate (o.arguments.map (·.render))).toList
      ((o.arguments.map fun e => plainInput e.pair).flatMap inputTokens) := by
    have all := lexesTo_intercalate separates_comma fun (e : Entry) he => (h.arguments e he).lexesTo
    simpa [List.flatMap_map, Function.comp_def] using all
  obtain ⟨marks, marksApart⟩ := lexesTo_renderMarks h.directives
  have type := (lexesTo_shape h.base).append marks marksApart
  have answer := (type.ignored (c := ' ') rfl).mark (c := ':') rfl
  have closed := arguments.append (answer.mark (c := ')') rfl) (apart_cons (by decide) _)
  have whole := (closed.mark (c := '(') rfl).name h.name (apart_cons (by decide) _)
  have hmarks : (o.directives.map bare).map (·.name) = o.directives := by
    simp [Function.comp_def, bare]
  have hsome : o.arguments.map (fun e => plainInput e.pair) ≠ [] := by
    simpa using h.someArguments
  have htokens : fieldTokens o.toField = .name o.name ::
      (.punctuator .parenLeft :: ((o.arguments.map fun e => plainInput e.pair).flatMap inputTokens
        ++ .punctuator .parenRight :: .punctuator .colon ::
          (o.type.toRef.tokens ++ markTokens o.directives))) := by
    simp only [fieldTokens, Operation.toField, plainField, List.map_map, Function.comp_def]
      at hmarks ⊢
    rw [argumentTokens_of_ne_nil hsome, hmarks]
    simp
  rw [htokens]
  simpa [Operation.render] using whole

/-! ### Definitions -/

/-- The field that an entry of an object type declares. -/
def Entry.toField (e : Entry) : Field := plainField e.name [] e.type.toRef []

theorem Entry.fieldTokens_toField (e : Entry) :
    fieldTokens e.toField = inputTokens (plainInput e.pair) := by
  simp [fieldTokens, Entry.toField, plainField, argumentTokens, markTokens, inputTokens, plainInput,
    Entry.pair]

/-- The definition that a declaration stands for. -/
def Declaration.toDefinition : Declaration → Definition
  | extension type operations => .objectExtension (plainObject type (operations.map (·.toField)))
  | root name => .object (plainObject name [])
  | object name fields => .object (plainObject name (fields.map (·.toField)))
  | input name fields => .input (plainInputType name (fields.map fun e => plainInput e.pair))
  | enum name values => .enum (plainEnum name values)

/-- The tokens of a plain definition. -/
def definitionTokens : Definition → List Token
  | .objectExtension body =>
    .name "extend" :: .name "type" :: .name body.name :: blockTokens fieldTokens body.fields
  | .object body => .name "type" :: .name body.name :: blockTokens fieldTokens body.fields
  | .input body => .name "input" :: .name body.name :: blockTokens inputTokens body.fields
  | .enum body => .name "enum" :: .name body.name :: blockTokens valueTokens body.values
  | _ => []

/-- The declaration is made of names, and has members unless it is a root type. -/
inductive Declaration.IsNamed : Declaration → Prop
  | extension {root : String} {operations : List Operation} (hname : isName root = true)
      (hsome : operations ≠ []) (hall : ∀ o ∈ operations, o.IsNamed) :
      IsNamed (.extension root operations)
  | root {name : String} (hname : isName name = true) : IsNamed (.root name)
  | object {name : String} {fields : List Entry} (hname : isName name = true)
      (hsome : fields ≠ []) (hall : ∀ e ∈ fields, e.IsNamed) : IsNamed (.object name fields)
  | input {name : String} {fields : List Entry} (hname : isName name = true)
      (hsome : fields ≠ []) (hall : ∀ e ∈ fields, e.IsNamed) : IsNamed (.input name fields)
  | enum {name : String} {values : List String} (hname : isName name = true)
      (hsome : values ≠ []) (hall : ∀ v ∈ values, isName v = true ∧ v ∉ reservedValues) :
      IsNamed (.enum name values)

theorem separates_break : Separates "\n".toList := ⟨by decide, List.all_eq_true.1 (by decide)⟩

/-- Lines in braces divide as the heading and the lines do. -/
theorem lexesTo_bracedLines {α β : Type} {heading : String} {ts : List Token} (line : α → String)
    (tokens : β → List Token) (node : α → β) {as : List α} (hheading : LexesTo heading.toList ts)
    (hsome : as ≠ []) (hlines : ∀ a ∈ as, LexesTo (line a).toList (tokens (node a))) :
    LexesTo (bracedLines heading (as.map line)).toList
      (ts ++ blockTokens tokens (as.map node)) := by
  have lines : LexesTo (Text.unlines ((as.map line).map ("  " ++ ·))).toList
      ((as.map node).flatMap tokens) := by
    have indented : ∀ a ∈ as, LexesTo ("  " ++ line a).toList (tokens (node a)) := by
      intro a ha
      have inner : LexesTo ("  ".toList ++ (line a).toList) (tokens (node a)) :=
        (hlines a ha).blanks (List.all_eq_true.1 (by decide))
      simpa using inner
    have all := lexesTo_intercalate separates_break indented
    simpa [Text.unlines, List.flatMap_map, Function.comp_def] using all
  have closing : LexesTo "\n\x7d".toList [.punctuator .braceRight] :=
    (lexesTo_nil.mark (c := '\x7d') rfl).ignored (c := '\n') rfl
  have body := (lines.append closing (apart_cons (by decide) _)).ignored (c := '\n') rfl
  have opened := (body.mark (c := '\x7b') rfl).ignored (c := ' ') rfl
  have whole := hheading.append opened (apart_cons (by decide) _)
  have htokens : blockTokens tokens (as.map node) = .punctuator .braceLeft ::
      ((as.map node).flatMap tokens ++ [.punctuator .braceRight]) := by
    cases as with
    | nil => exact absurd rfl hsome
    | cons a as => rfl
  rw [htokens]
  simpa [bracedLines] using whole

/-- A keyword and a name behind it. -/
theorem lexesTo_heading (word : String) {n : String} (hword : isName word = true)
    (hname : isName n = true) :
    LexesTo (word ++ " " ++ n).toList [.name word, .name n] := by
  have rest := (lexesTo_name hname).ignored (c := ' ') rfl
  simpa using rest.name hword (apart_cons (by decide) _)

theorem Declaration.IsNamed.lexesTo {d : Declaration} (h : d.IsNamed) :
    LexesTo d.render.toList (definitionTokens d.toDefinition) := by
  cases h with
  | @extension type operations hname hsome hall =>
    have inner :=
      (lexesTo_heading "type" (by decide) hname : LexesTo ("type" ++ " " ++ type).toList _)
    have heading : LexesTo ("extend type " ++ type).toList
        [.name "extend", .name "type", .name type] := by
      have whole := (inner.ignored (c := ' ') rfl).name (s := "extend") (by decide)
        (apart_cons (by decide) _)
      simpa using whole
    exact lexesTo_bracedLines _ fieldTokens (·.toField) heading hsome fun o ho =>
      (hall o ho).lexesTo
  | @root name hname =>
    simpa [Declaration.render, Declaration.toDefinition, definitionTokens, plainObject,
      blockTokens] using lexesTo_heading "type" (by decide) hname
  | @object name fields hname hsome hall =>
    have heading : LexesTo ("type " ++ name).toList [.name "type", .name name] := by
      simpa using lexesTo_heading "type" (by decide) hname
    refine lexesTo_bracedLines _ fieldTokens (·.toField) heading hsome fun e he => ?_
    rw [e.fieldTokens_toField]
    exact (hall e he).lexesTo
  | @input name fields hname hsome hall =>
    have heading : LexesTo ("input " ++ name).toList [.name "input", .name name] := by
      simpa using lexesTo_heading "input" (by decide) hname
    exact lexesTo_bracedLines _ inputTokens (fun e => plainInput e.pair) heading hsome
      fun e he => (hall e he).lexesTo
  | @enum name values hname hsome hall =>
    have heading : LexesTo ("enum " ++ name).toList [.name "enum", .name name] := by
      simpa using lexesTo_heading "enum" (by decide) hname
    have lines := lexesTo_bracedLines id valueTokens (fun v => (⟨none, v, []⟩ : EnumValue)) heading
      hsome fun v hv => lexesTo_name (hall v hv).1
    rw [List.map_id] at lines
    exact lines

/-! ### Reading back

The definitions of a generated document are adjacent: each of them begins with a word that none
goes on with.
-/

theorem repeats_entries (entries : List Entry) :
    Repeats inputField inputTokens Ends (entries.map fun e => plainInput e.pair) := by
  have fits : ∀ e ∈ entries.map Entry.pair, e.2.Fits nestingLimit := by
    intro e he
    obtain ⟨entry, -, rfl⟩ := List.mem_map.1 he
    exact entry.type.fits_toRef
  have all := repeats_inputField fits
  rwa [List.map_map] at all

theorem repeats_fields {fields : List Field}
    (h : ∀ f ∈ fields, Takes field (fieldTokens f) f Ends) :
    Repeats field fieldTokens Ends fields := by
  refine ⟨h, fun _ _ h => (nomatch h), ?_⟩
  intro f _ t ht
  cases ht
  trivial

theorem takes_operation (o : Operation) : Takes field (fieldTokens o.toField) o.toField Ends := by
  refine takes_field ?_ o.type.fits_toRef
  intro e he
  obtain ⟨entry, -, rfl⟩ := List.mem_map.1 he
  exact entry.type.fits_toRef

theorem takes_entry (e : Entry) : Takes field (fieldTokens e.toField) e.toField Ends :=
  takes_field (fun _ h => nomatch h) e.type.fits_toRef

/-- **The reader of definitions takes the tokens of a declaration as what it stands for**
(`toDefinition`). -/
theorem Declaration.takes {d : Declaration} (h : d.IsNamed) :
    Takes definition (definitionTokens d.toDefinition) d.toDefinition Begins := by
  have named : ∀ (n : String) (ts : List Token), Leads (.name n :: ts) Begins Token.IsValid :=
    fun n ts => leads_cons (Token.isValid_name n)
  cases h with
  | @extension type operations hname hsome hall =>
    have fields : Repeats field fieldTokens Ends (operations.map (·.toField)) := by
      refine repeats_fields fun f hf => ?_
      obtain ⟨o, -, rfl⟩ := List.mem_map.1 hf
      exact takes_operation o
    have adds : (plainObject type (operations.map (·.toField))).fields.isEmpty = false := by
      cases operations with
      | nil => exact absurd rfl hsome
      | cons o operations => rfl
    refine takes_extension rfl ?_ (named type _)
    refine (takes_objectBody type fields).last ?_
    unfold extensionOf
    rw [adds, if_pos (by simp)]
    exact takes_pure _ _
  | @root name hname =>
    have none : Repeats field fieldTokens Ends [] := repeats_fields fun _ h => nomatch h
    have body := takes_objectBody name none
    exact takes_definition rfl (body.map Definition.object) (named name _)
  | @object name fields hname hsome hall =>
    have repeats : Repeats field fieldTokens Ends (fields.map (·.toField)) := by
      refine repeats_fields fun f hf => ?_
      obtain ⟨e, -, rfl⟩ := List.mem_map.1 hf
      exact takes_entry e
    exact takes_definition rfl ((takes_objectBody name repeats).map Definition.object)
      (named name _)
  | @input name fields hname hsome hall =>
    exact takes_definition rfl
      ((takes_inputBody name (repeats_entries fields)).map Definition.input)
      (named name _)
  | @enum name values hname hsome hall =>
    exact takes_definition rfl
      ((takes_enumBody name fun v hv => (hall v hv).2).map Definition.enum) (named name _)

theorem lexesTo_renderDocument {ds : List Declaration} (h : ∀ d ∈ ds, d.IsNamed) :
    LexesTo (renderDocument ds).toList ((ds.map (·.toDefinition)).flatMap definitionTokens) := by
  have separates : Separates "\n\n".toList := ⟨by decide, List.all_eq_true.1 (by decide)⟩
  have all := lexesTo_intercalate separates fun (d : Declaration) hd => (h d hd).lexesTo
  have ended := all.append (lexesTo_nil.ignored (c := '\n') rfl) (apart_cons (by decide) [])
  simpa [renderDocument, List.flatMap_map, Function.comp_def] using ended

theorem Declaration.tokens_start (d : Declaration) :
    ∃ word rest, definitionTokens d.toDefinition = .name word :: rest ∧ word ≠ "implements" := by
  cases d <;> exact ⟨_, _, rfl, by decide⟩

/-- **The text of declarations is a document that says what they say**: `Document.parse` undoes
`renderDocument` on declarations that are made of names. -/
theorem parse_renderDocument {ds : List Declaration} (hsome : ds ≠ [])
    (h : ∀ d ∈ ds, d.IsNamed) :
    Document.parse (renderDocument ds) = .ok ⟨ds.map (·.toDefinition)⟩ := by
  have starts : ∀ e ∈ ds.map (·.toDefinition), ∃ word rest,
      definitionTokens e = .name word :: rest ∧ word ≠ "implements" := by
    intro e he
    obtain ⟨d, -, rfl⟩ := List.mem_map.1 he
    exact d.tokens_start
  have repeats : Repeats definition definitionTokens Begins (ds.map (·.toDefinition)) := by
    refine ⟨?_, ?_, ?_⟩
    · intro e he
      obtain ⟨d, hd, rfl⟩ := List.mem_map.1 he
      exact Declaration.takes (h d hd)
    · intro e he
      obtain ⟨word, rest, htokens, -⟩ := starts e he
      simp [htokens]
    · intro e he t ht
      obtain ⟨word, rest, htokens, hword⟩ := starts e he
      rw [htokens] at ht
      cases ht
      exact hword
  refine Document.parse_eq (by simpa using hsome) (lexesTo_renderDocument h).lex_eq
    (repeats.adjacent ?_)
  intro e he t ht
  obtain ⟨word, rest, htokens, -⟩ := starts e he
  rw [htokens] at ht
  cases ht
  exact fun h => nomatch h

/-! ### Single fields -/

/-- A text in braces behind a keyword and a name divides as it does by itself. -/
theorem lexesTo_wrapped (keyword : String) {text : String} {ts : List Token}
    (hkeyword : isName keyword = true) (htext : LexesTo text.toList ts) :
    LexesTo (keyword ++ " Wrapper \x7b " ++ text ++ " \x7d").toList
      (.name keyword :: .name "Wrapper" :: .punctuator .braceLeft ::
        (ts ++ [.punctuator .braceRight])) := by
  have closing : LexesTo " \x7d".toList [.punctuator .braceRight] :=
    (lexesTo_nil.mark (c := '\x7d') rfl).ignored (c := ' ') rfl
  have body := (htext.append closing (apart_cons (by decide) _)).ignored (c := ' ') rfl
  have opened := (body.mark (c := '\x7b') rfl).ignored (c := ' ') rfl
  have named := opened.name (s := "Wrapper") (by decide) (apart_cons (by decide) _)
  have whole := (named.ignored (c := ' ') rfl).name hkeyword (apart_cons (by decide) _)
  simpa using whole

/-- A single definition is a document. -/
theorem parseStrict_single {text : String} {d : Definition}
    (htext : LexesTo text.toList (definitionTokens d))
    (htakes : Takes definition (definitionTokens d) d Begins)
    (hstart : ∃ word rest, definitionTokens d = .name word :: rest) :
    Document.parseStrict text = .ok ⟨[d]⟩ := by
  obtain ⟨word, rest, htokens⟩ := hstart
  have hadjacent : Adjacent definitionTokens (fun _ => Begins) [d] := by
    refine ⟨?_, ?_, fun _ _ => trivial, .singleton d⟩
    · simpa using htakes
    · intro e he
      cases List.mem_singleton.1 he
      rw [htokens]
      exact ⟨_, rfl, Token.isValid_name word, fun h => nomatch h⟩
  refine Document.parseStrict_eq (by simp) ?_ hadjacent
  simpa using htext.lex_eq

theorem parse_field {text : String} {f : Field} (htext : LexesTo text.toList (fieldTokens f))
    (htakes : Takes field (fieldTokens f) f Ends) : Field.parse text = .ok f := by
  have repeats : Repeats field fieldTokens Ends [f] := by
    refine repeats_fields fun g hg => ?_
    cases List.mem_singleton.1 hg
    exact htakes
  have body := (takes_objectBody "Wrapper" repeats).map Definition.object
  have takes : Takes definition (definitionTokens (.object (plainObject "Wrapper" [f]))) _ Begins :=
    takes_definition rfl body (leads_cons (Token.isValid_name "Wrapper"))
  have tokens := lexesTo_wrapped "type" (by decide) htext
  have shape : definitionTokens (.object (plainObject "Wrapper" [f])) = .name "type" ::
      .name "Wrapper" :: .punctuator .braceLeft ::
        (fieldTokens f ++ [.punctuator .braceRight]) := by
    simp [definitionTokens, blockTokens, plainObject]
  rw [← shape] at tokens
  have wrapped := parseStrict_single tokens takes ⟨"type", _, rfl⟩
  unfold Field.parse wrappedFields
  rw [wrapped]
  rfl

theorem parse_inputField {text : String} {f : InputField}
    (htext : LexesTo text.toList (inputTokens f))
    (hrepeats : Repeats inputField inputTokens Ends [f]) : InputField.parse text = .ok f := by
  have body := (takes_inputBody "Wrapper" hrepeats).map Definition.input
  have takes :
      Takes definition (definitionTokens (.input (plainInputType "Wrapper" [f]))) _ Begins :=
    takes_definition rfl body (leads_cons (Token.isValid_name "Wrapper"))
  have tokens := lexesTo_wrapped "input" (by decide) htext
  have shape : definitionTokens (.input (plainInputType "Wrapper" [f])) = .name "input" ::
      .name "Wrapper" :: .punctuator .braceLeft ::
        (inputTokens f ++ [.punctuator .braceRight]) := by
    simp [definitionTokens, blockTokens, plainInputType]
  rw [← shape] at tokens
  have wrapped := parseStrict_single tokens takes ⟨"input", _, rfl⟩
  unfold InputField.parse wrappedFields
  rw [wrapped]
  rfl

/-- **The text of an operation is the field that the operation declares.** -/
theorem Operation.IsNamed.parse {o : Operation} (h : o.IsNamed) :
    Field.parse o.render = .ok o.toField :=
  parse_field h.lexesTo (takes_operation o)

/-- The text of an entry is a field of an object type. -/
theorem Entry.IsNamed.parse {e : Entry} (h : e.IsNamed) : Field.parse e.render = .ok e.toField :=
  parse_field (by rw [e.fieldTokens_toField]; exact h.lexesTo) (takes_entry e)

/-- The text of an entry is a field of an input type. -/
theorem Entry.IsNamed.parseInput {e : Entry} (h : e.IsNamed) :
    InputField.parse e.render = .ok (plainInput e.pair) := by
  have repeats : Repeats inputField inputTokens Ends [plainInput e.pair] :=
    repeats_entries [e]
  exact parse_inputField h.lexesTo repeats

end SchemaLoom.Surface
