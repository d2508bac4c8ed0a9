/-
Documents are read back from what they are printed as.

Definitions are printed one after the other, each up to where the next one begins.  The one
exception is a query that is printed as its selections alone: behind a type without members the
type takes its brace.  Every other document that was read is read back as it was
(`Document.parse_render`).

The reader of a definition looks at one or two tokens to tell which kind it is.  So each kind
needs to be known by its first token (`StartsAs`), and the bodies are those of
`Proofs.Sdl.Restoring.Definition`.
-/
import SchemaLoom.Proofs.Sdl.Restoring.Definition

namespace SchemaLoom.Sdl

open Text

variable {α β : Type}

namespace Reader

/-! ### Type definitions -/

/-- A definition is read by its keyword, behind a description if there is one. -/
theorem takes_definitionNamed {front ts : List Token} {word : String} {d : Definition}
    {next : Token → Prop} (hfront : IsFront front)
    (h : ∀ described, (described = true → front ≠ []) → Takes (definitionNamed described word
      (.name word)) (front ++ .name word :: ts) d next) :
    Takes definition (front ++ .name word :: ts) d next := by
  rcases hfront with rfl | ⟨t, rfl, ht⟩
  · unfold definition
    refine takes_peek_cons ?_
    exact h false fun h => nomatch h
  · have hnamed := h true fun _ => List.cons_ne_nil _ _
    unfold definition
    refine takes_peek_cons ?_
    cases t with
    | string text => exact takes_peekSecond (Token.isValid_name word) hnamed
    | blockString text => exact takes_peekSecond (Token.isValid_name word) hnamed
    | _ => cases ht

theorem startsAs_name {word : String} (d : Definition) (h : word ≠ "implements") :
    StartsAs d (.name word) :=
  ⟨h, (fun h => nomatch h), (fun h => nomatch h)⟩

/-- A text behind an optional description starts as the description does, or as the text. -/
theorem first_front {front ts : List Token} {word : String} {d : Definition}
    (hfront : IsFront front)
    (hword : word ≠ "implements") : ∃ t ∈ (front ++ .name word :: ts).head?, StartsAs d t := by
  rcases hfront with rfl | ⟨t, rfl, ht⟩
  · exact ⟨_, rfl, startsAs_name d hword⟩
  · refine ⟨t, rfl, ?_⟩
    cases t with
    | string text => exact ⟨trivial, (fun h => nomatch h), (fun h => nomatch h)⟩
    | blockString text => exact ⟨trivial, (fun h => nomatch h), (fun h => nomatch h)⟩
    | _ => cases ht

/-- A type definition is restored if what is behind its keyword is. -/
theorem restores_typeDefinition {word : String} {description : Option Description}
    {known body : Reader Definition} {pieces : List String} {d : Definition}
    (hknown : typeDefinition? none word = some known)
    (hbody : typeDefinition? description word = some body) (hword : isName word = true)
    (hother : word ≠ "implements") (hdescription : RestoresDescription description)
    (h : RestoresBody body pieces d (EndsDefinition d.IsOpen))
    (htext : d.render = renderDescription description ++ joinPresent " " (word :: pieces)) :
    RestoresDefinition d := by
  obtain ⟨front, hfront, hfronttakes, hfrontkind⟩ := hdescription
  obtain ⟨tss, hwrites, htakes, hvalid⟩ := h
  refine ⟨front ++ .name word :: tss.flatten, ?_, ?_, first_front hfrontkind hother⟩
  · rw [htext]
    exact hfront.writes_append (writes_words (.cons (writes_name hword) hwrites))
  · refine takes_definitionNamed hfrontkind fun described _ => ?_
    unfold definitionNamed
    rw [hknown]
    refine hfronttakes.bind ?_ (leads_cons ⟨Token.isValid_name word, rfl⟩)
    refine (takes_advance (.name word)).first ?_
      (leads_of_head hvalid (fun _ h => h) fun _ h => h.isValid)
    rw [hbody]
    exact htakes

/-- An extension is restored if what is behind its keyword is. -/
theorem restores_extension (word : String) {body : Reader Definition} {pieces : List String}
    {d : Definition} (hbody : extension? word = some body) (hword : isName word = true)
    (h : RestoresBody body pieces d (EndsDefinition d.IsOpen))
    (htext : d.render = renderDescription none ++ joinPresent " " (("extend " ++ word) :: pieces)) :
    RestoresDefinition d := by
  obtain ⟨tss, hwrites, htakes, hvalid⟩ := h
  have hextend : Writes ("extend " ++ word) [.name "extend", .name word] :=
    (opens_word (s := "extend") (by decide)).writes_append (writes_name hword)
  refine ⟨.name "extend" :: .name word :: tss.flatten, ?_, ?_, _, rfl,
    startsAs_name d (by decide)⟩
  · rw [htext]
    exact opens_empty.writes_append (writes_words (.cons hextend hwrites))
  · exact takes_extension hbody htakes (leads_of_head hvalid (fun _ h => h) fun _ h => h.isValid)

theorem render_directive (d : DirectiveType) : (Definition.directive d).render
    = renderDescription d.description ++ joinPresent " " ["directive", directivePieces d] := by
  have hsome : directivePieces d ≠ "" := by
    intro hnone
    have hstart := congrArg (fun s => s.toList.head?) hnone
    simp [directivePieces, String.toList_append] at hstart
  have hboth : joinPresent " " ["directive", directivePieces d]
      = "directive " ++ directivePieces d := by
    simp [joinPresent, hsome, String.intercalate_cons_cons]
  rw [hboth]
  simp only [Definition.render, DirectiveType.render, directivePieces, String.append_assoc]
  rfl

section TypeDefinition

variable {pieces : α → List String} {f : α → Definition} {descriptionOf : α → Option Description}

/-- What is behind a keyword makes type definitions that can be restored. -/
theorem restorable_typeBody {body : Option Description → Reader α} (word : String)
    (hbody : ∀ description, Yields (body description) fun a => descriptionOf a = description ∧
      RestoresBody (body description) (pieces a) a (EndsDefinition (f a).IsOpen))
    (hknown : ∀ description, typeDefinition? description word = some (f <$> body description))
    (htext : ∀ a, (f a).render
      = renderDescription (descriptionOf a) ++ joinPresent " " (word :: pieces a))
    (hword : isName word = true) (hother : word ≠ "implements") {description : Option Description}
    (hdescription : RestoresDescription description) :
    Yields (f <$> body description) RestoresDefinition := by
  refine (hbody description).map fun a ⟨hsame, h⟩ => ?_
  subst hsame
  exact restores_typeDefinition (hknown none) (hknown _) hword hother hdescription (h.map f)
    (htext a)

/-- **Every type definition that was read can be restored.** -/
theorem restorable_typeDefinition {description : Option Description} {word : String}
    {body : Reader Definition} (hdescription : RestoresDescription description)
    (hword : typeDefinition? description word = some body) : Yields body RestoresDefinition := by
  unfold typeDefinition? at hword
  split at hword <;> cases hword
  · exact restorable_typeBody "schema" restorable_schemaBody (fun _ => rfl) (fun _ => rfl)
      (by decide) (by decide) hdescription
  · exact restorable_typeBody "scalar" restorable_scalarBody (fun _ => rfl) (fun _ => rfl)
      (by decide) (by decide) hdescription
  · exact restorable_typeBody "type" restorable_objectBody (fun _ => rfl) (fun _ => rfl)
      (by decide) (by decide) hdescription
  · exact restorable_typeBody "interface" restorable_objectBody (fun _ => rfl) (fun _ => rfl)
      (by decide) (by decide) hdescription
  · exact restorable_typeBody "union" restorable_unionBody (fun _ => rfl) (fun _ => rfl)
      (by decide) (by decide) hdescription
  · exact restorable_typeBody "enum" restorable_enumBody (fun _ => rfl) (fun _ => rfl)
      (by decide) (by decide) hdescription
  · exact restorable_typeBody "input" restorable_inputBody (fun _ => rfl) (fun _ => rfl)
      (by decide) (by decide) hdescription
  · exact restorable_typeBody "directive" restorable_directiveBody (fun _ => rfl) render_directive
      (by decide) (by decide) hdescription

end TypeDefinition

/-! ### Extensions -/

theorem takes_extensionOf {adds : Bool} (hadds : adds = true) (d : Definition)
    (next : Token → Prop) :
    Takes (extensionOf adds d) [] d next := by
  subst hadds
  exact takes_pure d next

/-- What is returned as an extension adds something. -/
theorem yields_adding {adds : Bool} {d : Definition} {P : Definition → Prop}
    (h : adds = true → P d) : Yields (extensionOf adds d) P := by
  cases adds with
  | true => exact yields_pure (h rfl)
  | false => exact yields_peek.bind fun _ _ => yields_throw _ _

/-- What is behind the keyword of an extension makes extensions that can be restored. -/
theorem restorable_extensionBody {r : Reader α} {pieces : α → List String} {p : α → Bool}
    {f : α → Definition} (word : String)
    (hbody : Yields r fun a => RestoresBody r (pieces a) a (EndsDefinition (f a).IsOpen) ∧
      (f a).render = renderDescription none ++ joinPresent " " (("extend " ++ word) :: pieces a))
    (hknown : extension? word = some (r >>= fun a => extensionOf (p a) (f a)))
    (hword : isName word = true) :
    Yields (r >>= fun a => extensionOf (p a) (f a)) RestoresDefinition := by
  refine hbody.bind fun a ⟨⟨tss, hwrites, htakes, hvalid⟩, htext⟩ => yields_adding fun hadds => ?_
  have hadding : RestoresBody (r >>= fun a => extensionOf (p a) (f a)) (pieces a) (f a)
      (EndsDefinition (f a).IsOpen) :=
    ⟨tss, hwrites, htakes.last (takes_extensionOf hadds _ _), hvalid⟩
  exact restores_extension word hknown hword hadding htext

/-- **Every extension that was read can be restored.** -/
theorem restorable_extension? {word : String} {body : Reader Definition}
    (hword : extension? word = some body) : Yields body RestoresDefinition := by
  unfold extension? at hword
  split at hword <;> cases hword
  · have hbody : Yields schemaExtensionBody fun b => RestoresBody schemaExtensionBody
        [renderDirectives b.1, braced (b.2.map renderRoot)] b (EndsDefinition (b.2 = [])) :=
      (restorable_directives true nestingLimit).bind fun ds hds =>
        (yields_optionalBetween restorable_rootType .braceLeft .braceRight).bind fun roots hroots =>
          yields_pure (restores_schemaExtensionBody hds hroots)
    have hextension := restorable_extensionBody (p := fun b => !b.1.isEmpty || !b.2.isEmpty)
      (f := fun b => .schemaExtension ⟨none, b.1, b.2⟩) "schema" (hbody.weaken fun b h => ⟨h, rfl⟩)
      (by simp only [extension?, schemaExtensionBody, bind_assoc, pure_bind]) (by decide)
    simpa only [schemaExtensionBody, bind_assoc, pure_bind] using hextension
  · refine restorable_extensionBody "scalar" ((restorable_scalarBody none).weaken
      fun b ⟨hsame, h⟩ => ⟨h, ?_⟩) rfl (by decide)
    rw [Definition.render, ScalarType.render, hsame]
    rfl
  · refine restorable_extensionBody "type" ((restorable_objectBody none).weaken
      fun b ⟨hsame, h⟩ => ⟨h, ?_⟩) rfl (by decide)
    rw [Definition.render, ObjectType.render, hsame]
    rfl
  · refine restorable_extensionBody "interface" ((restorable_objectBody none).weaken
      fun b ⟨hsame, h⟩ => ⟨h, ?_⟩) rfl (by decide)
    rw [Definition.render, ObjectType.render, hsame]
    rfl
  · refine restorable_extensionBody "union" ((restorable_unionBody none).weaken
      fun b ⟨hsame, h⟩ => ⟨h, ?_⟩) rfl (by decide)
    rw [Definition.render, UnionType.render, hsame]
    rfl
  · refine restorable_extensionBody "enum" ((restorable_enumBody none).weaken
      fun b ⟨hsame, h⟩ => ⟨h, ?_⟩) rfl (by decide)
    rw [Definition.render, EnumType.render, hsame]
    rfl
  · refine restorable_extensionBody "input" ((restorable_inputBody none).weaken
      fun b ⟨hsame, h⟩ => ⟨h, ?_⟩) rfl (by decide)
    rw [Definition.render, InputType.render, hsame]
    rfl

/-! ### Executable definitions

An operation is printed with its keyword unless it is a query without anything else but
selections.
-/

/-- A query that has nothing else is restored from its selections. -/
theorem restores_shorthand {ss : List Selection} (h : RestoresSelections nestingLimit ss) :
    RestoresDefinition (.operation ⟨none, .query, none, [], [], ss⟩) := by
  obtain ⟨ts, hwrites, htakes, hfirst⟩ := h
  obtain ⟨t, rest, rfl, rfl⟩ := exists_cons_of_first hfirst
  refine ⟨.punctuator .braceLeft :: rest, ?_, ?_, _, rfl, trivial, (fun h => nomatch h),
    fun _ => ⟨rfl, rfl, rfl, rfl, rfl⟩⟩
  · rw [Definition.render, Operation.render]
    exact opens_empty.writes_append hwrites
  · unfold definition
    refine takes_peek_cons ?_
    rw [if_pos rfl]
    exact (htakes.thenPure fun ss => Definition.operation ⟨none, .query, none, [], [], ss⟩).weaken
      fun _ h => h.isValid

/-- The variables of an operation are restored from either layout. -/
theorem restores_variables {parameters : List VariableDefinition}
    (h : ∀ v ∈ parameters, RestoresVariable v) :
    RestoresAny (optionalBetween .parenLeft .parenRight variableDefinition)
      (renderVariables parameters) parameters (· = .punctuator .parenLeft)
        (Stops [.parenLeft]) := by
  obtain ⟨tss, hwrites, hsome, htakes⟩ := restores_members .parenLeft (Or.inl rfl) h
  refine ⟨_, ?_, htakes.weaken fun t h => ⟨h.1, fun _ => h.ne (by simp)⟩, head_betweenTokens⟩
  unfold renderVariables
  dsimp only
  split
  · have hopening : Opens "(\n" [.punctuator .parenLeft] :=
      (opens_mark (s := "(") rfl rfl).append opens_lineBreak
    have hclosing : Opens "\n)" [.punctuator .parenRight] :=
      opens_lineBreak.append (opens_mark (s := ")") rfl rfl)
    refine writes_between hopening hclosing (fun _ => detached_cons (by decide) _)
      (writes_joinPresent opens_lineBreak detaches_lineBreak hwrites) hsome fun hnone => ?_
    rw [eq_nil_of_forall₂ hwrites hnone]
    rfl
  · exact writes_line hwrites hsome

theorem detached_renderVariables (parameters : List VariableDefinition) :
    Detached (renderVariables parameters).toList := by
  have hparen : Detaches "(" := fun _ => detached_cons (by decide) _
  have hline : Detaches "(\n" := fun _ => detached_cons (by decide) _
  unfold renderVariables
  dsimp only
  split
  · exact detached_enclose hline _ _
  · exact detached_enclose hparen _ _

/-- A name, or nothing. -/
def optionalName : Reader (Option String) := do
  match ← peek with
  | .name _ => some <$> name
  | _ => return none

theorem operation_eq : operation = do
    let description ← optionalDescription
    let kind ← operationKind
    let n ← optionalName
    let parameters ← optionalBetween .parenLeft .parenRight variableDefinition
    let ds ← directives false
    return ⟨description, kind, n, parameters, ds, ← selectionSet⟩ := by
  unfold operation optionalName
  congr 1
  funext description
  congr 1
  funext kind
  rw [bind_assoc]
  congr 1
  funext t
  cases t <;> rfl

theorem yields_optionalName : Yields optionalName fun n => ∀ k ∈ n, isName k = true := by
  refine yields_peek.bind fun t _ => ?_
  cases t with
  | name n => exact yields_name.map fun k hk l hl => by cases hl; exact hk
  | _ => exact yields_pure fun k hk => nomatch hk

/-- The tokens of an optional name. -/
def optionalNameTokens (n : Option String) : List Token := n.toList.map Token.name

theorem takes_optionalName (n : Option String) :
    Takes optionalName (optionalNameTokens n) n fun t => t.IsValid ∧ ¬ IsWord t := by
  unfold optionalName
  cases n with
  | some k => exact takes_peek_cons (((takes_name k).map some).weaken fun _ h => h.1)
  | none =>
    refine takes_peek_nil fun t ht => ?_
    have hother : ¬ IsWord t := by
      rcases ht with rfl | ht
      · rintro ⟨k, h⟩
        cases h
      · exact ht.2
    cases t with
    | name k => exact absurd ⟨k, rfl⟩ hother
    | _ => exact takes_pure none _

/-- Tokens are read as one value only. -/
theorem Takes.unique {r : Reader α} {ts : List Token} {a b : α} {next last : Token → Prop}
    (h : Takes r ts a next) (h' : Takes r ts b last) : a = b := by
  have hfirst := h (ts.length + 1) [] (fun _ h => nomatch h) (by simp)
  have hsecond := h' (ts.length + 1) [] (fun _ h => nomatch h) (by simp)
  rw [hfirst] at hsecond
  cases hsecond
  rfl

theorem render_operation {o : Operation} {lead : String}
    (hlead : lead = renderDescription o.description ++ joinPresent " "
      [o.kind.keyword, o.name.getD "" ++ renderVariables o.parameters,
        renderDirectives o.directives]) :
    o.render = (if lead = "query" then "" else lead ++ " ") ++
      braced (renderSelections o.selections) := by
  subst hlead
  rfl

/-- The tokens of an operation with its keyword are those of its parts. -/
theorem takes_operation {description : Option Description} {kind : OperationKind}
    {n : Option String}
    {parameters : List VariableDefinition} {ds : List Directive} {ss : List Selection}
    {front ps us vs : List Token}
    (hfront : Takes optionalDescription front description AfterDescription)
    (hvariables : Takes (optionalBetween .parenLeft .parenRight variableDefinition) ps parameters
      (Stops [.parenLeft]))
    (hdirectives : Takes (directives false) us ds (Stops [.at, .parenLeft]))
    (hset : Takes selectionSet vs ss Token.IsValid)
    (hps : ∀ t ∈ ps.head?, t = .punctuator .parenLeft)
    (hus : ∀ t ∈ us.head?, t = .punctuator .at) (hvs : ∃ t ∈ vs.head?, t = .punctuator .braceLeft) :
    Takes operation (front ++ .name kind.keyword :: (optionalNameTokens n ++ (ps ++ (us ++ vs))))
      ⟨description, kind, n, parameters, ds, ss⟩ Token.IsValid := by
  have hbehindvariables :
      ∃ t ∈ (us ++ vs).head?, t = .punctuator .at ∨ t = .punctuator .braceLeft := by
    obtain ⟨t, ht, hbrace⟩ := hvs
    exact first_append_right (fun u hu => Or.inl (hus u hu)) ⟨t, ht, Or.inr hbrace⟩
  have hmark : ∀ m, (Token.punctuator m).IsValid ∧ ¬ IsWord (.punctuator m) :=
    fun m => ⟨Token.isValid_punctuator m, fun ⟨_, h⟩ => nomatch h⟩
  have hbehind : ∃ t ∈ (ps ++ (us ++ vs)).head?, t.IsValid ∧ ¬ IsWord t := by
    refine first_append_right (fun t ht => hps t ht ▸ hmark _) ?_
    obtain ⟨t, ht, rfl | rfl⟩ := hbehindvariables
    · exact ⟨_, ht, hmark _⟩
    · exact ⟨_, ht, hmark _⟩
  rw [operation_eq]
  refine hfront.bind ?_ (leads_cons ⟨Token.isValid_name _, rfl⟩)
  refine (takes_operationKind kind).first ?_ ?_
  · refine (takes_optionalName n).bind ?_ (leads_of_first hbehind fun _ h => h)
    refine hvariables.bind ?_ (leads_of_first hbehindvariables ?_)
    · refine hdirectives.bind (hset.thenPure _) (leads_of_first hvs ?_)
      rintro t rfl
      exact stops_punctuator (by simp)
    · rintro t (rfl | rfl) <;> exact stops_punctuator (by simp)
  · cases n with
    | none => exact leads_of_first hbehind fun _ h => h.1
    | some k => exact leads_cons (Token.isValid_name k)

theorem ofKeyword?_isSome (kind : OperationKind) :
    (OperationKind.ofKeyword? kind.keyword).isSome = true := by
  rw [ofKeyword?_keyword]
  rfl

/-- An operation with its keyword is a definition. -/
theorem takes_definition_operation {o : Operation} {front ts : List Token} (hfront : IsFront front)
    (h : Takes operation (front ++ .name o.kind.keyword :: ts) o Token.IsValid) :
    Takes definition (front ++ .name o.kind.keyword :: ts) (.operation o) Token.IsValid := by
  refine takes_definitionNamed hfront fun described _ => ?_
  have htype : typeDefinition? none o.kind.keyword = none := by
    cases o.kind <;> rfl
  unfold definitionNamed
  rw [htype]
  dsimp only
  rw [if_pos (ofKeyword?_isSome o.kind)]
  exact h.thenPure Definition.operation

/-- An operation of which more was written than the keyword of a query. -/
theorem opens_lead {lead : String} {ts : List Token} (h : Writes lead ts) (hlong : lead ≠ "query") :
    Opens (if lead = "query" then "" else lead ++ " ") ts := by
  rw [if_neg hlong]
  simpa using h.opens_append opens_space detaches_space

/-- If nothing but the keyword of a query was written, then nothing else was there. -/
theorem bare_of_lead {description : Option Description} {kind : OperationKind} {n : Option String}
    {parameters : List VariableDefinition} {ds : List Directive} {front ps us : List Token}
    {next before last : Token → Prop}
    (h : Writes "query" (front ++ .name kind.keyword :: (optionalNameTokens n ++ (ps ++ us))))
    (hfrontkind : IsFront front) (hfront : Takes optionalDescription front description next)
    (hvariables : Takes (optionalBetween .parenLeft .parenRight variableDefinition) ps parameters
      before)
    (hdirectives : Takes (directives false) us ds last) :
    description = none ∧ kind = .query ∧ n = none ∧ parameters = [] ∧ ds = [] := by
  have htokens := h.unique (writes_name (by decide))
  obtain ⟨rfl, hkind, hnone, rfl, rfl⟩ : front = [] ∧ kind.keyword = "query" ∧
      optionalNameTokens n = [] ∧ ps = [] ∧ us = [] := by
    rcases hfrontkind with rfl | ⟨t, rfl, -⟩
    · simpa using htokens
    · simp at htokens
  have hquery : kind = .query := by
    cases kind with
    | query => rfl
    | _ => exact absurd hkind (by decide)
  have hbare : ds = [] := by
    have hnothing : RestoresAny (directives false) (renderDirectives []) [] (· = .punctuator .at)
        (Stops [.at, .parenLeft]) := restores_directives fun _ hd => nomatch hd
    obtain ⟨none, hwrites, htakes, -⟩ := hnothing
    rw [hwrites.unique writes_empty] at htakes
    exact hdirectives.unique htakes
  exact ⟨hfront.unique takes_description_none, hquery, by simpa [optionalNameTokens] using hnone,
    hvariables.unique takes_optionalBetween_nil, hbare⟩

/-- **Every operation that was read can be restored.** -/
theorem restorable_operation : Yields operation fun o => RestoresDefinition (.operation o) := by
  rw [operation_eq]
  refine restorable_description.bind fun description hdescription => passes_operationKind.bind
    fun kind _ => yields_optionalName.bind fun n hname =>
      (yields_optionalBetween restorable_variableDefinition .parenLeft .parenRight).bind
        fun parameters hparameters => (restorable_directives false nestingLimit).bind fun ds hds =>
          (restorable_selections nestingLimit).bind fun ss hss => yields_pure ?_
  obtain ⟨front, hfront, hfronttakes, hfrontkind⟩ := hdescription
  obtain ⟨ps, hvariableswrites, hvariablestakes, hps⟩ := restores_variables hparameters
  obtain ⟨us, hdswrites, hdstakes, hus⟩ := restores_directives hds
  have hnamewrites : Writes (n.getD "") (optionalNameTokens n) := by
    cases n with
    | none => exact writes_empty
    | some k => exact writes_name (hname k rfl)
  obtain ⟨lead, hlead⟩ : ∃ lead, lead = renderDescription description ++ joinPresent " "
      [kind.keyword, n.getD "" ++ renderVariables parameters, renderDirectives ds] := ⟨_, rfl⟩
  have hleadwrites : Writes lead
      (front ++ .name kind.keyword :: (optionalNameTokens n ++ (ps ++ us))) := by
    have hcall := hnamewrites.append hvariableswrites (detached_renderVariables parameters)
    have hwords := writes_words (.cons (writes_name (isName_keyword kind))
      (.cons hcall (.cons hdswrites .nil)))
    simp only [List.flatten_cons, List.flatten_nil, List.append_nil, List.cons_append,
      List.nil_append, List.append_assoc] at hwords
    rw [hlead]
    exact hfront.writes_append hwords
  by_cases hshort : lead = "query"
  · obtain ⟨rfl, rfl, rfl, rfl, rfl⟩ := bare_of_lead (hshort ▸ hleadwrites) hfrontkind hfronttakes
      hvariablestakes hdstakes
    exact restores_shorthand hss
  · obtain ⟨vs, hsetwrites, hsettakes, hvs⟩ := hss
    have hwhole : Takes operation
        (front ++ .name kind.keyword :: (optionalNameTokens n ++ (ps ++ (us ++ vs))))
        ⟨description, kind, n, parameters, ds, ss⟩ Token.IsValid :=
      takes_operation hfronttakes hvariablestakes hdstakes hsettakes hps hus hvs
    have htakes := takes_definition_operation
      (o := ⟨description, kind, n, parameters, ds, ss⟩) hfrontkind hwhole
    have hother : kind.keyword ≠ "implements" := by
      cases kind <;> decide
    refine ⟨_, ?_, htakes.weaken fun _ h => h.isValid, first_front hfrontkind hother⟩
    have htext := (opens_lead hleadwrites hshort).writes_append hsetwrites
    rw [Definition.render, render_operation hlead]
    simpa using htext

theorem opens_in_front {s : String} {ts : List Token} (h : Writes s ts) :
    Opens (enclose "" s " ") ts := by
  unfold enclose
  split
  next hnone =>
    rw [hnone] at h
    rw [h.unique writes_empty]
    exact opens_empty
  · simpa using opens_empty.append (h.opens_append opens_space detaches_space)

/-- A fragment is a definition. -/
theorem takes_definition_fragment {f : FragmentType} {front ts : List Token}
    (hfront : IsFront front)
    (h : Takes fragment (front ++ .name "fragment" :: ts) f Token.IsValid) :
    Takes definition (front ++ .name "fragment" :: ts) (.fragment f) Token.IsValid := by
  refine takes_definitionNamed hfront fun described _ => ?_
  have htype : typeDefinition? none "fragment" = none := rfl
  unfold definitionNamed
  rw [htype]
  exact h.thenPure Definition.fragment

/-- **Every fragment that was read can be restored.** -/
theorem restorable_fragment : Yields fragment fun f => RestoresDefinition (.fragment f) := by
  refine restorable_description.bind fun description hdescription =>
    (passes_keyword "fragment").bind fun _ _ => yields_fragmentName.bind fun n hn =>
      (passes_keyword "on").bind fun _ _ => yields_name.bind fun condition hcondition =>
        (restorable_directives false nestingLimit).bind fun ds hds =>
          (restorable_selections nestingLimit).bind fun ss hss => yields_pure ?_
  obtain ⟨front, hfront, hfronttakes, hfrontkind⟩ := hdescription
  obtain ⟨us, hdswrites, hdstakes, hus⟩ := restores_directives hds
  obtain ⟨vs, hsetwrites, hsettakes, hvs⟩ := hss
  have htakes : Takes fragment (front ++ .name "fragment" :: .name n :: .name "on" ::
      .name condition :: (us ++ vs)) ⟨description, n, condition, ds, ss⟩ Token.IsValid := by
    unfold fragment
    refine hfronttakes.bind ?_ (leads_cons ⟨Token.isValid_name _, rfl⟩)
    refine (takes_keyword "fragment").first ?_ (leads_cons (Token.isValid_name n))
    refine (takes_fragmentName hn.2).first ?_ (leads_cons (Token.isValid_name _))
    refine (takes_keyword "on").first ?_ (leads_cons (Token.isValid_name condition))
    refine (takes_name condition).first (hdstakes.bind (hsettakes.thenPure _) ?_) ?_
    · refine leads_of_first hvs ?_
      rintro t rfl
      exact stops_punctuator (by simp)
    · refine leads_of_head (forall_head?_append (fun t ht => ?_) fun t ht => ?_) (fun _ h => h)
        fun _ h => h
      · rw [hus t ht]
        exact Token.isValid_punctuator _
      · obtain ⟨u, hu, rfl⟩ := hvs
        cases Option.mem_unique ht hu
        exact Token.isValid_punctuator _
  refine ⟨_, ?_, (takes_definition_fragment hfrontkind htakes).weaken fun _ h => h.isValid,
    first_front hfrontkind (by decide)⟩
  have hon : Opens " on " [.name "on"] := opens_space.append opens_on
  have hword : Opens "fragment " [.name "fragment"] := opens_word (s := "fragment") (by decide)
  have hname := ((hfront.append hword).writes_append (writes_name hn.1)).opens_append hon
    (detaches_space.append "on ")
  have hfor := (hname.writes_append (writes_name hcondition)).opens_append opens_space
    detaches_space
  have htext := (hfor.append (opens_in_front hdswrites)).writes_append hsetwrites
  rw [Definition.render, FragmentType.render]
  simpa using htext

/-! ### Definitions -/

theorem restorable_extension : Yields extension RestoresDefinition := by
  refine yields_peekSecond.bind fun t _ => ?_
  cases t with
  | name word =>
    simp only
    cases hword : extension? word with
    | none => exact yields_throw _ _
    | some body =>
      exact passes_advance.bind fun _ _ => passes_advance.bind fun _ _ =>
        restorable_extension? hword
  | _ => exact yields_throw _ _

theorem restorable_definitionNamed (described : Bool) (word : String) (found : Token) :
    Yields (definitionNamed described word found) RestoresDefinition := by
  unfold definitionNamed
  cases hword : typeDefinition? none word with
  | some body =>
    refine restorable_description.bind fun description hdescription =>
      passes_advance.bind fun _ _ => ?_
    cases hbody : typeDefinition? description word with
    | none => exact yields_throw _ _
    | some body => exact restorable_typeDefinition hdescription hbody
  | none =>
    refine yields_ite (restorable_operation.bind fun _ h => yields_pure h) ?_
    refine yields_ite (restorable_fragment.bind fun _ h => yields_pure h) ?_
    exact yields_ite (yields_throw _ _) (yields_ite restorable_extension (yields_throw _ _))

/-- **Every definition that was read can be restored.** -/
theorem restorable_definition : Yields definition RestoresDefinition := by
  refine yields_peek.bind fun first _ => yields_ite ?_ ?_
  · exact (restorable_selections nestingLimit).bind fun _ h => yields_pure (restores_shorthand h)
  · have body : ∀ found : Token, Yields
        (do
          if isDescription first ∧ found = .punctuator .braceLeft then throw .describedShorthand
          match found with
          | .name word => definitionNamed (isDescription first) word found
          | _ => throw (.unexpected found)) RestoresDefinition := by
      intro found
      refine yields_ite (yields_throw _ _) ?_
      cases found with
      | name word => exact restorable_definitionNamed _ word _
      | _ => exact yields_throw _ _
    exact yields_ite (yields_peekSecond.bind fun found _ => body found) (body first)

theorem restorable_definitionsWithin :
    ∀ bound, Yields (definitionsWithin bound) fun ds => ds ≠ [] ∧
      ∀ d ∈ ds, RestoresDefinition d := by
  intro bound
  induction bound with
  | zero => exact yields_peek.bind fun _ _ => yields_throw _ _
  | succ bound ih =>
    unfold definitionsWithin
    refine restorable_definition.bind fun first hfirst => yields_peek.bind fun t _ =>
      yields_ite ?_ ?_
    · exact yields_pure ⟨List.cons_ne_nil _ _, by simpa using hfirst⟩
    · exact ih.bind fun others hothers =>
        yields_pure ⟨List.cons_ne_nil _ _, List.forall_mem_cons.2 ⟨hfirst, hothers.2⟩⟩

end Reader

/-! ### Documents -/

/-- No query that is printed as its selections alone stands behind a definition that would take its
brace. -/
def Document.IsApart (doc : Document) : Prop :=
  doc.definitions.IsChain fun d e => ¬ (d.IsOpen ∧ e.IsShorthand)

instance (doc : Document) : Decidable doc.IsApart :=
  inferInstanceAs (Decidable (doc.definitions.IsChain _))

open Reader in
/-- Definitions that can be restored are restored one after the other. -/
theorem exists_adjacent {doc : Document} (h : ∀ d ∈ doc.definitions, RestoresDefinition d)
    (hapart : doc.IsApart) : ∃ tokens : Definition → List Token,
      Adjacent tokens (fun d => EndsDefinition d.IsOpen) doc.definitions ∧
        List.Forall₂ Writes (doc.definitions.map (·.render)) (doc.definitions.map tokens) := by
  choose! tokens hwrites htakes first hfirst hkind using h
  refine ⟨tokens, ⟨htakes, fun d hd => ?_, fun d _ => ⟨trivial, fun _ h => nomatch h⟩, ?_⟩, ?_⟩
  · have hends : EndsDefinition False (first d hd) := ⟨(hkind d hd).1, fun h => h.elim⟩
    exact ⟨first d hd, hfirst d hd, hends.isValid, (hkind d hd).2.1⟩
  · refine hapart.imp_of_mem_imp fun d e _ he hmeets t ht => ?_
    cases Option.mem_unique ht (hfirst e he)
    exact ⟨(hkind e he).1, fun hopen hbrace => hmeets ⟨hopen, (hkind e he).2.2 hbrace⟩⟩
  · rw [List.forall₂_map_left_iff, List.forall₂_map_right_iff, List.forall₂_same]
    exact hwrites

/-- **A document that was read is read back from what it is printed as**, unless a query printed as
its selections alone stands behind a definition that takes its brace. -/
theorem Document.parse_render {text : String} {doc : Document}
    (h : Document.parse text = .ok doc) (hapart : doc.IsApart) :
    Document.parse doc.render = .ok doc := by
  unfold Document.parse at h
  split at h
  · cases h
    rfl
  · obtain ⟨hsome, hrestores⟩ := Document.of_parseStrict
      (P := fun doc => doc.definitions ≠ [] ∧ ∀ d ∈ doc.definitions, Reader.RestoresDefinition d)
      Reader.restorable_definitionsWithin h
    obtain ⟨tokens, hadjacent, hwrites⟩ := exists_adjacent hrestores hapart
    refine Document.parse_eq hsome ?_ hadjacent
    have hbreaks : Opens "\n\n" [] := opens_blank (by simp [isIgnored])
    have hdetaches : Detaches "\n\n" := fun _ => detached_cons (by decide) _
    have htext : Writes (joinPresent "\n\n" (doc.definitions.map (·.render)))
        (doc.definitions.flatMap tokens) := by
      rw [List.flatMap_def]
      exact writes_joinPresent hbreaks hdetaches hwrites
    have htokens : doc.definitions.flatMap tokens ≠ [] := by
      obtain ⟨t, ht, -⟩ := hadjacent.head hsome
      intro hnone
      rw [hnone] at ht
      cases ht
    have hwhole :=
      writes_enclose opens_empty htext opens_lineBreak.writes detaches_lineBreak.detached
      htokens
    simpa [Document.render] using hwhole.lex_eq

end SchemaLoom.Sdl
