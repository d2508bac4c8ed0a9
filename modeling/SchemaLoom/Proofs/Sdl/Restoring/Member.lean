/-
Members of definitions are read back from what they are printed as.

Fields, arguments, variables, the values of enum types and root operation types stand in lists
between marks.  They begin with tokens that no member goes on with, so in a list each is taken up
to where the next one begins (`RestoresMember`).  For every kind of member there is one lemma,
and `restores_members` makes one on a list of it.
-/
import SchemaLoom.Proofs.Sdl.Restoring.Value

namespace SchemaLoom.Sdl

open Text

variable {α β : Type}

namespace Reader

/-! ### Lists of members -/

/-- The marks that a member goes on with. -/
def memberMarks : List Punctuator := [.bang, .equals, .at, .parenLeft]

/-- A member ends in front of the token. -/
abbrev EndsMember : Token → Prop := Stops memberMarks

/-- The token is one that members begin with, and no mark that closes a list of them. -/
abbrev BeginsMember : Token → Prop := Stops (.parenRight :: .braceRight :: memberMarks)

/-- The member `a` is restored from `s` by the reader `item`. -/
abbrev RestoresMember (item : Reader α) (s : String) (a : α) : Prop :=
  Restores item s a BeginsMember EndsMember

theorem BeginsMember.ends {t : Token} (h : BeginsMember t) : EndsMember t :=
  h.weaken fun _ hm => List.mem_cons_of_mem _ (List.mem_cons_of_mem _ hm)

theorem stops_of_isDescription {t : Token} (h : isDescription t = true) (marks : List Punctuator) :
    Stops marks t := by
  refine ⟨?_, ?_⟩
  · rintro fault rfl
    cases h
  · rintro m - rfl
    cases h

/-- Members between marks are taken as they are printed. -/
theorem restores_members {item : Reader α} {text : α → String} {as : List α}
    (opening : Punctuator) {closing : Punctuator}
    (hclosing : closing = .parenRight ∨ closing = .braceRight)
    (h : ∀ a ∈ as, RestoresMember item (text a) a) : ∃ tss : List (List Token),
      List.Forall₂ Writes (as.map text) tss ∧ (∀ ts ∈ tss, ts ≠ []) ∧
        Takes (optionalBetween opening closing item) (betweenTokens opening closing tss) as
          fun t => t.IsValid ∧ (as = [] → t ≠ .punctuator opening) := by
  refine restores_between opening closing h (fun _ h => h.ends) (fun t h => h.ne ?_) ?_
    fun _ h => h.1
  · rcases hclosing with rfl | rfl <;> simp
  · refine stops_punctuator fun hmember => ?_
    rcases hclosing with rfl | rfl <;> simp [memberMarks] at hmember

/-- Optional tokens between marks start with the first of these. -/
theorem head_betweenTokens {m k : Punctuator} {tss : List (List Token)} :
    ∀ t ∈ (betweenTokens m k tss).head?, t = .punctuator m := by
  cases tss with
  | nil => exact fun t ht => nomatch ht
  | cons ts tss =>
    intro t ht
    cases ht
    rfl

/-- A block of members is restored, or its absence. -/
theorem restores_block {item : Reader α} {text : α → String} {as : List α}
    (h : ∀ a ∈ as, RestoresMember item (text a) a) :
    RestoresAny (optionalBetween .braceLeft .braceRight item) (braced (as.map text)) as
      (· = .punctuator .braceLeft)
      fun t => t.IsValid ∧ (as = [] → t ≠ .punctuator .braceLeft) := by
  obtain ⟨tss, hwrites, hsome, htakes⟩ := restores_members .braceLeft (Or.inr rfl) h
  exact ⟨_, writes_lines (opens_mark rfl rfl) (opens_mark rfl rfl) hwrites hsome, htakes,
    head_betweenTokens⟩

/-! ### Fields

Arguments are printed on one line, or on several if one of them spans lines.
-/

/-- What is behind the colon of an input field or a variable is taken part by part. -/
theorem takes_typed {f : TypeRef → Option Value → List Directive → β} {type : TypeRef}
    {default : Option Value} {ds : List Directive} {ts us vs : List Token}
    (htype : Takes typeRef ts type (Stops [.bang]))
    (hdefault : Takes optionalDefault us default (Stops [.equals]))
    (hdirectives : Takes (directives true) vs ds (Stops [.at, .parenLeft]))
    (hus : ∀ t ∈ us.head?, t = .punctuator .equals) (hvs : ∀ t ∈ vs.head?, t = .punctuator .at) :
    Takes (do
      let type ← typeRef
      let default ← optionalDefault
      return f type default (← directives true)) (ts ++ (us ++ vs)) (f type default ds)
      EndsMember := by
  have hlast : Takes (directives true >>= fun ds => pure (f type default ds)) vs
      (f type default ds) EndsMember :=
    (hdirectives.thenPure (f type default)).weaken fun _ h => h.weaken (by decide)
  have hothers : Takes (optionalDefault >>= fun default => directives true >>= fun ds =>
      pure (f type default ds)) (us ++ vs) (f type default ds) EndsMember := by
    refine hdefault.bind hlast (leads_of_head hvs ?_ fun _ h => h.weaken (by decide))
    rintro t rfl
    exact stops_punctuator (by simp)
  refine htype.bind hothers ?_
  have hhead : ∀ t ∈ (us ++ vs).head?, t = .punctuator .equals ∨ t = .punctuator .at :=
    forall_head?_append (fun t ht => Or.inl (hus t ht)) fun t ht => Or.inr (hvs t ht)
  refine leads_of_head hhead ?_ fun _ h => h.weaken (by decide)
  rintro t (rfl | rfl) <;> exact stops_punctuator (by simp)

/-- The input field `f` is restored from what it is printed as. -/
abbrev RestoresInputField (f : InputField) : Prop := RestoresMember inputField f.render f

/-- What stands in front of the name of a member begins the member. -/
theorem first_described {ts us : List Token} {t : Token} (hfront : IsFront ts)
    (ht : BeginsMember t) : ∃ u ∈ (ts ++ t :: us).head?, BeginsMember u := by
  rcases hfront with rfl | ⟨u, rfl, hu⟩
  · exact ⟨t, rfl, ht⟩
  · exact ⟨u, rfl, stops_of_isDescription hu _⟩

/-- **An input field is taken part by part.** -/
theorem takes_describedInput {description : Option Description} {n : String} {type : TypeRef}
    {default : Option Value} {ds : List Directive} {front ts us vs : List Token}
    (hfront : Takes optionalDescription front description AfterDescription)
    (htype : Takes typeRef ts type (Stops [.bang])) (htypefirst : ∃ t ∈ ts.head?, t.IsValid)
    (hdefault : Takes optionalDefault us default (Stops [.equals]))
    (hdirectives : Takes (directives true) vs ds (Stops [.at, .parenLeft]))
    (hus : ∀ t ∈ us.head?, t = .punctuator .equals) (hvs : ∀ t ∈ vs.head?, t = .punctuator .at) :
    Takes inputField (front ++ (.name n :: .punctuator .colon :: (ts ++ (us ++ vs))))
      ⟨description, n, type, default, ds⟩ EndsMember := by
  unfold inputField
  refine hfront.bind ?_ (leads_cons ⟨Token.isValid_name n, rfl⟩)
  refine (takes_name n).first ?_ (leads_cons (Token.isValid_punctuator _))
  exact (takes_mark .colon).first (takes_typed htype hdefault hdirectives hus hvs)
    (leads_of_first (first_append htypefirst _) fun _ h => h)

/-- **Every input field that was read can be restored.** -/
theorem restorable_inputField : Yields inputField RestoresInputField := by
  refine restorable_description.bind fun description hdescription => yields_name.bind fun n hn =>
    (passes_mark .colon).bind fun _ _ => restorable_type.bind fun type htype =>
      restorable_default.bind fun default hdefault =>
        (restorable_directives true nestingLimit).bind fun ds hds => yields_pure ?_
  obtain ⟨front, hfront, hfronttakes, hfrontkind⟩ := hdescription
  obtain ⟨ts, htypewrites, htypetakes, htypefirst⟩ := htype
  obtain ⟨us, hdefaultwrites, hdefaulttakes, hus⟩ := hdefault
  obtain ⟨vs, hdswrites, hdstakes, hvs⟩ := restores_directives hds
  refine ⟨front ++ (.name n :: .punctuator .colon :: (ts ++ (us ++ vs))), ?_,
    takes_describedInput hfronttakes htypetakes htypefirst hdefaulttakes hdstakes hus hvs,
    first_described hfrontkind (stops_name _ n)⟩
  have htyped : Writes (n ++ ": " ++ type.render) (.name n :: .punctuator .colon :: ts) :=
    ((writes_name hn).opens_append opens_colon detaches_colon).writes_append htypewrites
  have hwords := writes_words (.cons htyped (.cons hdefaultwrites (.cons hdswrites .nil)))
  simp only [List.flatten_cons, List.flatten_nil, List.append_nil, List.cons_append] at hwords
  exact hfront.writes_append hwords

/-- Arguments in parentheses are restored from either layout. -/
theorem restores_argumentDefinitions {args : List InputField}
    (h : ∀ f ∈ args, RestoresInputField f) :
    RestoresAny (optionalBetween .parenLeft .parenRight inputField) (renderArguments args) args
      (· = .punctuator .parenLeft) (Stops [.parenLeft]) := by
  obtain ⟨tss, hwrites, hsome, htakes⟩ := restores_members .parenLeft (Or.inl rfl) h
  refine ⟨_, ?_, htakes.weaken fun t h => ⟨h.1, fun _ => h.ne (by simp)⟩, head_betweenTokens⟩
  unfold renderArguments
  dsimp only
  split
  · exact writes_lines (opens_mark rfl rfl) (opens_mark rfl rfl) hwrites hsome
  · exact writes_line hwrites hsome

theorem detached_renderArguments (args : List InputField) :
    Detached (renderArguments args).toList := by
  have hparen : Detaches "(" := fun _ => detached_cons (by decide) _
  unfold renderArguments
  dsimp only
  split
  · exact detached_enclose (hparen.append _) _ _
  · exact detached_enclose hparen _ _

/-- The field `f` is restored from what it is printed as. -/
abbrev RestoresField (f : Field) : Prop := RestoresMember field f.render f

/-- **A field is taken part by part.** -/
theorem takes_describedField {description : Option Description} {n : String}
    {args : List InputField}
    {type : TypeRef} {ds : List Directive} {front as ts vs : List Token}
    (hfront : Takes optionalDescription front description AfterDescription)
    (hargs : Takes (optionalBetween .parenLeft .parenRight inputField) as args (Stops [.parenLeft]))
    (htype : Takes typeRef ts type (Stops [.bang])) (htypefirst : ∃ t ∈ ts.head?, t.IsValid)
    (hdirectives : Takes (directives true) vs ds (Stops [.at, .parenLeft]))
    (has : ∀ t ∈ as.head?, t = .punctuator .parenLeft)
    (hvs : ∀ t ∈ vs.head?, t = .punctuator .at) :
    Takes field (front ++ (.name n :: (as ++ .punctuator .colon :: (ts ++ vs))))
      ⟨description, n, args, type, ds⟩ EndsMember := by
  unfold field
  refine hfront.bind ?_ (leads_cons ⟨Token.isValid_name n, rfl⟩)
  refine (takes_name n).first ?_ ?_
  · refine hargs.bind ?_ (leads_cons (stops_punctuator (by simp)))
    refine (takes_mark .colon).first ?_ (leads_of_first (first_append htypefirst _) fun _ h => h)
    refine htype.bind ((hdirectives.thenPure _).weaken fun _ h =>
      h.weaken (by decide)) (leads_of_head hvs ?_ fun _ h => h.weaken (by decide))
    rintro t rfl
    exact stops_punctuator (by simp)
  · refine leads_of_head (forall_head?_append (fun t ht => ?_) fun t ht => ?_) (fun _ h => h)
      fun _ h => h.1
    · rw [has t ht]
      exact Token.isValid_punctuator _
    · cases ht
      exact Token.isValid_punctuator _

/-- **Every field that was read can be restored.** -/
theorem restorable_field : Yields field RestoresField := by
  refine restorable_description.bind fun description hdescription => yields_name.bind fun n hn =>
    (yields_optionalBetween restorable_inputField .parenLeft .parenRight).bind fun args hargs =>
      (passes_mark .colon).bind fun _ _ => restorable_type.bind fun type htype =>
        (restorable_directives true nestingLimit).bind fun ds hds => yields_pure ?_
  obtain ⟨front, hfront, hfronttakes, hfrontkind⟩ := hdescription
  obtain ⟨as, hargwrites, hargtakes, has⟩ := restores_argumentDefinitions hargs
  obtain ⟨ts, htypewrites, htypetakes, htypefirst⟩ := htype
  obtain ⟨vs, hdswrites, hdstakes, hvs⟩ := restores_directives hds
  refine ⟨front ++ (.name n :: (as ++ .punctuator .colon :: (ts ++ vs))), ?_,
    takes_describedField hfronttakes hargtakes htypetakes htypefirst hdstakes has hvs,
    first_described hfrontkind (stops_name _ n)⟩
  have hcall := (writes_name hn).append hargwrites (detached_renderArguments args)
  have htyped := (hcall.opens_append opens_colon detaches_colon).writes_append htypewrites
  have hwhole := hfront.writes_append (htyped.append (writes_behind opens_space hdswrites)
    (detached_enclose detaches_space _ _))
  simpa [Field.render, String.append_assoc] using hwhole

/-! ### Variables -/

/-- The variable `v` is restored from what it is printed as. -/
abbrev RestoresVariable (v : VariableDefinition) : Prop :=
  RestoresMember variableDefinition v.render v

/-- **Every variable that was read can be restored.** -/
theorem restorable_variableDefinition : Yields variableDefinition RestoresVariable := by
  refine restorable_description.bind fun description hdescription => (passes_mark .dollar).bind
    fun _ _ => yields_name.bind fun n hn => (passes_mark .colon).bind fun _ _ =>
      restorable_type.bind fun type htype => restorable_default.bind fun default hdefault =>
        (restorable_directives true nestingLimit).bind fun ds hds => yields_pure ?_
  obtain ⟨front, hfront, hfronttakes, hfrontkind⟩ := hdescription
  obtain ⟨ts, htypewrites, htypetakes, htypefirst⟩ := htype
  obtain ⟨us, hdefaultwrites, hdefaulttakes, hus⟩ := hdefault
  obtain ⟨vs, hdswrites, hdstakes, hvs⟩ := restores_directives hds
  refine ⟨front ++ (.punctuator .dollar :: .name n :: .punctuator .colon :: (ts ++ (us ++ vs))),
    ?_, ?_, first_described hfrontkind (stops_punctuator (by decide))⟩
  · have hdollar : Opens "$" [.punctuator .dollar] := opens_mark rfl rfl
    have hname := (hfront.append hdollar).writes_append (writes_name hn)
    have htyped := (hname.opens_append opens_colon detaches_colon).writes_append htypewrites
    have hdefaulted := htyped.append (writes_behind opens_space hdefaultwrites)
      (detached_enclose detaches_space _ _)
    have hwhole := hdefaulted.append (writes_behind opens_space hdswrites)
      (detached_enclose detaches_space _ _)
    simpa [VariableDefinition.render] using hwhole
  · unfold variableDefinition
    refine hfronttakes.bind ?_ (leads_cons ⟨Token.isValid_punctuator _, rfl⟩)
    refine (takes_mark .dollar).first ?_ (leads_cons (Token.isValid_name n))
    refine (takes_name n).first ?_ (leads_cons (Token.isValid_punctuator _))
    exact (takes_mark .colon).first (takes_typed htypetakes hdefaulttakes hdstakes hus hvs)
      (leads_of_first (first_append htypefirst _) fun _ h => h)

/-! ### Values of enum types -/

theorem of_bind {r : Reader α} {f : α → Reader β} {bound : Nat} {ts rest : List Token} {b : β}
    (h : (r >>= f) bound ts = .ok (b, rest)) :
    ∃ a between, r bound ts = .ok (a, between) ∧ f a bound between = .ok (b, rest) := by
  obtain ⟨⟨a, between⟩, hread, hothers⟩ := Outcome.of_bind_eq_ok h
  exact ⟨a, between, hread, hothers⟩

/-- A name is taken from the token that comes next. -/
theorem headD_of_name {bound : Nat} {ts rest : List Token} {n : String}
    (h : name bound ts = .ok (n, rest)) : ts.headD .eof = .name n := by
  obtain ⟨t, between, hpeek, h⟩ := of_bind h
  cases hpeek
  cases hhead : ts.headD .eof with
  | name m =>
    rw [hhead] at h
    obtain ⟨_, after, -, h⟩ := of_bind h
    cases h
    rfl
  | _ =>
    rw [hhead] at h
    cases h

/-- A name is taken unless the token that holds it is refused. -/
theorem yields_checkedName {P : Token → Prop} [DecidablePred P] {fail : Token → Reader β}
    {f : String → Reader β} {Q : β → Prop} (hfail : ∀ t, Yields (fail t) Q)
    (h : ∀ n, isName n = true → ¬ P (.name n) → Yields (f n) Q) :
    Yields (peek >>= fun t => if P t then fail t else name >>= f) Q := by
  intro bound ts b rest hts hread
  change (if P (ts.headD .eof) then fail (ts.headD .eof) else name >>= f) bound ts = _ at hread
  by_cases hrefused : P (ts.headD .eof)
  · rw [if_pos hrefused] at hread
    exact hfail _ bound ts b rest hts hread
  · rw [if_neg hrefused] at hread
    obtain ⟨n, between, htaken, hothers⟩ := of_bind hread
    obtain ⟨hname, hbetween⟩ := yields_name bound ts n between hts htaken
    rw [headD_of_name htaken] at hrefused
    exact h n hname hrefused bound between b rest hbetween hothers

/-- The value `v` of an enum type is restored from what it is printed as. -/
abbrev RestoresEnumValue (v : EnumValue) : Prop := RestoresMember enumValue v.render v

/-- **Every value of an enum type that was read can be restored.** -/
theorem restorable_enumValue : Yields enumValue RestoresEnumValue := by
  refine restorable_description.bind fun description hdescription =>
    yields_checkedName (fun _ => yields_throw _ _) fun n hn hfree =>
      (restorable_directives true nestingLimit).bind fun ds hds => yields_pure ?_
  obtain ⟨front, hfront, hfronttakes, hfrontkind⟩ := hdescription
  obtain ⟨vs, hdswrites, hdstakes, hvs⟩ := restores_directives hds
  refine ⟨front ++ .name n :: vs, ?_, ?_, first_described hfrontkind (stops_name _ n)⟩
  · have hwords := writes_words (.cons (writes_name hn) (.cons hdswrites .nil))
    simp only [List.flatten_cons, List.flatten_nil, List.append_nil, List.cons_append,
      List.nil_append] at hwords
    exact hfront.writes_append hwords
  · unfold enumValue
    refine hfronttakes.bind ?_ (leads_cons ⟨Token.isValid_name n, rfl⟩)
    refine takes_peek_cons ?_
    rw [if_neg hfree]
    refine (takes_name n).first ?_ (leads_of_head hvs ?_ fun _ h => h.1)
    · exact (hdstakes.thenPure _).weaken fun _ h => h.weaken (by decide)
    · rintro t rfl
      exact Token.isValid_punctuator _

/-! ### Root operation types -/

theorem isName_keyword (kind : OperationKind) : isName kind.keyword = true := by
  cases kind <;> decide

theorem ofKeyword?_keyword (kind : OperationKind) :
    OperationKind.ofKeyword? kind.keyword = some kind := by
  cases kind <;> decide

theorem takes_operationKind (kind : OperationKind) :
    Takes operationKind [.name kind.keyword] kind Token.IsValid := by
  unfold operationKind
  refine takes_peek_cons ((takes_name _).last ?_)
  rw [ofKeyword?_keyword]
  exact takes_pure kind _

/-- The root operation type `root` is restored from what it is printed as. -/
abbrev RestoresRoot (root : OperationKind × String) : Prop :=
  RestoresMember rootType (renderRoot root) root

theorem restorable_rootType : Yields rootType RestoresRoot := by
  refine passes_operationKind.bind fun kind _ => (passes_mark .colon).bind fun _ _ =>
    yields_name.bind fun n hn => yields_pure ?_
  refine ⟨[.name kind.keyword, .punctuator .colon, .name n], ?_, ?_, _, rfl, stops_name _ _⟩
  · exact ((writes_name (isName_keyword kind)).opens_append opens_colon
      detaches_colon).writes_append (writes_name hn)
  · unfold rootType
    refine (takes_operationKind kind).first ?_ (leads_cons (Token.isValid_punctuator _))
    refine (takes_mark .colon).first ?_ (leads_cons (Token.isValid_name n))
    exact ((takes_name n).thenPure (kind, ·)).weaken fun _ h => h.1

end Reader

end SchemaLoom.Sdl
