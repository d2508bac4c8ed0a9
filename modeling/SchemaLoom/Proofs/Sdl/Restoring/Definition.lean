/-
Definitions are read back from what they are printed as.

Behind its keyword a definition is printed in pieces that are left out if there is nothing to
print in them (`RestoresBody`).  So what a definition goes on with depends on the last piece:
without members in braces a type goes on with any brace that follows, also with that of a query
printed as its selections alone (`Definition.IsOpen`, `Definition.IsShorthand`).

There is one lemma for each kind of body.  Those of types that consist of a name, directives and
members in braces are instances of `restorable_namedBlock`.
-/
import SchemaLoom.Proofs.Sdl.Restoring.Selection

namespace SchemaLoom.Sdl

open Text

variable {α β : Type}

/-! ### Definitions that meet

The brace of a query that is printed as its selections alone is the one token that can be taken
for a part of the definition in front of it.
-/

/-- The definition would go on with a brace: it may have members and has none. -/
def Definition.IsOpen : Definition → Prop
  | .object body | .interface body | .objectExtension body | .interfaceExtension body =>
    body.fields = []
  | .input body | .inputExtension body => body.fields = []
  | .enum body | .enumExtension body => body.values = []
  | .schemaExtension body => body.roots = []
  | _ => False

/-- The definition is printed as a selection set alone: it is a query that has nothing else. -/
def Definition.IsShorthand : Definition → Prop
  | .operation body => body.description = none ∧ body.kind = .query ∧ body.name = none ∧
      body.parameters = [] ∧ body.directives = []
  | _ => False

instance : (d : Definition) → Decidable d.IsOpen
  | .object body | .interface body | .objectExtension body | .interfaceExtension body =>
    inferInstanceAs (Decidable (body.fields = []))
  | .input body | .inputExtension body => inferInstanceAs (Decidable (body.fields = []))
  | .enum body | .enumExtension body => inferInstanceAs (Decidable (body.values = []))
  | .schemaExtension body => inferInstanceAs (Decidable (body.roots = []))
  | .operation _ | .fragment _ | .schema _ | .scalar _ | .union _ | .directive _
  | .scalarExtension _ | .unionExtension _ => isFalse id

instance : (d : Definition) → Decidable d.IsShorthand
  | .operation body => inferInstanceAs (Decidable (body.description = none ∧ body.kind = .query ∧
      body.name = none ∧ body.parameters = [] ∧ body.directives = []))
  | .fragment _ | .schema _ | .scalar _ | .object _ | .interface _ | .union _ | .enum _
  | .input _ | .directive _ | .schemaExtension _ | .scalarExtension _ | .objectExtension _
  | .interfaceExtension _ | .unionExtension _ | .enumExtension _ | .inputExtension _ => isFalse id

namespace Reader

/-- A definition may begin with the token, or a document end with it. -/
def BeginsDefinition : Token → Prop
  | .name n => n ≠ "implements"
  | .string _ | .blockString _ | .punctuator .braceLeft | .eof => True
  | _ => False

theorem BeginsDefinition.stops {t : Token} (h : BeginsDefinition t) {marks : List Punctuator}
    (hbrace : .braceLeft ∈ marks → t ≠ .punctuator .braceLeft) : Stops marks t := by
  refine ⟨?_, ?_⟩
  · rintro fault rfl
    exact h
  · rintro m hm rfl
    cases m with
    | braceLeft => exact hbrace hm rfl
    | _ => exact h

/-- A definition ends in front of the token `t`, which must not be a brace if the definition is
open. -/
def EndsDefinition (isOpen : Prop) (t : Token) : Prop :=
  BeginsDefinition t ∧ (isOpen → t ≠ .punctuator .braceLeft)

/-- The definition `d` is printed with the token `t` first. -/
def StartsAs (d : Definition) (t : Token) : Prop :=
  BeginsDefinition t ∧ t ≠ .eof ∧ (t = .punctuator .braceLeft → d.IsShorthand)

/-- The definition `d` is restored by the reader of definitions. -/
abbrev RestoresDefinition (d : Definition) : Prop :=
  Restores definition d.render d (StartsAs d) (EndsDefinition d.IsOpen)

theorem EndsDefinition.stops {isOpen : Prop} {t : Token} (h : EndsDefinition isOpen t)
    {marks : List Punctuator} (hbrace : .braceLeft ∉ marks) : Stops marks t :=
  h.1.stops fun hthere => absurd hthere hbrace

theorem EndsDefinition.isValid {isOpen : Prop} {t : Token} (h : EndsDefinition isOpen t) :
    t.IsValid :=
  (h.stops (show Punctuator.braceLeft ∉ [] by simp)).1

/-! ### Behind the keyword

The pieces of a body that are present are printed with spaces between them.  Absent pieces have no
tokens, so the readers go on with the piece behind them.
-/

/-- The reader `r` takes the value `a` from what the `pieces` are printed as. -/
def RestoresBody (r : Reader α) (pieces : List String) (a : α) (next : Token → Prop) : Prop :=
  ∃ tss, List.Forall₂ Writes pieces tss ∧ Takes r tss.flatten a next ∧
    ∀ t ∈ tss.flatten.head?, t.IsValid

theorem RestoresBody.map {r : Reader α} {pieces : List String} {a : α} {next : Token → Prop}
    (h : RestoresBody r pieces a next) (f : α → β) : RestoresBody (f <$> r) pieces (f a) next := by
  obtain ⟨tss, hwrites, htakes, hvalid⟩ := h
  exact ⟨tss, hwrites, htakes.map f, hvalid⟩

/-- The tokens of names with marks between them. -/
def separatedTokens (m : Punctuator) (n : String) (ns : List String) : List Token :=
  .name n :: ns.flatMap fun k => [.punctuator m, .name k]

theorem intercalate_names (m : Punctuator) (n : String) (ns : List String) :
    [Token.punctuator m].intercalate ((n :: ns).map fun k => [Token.name k])
      = separatedTokens m n ns := by
  induction ns generalizing n with
  | nil => rfl
  | cons k ns ih =>
    have hothers := ih k
    rw [List.map_cons] at hothers
    rw [List.map_cons, List.map_cons, List.intercalate_cons_cons, hothers]
    rfl

theorem writes_separated {m : Punctuator} {separator n : String} {ns : List String}
    (hopens : Opens separator [.punctuator m]) (hdetaches : Detaches separator)
    (hnames : ∀ k ∈ n :: ns, isName k = true) :
    Writes (joinPresent separator (n :: ns)) (separatedTokens m n ns) := by
  have hpresent : (n :: ns).filter (· ≠ "") = n :: ns := by
    rw [List.filter_eq_self]
    intro k hk
    have hname := hnames k hk
    have hsome : k ≠ "" := by
      rintro rfl
      exact absurd hname (by decide)
    simpa using hsome
  rw [joinPresent, hpresent, ← intercalate_names]
  refine writes_intercalate hopens hdetaches ?_
  rw [List.forall₂_map_right_iff, List.forall₂_same]
  exact fun k hk => writes_name (hnames k hk)

theorem takes_separatedBy {m : Punctuator} {item : Reader String} {n : String} {ns : List String}
    (hitem : ∀ k ∈ n :: ns, Takes item [.name k] k Token.IsValid) :
    Takes (separatedBy m item) (separatedTokens m n ns) (n :: ns) (Stops [m]) := by
  have hrepeats : Repeats (do
      mark m
      item) (fun k => [.punctuator m, .name k]) Token.IsValid ns := by
    refine ⟨fun k hk => ?_, fun _ _ h => (nomatch h), fun k _ t ht => ?_⟩
    · exact (takes_mark m).first (hitem k (by simp [hk])) (leads_cons (Token.isValid_name k))
    · cases ht
      exact Token.isValid_punctuator m
  have hothers : Takes
      (whileNext (· == .punctuator m) do
        mark m
        item) (ns.flatMap fun k => [.punctuator m, .name k]) ns (Stops [m]) := by
    refine takes_whileNext (fun t h => ⟨?_, h.1⟩) rfl hrepeats fun k _ t ht => ?_
    · simpa using h.ne (m := m) (by simp)
    · cases ht
      exact beq_self_eq_true _
  unfold separatedBy
  refine (takes_no_mark m).after ?_ (leads_cons fun h => nomatch h)
  refine (hitem n (by simp)).first (hothers.thenPure (n :: ·)) ?_
  cases ns with
  | nil => exact leads_nil fun _ h => h.1
  | cons k ns => exact leads_cons (Token.isValid_punctuator m)

/-- Names with marks between them. -/
theorem restores_separated {m : Punctuator} {separator : String} {item : Reader String}
    (hopens : Opens separator [.punctuator m]) (hdetaches : Detaches separator) {n : String}
    {ns : List String} (hnames : ∀ k ∈ n :: ns, isName k = true)
    (hitem : ∀ k ∈ n :: ns, Takes item [.name k] k Token.IsValid) :
    Restores (separatedBy m item) (joinPresent separator (n :: ns)) (n :: ns) IsWord (Stops [m]) :=
  ⟨separatedTokens m n ns, writes_separated hopens hdetaches hnames, takes_separatedBy hitem,
    .name n, rfl, n, rfl⟩

/-- At least one item with marks between them yields what each of them yields. -/
theorem yields_separatedBy_cons {m : Punctuator} {item : Reader α} {P : α → Prop}
    (hitem : Yields item P) :
    Yields (separatedBy m item) fun as => ∃ b bs, as = b :: bs ∧ ∀ a ∈ b :: bs, P a := by
  unfold separatedBy
  exact (passes_optionalMark m).bind fun _ _ => hitem.bind fun first hfirst =>
    (yields_whileNext ((passes_mark m).bind fun _ _ => hitem) _).bind fun others hothers =>
      yields_pure ⟨first, others, rfl, List.forall_mem_cons.2 ⟨hfirst, hothers⟩⟩

theorem takes_keyword (word : String) : Takes (keyword word) [.name word] () Token.IsValid := by
  unfold keyword
  refine takes_peek_cons ?_
  simpa using takes_advance (.name word)

theorem opens_implements : Opens "implements " [.name "implements"] :=
  opens_word (s := "implements") (by decide)

theorem restorable_interfaces : Yields interfaces fun is =>
    RestoresAny interfaces (enclose "implements " (joinPresent " & " is) "") is
      (· = .name "implements") fun t => Stops [.ampersand] t ∧ t ≠ .name "implements" := by
  refine (passes_optionalKeyword "implements").bind fun _ _ => yields_ite ?_ (yields_pure ?_)
  · refine (yields_separatedBy_cons yields_name).weaken ?_
    rintro _ ⟨n, ns, rfl, hnames⟩
    have hmark : Opens "& " [.punctuator .ampersand] :=
      (opens_mark (s := "&") rfl rfl).append opens_space
    have hseparator : Opens " & " [.punctuator .ampersand] := opens_space.append hmark
    obtain ⟨ts, hwrites, htakes, hfirst⟩ := restores_separated hseparator
      (fun _ => detached_cons (by decide) _) hnames fun k _ => takes_name k
    refine ⟨.name "implements" :: ts, ?_, ?_, fun t ht => by cases ht; rfl⟩
    · simpa using writes_enclose opens_implements hwrites writes_empty detached_nil
        (ne_nil_of_first hfirst)
    · unfold interfaces
      refine (takes_optionalKeyword "implements").first ?_
        (leads_of_first hfirst fun _ h => (h.stops []).1)
      exact htakes.weaken fun _ h => h.1
  · exact ⟨[], writes_empty, takes_interfaces_none.weaken fun _ h => h.2, fun t ht => nomatch ht⟩

/-- A body that ends with a block of members is followed by the block, or by what ends the body. -/
theorem leads_block {ts : List Token} {isOpen : Prop} {marks : List Punctuator}
    (hhead : ∀ t ∈ ts.head?, t = .punctuator .braceLeft) (hbrace : .braceLeft ∉ marks) :
    Leads ts (EndsDefinition isOpen) (Stops marks) :=
  leads_of_head hhead (by rintro t rfl; exact stops_punctuator hbrace) fun _ h => h.stops hbrace

/-- Directives in front of a block are followed by it, or by what ends the body. -/
theorem leads_directives {ts us : List Token} {isOpen : Prop}
    (hts : ∀ t ∈ ts.head?, t = .punctuator .at) (hus : ∀ t ∈ us.head?, t = .punctuator .braceLeft) :
    Leads (ts ++ us) (EndsDefinition isOpen) Token.IsValid := by
  refine leads_of_head (forall_head?_append (fun t ht => ?_) fun t ht => ?_) (fun _ h => h)
    fun _ h => h.isValid
  · rw [hts t ht]
    exact Token.isValid_punctuator _
  · rw [hus t ht]
    exact Token.isValid_punctuator _

/-- What ends a body of members may stand behind their block, or where it would stand. -/
theorem Takes.ends {r : Reader (List α)} {ts : List Token} {as : List α}
    (h : Takes r ts as fun t => t.IsValid ∧ (as = [] → t ≠ .punctuator .braceLeft)) :
    Takes r ts as (EndsDefinition (as = [])) :=
  h.weaken fun _ h => ⟨h.isValid, h.2⟩

/-- **Every body of an object or interface type that was read can be restored.** -/
theorem restorable_objectBody (description : Option Description) :
    Yields (objectBody description) fun t => t.description = description ∧
      RestoresBody (objectBody description)
        [t.name, enclose "implements " (joinPresent " & " t.interfaces) "",
          renderDirectives t.directives, braced (t.fields.map (·.render))] t
        (EndsDefinition (t.fields = [])) := by
  refine yields_name.bind fun n hn => restorable_interfaces.bind fun is hinterfaces =>
    (restorable_directives true nestingLimit).bind fun ds hds =>
      (yields_optionalBetween restorable_field .braceLeft .braceRight).bind fun fields hfields =>
        yields_pure ⟨rfl, ?_⟩
  obtain ⟨ts, hinterfaceswrites, hinterfacestakes, hts⟩ := hinterfaces
  obtain ⟨us, hdswrites, hdstakes, hus⟩ := restores_directives hds
  obtain ⟨vs, hfieldswrites, hfieldstakes, hvs⟩ := restores_block hfields
  refine ⟨[[.name n], ts, us, vs], .cons (writes_name hn) (.cons hinterfaceswrites
    (.cons hdswrites (.cons hfieldswrites .nil))), ?_,
    fun t ht => by cases ht; exact Token.isValid_name n⟩
  have htail : Takes (directives true >>= fun ds => optionalBetween .braceLeft .braceRight field >>=
      fun fields => pure (⟨description, n, is, ds, fields⟩ : ObjectType)) (us ++ vs)
      ⟨description, n, is, ds, fields⟩ (EndsDefinition (fields = [])) :=
    hdstakes.bind (hfieldstakes.ends.thenPure _) (leads_block hvs (by simp))
  have hbehind : Leads (us ++ vs) (EndsDefinition (fields = []))
      fun t => Stops [.ampersand] t ∧ t ≠ .name "implements" := by
    have hhead : ∀ t ∈ (us ++ vs).head?, t = .punctuator .at ∨ t = .punctuator .braceLeft :=
      forall_head?_append (fun t ht => Or.inl (hus t ht)) fun t ht => Or.inr (hvs t ht)
    refine leads_of_head hhead ?_ fun t h => ⟨h.stops (by simp), ?_⟩
    · rintro t (rfl | rfl) <;> exact ⟨stops_punctuator (by simp), fun h => nomatch h⟩
    · rintro rfl
      exact h.1 rfl
  have hname : Leads (ts ++ (us ++ vs)) (EndsDefinition (fields = [])) Token.IsValid := by
    refine leads_of_head (forall_head?_append (fun t ht => ?_) fun t ht => ?_) (fun _ h => h)
      fun _ h => h.isValid
    · rw [hts t ht]
      exact Token.isValid_name _
    · exact (hbehind.1 t ht).1.1
  simp only [List.flatten_cons, List.flatten_nil, List.append_nil, List.singleton_append]
  unfold objectBody
  exact (takes_name n).first (hinterfacestakes.bind htail hbehind) hname

/-- Whatever is made of a name, directives and a block of members can be restored. -/
theorem restorable_namedBlock {item : Reader α} {text : α → String}
    {f : String → List Directive → List α → β}
    (hitem : Yields item fun a => RestoresMember item (text a) a) {r : Reader β}
    (hreader : r = do
      let n ← name
      let ds ← directives true
      return f n ds (← optionalBetween .braceLeft .braceRight item)) :
    Yields r fun b => ∃ n ds as, b = f n ds as ∧
      RestoresBody r [n, renderDirectives ds, braced (as.map text)] b (EndsDefinition (as =
        [])) := by
  subst hreader
  refine yields_name.bind fun n hn => (restorable_directives true nestingLimit).bind fun ds hds =>
    (yields_optionalBetween hitem .braceLeft .braceRight).bind fun as has =>
      yields_pure ⟨n, ds, as, rfl, ?_⟩
  obtain ⟨us, hdswrites, hdstakes, hus⟩ := restores_directives hds
  obtain ⟨vs, hblockwrites, hblocktakes, hvs⟩ := restores_block has
  refine ⟨[[.name n], us, vs], .cons (writes_name hn) (.cons hdswrites
    (.cons hblockwrites .nil)), ?_, fun t ht => by cases ht; exact Token.isValid_name n⟩
  simp only [List.flatten_cons, List.flatten_nil, List.append_nil, List.singleton_append]
  refine (takes_name n).first ?_ (leads_directives hus hvs)
  exact hdstakes.bind (hblocktakes.ends.thenPure _) (leads_block hvs (by simp))

/-- **Every body of an input type that was read can be restored.** -/
theorem restorable_inputBody (description : Option Description) :
    Yields (inputBody description) fun t => t.description = description ∧
      RestoresBody (inputBody description)
        [t.name, renderDirectives t.directives, braced (t.fields.map (·.render))] t
        (EndsDefinition (t.fields = [])) := by
  refine (restorable_namedBlock restorable_inputField (f := fun n ds fields =>
    (⟨description, n, ds, fields⟩ : InputType)) rfl).weaken ?_
  rintro _ ⟨n, ds, fields, rfl, h⟩
  exact ⟨rfl, h⟩

/-- **Every body of an enum type that was read can be restored.** -/
theorem restorable_enumBody (description : Option Description) :
    Yields (enumBody description) fun t => t.description = description ∧
      RestoresBody (enumBody description)
        [t.name, renderDirectives t.directives, braced (t.values.map (·.render))] t
        (EndsDefinition (t.values = [])) := by
  refine (restorable_namedBlock restorable_enumValue (f := fun n ds values =>
    (⟨description, n, ds, values⟩ : EnumType)) rfl).weaken ?_
  rintro _ ⟨n, ds, values, rfl, h⟩
  exact ⟨rfl, h⟩

/-- **Every body of a scalar type that was read can be restored.** -/
theorem restorable_scalarBody (description : Option Description) :
    Yields (scalarBody description) fun t => t.description = description ∧
      RestoresBody (scalarBody description) [t.name, renderDirectives t.directives] t
        (EndsDefinition False) := by
  refine yields_name.bind fun n hn => (restorable_directives true nestingLimit).bind fun ds hds =>
    yields_pure ⟨rfl, ?_⟩
  obtain ⟨us, hdswrites, hdstakes, hus⟩ := restores_directives hds
  refine ⟨[[.name n], us], .cons (writes_name hn) (.cons hdswrites .nil), ?_,
    fun t ht => by cases ht; exact Token.isValid_name n⟩
  simp only [List.flatten_cons, List.flatten_nil, List.append_nil, List.singleton_append]
  unfold scalarBody
  refine (takes_name n).first ?_ (leads_of_head hus ?_ fun _ h => h.isValid)
  · exact (hdstakes.thenPure _).weaken fun _ h => h.stops (by simp)
  · rintro t rfl
    exact Token.isValid_punctuator _

theorem opens_equals : Opens "= " [.punctuator .equals] :=
  (opens_mark (s := "=") rfl rfl).append opens_space

theorem opens_pipe : Opens " | " [.punctuator .pipe] := by
  have hmark : Opens "| " [.punctuator .pipe] := (opens_mark (s := "|") rfl rfl).append opens_space
  exact opens_space.append hmark

theorem detaches_pipe : Detaches " | " := fun _ => detached_cons (by decide) _

/-- The members of a union type behind an equals sign, or nothing. -/
def members : Reader (List String) := do
  if ← optionalMark .equals then separatedBy .pipe name else return []

theorem unionBody_eq (description : Option Description) : unionBody description = do
    let n ← name
    let ds ← directives true
    return ⟨description, n, ds, ← members⟩ := by
  unfold unionBody members
  congr 1
  funext n
  congr 1
  funext ds
  rw [bind_assoc]
  congr 1
  funext isThere
  cases isThere <;> rfl

theorem restorable_unionMembers : Yields members fun names =>
    RestoresAny members (enclose "= " (joinPresent " | " names) "") names (· = .punctuator .equals)
      (Stops [.equals, .pipe]) := by
  refine (passes_optionalMark .equals).bind fun _ _ => yields_ite ?_ (yields_pure ?_)
  · refine (yields_separatedBy_cons yields_name).weaken ?_
    rintro _ ⟨n, ns, rfl, hnames⟩
    obtain ⟨ts, hwrites, htakes, hfirst⟩ := restores_separated opens_pipe detaches_pipe hnames
      fun k _ => takes_name k
    refine ⟨.punctuator .equals :: ts, ?_, ?_, fun t ht => by cases ht; rfl⟩
    · simpa using writes_enclose opens_equals hwrites writes_empty detached_nil
        (ne_nil_of_first hfirst)
    · unfold members
      refine (takes_optionalMark .equals).first ?_
        (leads_of_first hfirst fun _ h => (h.stops []).1)
      exact htakes.weaken fun _ h => h.weaken (by simp)
  · refine ⟨[], writes_empty, ?_, fun t ht => nomatch ht⟩
    unfold members
    exact (takes_no_mark .equals).after (takes_pure _ _) (leads_nil fun _ h => h.ne (by simp))

/-- **Every body of a union type that was read can be restored.** -/
theorem restorable_unionBody (description : Option Description) :
    Yields (unionBody description) fun t => t.description = description ∧
      RestoresBody (unionBody description)
        [t.name, renderDirectives t.directives, enclose "= " (joinPresent " | " t.members) ""] t
        (EndsDefinition False) := by
  rw [unionBody_eq]
  refine yields_name.bind fun n hn => (restorable_directives true nestingLimit).bind fun ds hds =>
    restorable_unionMembers.bind fun names hnames => yields_pure ⟨rfl, ?_⟩
  obtain ⟨us, hdswrites, hdstakes, hus⟩ := restores_directives hds
  obtain ⟨vs, hmemberswrites, hmemberstakes, hvs⟩ := hnames
  refine ⟨[[.name n], us, vs], .cons (writes_name hn) (.cons hdswrites
    (.cons hmemberswrites .nil)), ?_, fun t ht => by cases ht; exact Token.isValid_name n⟩
  simp only [List.flatten_cons, List.flatten_nil, List.append_nil, List.singleton_append]
  refine (takes_name n).first ?_ ?_
  · refine hdstakes.bind ((hmemberstakes.thenPure _).weaken fun _ h => h.stops (by simp))
      (leads_of_head hvs ?_ fun _ h => h.stops (by simp))
    rintro t rfl
    exact stops_punctuator (by simp)
  · refine leads_of_head (forall_head?_append (fun t ht => ?_) fun t ht => ?_) (fun _ h => h)
      fun _ h => h.isValid
    · rw [hus t ht]
      exact Token.isValid_punctuator _
    · rw [hvs t ht]
      exact Token.isValid_punctuator _

theorem restores_directiveLocation {n : String} (h : n ∈ directiveLocations) :
    isName n = true ∧ Takes directiveLocation [.name n] n Token.IsValid := by
  have hnames : ∀ k ∈ directiveLocations, isName k = true := by decide
  refine ⟨hnames n h, ?_⟩
  unfold directiveLocation
  refine takes_peek_cons ((takes_name n).last ?_)
  rw [if_pos (List.contains_iff_mem.2 h)]
  exact takes_pure n _

theorem yields_directiveLocation : Yields directiveLocation fun n => n ∈ directiveLocations := by
  refine yields_peek.bind fun t _ => yields_name.bind fun n _ => ?_
  split
  next h => exact yields_pure (List.contains_iff_mem.1 h)
  · exact yields_throw _ _

/-- What the declaration of a directive is printed as behind its keyword. -/
def directivePieces (d : DirectiveType) : String :=
  "@" ++ d.name ++ renderArguments d.arguments ++ (if d.repeatable then " repeatable" else "")
    ++ " on " ++ joinPresent " | " d.locations

/-- The word for a directive that may be used more than once at a place, or its absence. -/
theorem restores_repeatable {r : Bool → Reader α} {repeatable : Bool} {ts : List Token} {a : α}
    {next : Token → Prop} (h : Takes (r repeatable) (.name "on" :: ts) a next) :
    ∃ ws, Writes (if repeatable then " repeatable" else "") ws ∧
      Detached (if repeatable then " repeatable" else "").toList ∧
      Takes (optionalKeyword "repeatable" >>= r) (ws ++ .name "on" :: ts) a next ∧
      ∀ t ∈ (ws ++ .name "on" :: ts).head?, IsWord t := by
  cases repeatable with
  | true =>
    refine ⟨[.name "repeatable"], opens_space.writes_append (s := " ") (t := "repeatable")
      (writes_name (by decide)), detached_cons (by decide) _, ?_, fun t ht => ?_⟩
    · exact (takes_optionalKeyword "repeatable").first h (leads_cons (Token.isValid_name _))
    · cases ht
      exact ⟨_, rfl⟩
  | false =>
    refine ⟨[], writes_empty, detached_nil, ?_, fun t ht => ?_⟩
    · exact (takes_no_keyword "repeatable").after h (leads_cons (by simp))
    · cases ht
      exact ⟨_, rfl⟩

/-- **Every body of a directive that was read can be restored.** -/
theorem restorable_directiveBody (description : Option Description) :
    Yields (directiveBody description) fun d => d.description = description ∧
      RestoresBody (directiveBody description) [directivePieces d] d (EndsDefinition False) := by
  refine (passes_mark .at).bind fun _ _ => yields_name.bind fun n hn =>
    (yields_optionalBetween restorable_inputField .parenLeft .parenRight).bind fun args hargs =>
      (passes_optionalKeyword "repeatable").bind fun repeatable _ =>
        (passes_keyword "on").bind fun _ _ => ?_
  refine (yields_separatedBy_cons yields_directiveLocation).bind ?_
  rintro _ ⟨k, ks, rfl, hlocations⟩
  refine yields_pure ⟨rfl, ?_⟩
  obtain ⟨as, hargwrites, hargtakes, has⟩ := restores_argumentDefinitions hargs
  obtain ⟨vs, hlocationswrites, hlocationstakes, hfirst⟩ :=
    restores_separated opens_pipe detaches_pipe
      (fun k hk => (restores_directiveLocation (hlocations k hk)).1)
      fun k hk => (restores_directiveLocation (hlocations k hk)).2
  have hlast :
      Takes (keyword "on" >>= fun _ => separatedBy .pipe directiveLocation >>= fun locations =>
      pure (⟨description, n, args, repeatable, locations⟩ : DirectiveType)) (.name "on" :: vs)
      ⟨description, n, args, repeatable, k :: ks⟩ (EndsDefinition False) :=
    (takes_keyword "on").first ((hlocationstakes.thenPure _).weaken fun _ h => h.stops (by simp))
      (leads_of_first hfirst fun _ h => (h.stops []).1)
  obtain ⟨ws, hword, hdetached, htail, hwords⟩ := restores_repeatable hlast
    (r := fun repeatable => keyword "on" >>= fun _ => separatedBy .pipe directiveLocation >>=
      fun locations => pure (⟨description, n, args, repeatable, locations⟩ : DirectiveType))
  have hat : Opens "@" [.punctuator .at] := opens_mark rfl rfl
  have hon : Opens " on " [.name "on"] := opens_space.append opens_on
  have hcall :=
    (hat.writes_append (writes_name hn)).append hargwrites (detached_renderArguments args)
  have htext := ((hcall.append hword hdetached).opens_append hon
    fun _ => detached_cons (by decide) _).writes_append hlocationswrites
  simp only [List.cons_append, List.nil_append, List.append_assoc] at htext
  refine ⟨[_], .cons htext .nil, ?_, fun t ht => by cases ht; exact Token.isValid_punctuator _⟩
  rw [List.flatten_singleton]
  unfold directiveBody
  refine (takes_mark .at).first ?_ (leads_cons (Token.isValid_name n))
  refine (takes_name n).first (hargtakes.bind htail ?_) ?_
  · exact leads_of_head hwords (fun _ h => h.stops _) fun _ h => h.stops (by simp)
  · refine leads_of_head (forall_head?_append (fun t ht => ?_) fun t ht => ?_) (fun _ h => h)
      fun _ h => h.isValid
    · rw [has t ht]
      exact Token.isValid_punctuator _
    · exact ((hwords t ht).stops []).1

/-- **Every body of a schema block that was read can be restored.** -/
theorem restorable_schemaBody (description : Option Description) :
    Yields (schemaBody description) fun b => b.description = description ∧
      RestoresBody (schemaBody description)
        [renderDirectives b.directives, braced (b.roots.map renderRoot)] b
          (EndsDefinition False) := by
  refine (restorable_directives true nestingLimit).bind fun ds hds => ?_
  refine (yields_someBetween_cons restorable_rootType .braceLeft .braceRight).bind ?_
  rintro _ ⟨root, roots, rfl, hroots⟩
  refine yields_pure ⟨rfl, ?_⟩
  obtain ⟨us, hdswrites, hdstakes, hus⟩ := restores_directives hds
  obtain ⟨tokens, hrepeats, hwrites, hhead⟩ := exists_tokens hroots fun _ h => h.ends
  have hsome : ((root :: roots).map tokens).flatten ≠ [] := by
    simp [hrepeats.nonempty root (by simp)]
  have htakes := takes_someBetween .braceLeft .braceRight (stops_punctuator (by decide)) hrepeats
    (fun b hb t ht => (hhead b (by simp [hb]) t ht).ne (by simp)) fun _ h => h.1
  refine ⟨[us, _], .cons hdswrites (.cons (opens_braced hwrites hsome).writes .nil), ?_, ?_⟩
  · simp only [List.flatten_cons, List.flatten_nil, List.append_nil]
    unfold schemaBody
    rw [← List.flatMap_def]
    exact hdstakes.bind ((htakes.thenPure _).weaken fun _ h => h.isValid)
      (leads_cons (stops_punctuator (by simp)))
  · simp only [List.flatten_cons, List.flatten_nil, List.append_nil]
    refine forall_head?_append (fun t ht => ?_) fun t ht => ?_
    · rw [hus t ht]
      exact Token.isValid_punctuator _
    · cases ht
      exact Token.isValid_punctuator _

/-- The part of an extension of the schema behind its keyword. -/
def schemaExtensionBody : Reader (List Directive × List (OperationKind × String)) := do
  let ds ← directives true
  return (ds, ← optionalBetween .braceLeft .braceRight rootType)

theorem restores_schemaExtensionBody {ds : List Directive} {roots : List (OperationKind × String)}
    (hds : ∀ d ∈ ds, RestoresDirective true nestingLimit d) (hroots : ∀ r ∈ roots, RestoresRoot r) :
    RestoresBody schemaExtensionBody [renderDirectives ds, braced (roots.map renderRoot)]
      (ds, roots) (EndsDefinition (roots = [])) := by
  obtain ⟨us, hdswrites, hdstakes, hus⟩ := restores_directives hds
  obtain ⟨vs, hblockwrites, hblocktakes, hvs⟩ := restores_block hroots
  refine ⟨[us, vs], .cons hdswrites (.cons hblockwrites .nil), ?_, ?_⟩
  · simp only [List.flatten_cons, List.flatten_nil, List.append_nil]
    exact hdstakes.bind (hblocktakes.ends.thenPure _) (leads_block hvs (by simp))
  · simp only [List.flatten_cons, List.flatten_nil, List.append_nil]
    exact (leads_directives hus hvs : Leads _ (EndsDefinition False) _).1

end Reader

end SchemaLoom.Sdl
