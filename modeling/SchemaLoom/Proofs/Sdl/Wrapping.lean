/-
A field is read from a text by itself.

The text is put between braces behind a keyword, and the type that this makes is read.  The
fields of the type are looked at, and nothing else of the document.  So a text is taken for a
field if it is one and leaves the closing brace in place (`StandsAlone`), and also if it closes
the braces itself and goes on with something that, with the brace put behind it, is a document or
nothing at all (`ClosesBraces`).

A text that ends in a comment takes the closing brace into the comment, and is refused even where
it is a field.  These two are all ways in which a text can mislead (`Misleads`).

First the tokens around the text are dealt with (`definitions_wrapped_iff`), then the text is
divided (`lex_closed_iff`).  Fields and input fields go through both steps as one (`Wraps`).
-/
import SchemaLoom.Proofs.Sdl.Grammar
import SchemaLoom.Proofs.Sdl.Division

namespace SchemaLoom.Sdl

variable {α β : Type}

namespace Reader

/-! ### Known tokens in front -/

/-- What is read behind tokens that a reader takes. -/
theorem Takes.bind_eq {r : Reader α} {f : α → Reader β} {ts : List Token} {a : α}
    {next : Token → Prop} (h : Takes r ts a next) {bound : Nat} {rest : List Token}
    (hrest : ∀ t ∈ rest.head?, next t) (hbound : (ts ++ rest).length < bound) :
    (r >>= f) bound (ts ++ rest) = f a bound rest := by
  show (r bound (ts ++ rest) >>= fun s => f s.1 bound s.2) = _
  rw [h bound rest hrest hbound]
  rfl

/-- What is read where a reader takes nothing. -/
theorem Takes.bind_nil {r : Reader α} {f : α → Reader β} {a : α} {next : Token → Prop}
    (h : Takes r [] a next) {bound : Nat} {rest : List Token} (hrest : ∀ t ∈ rest.head?, next t)
    (hbound : rest.length < bound) : (r >>= f) bound rest = f a bound rest := by
  rw [← List.nil_append rest]
  exact h.bind_eq hrest hbound

theorem head?_cons_forall {t : Token} {ts : List Token} {next : Token → Prop} (h : next t) :
    ∀ u ∈ (t :: ts).head?, next u := by
  rintro _ ⟨⟩
  exact h

/-- A type definition is read by what its keyword announces, behind the keyword. -/
theorem definition_eq {word : String} {body : Reader Definition}
    (hword : typeDefinition? none word = some body) {bound : Nat} {ts : List Token}
    (hvalid : ∀ t ∈ ts.head?, t.IsValid) (hbound : ts.length + 1 < bound) :
    definition bound (.name word :: ts) = body bound ts := by
  show definitionNamed false word (.name word) bound (.name word :: ts) = _
  unfold definitionNamed
  rw [hword]
  refine (takes_description_none.bind_nil (head?_cons_forall rfl) hbound).trans ?_
  rw [hword]
  exact (takes_advance (.name word)).bind_eq hvalid hbound

/-- Optional members between marks, in front of the opening one. -/
theorem optionalBetween_eq {item : Reader α} (opening closing : Punctuator) (bound : Nat)
    (ts : List Token) : optionalBetween opening closing item bound (.punctuator opening :: ts)
      = (advance >>= fun _ => someUntil closing item) bound (.punctuator opening :: ts) := by
  have hmark : optionalMark opening = peek >>= fun t =>
      if t = .punctuator opening then advance >>= fun _ => pure true else pure false := rfl
  have hpeek : ∀ r : Token → Reader (List α), (peek >>= r) bound (.punctuator opening :: ts)
      = r (.punctuator opening) bound (.punctuator opening :: ts) := fun _ => rfl
  unfold optionalBetween
  rw [hmark, bind_assoc, hpeek, if_pos rfl, bind_assoc]
  simp only [pure_bind, if_true]

/-- Members in braces, put into a definition. -/
theorem braces_eq {item : Reader α} (f : List α → β) (bound : Nat) (ts : List Token) :
    (optionalBetween .braceLeft .braceRight item >>= fun members => pure (f members)) bound
        (.punctuator .braceLeft :: ts)
      = (advance >>= fun _ => f <$> someUntil .braceRight item) bound
        (.punctuator .braceLeft :: ts) := by
  show (optionalBetween .braceLeft .braceRight item bound (.punctuator .braceLeft :: ts) >>= _) = _
  rw [optionalBetween_eq]
  show ((advance >>= fun _ => someUntil .braceRight item) >>= fun members => pure (f members)) bound
    (.punctuator .braceLeft :: ts) = _
  rw [bind_assoc]
  simp only [map_eq_pure_bind]

theorem isValid_brace {ts : List Token} :
    ∀ t ∈ (Token.punctuator .braceLeft :: ts).head?, t.IsValid :=
  head?_cons_forall (Token.isValid_punctuator _)

theorem objectBody_eq {bound : Nat} {n : String} {ts : List Token}
    (hbound : ts.length + 2 < bound) :
    objectBody none bound (.name n :: .punctuator .braceLeft :: ts)
      = (advance >>= fun _ => plainObject n <$> someUntil .braceRight field) bound
        (.punctuator .braceLeft :: ts) := by
  have hrest : (Token.punctuator .braceLeft :: ts).length < bound := by
    rw [List.length_cons]
    omega
  refine ((takes_name n).bind_eq isValid_brace hbound).trans ?_
  refine (takes_interfaces_none.bind_nil (head?_cons_forall ?_) hrest).trans ?_
  · exact nofun
  refine (takes_directives_in_front.bind_nil (head?_cons_forall ?_) hrest).trans (braces_eq _ _ _)
  exact ⟨Token.isValid_punctuator _, nofun, nofun, nofun⟩

theorem inputBody_eq {bound : Nat} {n : String} {ts : List Token} (hbound : ts.length + 2 < bound) :
    inputBody none bound (.name n :: .punctuator .braceLeft :: ts)
      = (advance >>= fun _ => plainInputType n <$> someUntil .braceRight inputField) bound
        (.punctuator .braceLeft :: ts) := by
  have hrest : (Token.punctuator .braceLeft :: ts).length < bound := by
    rw [List.length_cons]
    omega
  refine ((takes_name n).bind_eq isValid_brace hbound).trans ?_
  refine (takes_directives_in_front.bind_nil (head?_cons_forall ?_) hrest).trans (braces_eq _ _ _)
  exact ⟨Token.isValid_punctuator _, nofun, nofun, nofun⟩

/-! ### The type around a text

Three tokens are known in front of the text.  Behind it a brace has to be found, and behind the
brace definitions or nothing.
-/

/-- The keyword `word` opens a type whose members are read by `item`. -/
structure Wraps (word : String) (item : Reader α) (wrap : List α → Definition)
    (fieldsOf : Definition → List α) : Prop where
  isName : isName word = true
  reads : ∀ {bound : Nat} {ts : List Token}, ts.length + 3 < bound →
    definition bound (.name word :: .name "Wrapper" :: .punctuator .braceLeft :: ts)
      = (advance >>= fun _ => wrap <$> someUntil .braceRight item) bound
        (.punctuator .braceLeft :: ts)
  fields : ∀ as, fieldsOf (wrap as) = as

theorem map_eq_of {r r' : Reader α} {f : α → β} {bound : Nat} {ts ts' : List Token}
    (h : r bound ts = r' bound ts') : (f <$> r) bound ts = (f <$> r') bound ts' := by
  show (r bound ts >>= fun s => Except.ok (f s.1, s.2)) = _
  rw [h]
  rfl

theorem wraps_object : Wraps "type" field (fun fs => .object (plainObject "Wrapper" fs))
    Definition.outputFields where
  isName := by decide
  reads := by
    intro bound ts hbound
    rw [definition_eq rfl (head?_cons_forall (Token.isValid_name _)) hbound,
      map_eq_of (objectBody_eq (by omega)), map_bind]
    simp only [Functor.map_map]
  fields _ := rfl

theorem wraps_input : Wraps "input" inputField (fun fs => .input (plainInputType "Wrapper" fs))
    Definition.inputFields where
  isName := by decide
  reads := by
    intro bound ts hbound
    rw [definition_eq rfl (head?_cons_forall (Token.isValid_name _)) hbound,
      map_eq_of (inputBody_eq (by omega)), map_bind]
    simp only [Functor.map_map]
  fields _ := rfl

/-- The tokens `ts` are those of definitions, or there are none. -/
def GoesOn (ts : List Token) : Prop :=
  ts.headD .eof = .eof ∨ ∃ ds rest, definitions (ts.length + 1) ts = .ok (ds, rest)

theorem definitions_invalid {bound : Nat} {fault : LexFault} {ts rest : List Token}
    {ds : List Definition} : definitions bound (.invalid fault :: ts) ≠ .ok (ds, rest) := by
  intro hread
  cases bound with
  | zero => cases hread
  | succ bound => cases hread

theorem GoesOn.isValid {ts : List Token} (h : GoesOn ts) : ∀ t ∈ ts.head?, t.IsValid := by
  rintro t ht fault rfl
  obtain ⟨us, rfl⟩ := List.head?_eq_some_iff.1 ht
  rcases h with hend | ⟨ds, rest, hread⟩
  · cases hend
  · exact definitions_invalid hread

/-- Definitions begin with one. -/
theorem exists_first_of_definitions {bound : Nat} {ts rest : List Token} {ds : List Definition}
    (h : definitions bound ts = .ok (ds, rest)) :
    ∃ first behind, definition bound ts = .ok (first, behind) ∧ ds.head? = some first := by
  cases bound with
  | zero => cases h
  | succ n =>
    have hwithin : definitionsWithin (n + 1) (n + 1) ts = .ok (ds, rest) := h
    obtain ⟨first, behind, hfirst, hothers⟩ := of_bind hwithin
    refine ⟨first, behind, hfirst, ?_⟩
    obtain ⟨t, _, hpeek, hwhole⟩ := of_bind hothers
    split at hwhole
    · cases hwhole
      rfl
    · obtain ⟨others, _, -, hwhole⟩ := of_bind hwhole
      cases hwhole
      rfl

/-- Behind a first definition others are read, or there are none. -/
theorem exists_definitions_iff {bound : Nat} {ts behind : List Token} {first : Definition}
    (hfirst : definition bound ts = .ok (first, behind)) (hbound : behind.length + 1 < bound) :
    (∃ ds rest, definitions bound ts = .ok (ds, rest)) ↔ GoesOn behind := by
  obtain ⟨n, rfl⟩ : ∃ n, bound = n + 1 := ⟨bound - 1, by omega⟩
  have hstep : definitions (n + 1) ts = (if behind.headD .eof = .eof then pure [first] else
      definitionsWithin n >>= fun others => pure (first :: others) : Reader (List Definition))
        (n + 1) behind := by
    show (definition (n + 1) ts >>= _) = _
    rw [hfirst]
    rfl
  rw [hstep]
  by_cases hend : behind.headD .eof = .eof
  · rw [if_pos hend]
    exact ⟨fun _ => Or.inl hend, fun _ => ⟨[first], behind, rfl⟩⟩
  · rw [if_neg hend]
    show (∃ ds rest, (definitionsWithin n (n + 1) behind >>= fun s =>
      Except.ok (first :: s.1, s.2)) = .ok (ds, rest)) ↔ _
    rw [definitionsWithin_eq (by omega) (by omega)]
    constructor
    · rintro ⟨ds, rest, hread⟩
      obtain ⟨others, hothers, -⟩ := Outcome.of_bind_eq_ok hread
      exact Or.inr ⟨others.1, others.2, hothers⟩
    · intro hgoes
      obtain ⟨ds, rest, hread⟩ := hgoes.resolve_left hend
      exact ⟨first :: ds, rest, by rw [hread]; rfl⟩

/-- A type is read from its members up to the closing brace. -/
theorem of_definition_wrapped {item : Reader α} {word : String} {wrap : List α → Definition}
    {fieldsOf : Definition → List α} (hwraps : Wraps word item wrap fieldsOf) {bound : Nat}
    {ts behind : List Token} {first : Definition} (hbound : ts.length + 3 < bound)
    (h : definition bound (.name word :: .name "Wrapper" :: .punctuator .braceLeft :: ts)
      = .ok (first, behind)) :
    ∃ as, first = wrap as ∧ someUntil .braceRight item bound ts = .ok (as, behind) := by
  rw [hwraps.reads hbound] at h
  obtain ⟨_, opened, hadvance, hmembers⟩ := of_bind h
  obtain rfl : opened = ts := eq_drop_of_advance hadvance
  rw [map_eq_pure_bind] at hmembers
  obtain ⟨as, _, hmembers, hwrapped⟩ := of_bind hmembers
  cases hwrapped
  exact ⟨as, rfl, hmembers⟩

section Wrapped

variable {item : Reader α} {tokens : α → List Token} {P : α → Prop} {word : String}
  {wrap : List α → Definition} {fieldsOf : Definition → List α}
  (hitem : Describes item tokens P) (hwraps : Wraps word item wrap fieldsOf)

include hitem

/-- A single member is taken up to the closing brace. -/
theorem someUntil_single {bound : Nat} {a : α} {ts : List Token} (ha : P a)
    (hvalid : ∀ t ∈ ts.head?, t.IsValid)
    (hbound : (tokens a ++ .punctuator .braceRight :: ts).length < bound) :
    someUntil .braceRight item bound (tokens a ++ .punctuator .braceRight :: ts)
      = .ok ([a], ts) := by
  have hsingle : ∀ b ∈ [a], Takes item (tokens b) b EndsMember :=
    fun b hb => hitem.takes (List.mem_singleton.1 hb ▸ ha)
  obtain ⟨hrepeats, -⟩ := repeats_of_first hsingle (fun b _ => hitem.first b) fun _ h => h.ends
  have hclosing : EndsMember (.punctuator .braceRight) := stops_punctuator (by decide)
  have hread := takes_someUntil hclosing hrepeats (fun _ h => nomatch h) bound ts hvalid
    (by simpa using hbound)
  simpa using hread

/-- What is taken for a single member spells it. -/
theorem of_someUntil_single {bound : Nat} {a : α} {ts rest : List Token}
    (h : someUntil .braceRight item bound ts = .ok ([a], rest)) :
    P a ∧ ts = tokens a ++ .punctuator .braceRight :: rest := by
  obtain ⟨taken, rfl, -, rfl, ha⟩ := spells_someUntil hitem.spells .braceRight bound ts [a] rest h
  exact ⟨ha a (List.mem_singleton_self a), by simp⟩

include hwraps

/-- A type with a single member is read from the tokens of the member and a closing brace. -/
theorem definition_wrapped {bound : Nat} {a : α} {behind : List Token} (ha : P a)
    (hvalid : ∀ t ∈ behind.head?, t.IsValid)
    (hbound : (tokens a ++ .punctuator .braceRight :: behind).length + 3 < bound) :
    definition bound (.name word :: .name "Wrapper" :: .punctuator .braceLeft ::
      (tokens a ++ .punctuator .braceRight :: behind)) = .ok (wrap [a], behind) := by
  have hhead : ∀ t ∈ (tokens a ++ .punctuator .braceRight :: behind).head?, t.IsValid := by
    obtain ⟨t, ht, hbegins⟩ := first_append (hitem.first a) (.punctuator .braceRight :: behind)
    intro u hu
    cases Option.mem_unique hu ht
    exact hbegins.1
  rw [hwraps.reads hbound]
  have hadvance := takes_advance (.punctuator .braceLeft)
  refine (hadvance.bind_eq hhead (by simp at hbound ⊢; omega)).trans ?_
  show (someUntil .braceRight item bound _ >>= fun s => Except.ok (wrap s.1, s.2)) = _
  rw [someUntil_single hitem ha hvalid (by omega)]
  rfl

/-- **A type with a single member is read from the tokens of the member and a closing brace, with
definitions behind it or nothing** (`GoesOn`). -/
theorem definitions_wrapped_iff {bound : Nat} {ts : List Token} {a : α}
    (hbound : ts.length + 3 < bound) :
    (∃ ds rest, definitions bound (.name word :: .name "Wrapper" :: .punctuator .braceLeft :: ts)
        = .ok (ds, rest) ∧ ds.head?.elim [] fieldsOf = [a]) ↔
      P a ∧ ∃ behind, ts = tokens a ++ .punctuator .braceRight :: behind ∧ GoesOn behind := by
  constructor
  · rintro ⟨ds, rest, hread, hfields⟩
    obtain ⟨first, behind, hfirst, hhead⟩ := exists_first_of_definitions hread
    obtain ⟨as, rfl, hmembers⟩ := of_definition_wrapped hwraps hbound hfirst
    rw [hhead] at hfields
    obtain rfl : as = [a] := (hwraps.fields as).symm.trans hfields
    obtain ⟨ha, rfl⟩ := of_someUntil_single hitem hmembers
    rw [List.length_append, List.length_cons] at hbound
    exact ⟨ha, behind, rfl, (exists_definitions_iff hfirst (by omega)).1 ⟨ds, rest, hread⟩⟩
  · rintro ⟨ha, behind, rfl, hbehind⟩
    have hfirst := definition_wrapped hitem hwraps ha hbehind.isValid hbound
    rw [List.length_append, List.length_cons] at hbound
    obtain ⟨ds, rest, hread⟩ := (exists_definitions_iff hfirst (by omega)).2 hbehind
    obtain ⟨first, _, hsame, hhead⟩ := exists_first_of_definitions hread
    rw [hfirst] at hsame
    cases hsame
    refine ⟨ds, rest, hread, ?_⟩
    rw [hhead]
    exact hwraps.fields [a]

end Wrapped

end Reader

/-! ### Texts

The closing brace is put behind the text with a blank between.  It is a token of its own unless
the text ends in a comment.
-/

/-- **A text is a document if definitions are read from its tokens.** -/
theorem Document.parseStrict_eq_ok_iff {text : String} {doc : Document} :
    Document.parseStrict text = .ok doc ↔ ∃ rest, Reader.definitions
      ((lex text.toList).length + 1) (lex text.toList) = .ok (doc.definitions, rest) := by
  unfold Document.parseStrict Reader.run
  split
  next fault us hlex =>
    rw [hlex]
    refine ⟨nofun, ?_⟩
    rintro ⟨rest, hread⟩
    exact (Reader.definitions_invalid hread).elim
  next =>
    constructor
    · intro h
      obtain ⟨⟨read, rest⟩, hread, rfl⟩ := Outcome.of_map_eq_ok h
      obtain ⟨ds, between, hdefinitions, hwhole⟩ := Reader.of_bind hread
      cases hwhole
      exact ⟨rest, hdefinitions⟩
    · rintro ⟨rest, hread⟩
      show ((Reader.definitions _ _ >>= fun s => Except.ok (Document.mk s.1, s.2)).map (·.1)) = _
      rw [hread]
      rfl

theorem lex_wrapped {word : String} (hword : isName word = true) (text : String) :
    lex (word ++ " Wrapper \x7b " ++ text ++ " \x7d").toList = .name word :: .name "Wrapper" ::
      .punctuator .braceLeft :: lex (text.toList ++ [' ', '\x7d']) := by
  have hname : Opens ("Wrapper" ++ " ") [.name "Wrapper"] := Reader.opens_word (by decide)
  have hbrace : Opens "\x7b" [.punctuator .braceLeft] := opens_mark rfl rfl
  have hopens := (Reader.opens_word hword).append (hname.append (hbrace.append opens_space))
  have hlex := hopens 0 (text.toList ++ [' ', '\x7d'])
  rw [shift_zero] at hlex
  simpa using hlex

/-- The text divides into the tokens `ts`, and does not end within a comment. -/
structure StandsAlone (ts : List Token) (text : String) : Prop where
  divides : lex text.toList = ts ++ [.eof]
  closed : ¬ EndsInComment text.toList

/-- The text, with a closing brace put behind it, is a document or nothing at all. -/
def IsContinuation (text : String) : Prop :=
  lex (text ++ " \x7d").toList = [.eof] ∨ ∃ doc, Document.parseStrict (text ++ " \x7d") = .ok doc

/-- The text divides into the tokens `ts` up to a closing brace, behind which it goes on. -/
def ClosesBraces (ts : List Token) (text : String) : Prop :=
  ∃ front behind, text = front ++ "\x7d" ++ behind ∧ StandsAlone ts front ∧ IsContinuation behind

theorem isContinuation_iff {text : String} :
    IsContinuation text ↔ Reader.GoesOn (lex (text.toList ++ [' ', '\x7d'])) := by
  have htext : (text ++ " \x7d").toList = text.toList ++ [' ', '\x7d'] := by simp
  unfold IsContinuation Reader.GoesOn
  rw [htext]
  refine or_congr ⟨fun h => by rw [h]; rfl, fun h => ?_⟩ ⟨?_, ?_⟩
  · obtain ⟨t, ts, hlex⟩ :=
      List.exists_cons_of_ne_nil (ne_nil_of_lex (text.toList ++ [' ', '\x7d']))
    rw [hlex] at h ⊢
    obtain rfl : t = .eof := h
    rw [lex_eq_of_eof hlex]
  · rintro ⟨doc, hdoc⟩
    obtain ⟨rest, hread⟩ := Document.parseStrict_eq_ok_iff.1 hdoc
    rw [htext] at hread
    exact ⟨doc.definitions, rest, hread⟩
  · rintro ⟨ds, rest, hread⟩
    refine ⟨⟨ds⟩, Document.parseStrict_eq_ok_iff.2 ⟨rest, ?_⟩⟩
    rw [htext]
    exact hread

/-- A text that goes on with a closing brace does not end within a comment. -/
theorem closed_of_lex {cs more : List Char} {ts us : List Token} (hlex : lex cs = ts ++ [.eof])
    (hmore : ∀ c ∈ more, isLineBreak c = false)
    (h : lex (cs ++ more) = ts ++ .punctuator .braceRight :: us) : ¬ EndsInComment cs := by
  intro hopen
  rw [hopen.lex_append hmore, hlex] at h
  cases List.append_cancel_left h

theorem lex_brace (cs : List Char) : lex ('\x7d' :: cs) = .punctuator .braceRight :: lex cs :=
  lex_mark rfl cs

/-- What ends with a blank and a brace has them behind the rest. -/
theorem exists_of_concat_brace {cs front behind : List Char}
    (h : cs ++ [' ', '\x7d'] = front ++ '\x7d' :: behind) :
    cs ++ [' '] = front ∧ behind = [] ∨
      ∃ others, cs = front ++ '\x7d' :: others ∧ behind = others ++ [' ', '\x7d'] := by
  rcases List.eq_nil_or_concat behind with rfl | ⟨most, last, rfl⟩
  · have hsame : (cs ++ [' ']) ++ ['\x7d'] = front ++ ['\x7d'] := by simpa using h
    exact Or.inl ⟨(List.append_inj' hsame rfl).1, rfl⟩
  · have hsame : (cs ++ [' ']) ++ ['\x7d'] = (front ++ '\x7d' :: most) ++ [last] := by simpa using h
    obtain ⟨hfront, hlast⟩ := List.append_inj' hsame rfl
    cases hlast
    rcases List.eq_nil_or_concat most with rfl | ⟨others, blank, rfl⟩
    · cases (List.append_inj' hfront rfl).2
    · rw [List.concat_eq_append, ← List.cons_append, ← List.append_assoc] at hfront
      obtain ⟨htext, hblank⟩ := List.append_inj' hfront rfl
      cases hblank
      exact Or.inr ⟨others, htext, by simp⟩

/-- **A text in front of a closing brace divides into some tokens and a brace if it stands alone
(`StandsAlone`), or if it closes the braces by itself (`ClosesBraces`).** -/
theorem lex_closed_iff {ts : List Token} {text : String} :
    (∃ behind, lex (text.toList ++ [' ', '\x7d']) = ts ++ .punctuator .braceRight :: behind ∧
      Reader.GoesOn behind) ↔ StandsAlone ts text ∨ ClosesBraces ts text := by
  have hblank : ∀ cs, Detached (' ' :: cs) := detached_cons (by decide)
  have hbrace : ∀ cs, Detached ('\x7d' :: cs) := detached_cons (by decide)
  have hbreak : ∀ c ∈ [' ', '\x7d'], isLineBreak c = false := by simp [isLineBreak]
  constructor
  · rintro ⟨_, hlex, hbehind⟩
    have hmark : Punctuator.ofChar? '\x7d' = some .braceRight := rfl
    obtain ⟨front, behind, hsplit, hfront, rfl⟩ := exists_split_of_lex hmark hlex
    rcases exists_of_concat_brace hsplit with ⟨rfl, rfl⟩ | ⟨others, htext, rfl⟩
    · have hdivides := lex_of_concat_blank hfront.lex_eq
      exact Or.inl ⟨hdivides, closed_of_lex hdivides hbreak hlex⟩
    · have hgoes : lex (front ++ ['\x7d']) = ts ++ .punctuator .braceRight :: lex [] := by
        rw [hfront _ (hbrace _), lex_brace]
      have hclosed := closed_of_lex hfront.lex_eq
        (fun c hc => hbreak c (List.mem_cons_of_mem _ hc)) hgoes
      refine Or.inr ⟨String.ofList front, String.ofList others, ?_, ⟨?_, ?_⟩,
        isContinuation_iff.2 ?_⟩
      · rw [← String.toList_inj, htext]
        simp
      · rw [String.toList_ofList]
        exact hfront.lex_eq
      · rwa [String.toList_ofList]
      · rwa [String.toList_ofList]
  · rintro (halone | ⟨front, behind, rfl, hfront, hbehind⟩)
    · refine ⟨[.eof], ?_, Or.inl rfl⟩
      rw [divides_of_lex halone.divides halone.closed _ (hblank _), lex_ignored rfl, lex_brace,
        lex_nil]
    · refine ⟨_, ?_, isContinuation_iff.1 hbehind⟩
      have htext : (front ++ "\x7d" ++ behind).toList ++ [' ', '\x7d']
          = front.toList ++ '\x7d' :: (behind.toList ++ [' ', '\x7d']) := by simp
      rw [htext, divides_of_lex hfront.divides hfront.closed _ (hbrace _), lex_brace]

/-- What closes the braces by itself does not divide into the tokens in front of them alone. -/
theorem ClosesBraces.not_divides {ts : List Token} {text : String} (h : ClosesBraces ts text) :
    ¬ lex text.toList = ts ++ [.eof] := by
  obtain ⟨front, behind, rfl, hfront, -⟩ := h
  have htext :
      (front ++ "\x7d" ++ behind).toList = front.toList ++ '\x7d' :: behind.toList := by simp
  rw [htext, divides_of_lex hfront.divides hfront.closed _ (detached_cons (by decide) _), lex_brace]
  intro hsame
  cases List.append_cancel_left hsame

/-- The text is refused although it divides into the tokens `ts`, or taken although it does not. -/
inductive Misleads (ts : List Token) (text : String) : Prop
  /-- The text takes what is put behind it into a comment. -/
  | comment (hdivides : lex text.toList = ts ++ [.eof]) (hopen : EndsInComment text.toList)
  | closes (h : ClosesBraces ts text)

theorem misleads_iff {ts : List Token} {text : String} :
    ¬ Misleads ts text ↔
      (StandsAlone ts text ∨ ClosesBraces ts text ↔ lex text.toList = ts ++ [.eof]) := by
  constructor
  · intro hfair
    constructor
    · rintro (halone | hcloses)
      · exact halone.divides
      · exact absurd (.closes hcloses) hfair
    · intro hdivides
      exact Or.inl ⟨hdivides, fun hopen => hfair (.comment hdivides hopen)⟩
  · rintro hsame (⟨hdivides, hopen⟩ | hcloses)
    · rcases hsame.2 hdivides with halone | hcloses
      · exact halone.closed hopen
      · exact hcloses.not_divides hdivides
    · exact hcloses.not_divides (hsame.1 (Or.inr hcloses))

/-! ### Fields -/

theorem onlyField_eq_ok_iff {text : String} {as : List α} {a : α} :
    onlyField text as = .ok a ↔ as = [a] := by
  rcases as with _ | ⟨b, _ | ⟨c, as⟩⟩
  · exact ⟨nofun, nofun⟩
  · constructor
    · rintro ⟨⟩
      rfl
    · rintro ⟨⟩
      rfl
  · exact ⟨nofun, nofun⟩

/-- A text between the braces of a type is a single member of it. -/
theorem onlyField_wrappedFields_iff {item : Reader α} {tokens : α → List Token} {P : α → Prop}
    {word : String} {wrap : List α → Definition} {fieldsOf : Definition → List α}
    (hitem : item.Describes tokens P) (hwraps : Reader.Wraps word item wrap fieldsOf)
    {text : String}
    {a : α} : (wrappedFields word fieldsOf text >>= onlyField text) = .ok a ↔
      P a ∧ (StandsAlone (tokens a) text ∨ ClosesBraces (tokens a) text) := by
  have hparsed : (wrappedFields word fieldsOf text >>= onlyField text) = .ok a ↔
      ∃ doc, Document.parseStrict (word ++ " Wrapper \x7b " ++ text ++ " \x7d") = .ok doc ∧
        doc.definitions.head?.elim [] fieldsOf = [a] := by
    unfold wrappedFields
    split
    next fault hread =>
      rw [hread]
      exact ⟨nofun, fun ⟨_, h, _⟩ => nomatch h⟩
    next doc hread =>
      rw [hread]
      refine onlyField_eq_ok_iff.trans ⟨fun h => ⟨doc, rfl, h⟩, ?_⟩
      rintro ⟨_, ⟨⟩, h⟩
      exact h
  rw [hparsed, ← lex_closed_iff, ← Reader.definitions_wrapped_iff hitem hwraps (Nat.lt_succ_self _)]
  have hlex := lex_wrapped hwraps.isName text
  constructor
  · rintro ⟨doc, hdoc, hfields⟩
    obtain ⟨rest, hread⟩ := Document.parseStrict_eq_ok_iff.1 hdoc
    rw [hlex] at hread
    exact ⟨doc.definitions, rest, hread, hfields⟩
  · rintro ⟨ds, rest, hread, hfields⟩
    refine ⟨⟨ds⟩, Document.parseStrict_eq_ok_iff.2 ⟨rest, ?_⟩, hfields⟩
    rw [hlex]
    exact hread

/-- A text is read as just those values into whose tokens it divides, if it misleads about none. -/
theorem exact_iff {ε : Type} {outcome : Except ε α} {tokens : α → List Token} {P : α → Prop}
    {text : String}
    (h : ∀ a, outcome = .ok a ↔
      P a ∧ (StandsAlone (tokens a) text ∨ ClosesBraces (tokens a) text)) :
    (∀ a, outcome = .ok a ↔ P a ∧ lex text.toList = tokens a ++ [.eof]) ↔
      ∀ a, P a → ¬ Misleads (tokens a) text := by
  refine forall_congr' fun a => ?_
  rw [h a, misleads_iff]
  exact and_congr_right_iff

/-- **A text is taken for a field, or for an input field, if the grammar has the field and the text
divides into its tokens without ending in a comment, or does so up to a closing brace that is
followed by a text which, with another brace behind it, is a document or nothing at all.**  So it is
taken for just the field that it is if there is no field of the grammar about which it misleads. -/
theorem parse_eq_ok_iff (text : String) :
    ((∀ f : Field, Field.parse text = .ok f ↔
        f.IsGrammatical ∧ (StandsAlone f.tokens text ∨ ClosesBraces f.tokens text)) ∧
      ((∀ f : Field, Field.parse text = .ok f ↔
          f.IsGrammatical ∧ lex text.toList = f.tokens ++ [.eof]) ↔
        ∀ f : Field, f.IsGrammatical → ¬ Misleads f.tokens text)) ∧
    (∀ f : InputField, InputField.parse text = .ok f ↔
        f.IsGrammatical ∧ (StandsAlone f.tokens text ∨ ClosesBraces f.tokens text)) ∧
      ((∀ f : InputField, InputField.parse text = .ok f ↔
          f.IsGrammatical ∧ lex text.toList = f.tokens ++ [.eof]) ↔
        ∀ f : InputField, f.IsGrammatical → ¬ Misleads f.tokens text) := by
  have hfield : ∀ f : Field, Field.parse text = .ok f ↔
      f.IsGrammatical ∧ (StandsAlone f.tokens text ∨ ClosesBraces f.tokens text) :=
    fun _ => onlyField_wrappedFields_iff Reader.describes_field Reader.wraps_object
  have hinput : ∀ f : InputField, InputField.parse text = .ok f ↔
      f.IsGrammatical ∧ (StandsAlone f.tokens text ∨ ClosesBraces f.tokens text) :=
    fun _ => onlyField_wrappedFields_iff Reader.describes_inputField Reader.wraps_input
  exact ⟨⟨hfield, exact_iff hfield⟩, hinput, exact_iff hinput⟩

/-- A type that begins behind the brace is lost. -/
example : (Field.parse "a: Int \x7d type X \x7b b: Int").toOption.map (·.name) = some "a" := by
  decide +kernel

end SchemaLoom.Sdl
