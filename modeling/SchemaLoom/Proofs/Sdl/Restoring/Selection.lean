/-
Selections are read back from what they are printed as.

A selection set holds selections, some of which have a set of their own, so the claim is by
induction on the room that is left.  What may follow a selection is another one or the brace that
closes the set: no selection goes on with these.

A spread and a field are read by looking ahead.  Behind the dots the word `on` starts a
condition, and every other name is that of a fragment; a name in front of a colon is an alias.
-/
import SchemaLoom.Proofs.Sdl.Restoring.Member

namespace SchemaLoom.Sdl

open Text

variable {α β : Type}

namespace Reader

/-! ### One selection -/

/-- One entry of a selection set; sets within it may open `room` levels. -/
def selection (room : Nat) : Reader Selection := do
  if ← optionalMark .spread then
    if ← optionalKeyword "on" then
      let condition ← name
      let ds ← directivesWithin false room
      return .inline (some condition) ds (← selectionsWithin room)
    match ← peek with
    | .name _ =>
      let n ← fragmentName
      return .spread n (← directivesWithin false room)
    | _ =>
      let ds ← directivesWithin false room
      return .inline none ds (← selectionsWithin room)
  else
    let first ← name
    let («alias», n) ←
      if ← optionalMark .colon then pure (some first, ← name) else pure (none, first)
    let args ← arguments false room
    let ds ← directivesWithin false room
    if (← peek) = .punctuator .braceLeft then
      return .field «alias» n args ds (← selectionsWithin room)
    else return .field «alias» n args ds []

theorem selectionsWithin_succ (room : Nat) :
    selectionsWithin (room + 1) = someBetween .braceLeft .braceRight (selection room) := rfl

theorem renderSelections_eq_map (ss : List Selection) :
    renderSelections ss = ss.map (·.render) := by
  induction ss with
  | nil => rfl
  | cons s ss ih => rw [renderSelections, ih, List.map_cons]

/-- The marks that a selection goes on with. -/
def selectionMarks : List Punctuator := [.colon, .parenLeft, .at, .braceLeft]

/-- The selection `s` is restored from what it is printed as, with `room` for sets within it. -/
abbrev RestoresSelection (room : Nat) (s : Selection) : Prop :=
  Restores (selection room) s.render s (Stops (.braceRight :: selectionMarks))
    (Stops selectionMarks)

/-- The selection set `ss` is restored from what it is printed as. -/
abbrev RestoresSelections (room : Nat) (ss : List Selection) : Prop :=
  Restores (selectionsWithin room) (braced (renderSelections ss)) ss (· = .punctuator .braceLeft)
    Token.IsValid

variable {room : Nat}

/-- A set of selections is restored if each of them is. -/
theorem restores_selections {s : Selection} {ss : List Selection}
    (h : ∀ t ∈ s :: ss, RestoresSelection room t) : RestoresSelections (room + 1) (s :: ss) := by
  obtain ⟨tokens, hrepeats, hwrites, hhead⟩ :=
    exists_tokens h fun _ h => h.weaken fun _ hm => List.mem_cons_of_mem _ hm
  refine ⟨.punctuator .braceLeft :: (((s :: ss).map tokens).flatten ++ [.punctuator .braceRight]),
    ?_, ?_, _, rfl, rfl⟩
  · have hsome : ((s :: ss).map tokens).flatten ≠ [] := by
      simp [hrepeats.nonempty s (by simp)]
    rw [renderSelections_eq_map]
    exact (opens_braced hwrites hsome).writes
  · rw [selectionsWithin_succ, ← List.flatMap_def]
    exact takes_someBetween .braceLeft .braceRight (stops_punctuator (by decide)) hrepeats
      (fun t ht u hu => (hhead t (by simp [ht]) u hu).ne (by simp)) fun _ h => h.1

theorem takes_optionalKeyword (word : String) :
    Takes (optionalKeyword word) [.name word] true Token.IsValid := by
  unfold optionalKeyword
  refine takes_peek_cons ?_
  rw [if_pos rfl]
  exact (takes_advance (.name word)).bind (takes_pure true _) (leads_nil fun _ h => h)

theorem opens_word {s : String} (h : isName s = true) : Opens (s ++ " ") [.name s] :=
  (writes_name h).opens_append opens_space detaches_space

theorem opens_on : Opens "on " [.name "on"] := opens_word (s := "on") (by decide)

/-- The directives and the set that end a spread are restored. -/
theorem restores_spreadSet {ds : List Directive} {ss : List Selection}
    (hds : ∀ d ∈ ds, RestoresDirective false room d) (hss : RestoresSelections room ss) :
    ∃ us vs, Writes (renderDirectives ds) us ∧ Writes (braced (renderSelections ss)) vs ∧
      (∃ t ∈ (us ++ vs).head?, t = .punctuator .at ∨ t = .punctuator .braceLeft) ∧
      ∀ f : List Directive → List Selection → Selection, Takes (do
          let ds ← directivesWithin false room
          return f ds (← selectionsWithin room))
        (us ++ vs) (f ds ss) (Stops selectionMarks) := by
  obtain ⟨us, hdswrites, hdstakes, hus⟩ := restores_directives hds
  obtain ⟨vs, hsetwrites, hsettakes, hvs⟩ := hss
  refine ⟨us, vs, hdswrites, hsetwrites, ?_, fun f => ?_⟩
  · obtain ⟨t, ht, hbrace⟩ := hvs
    exact first_append_right (fun u hu => Or.inl (hus u hu)) ⟨t, ht, Or.inr hbrace⟩
  · have hbehind : Leads vs Token.IsValid (Stops [.at, .parenLeft]) :=
      leads_of_first hvs (by rintro t rfl; exact stops_punctuator (by simp))
    exact hdstakes.bind ((hsettakes.thenPure (f ds)).weaken fun _ h => h.1)
      ⟨hbehind.1, fun h t ht => hbehind.2 h t ht.1⟩

/-- What is read of a spread with a condition, or without condition and name, can be restored. -/
theorem restores_inline {condition : Option String} {ds : List Directive} {ss : List Selection}
    (hcondition : ∀ t ∈ condition, isName t = true)
    (hds : ∀ d ∈ ds, RestoresDirective false room d) (hss : RestoresSelections room ss) :
    RestoresSelection room (.inline condition ds ss) := by
  obtain ⟨us, vs, hdswrites, hsetwrites, hfirst, htail⟩ := restores_spreadSet hds hss
  have hvalid : Leads (us ++ vs) (Stops selectionMarks) Token.IsValid := by
    refine leads_of_first hfirst ?_
    rintro u (rfl | rfl) <;> exact Token.isValid_punctuator _
  cases condition with
  | some t =>
    have hname := hcondition t rfl
    refine ⟨.punctuator .spread :: .name "on" :: .name t :: (us ++ vs), ?_, ?_, _, rfl,
      stops_punctuator (by decide)⟩
    · have hwords := writes_words (.cons opens_spread.writes (.cons (opens_on.writes_append
        (writes_name hname)) (.cons hdswrites (.cons hsetwrites .nil))))
      rw [Selection.render]
      simpa using hwords
    · unfold selection
      refine (takes_optionalMark .spread).first ?_ (leads_cons (Token.isValid_name _))
      refine (takes_optionalKeyword "on").first ?_ (leads_cons (Token.isValid_name _))
      exact (takes_name t).first (htail _) hvalid
  | none =>
    refine ⟨.punctuator .spread :: (us ++ vs), ?_, ?_, _, rfl, stops_punctuator (by decide)⟩
    · have hwords := writes_words (.cons opens_spread.writes (.cons writes_empty
        (.cons hdswrites (.cons hsetwrites .nil))))
      rw [Selection.render]
      simpa using hwords
    · unfold selection
      refine (takes_optionalMark .spread).first ?_ hvalid
      -- Neither a condition nor a name stands behind the dots, as their next token is a mark.
      refine (takes_no_keyword "on").after ?_ (leads_of_first hfirst ?_)
      · obtain ⟨t, rest, htokens, hmark⟩ := exists_cons_of_first hfirst
        have hinline := htail (.inline none)
        rw [htokens] at hinline ⊢
        refine takes_peek_cons ?_
        rcases hmark with rfl | rfl <;> exact hinline
      · rintro u (rfl | rfl) <;> exact fun h => nomatch h

theorem yields_fragmentName : Yields fragmentName fun n => isName n = true ∧ n ≠ "on" := by
  have hchecked :
      Yields (peek >>= fun t => if t.value? = some "on" then unexpected else name >>= pure)
      fun n => isName n = true ∧ n ≠ "on" := by
    refine yields_checkedName (fun _ => yields_peek.bind fun _ _ => yields_throw _ _) ?_
    exact fun n hn hother => yields_pure ⟨hn, fun hsame => hother (congrArg some hsame)⟩
  simp only [bind_pure] at hchecked
  exact hchecked

theorem takes_fragmentName {n : String} (h : n ≠ "on") :
    Takes fragmentName [.name n] n Token.IsValid := by
  have hother : ¬ (Token.name n).value? = some "on" := fun hsame => h (Option.some.inj hsame)
  unfold fragmentName
  refine takes_peek_cons ?_
  rw [if_neg hother]
  exact takes_name n

/-- What is read of a spread with a name can be restored. -/
theorem restores_spread {n : String} {ds : List Directive} (hn : isName n = true)
    (hother : n ≠ "on")
    (hds : ∀ d ∈ ds, RestoresDirective false room d) : RestoresSelection room (.spread n ds) := by
  obtain ⟨us, hdswrites, hdstakes, hus⟩ := restores_directives hds
  have hbehind : Leads us (Stops [.at, .parenLeft]) Token.IsValid :=
    leads_of_head hus (by rintro t rfl; exact Token.isValid_punctuator _) fun _ h => h.1
  refine ⟨.punctuator .spread :: .name n :: us, ?_, ?_, _, rfl, stops_punctuator (by decide)⟩
  · have hname := (opens_spread.writes_append (writes_name hn)).append
      (writes_behind opens_space hdswrites) (detached_enclose detaches_space _ _)
    rw [Selection.render]
    simpa using hname
  · have hspread : Takes (selection room) (.punctuator .spread :: .name n :: us) (.spread n ds)
        (Stops [.at, .parenLeft]) := by
      unfold selection
      refine (takes_optionalMark .spread).first ?_ (leads_cons (Token.isValid_name n))
      refine (takes_no_keyword "on").after ?_ (leads_cons fun h => hother (Token.name.inj h))
      refine takes_peek_cons ?_
      exact (takes_fragmentName hother).first (hdstakes.thenPure (Selection.spread n)) hbehind
    exact hspread.weaken fun _ h => h.weaken (by decide)

/-- The rest of a selected field, behind its name. -/
def selectedField (room : Nat) («alias» : Option String) (n : String) : Reader Selection := do
  let args ← arguments false room
  let ds ← directivesWithin false room
  if (← peek) = .punctuator .braceLeft then
    return .field «alias» n args ds (← selectionsWithin room)
  else return .field «alias» n args ds []

/-- The set of a selected field is restored, or its absence. -/
theorem restores_optionalSet {ss : List Selection} (h : ss = [] ∨ RestoresSelections room ss)
    (f : List Selection → Selection) : RestoresAny (do
        if (← peek) = .punctuator .braceLeft then return f (← selectionsWithin room)
        else return f [])
      (braced (renderSelections ss)) (f ss) (· = .punctuator .braceLeft)
        (Stops selectionMarks) := by
  rcases h with rfl | ⟨vs, hwrites, htakes, hfirst⟩
  · refine ⟨[], writes_empty, takes_peek_nil fun t ht => ?_, fun t ht => nomatch ht⟩
    have hnone : t ≠ .punctuator .braceLeft := by
      rcases ht with rfl | ht
      · exact fun h => nomatch h
      · exact ht.ne (by decide)
    rw [if_neg hnone]
    exact takes_pure _ _
  · obtain ⟨t, rest, rfl, rfl⟩ := exists_cons_of_first hfirst
    refine ⟨_, hwrites, takes_peek_cons ?_, fun t ht => by cases ht; rfl⟩
    rw [if_pos rfl]
    exact (htakes.thenPure f).weaken fun _ h => h.1

/-- What may follow the name of a selected field. -/
theorem stops_behindName {as us vs : List Token} (has : ∀ t ∈ as.head?, t = .punctuator .parenLeft)
    (hus : ∀ t ∈ us.head?, t = .punctuator .at) (hvs : ∀ t ∈ vs.head?, t = .punctuator .braceLeft) :
    Leads (as ++ (us ++ vs)) (Stops selectionMarks) (Stops [.colon]) := by
  have hhead : ∀ t ∈ (as ++ (us ++ vs)).head?, Stops [.colon] t := by
    refine forall_head?_append (fun t ht => ?_)
      (forall_head?_append (fun t ht => ?_) fun t ht => ?_)
    · rw [has t ht]
      exact stops_punctuator (by simp)
    · rw [hus t ht]
      exact stops_punctuator (by simp)
    · rw [hvs t ht]
      exact stops_punctuator (by simp)
  exact leads_of_head hhead (fun _ h => h) fun _ h => h.weaken (by decide)

/-- What is read of a selected field can be restored. -/
theorem restores_selectedField {«alias» : Option String} {n : String} {args : List (String × Value)}
    {ds : List Directive} {ss : List Selection} (halias : ∀ a ∈ «alias», isName a = true)
    (hn : isName n = true) (hargs : ∀ e ∈ args, RestoresArgument false room e)
    (hds : ∀ d ∈ ds, RestoresDirective false room d) (hss : ss = [] ∨ RestoresSelections room ss) :
    RestoresSelection room (.field «alias» n args ds ss) := by
  obtain ⟨as, hargtakes, has, -, hcall⟩ := restores_arguments hargs
  obtain ⟨us, hdswrites, hdstakes, hus⟩ := restores_directives hds
  obtain ⟨vs, hsetwrites, hsettakes, hvs⟩ := restores_optionalSet hss (.field «alias» n args ds)
  have htail : Takes (selectedField room «alias» n) (as ++ (us ++ vs)) (.field «alias» n args ds ss)
      (Stops selectionMarks) := by
    unfold selectedField
    refine hargtakes.bind (hdstakes.bind hsettakes ?_) ?_
    · exact leads_of_head hvs (by rintro t rfl; exact stops_punctuator (by simp))
        fun _ h => h.weaken (by decide)
    · have hhead : ∀ t ∈ (us ++ vs).head?, t = .punctuator .at ∨ t = .punctuator .braceLeft :=
        forall_head?_append (fun t ht => Or.inl (hus t ht)) fun t ht => Or.inr (hvs t ht)
      refine leads_of_head hhead ?_ fun _ h => h.weaken (by decide)
      rintro t (rfl | rfl) <;> exact stops_punctuator (by simp)
  have hbehind := stops_behindName has hus hvs
  have hvalid : Leads (as ++ (us ++ vs)) (Stops selectionMarks) Token.IsValid :=
    ⟨fun t ht => (hbehind.1 t ht).1, fun h t ht => (hbehind.2 h t ht).1⟩
  -- No alias is taken, since what is behind the name is no colon.
  have hcolon : Leads (as ++ (us ++ vs)) (Stops selectionMarks)
      fun t => t ≠ .punctuator .colon :=
    ⟨fun t ht => (hbehind.1 t ht).ne (by simp), fun h t ht => (hbehind.2 h t ht).ne (by simp)⟩
  cases «alias» with
  | none =>
    refine ⟨.name n :: (as ++ (us ++ vs)), ?_, ?_, _, rfl, stops_name _ n⟩
    · have hwords := writes_words (.cons (hcall n _ (writes_name hn))
        (.cons hdswrites (.cons hsetwrites .nil)))
      rw [Selection.render]
      simpa using hwords
    · unfold selection
      refine (takes_no_mark .spread).after ?_ (leads_cons fun h => nomatch h)
      refine (takes_name n).first ?_ hvalid
      exact (takes_no_mark .colon).after htail hcolon
  | some a =>
    have hname := halias a rfl
    refine ⟨.name a :: .punctuator .colon :: .name n :: (as ++ (us ++ vs)), ?_, ?_, _, rfl,
      stops_name _ a⟩
    · have hlead := ((writes_name hname).opens_append opens_colon
        detaches_colon).writes_append (writes_name hn)
      have hwords := writes_words (.cons (hcall (a ++ ": " ++ n) _ hlead)
        (.cons hdswrites (.cons hsetwrites .nil)))
      rw [Selection.render]
      simpa using hwords
    · unfold selection
      refine (takes_no_mark .spread).after ?_ (leads_cons fun h => nomatch h)
      refine (takes_name a).first ?_ (leads_cons (Token.isValid_punctuator _))
      refine (takes_optionalMark .colon).first ?_ (leads_cons (Token.isValid_name n))
      exact (takes_name n).first htail hvalid

/-! ### Nesting

The claim for selections within others is the hypothesis of the induction, at one level less.
-/

/-- What a reader of selections returns can be restored if the sets within can be. -/
theorem restorable_selection (hinner : Yields (selectionsWithin room) (RestoresSelections room)) :
    Yields (selection room) (RestoresSelection room) := by
  have hdirectives := restorable_directives false room
  have hinline : ∀ condition : Option String, (∀ t ∈ condition, isName t = true) → Yields (do
      let ds ← directivesWithin false room
      return Selection.inline condition ds (← selectionsWithin room)) (RestoresSelection room) :=
    fun condition hcondition => hdirectives.bind fun ds hds => hinner.bind fun ss hss =>
      yields_pure (restores_inline hcondition hds hss)
  have hfield : ∀ («alias» : Option String) (n : String), (∀ a ∈ «alias», isName a = true) →
      isName n = true → Yields (selectedField room «alias» n) (RestoresSelection room) := by
    intro «alias» n halias hn
    refine (restorable_arguments false room).bind fun args hargs => hdirectives.bind fun ds hds =>
      yields_peek.bind fun _ _ => yields_ite ?_ ?_
    · exact hinner.bind fun ss hss =>
        yields_pure (restores_selectedField halias hn hargs hds (Or.inr hss))
    · exact yields_pure (restores_selectedField halias hn hargs hds (Or.inl rfl))
  unfold selection
  refine (passes_optionalMark .spread).bind fun _ _ => yields_ite ?_ ?_
  · refine (passes_optionalKeyword "on").bind fun _ _ => yields_ite ?_ ?_
    · exact yields_name.bind fun t ht => hinline (some t) fun u hu => by cases hu; exact ht
    · refine yields_peek.bind fun t _ => ?_
      cases t with
      | name n =>
        exact yields_fragmentName.bind fun n hn => hdirectives.bind fun ds hds =>
          yields_pure (restores_spread hn.1 hn.2 hds)
      | _ => exact hinline none fun t ht => nomatch ht
  · refine yields_name.bind fun first hfirst => (passes_optionalMark .colon).bind fun _ _ =>
      yields_ite ?_ (hfield none first (fun a ha => nomatch ha) hfirst)
    exact yields_name.bind fun n hn =>
      hfield (some first) n (fun a ha => by cases ha; exact hfirst) hn

/-- Items between marks, of which there has to be one, yield what each of them yields. -/
theorem yields_someBetween_cons {item : Reader α} {P : α → Prop} (hitem : Yields item P)
    (opening closing : Punctuator) : Yields (someBetween opening closing item) fun as =>
      ∃ b bs, as = b :: bs ∧ ∀ a ∈ b :: bs, P a :=
  (passes_mark opening).bind fun _ _ => hitem.bind fun first hfirst =>
    (yields_itemsUntil hitem closing).bind fun others hothers =>
      yields_pure ⟨first, others, rfl, List.forall_mem_cons.2 ⟨hfirst, hothers⟩⟩

/-- **Every selection set that was read can be restored.** -/
theorem restorable_selections :
    ∀ room, Yields (selectionsWithin room) (RestoresSelections room) := by
  intro room
  induction room with
  | zero => exact yields_throw _ _
  | succ room ih =>
    rw [selectionsWithin_succ]
    refine (yields_someBetween_cons (restorable_selection ih) .braceLeft .braceRight).weaken ?_
    rintro as ⟨s, ss, rfl, h⟩
    exact restores_selections h

end Reader

end SchemaLoom.Sdl
