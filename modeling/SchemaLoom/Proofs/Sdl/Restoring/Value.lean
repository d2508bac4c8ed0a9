/-
Values, types and directives are read back from what they are printed as.

A reader restores a value from a text if the text divides into tokens that the reader takes as
that value (`Restores`).  What was read can be restored: the claim is proved along the reader,
which tells of every part where it came from, so that nothing has to be said about values that no
text gives.

Values nest, so the claim about them is by induction on the room that is left
(`restorable_value`).  Arguments are printed in one line or in several, depending on their
length, and both layouts divide into the same tokens (`restores_arguments`).
-/
import Mathlib.Tactic.Choose
import SchemaLoom.Proofs.Sdl.Named
import SchemaLoom.Sdl.Document.Printer

namespace SchemaLoom.Sdl

open Text

variable {α β : Type}

namespace Reader

/-! ### What stands where -/

/-- The token `t` is none of the `marks`, and no sign that the division stops. -/
def Stops (marks : List Punctuator) (t : Token) : Prop :=
  t.IsValid ∧ ∀ m ∈ marks, t ≠ .punctuator m

theorem Stops.weaken {marks less : List Punctuator} {t : Token} (h : Stops marks t)
    (hless : less ⊆ marks) : Stops less t :=
  ⟨h.1, fun m hm => h.2 m (hless hm)⟩

theorem Stops.ne {marks : List Punctuator} {t : Token} (h : Stops marks t) {m : Punctuator}
    (hm : m ∈ marks) : t ≠ .punctuator m :=
  h.2 m hm

theorem stops_punctuator {marks : List Punctuator} {m : Punctuator} (h : m ∉ marks) :
    Stops marks (.punctuator m) := by
  refine ⟨Token.isValid_punctuator m, fun k hk hsame => ?_⟩
  cases hsame
  exact h hk

theorem stops_name (marks : List Punctuator) (n : String) : Stops marks (.name n) :=
  ⟨Token.isValid_name n, fun _ _ h => by cases h⟩

/-- The token `t` is a name. -/
def IsWord (t : Token) : Prop := ∃ n, t = .name n

theorem IsWord.stops {t : Token} (h : IsWord t) (marks : List Punctuator) : Stops marks t := by
  obtain ⟨n, rfl⟩ := h
  exact stops_name marks n

/-! ### Restoring

Most values have at least one token, the first of which tells what is read (`Restores`).  Parts
that may be absent have possibly none (`RestoresAny`).
-/

/-- The reader `r` takes the value `a` from the tokens that `s` divides into, the first of which has
`starts`. -/
def Restores (r : Reader α) (s : String) (a : α) (starts next : Token → Prop) : Prop :=
  ∃ ts, Writes s ts ∧ Takes r ts a next ∧ ∃ t ∈ ts.head?, starts t

/-- The reader `r` takes the value `a` from the tokens that `s` divides into, if there are any. -/
def RestoresAny (r : Reader α) (s : String) (a : α) (starts next : Token → Prop) : Prop :=
  ∃ ts, Writes s ts ∧ Takes r ts a next ∧ ∀ t ∈ ts.head?, starts t

/-- What is in front of optional tokens is followed by one of them or by what follows them. -/
theorem leads_of_head {ts : List Token} {starts next before : Token → Prop}
    (hhead : ∀ t ∈ ts.head?, starts t) (hstarts : ∀ t, starts t → before t)
    (hnext : ∀ t, next t → before t) : Leads ts next before :=
  ⟨fun t ht => hstarts t (hhead t ht), fun _ => hnext⟩

theorem exists_cons_of_first {ts : List Token} {starts : Token → Prop}
    (h : ∃ t ∈ ts.head?, starts t) : ∃ t rest, ts = t :: rest ∧ starts t := by
  obtain ⟨t, ht, hkind⟩ := h
  cases ts with
  | nil => cases ht
  | cons u rest =>
    cases ht
    exact ⟨t, rest, rfl, hkind⟩

theorem ne_nil_of_first {ts : List Token} {starts : Token → Prop} (h : ∃ t ∈ ts.head?, starts t) :
    ts ≠ [] := by
  obtain ⟨t, rest, rfl, -⟩ := exists_cons_of_first h
  exact List.cons_ne_nil t rest

/-- What is in front of tokens is followed by the first of them. -/
theorem leads_of_first {ts : List Token} {starts next before : Token → Prop}
    (hfirst : ∃ t ∈ ts.head?, starts t) (hstarts : ∀ t, starts t → before t) :
    Leads ts next before := by
  obtain ⟨t, rest, rfl, hkind⟩ := exists_cons_of_first hfirst
  exact leads_cons (hstarts t hkind)

theorem first_append {ts : List Token} {starts : Token → Prop} (h : ∃ t ∈ ts.head?, starts t)
    (us : List Token) : ∃ t ∈ (ts ++ us).head?, starts t := by
  obtain ⟨t, rest, rfl, hkind⟩ := exists_cons_of_first h
  exact ⟨t, rfl, hkind⟩

/-- The first token of some, or of those behind them if there are none. -/
theorem first_append_right {ts us : List Token} {starts : Token → Prop}
    (hts : ∀ t ∈ ts.head?, starts t) (hus : ∃ t ∈ us.head?, starts t) :
    ∃ t ∈ (ts ++ us).head?, starts t := by
  cases ts with
  | nil => exact hus
  | cons t ts => exact ⟨t, rfl, hts t rfl⟩

/-- Items are taken several times in a row if each begins with a token that may follow another. -/
theorem repeats_of_first {item : Reader α} {tokens : α → List Token} {starts next : Token → Prop}
    {as : List α} (htakes : ∀ a ∈ as, Takes item (tokens a) a next)
    (hfirst : ∀ a ∈ as, ∃ t ∈ (tokens a).head?, starts t) (hstarts : ∀ t, starts t → next t) :
    Repeats item tokens next as ∧ ∀ a ∈ as, ∀ t ∈ (tokens a).head?, starts t := by
  have hhead : ∀ a ∈ as, ∀ t ∈ (tokens a).head?, starts t := by
    intro a ha t ht
    obtain ⟨first, hsame, hkind⟩ := hfirst a ha
    cases Option.mem_unique ht hsame
    exact hkind
  exact ⟨⟨htakes, fun a ha => ne_nil_of_first (hfirst a ha), fun a ha t ht =>
    hstarts t (hhead a ha t ht)⟩, hhead⟩

/-- Items that can be restored one by one have token sequences of their own. -/
theorem exists_tokens {item : Reader α} {text : α → String} {starts next : Token → Prop}
    {as : List α} (h : ∀ a ∈ as, Restores item (text a) a starts next)
    (hstarts : ∀ t, starts t → next t) : ∃ tokens : α → List Token,
      Repeats item tokens next as ∧ List.Forall₂ Writes (as.map text) (as.map tokens) ∧
        ∀ a ∈ as, ∀ t ∈ (tokens a).head?, starts t := by
  choose! tokens hwrites htakes hfirst using h
  obtain ⟨hrepeats, hhead⟩ := repeats_of_first htakes hfirst hstarts
  refine ⟨tokens, hrepeats, ?_, hhead⟩
  rw [List.forall₂_map_left_iff, List.forall₂_map_right_iff, List.forall₂_same]
  exact hwrites

/-! ### Values -/

theorem renderItems_eq_map (vs : List Value) : renderItems vs = vs.map (·.render) := by
  induction vs with
  | nil => rfl
  | cons v vs ih => rw [renderItems, ih, List.map_cons]

/-- The text of an entry of an object, or of an argument. -/
def renderEntry (entry : String × Value) : String := entry.1 ++ ": " ++ entry.2.render

theorem renderEntries_eq_map (entries : List (String × Value)) :
    renderEntries entries = entries.map renderEntry := by
  induction entries with
  | nil => rfl
  | cons entry entries ih =>
    obtain ⟨key, v⟩ := entry
    rw [renderEntries, ih, List.map_cons, renderEntry]

theorem render_namedValue (n : String) : (namedValue n).render = n := by
  unfold namedValue
  split <;> rfl

theorem opens_colon : Opens ": " [.punctuator .colon] :=
  (opens_mark (s := ":") rfl rfl).append opens_space

theorem opens_comma : Opens ", " [] := opens_blank (by simp [isIgnored])

theorem detaches_comma : Detaches ", " := fun _ => detached_cons (by decide) _

theorem detaches_colon : Detaches ": " := fun _ => detached_cons (by decide) _

/-- The value `v` is restored from what it is printed as, with `room` for values within it. -/
abbrev RestoresValue (isConstant : Bool) (room : Nat) (v : Value) : Prop :=
  Restores (valueWithin isConstant room) v.render v (Stops [.bracketRight]) Token.IsValid

/-- The argument `entry` is restored from what it is printed as. -/
abbrev RestoresArgument (isConstant : Bool) (room : Nat) (entry : String × Value) : Prop :=
  Restores (argument isConstant room) (renderEntry entry) entry IsWord Token.IsValid

variable {isConstant : Bool} {room : Nat}

/-- An argument is taken if its value is. -/
theorem takes_argument {key : String} {v : Value} {ts : List Token}
    (h : Takes (valueWithin isConstant room) ts v Token.IsValid)
    (hfirst : ∃ t ∈ ts.head?, Stops [.bracketRight] t) :
    Takes (argument isConstant room) (.name key :: .punctuator .colon :: ts) (key, v)
      Token.IsValid := by
  refine (takes_name key).first ?_ (leads_cons (Token.isValid_punctuator _))
  exact (takes_mark .colon).first (h.thenPure (key, ·)) (leads_of_first hfirst fun _ h => h.1)

theorem restorable_argument
    (hvalue : Yields (valueWithin isConstant room) (RestoresValue isConstant room)) :
    Yields (argument isConstant room) (RestoresArgument isConstant room) := by
  refine yields_name.bind fun key hkey => (passes_mark .colon).bind fun _ _ =>
    hvalue.bind fun v hv => yields_pure ?_
  obtain ⟨ts, hwrites, htakes, hfirst⟩ := hv
  refine ⟨.name key :: .punctuator .colon :: ts, ?_, takes_argument htakes hfirst, _, rfl, key, rfl⟩
  exact ((writes_name hkey).opens_append opens_colon detaches_colon).writes_append hwrites

/-- Items between marks, as they stand behind one another. -/
def betweenTokens (opening closing : Punctuator) : List (List Token) → List Token
  | [] => []
  | tss => .punctuator opening :: (tss.flatten ++ [.punctuator closing])

/-- **Optional items between marks are taken one after the other.** -/
theorem takes_between {item : Reader α} {tokens : α → List Token} {starts next : Token → Prop}
    {as : List α} (opening closing : Punctuator) (hrepeats : Repeats item tokens next as)
    (hhead : ∀ a ∈ as, ∀ t ∈ (tokens a).head?, starts t)
    (hopen : ∀ t, starts t → t ≠ .punctuator closing) (hclosing : next (.punctuator closing))
    (hvalid : ∀ t, next t → t.IsValid) :
    Takes (optionalBetween opening closing item) (betweenTokens opening closing (as.map tokens)) as
      fun t => t.IsValid ∧ (as = [] → t ≠ .punctuator opening) := by
  cases as with
  | nil => exact takes_optionalBetween_nil.weaken fun t h => h.2 rfl
  | cons a as =>
    have all := takes_optionalBetween opening closing hclosing hrepeats
      (fun b hb t ht => hopen t (hhead b (by simp [hb]) t ht)) hvalid
    rw [List.flatMap_def] at all
    exact all.weaken fun _ h => h.1

/-- Optional items between marks are restored one by one. -/
theorem restores_between {item : Reader α} {text : α → String} {starts next : Token → Prop}
    {as : List α} (opening closing : Punctuator)
    (h : ∀ a ∈ as, Restores item (text a) a starts next) (hstarts : ∀ t, starts t → next t)
    (hopen : ∀ t, starts t → t ≠ .punctuator closing) (hclosing : next (.punctuator closing))
    (hvalid : ∀ t, next t → t.IsValid) : ∃ tss : List (List Token),
      List.Forall₂ Writes (as.map text) tss ∧ (∀ ts ∈ tss, ts ≠ []) ∧
        Takes (optionalBetween opening closing item) (betweenTokens opening closing tss) as
          fun t => t.IsValid ∧ (as = [] → t ≠ .punctuator opening) := by
  obtain ⟨tokens, hrepeats, hwrites, hhead⟩ := exists_tokens h hstarts
  refine ⟨as.map tokens, hwrites, ?_, takes_between opening closing hrepeats hhead hopen hclosing
    hvalid⟩
  intro ts hts
  obtain ⟨a, ha, rfl⟩ := List.mem_map.1 hts
  exact hrepeats.nonempty a ha

/-! ### Nesting

A reader of values that may open one level more is the reader of the values within, put between
marks.
-/

/-- The value of a token that is one by itself. -/
def single? : Token → Option Value
  | .int digits => some (.int digits)
  | .float digits => some (.float digits)
  | .string text => some (.string text false)
  | .blockString text => some (.string text true)
  | .name n => some (namedValue n)
  | _ => none

theorem stops_of_single {t : Token} {v : Value} (h : single? t = some v)
    (marks : List Punctuator) : Stops marks t := by
  refine ⟨?_, ?_⟩
  · rintro fault rfl
    cases h
  · rintro m - rfl
    cases h

theorem takes_single {t : Token} {v : Value} (h : single? t = some v) :
    Takes (valueWithin isConstant room) [t] v Token.IsValid := by
  unfold valueWithin
  refine takes_peek_cons ?_
  cases t with
  | punctuator m => cases h
  | eof => cases h
  | invalid fault => cases h
  | _ =>
    cases h
    exact (takes_advance _).thenPure fun _ => _

/-- A list is taken if its items are. -/
theorem takes_list {tokens : Value → List Token} {items : List Value}
    (hrepeats : Repeats (valueWithin isConstant room) tokens Token.IsValid items)
    (hhead : ∀ v ∈ items, ∀ t ∈ (tokens v).head?, Stops [.bracketRight] t) :
    Takes (valueWithin isConstant (room + 1))
      (.punctuator .bracketLeft :: (items.flatMap tokens ++ [.punctuator .bracketRight]))
      (.list items) Token.IsValid := by
  unfold valueWithin
  refine takes_peek_cons ?_
  refine (takes_advance _).first ?_ (hrepeats.leads (leads_cons (Token.isValid_punctuator _)))
  refine (takes_itemsUntil (Token.isValid_punctuator _) hrepeats ?_).thenPure Value.list
  exact fun v hv t ht => (hhead v hv t ht).ne (by simp)

/-- An object is taken if its entries are. -/
theorem takes_object {tokens : String × Value → List Token} {entries : List (String × Value)}
    (hrepeats : Repeats (argument isConstant room) tokens Token.IsValid entries)
    (hhead : ∀ e ∈ entries, ∀ t ∈ (tokens e).head?, IsWord t) :
    Takes (valueWithin isConstant (room + 1))
      (.punctuator .braceLeft :: (entries.flatMap tokens ++ [.punctuator .braceRight]))
      (.object entries) Token.IsValid := by
  unfold valueWithin
  refine takes_peek_cons ?_
  refine (takes_advance _).first ?_ (hrepeats.leads (leads_cons (Token.isValid_punctuator _)))
  have hitems : Takes (itemsUntil .braceRight (argument isConstant room))
      (entries.flatMap tokens ++ [.punctuator .braceRight]) entries Token.IsValid :=
    takes_itemsUntil (Token.isValid_punctuator _) hrepeats fun e he t ht =>
      ((hhead e he t ht).stops [.braceRight]).ne (by simp)
  exact hitems.thenPure Value.object

theorem restores_single {t : Token} {v : Value} (ht : t.IsReadable) (h : single? t = some v) :
    RestoresValue isConstant room v := by
  refine ⟨[t], ?_, takes_single h, t, rfl, stops_of_single h _⟩
  cases t with
  | int digits =>
    cases h
    exact ht
  | float digits =>
    cases h
    exact ht
  | string text =>
    cases h
    exact writes_controlQuoted text
  | blockString text =>
    cases h
    obtain ⟨lines, hlines, rfl⟩ := ht
    exact BlockText.writes_render hlines
  | name n =>
    cases h
    rw [render_namedValue]
    exact writes_name ht
  | _ => cases h

/-- A list is restored if its items are. -/
theorem restores_list {items : List Value} (h : ∀ v ∈ items, RestoresValue isConstant room v) :
    RestoresValue isConstant (room + 1) (.list items) := by
  obtain ⟨tokens, hrepeats, hwrites, hhead⟩ := exists_tokens h fun _ h => h.1
  refine ⟨.punctuator .bracketLeft :: (items.flatMap tokens ++ [.punctuator .bracketRight]),
    ?_, takes_list hrepeats hhead, _, rfl, stops_punctuator (by simp)⟩
  have hitems := writes_intercalate opens_comma detaches_comma hwrites
  rw [intercalate_nil_eq, ← List.flatMap_def, ← renderItems_eq_map] at hitems
  have hopening : Opens "[" [.punctuator .bracketLeft] := opens_mark rfl rfl
  have hclosing : Opens "]" [.punctuator .bracketRight] := opens_mark rfl rfl
  exact ((hopening.writes_append hitems).opens_append hclosing
    fun _ => detached_cons (by decide) _).writes

/-- An object is restored if its entries are. -/
theorem restores_object {entries : List (String × Value)}
    (h : ∀ e ∈ entries, RestoresArgument isConstant room e) :
    RestoresValue isConstant (room + 1) (.object entries) := by
  obtain ⟨tokens, hrepeats, hwrites, hhead⟩ :=
    exists_tokens h fun _ h => (h.stops [.braceRight]).1
  refine ⟨.punctuator .braceLeft :: (entries.flatMap tokens ++ [.punctuator .braceRight]),
    ?_, takes_object hrepeats hhead, _, rfl, stops_punctuator (by simp)⟩
  have hentries := writes_intercalate opens_comma detaches_comma hwrites
  rw [intercalate_nil_eq, ← List.flatMap_def, ← renderEntries_eq_map] at hentries
  have hopening : Opens "\x7b" [.punctuator .braceLeft] := opens_mark rfl rfl
  have hclosing : Opens "\x7d" [.punctuator .braceRight] := opens_mark rfl rfl
  exact ((hopening.writes_append hentries).opens_append hclosing
    fun _ => detached_cons (by decide) _).writes

theorem restores_variable {n : String} (hn : isName n = true) :
    RestoresValue false room (.variable n) := by
  have hdollar : Opens "$" [.punctuator .dollar] := opens_mark rfl rfl
  refine ⟨[.punctuator .dollar, .name n], hdollar.writes_append (writes_name hn), ?_, _, rfl,
    stops_punctuator (by simp)⟩
  unfold valueWithin
  refine takes_peek_cons ?_
  refine (takes_advance _).first ?_ (leads_cons (Token.isValid_name n))
  exact (takes_name n).thenPure Value.variable

/-- What a reader of values returns can be restored if what it returns for the values within can
be. -/
theorem restorable_value_step (hinner : ∀ less, room = less + 1 →
      Yields (valueWithin isConstant less) (RestoresValue isConstant less)) :
    Yields (valueWithin isConstant room) (RestoresValue isConstant room) := by
  have hsingle : ∀ {t : Token} {v : Value}, t.IsReadable → single? t = some v →
      Yields (advance >>= fun _ => pure v) (RestoresValue isConstant room) :=
    fun ht h => passes_advance.bind fun _ _ => yields_pure (restores_single ht h)
  unfold valueWithin
  refine yields_peek.bind fun t ht => ?_
  split
  · exact hsingle ht rfl
  · exact hsingle ht rfl
  · exact hsingle ht rfl
  · exact hsingle ht rfl
  · exact hsingle ht rfl
  · cases room with
    | zero => exact yields_throw _ _
    | succ room =>
      refine passes_advance.bind fun _ _ => ?_
      exact (yields_itemsUntil (hinner room rfl) .bracketRight).bind fun items hitems =>
        yields_pure (restores_list hitems)
  · cases room with
    | zero => exact yields_throw _ _
    | succ room =>
      refine passes_advance.bind fun _ _ => ?_
      have hentry := restorable_argument (hinner room rfl)
      exact (yields_itemsUntil hentry .braceRight).bind fun entries hentries =>
        yields_pure (restores_object hentries)
  · cases isConstant with
    | true => exact yields_forbiddenVariable _
    | false =>
      exact passes_advance.bind fun _ _ => yields_name.bind fun n hn =>
        yields_pure (restores_variable hn)
  · exact yields_throw _ _

/-- **Every value that was read can be restored.** -/
theorem restorable_value (isConstant : Bool) :
    ∀ room, Yields (valueWithin isConstant room) (RestoresValue isConstant room) := by
  intro room
  induction room with
  | zero => exact restorable_value_step fun _ h => nomatch h
  | succ room ih =>
    refine restorable_value_step fun less h => ?_
    cases h
    exact ih

/-! ### Arguments and directives -/

/-- Items between marks divide as they do in any layout between delimiters. -/
theorem writes_between {opening closing s : String} {m k : Punctuator} {tss : List (List Token)}
    (hopening : Opens opening [.punctuator m]) (hclosing : Opens closing [.punctuator k])
    (hdetaches : Detaches closing) (h : Writes s tss.flatten) (hsome : ∀ ts ∈ tss, ts ≠ [])
    (hnone : tss = [] → s = "") : Writes (enclose opening s closing) (betweenTokens m k tss) := by
  cases tss with
  | nil =>
    rw [hnone rfl]
    exact writes_empty
  | cons ts tss =>
    have htokens : (ts :: tss).flatten ≠ [] := by
      simp [hsome ts (by simp)]
    exact (opens_enclose hopening h hclosing hdetaches htokens).writes

theorem eq_nil_of_forall₂ {pieces : List String} {tss : List (List Token)}
    (h : List.Forall₂ Writes pieces tss) (hnone : tss = []) : pieces = [] := by
  subst hnone
  exact List.forall₂_nil_right_iff.1 h

theorem writes_line {pieces : List String} {tss : List (List Token)}
    (h : List.Forall₂ Writes pieces tss) (hsome : ∀ ts ∈ tss, ts ≠ []) :
    Writes (enclose "(" (joinPresent ", " pieces) ")")
      (betweenTokens .parenLeft .parenRight tss) := by
  refine writes_between (opens_mark rfl rfl) (opens_mark rfl rfl)
    (fun _ => detached_cons (by decide) _) (writes_joinPresent opens_comma detaches_comma h) hsome
    fun hnone => ?_
  rw [eq_nil_of_forall₂ h hnone]
  rfl

theorem writes_lines {opening closing : String} {m k : Punctuator} {pieces : List String}
    {tss : List (List Token)} (hopening : Opens opening [.punctuator m])
    (hclosing : Opens closing [.punctuator k]) (h : List.Forall₂ Writes pieces tss)
    (hsome : ∀ ts ∈ tss, ts ≠ []) :
    Writes (enclosedLines opening closing pieces) (betweenTokens m k tss) := by
  have hfront : Opens (opening ++ "\n") [.punctuator m] := by
    simpa using hopening.append opens_lineBreak
  have hback : Opens ("\n" ++ closing) [.punctuator k] := by
    simpa using opens_lineBreak.append hclosing
  refine writes_between hfront hback (detaches_lineBreak.append closing)
    (writes_indented (writes_joinPresent opens_lineBreak detaches_lineBreak h)) hsome
    fun hnone => ?_
  rw [eq_nil_of_forall₂ h hnone]
  rfl

theorem detached_enclose {opening : String} (h : Detaches opening) (s closing : String) :
    Detached (enclose opening s closing).toList := by
  unfold enclose
  split
  · exact detached_nil
  · rw [String.append_assoc]
    exact (h.append _).detached

/-- What is behind a blank divides as it does by itself. -/
theorem writes_behind {opening s : String} {ts : List Token} (hopening : Opens opening [])
    (h : Writes s ts) : Writes (enclose opening s "") ts := by
  unfold enclose
  split
  next hnone =>
    subst hnone
    exact h
  · rw [String.append_empty]
    exact hopening.writes_append h

theorem restorable_arguments (isConstant : Bool) (room : Nat) : Yields (arguments isConstant room)
    fun args => ∀ e ∈ args, RestoresArgument isConstant room e :=
  yields_optionalBetween
    (restorable_argument (restorable_value isConstant room)) .parenLeft .parenRight

/-- **Arguments are restored from each layout that they are printed in.** -/
theorem restores_arguments {args : List (String × Value)}
    (h : ∀ e ∈ args, RestoresArgument isConstant room e) : ∃ ts,
      Takes (arguments isConstant room) ts args (Stops [.parenLeft]) ∧
        (∀ t ∈ ts.head?, t = .punctuator .parenLeft) ∧
          Writes (enclose "(" (", ".intercalate (renderEntries args)) ")") ts ∧
            ∀ lead lts, Writes lead lts → Writes (renderCall lead args) (lts ++ ts) := by
  obtain ⟨tss, hwrites, hsome, htakes⟩ := restores_between .parenLeft .parenRight h
    (fun _ h => (h.stops []).1) (fun t h => (h.stops [.parenRight]).ne (by simp))
    (Token.isValid_punctuator _) fun _ h => h
  rw [← renderEntries_eq_map] at hwrites
  have hline := writes_line hwrites hsome
  have hlines := writes_lines (opens_mark (s := "(") rfl rfl) (opens_mark (s := ")") rfl rfl)
    hwrites hsome
  have hparen : Detaches "(" := fun _ => detached_cons (by decide) _
  refine ⟨betweenTokens .parenLeft .parenRight tss, htakes.weaken fun t h => ⟨h.1, fun _ =>
    h.ne (by simp)⟩, ?_, ?_, fun lead lts hlead => ?_⟩
  · cases tss with
    | nil => exact fun t ht => nomatch ht
    | cons ts tss => exact fun t ht => by cases ht; rfl
  · refine writes_between (opens_mark rfl rfl) (opens_mark rfl rfl)
      (fun _ => detached_cons (by decide) _) ?_ hsome fun hnone => ?_
    · rw [← intercalate_nil_eq]
      exact writes_intercalate opens_comma detaches_comma hwrites
    · rw [eq_nil_of_forall₂ hwrites hnone]
      rfl
  · unfold renderCall
    dsimp only
    split
    · exact hlead.append hlines (detached_enclose (hparen.append _) _ _)
    · exact hlead.append hline (detached_enclose hparen _ _)

/-- A directive. -/
def directive (isConstant : Bool) (room : Nat) : Reader Directive := do
  mark .at
  let n ← name
  return ⟨n, ← arguments isConstant room⟩

theorem directivesWithin_eq (isConstant : Bool) (room : Nat) : directivesWithin isConstant room
    = whileNext (· == .punctuator .at) (directive isConstant room) := rfl

/-- The directive `d` is restored from what it is printed as. -/
abbrev RestoresDirective (isConstant : Bool) (room : Nat) (d : Directive) : Prop :=
  Restores (directive isConstant room) d.render d (· = .punctuator .at) (Stops [.parenLeft])

/-- A directive is taken if its arguments are. -/
theorem takes_directive {n : String} {args : List (String × Value)} {ts : List Token}
    (h : Takes (arguments isConstant room) ts args (Stops [.parenLeft]))
    (hhead : ∀ t ∈ ts.head?, t = .punctuator .parenLeft) :
    Takes (directive isConstant room) (.punctuator .at :: .name n :: ts) ⟨n, args⟩
      (Stops [.parenLeft]) := by
  refine (takes_mark .at).first ?_ (leads_cons (Token.isValid_name n))
  refine (takes_name n).first (h.thenPure (Directive.mk n)) ?_
  exact leads_of_head hhead (by rintro t rfl; exact Token.isValid_punctuator _) fun _ h => h.1

theorem restorable_directive (isConstant : Bool) (room : Nat) :
    Yields (directive isConstant room) (RestoresDirective isConstant room) := by
  refine (passes_mark .at).bind fun _ _ => yields_name.bind fun n hn =>
    (restorable_arguments isConstant room).bind fun args hargs => yields_pure ?_
  obtain ⟨ts, htakes, hhead, hwrites, -⟩ := restores_arguments hargs
  have hat : Opens "@" [.punctuator .at] := opens_mark rfl rfl
  have hparen : Detaches "(" := fun _ => detached_cons (by decide) _
  refine ⟨.punctuator .at :: .name n :: ts, ?_, takes_directive htakes hhead, _, rfl, rfl⟩
  exact (hat.writes_append (writes_name hn)).append hwrites (detached_enclose hparen _ _)

theorem restorable_directives (isConstant : Bool) (room : Nat) :
    Yields (directivesWithin isConstant room) fun ds =>
      ∀ d ∈ ds, RestoresDirective isConstant room d :=
  yields_whileNext (restorable_directive isConstant room) _

/-- **Directives are taken as long as one comes next.** -/
theorem takes_directivesWithin {tokens : Directive → List Token} {ds : List Directive}
    (hrepeats : Repeats (directive isConstant room) tokens (Stops [.parenLeft]) ds)
    (hhead : ∀ d ∈ ds, ∀ t ∈ (tokens d).head?, t = .punctuator .at) :
    Takes (directivesWithin isConstant room) (ds.flatMap tokens) ds (Stops [.at, .parenLeft]) := by
  rw [directivesWithin_eq]
  refine takes_whileNext (fun t h => ⟨?_, h.weaken (by simp)⟩) rfl hrepeats ?_
  · simpa using h.ne (m := .at) (by simp)
  · intro d hd t ht
    rw [hhead d hd t ht]
    rfl

/-- Directives are restored one by one. -/
theorem restores_directives {ds : List Directive}
    (h : ∀ d ∈ ds, RestoresDirective isConstant room d) :
    RestoresAny (directivesWithin isConstant room) (renderDirectives ds) ds (· = .punctuator .at)
      (Stops [.at, .parenLeft]) := by
  obtain ⟨tokens, hrepeats, hwrites, hhead⟩ :=
    exists_tokens h (by rintro t rfl; exact stops_punctuator (by simp))
  refine ⟨ds.flatMap tokens, ?_, takes_directivesWithin hrepeats hhead, ?_⟩
  · rw [List.flatMap_def]
    exact writes_words hwrites
  · cases ds with
    | nil => exact fun t ht => nomatch ht
    | cons d ds =>
      obtain ⟨u, us, htokens⟩ := List.exists_cons_of_ne_nil (hrepeats.nonempty d (by simp))
      rw [List.flatMap_cons, htokens]
      intro t ht
      exact hhead d (by simp) t (by rw [htokens]; exact ht)

/-! ### Types -/

theorem writes_typeRef {t : TypeRef} (h : isName t.base = true) : Writes t.render t.tokens := by
  induction t with
  | named n => exact writes_name h
  | list item ih =>
    have hopening : Opens "[" [.punctuator .bracketLeft] := opens_mark rfl rfl
    have hclosing : Opens "]" [.punctuator .bracketRight] := opens_mark rfl rfl
    exact ((hopening.writes_append (ih h)).opens_append hclosing
      fun _ => detached_cons (by decide) _).writes
  | nonNull inner ih =>
    have hbang : Opens "!" [.punctuator .bang] := opens_mark rfl rfl
    exact ((ih h).opens_append hbang fun _ => detached_cons (by decide) _).writes

theorem yields_fits : ∀ room, Yields (typeRefWithin room) fun t => t.Fits room := by
  intro room
  have hwhole : ∀ {room : Nat} {r : Reader TypeRef},
      (Yields r fun t => t.Fits room ∧ ∀ other, t ≠ .nonNull other) →
        Yields (r >>= marked) fun t => t.Fits room := by
    intro room r hr
    refine hr.bind fun inner hinner => (passes_optionalMark .bang).bind fun isMarked _ => ?_
    refine yields_ite (yields_pure ?_) (yields_pure hinner.1)
    cases room <;> exact hinner
  have hnamed : ∀ room, Yields (name >>= fun n => pure (TypeRef.named n))
      fun t => t.Fits room ∧ ∀ other, t ≠ .nonNull other := by
    intro room
    refine yields_name.bind fun n _ => yields_pure ⟨?_, fun _ h => nomatch h⟩
    cases room <;> trivial
  induction room with
  | zero =>
    rw [typeRefWithin_eq]
    exact hwhole ((passes_optionalMark .bracketLeft).bind fun _ _ =>
      yields_ite (yields_throw _ _) (hnamed 0))
  | succ room ih =>
    rw [typeRefWithin_eq]
    refine hwhole ((passes_optionalMark .bracketLeft).bind fun _ _ => yields_ite ?_ (hnamed _))
    exact ih.bind fun item hitem => (passes_mark .bracketRight).bind fun _ _ =>
      yields_pure ⟨hitem, fun _ h => nomatch h⟩

/-- What two claims on the same reader say holds together. -/
theorem Yields.and {r : Reader α} {P Q : α → Prop} (hp : Yields r P) (hq : Yields r Q) :
    Yields r fun a => P a ∧ Q a :=
  fun bound ts a rest hts hread =>
    ⟨⟨(hp bound ts a rest hts hread).1, (hq bound ts a rest hts hread).1⟩,
      (hp bound ts a rest hts hread).2⟩

/-- The type `t` is restored from what it is printed as. -/
abbrev RestoresType (t : TypeRef) : Prop :=
  Restores typeRef t.render t Token.IsValid (Stops [.bang])

/-- **Every type that was read can be restored.** -/
theorem restorable_type : Yields typeRef RestoresType := by
  refine ((yields_fits nestingLimit).and yields_typeRef).weaken fun t ⟨hfits, hname⟩ => ?_
  refine ⟨t.tokens, writes_typeRef hname, (takes_typeRefWithin t nestingLimit hfits).weaken
    fun u h => ⟨h.1, h.ne (by simp)⟩, ?_⟩
  rcases t.tokens_start with ⟨n, rest, h⟩ | ⟨rest, h⟩
  · exact ⟨.name n, by rw [h]; rfl, Token.isValid_name n⟩
  · exact ⟨.punctuator .bracketLeft, by rw [h]; rfl, Token.isValid_punctuator _⟩

/-! ### Defaults and descriptions -/

/-- The default value, or its absence, is restored from what it is printed as. -/
abbrev RestoresDefault (default : Option Value) : Prop :=
  RestoresAny optionalDefault (renderDefault default) default (· = .punctuator .equals)
    (Stops [.equals])

theorem takes_default {v : Value} {ts : List Token}
    (h : Takes (valueWithin true nestingLimit) ts v Token.IsValid)
    (hfirst : ∃ t ∈ ts.head?, Stops [.bracketRight] t) :
    Takes optionalDefault (.punctuator .equals :: ts) (some v) Token.IsValid := by
  unfold optionalDefault
  refine (takes_optionalMark .equals).first ?_ (leads_of_first hfirst fun _ h => h.1)
  exact h.thenPure some

theorem restorable_default : Yields optionalDefault RestoresDefault := by
  refine (passes_optionalMark .equals).bind fun _ _ => yields_ite ?_ (yields_pure ?_)
  · refine (restorable_value true nestingLimit).bind fun v hv => yields_pure ?_
    obtain ⟨ts, hwrites, htakes, hfirst⟩ := hv
    have hequals : Opens "= " [.punctuator .equals] :=
      (opens_mark (s := "=") rfl rfl).append opens_space
    exact ⟨.punctuator .equals :: ts, hequals.writes_append hwrites,
      (takes_default htakes hfirst).weaken fun _ h => h.1, fun t ht => by cases ht; rfl⟩
  · exact ⟨[], writes_empty, takes_default_none.weaken fun _ h => h.ne (by simp),
      fun t ht => nomatch ht⟩

/-- What may follow an optional description. -/
def AfterDescription (t : Token) : Prop := t.IsValid ∧ isDescription t = false

/-- The tokens `ts` are those of an optional description. -/
def IsFront (ts : List Token) : Prop := ts = [] ∨ ∃ t, ts = [t] ∧ isDescription t = true

/-- The description, or its absence, is restored from what it is printed as. -/
def RestoresDescription (description : Option Description) : Prop :=
  ∃ ts, Opens (renderDescription description) ts ∧
    Takes optionalDescription ts description AfterDescription ∧ IsFront ts

/-- The description that a token is. -/
def description? : Token → Option Description
  | .string text => some ⟨text, false⟩
  | .blockString text => some ⟨text, true⟩
  | _ => none

theorem takes_description {t : Token} {d : Description} (h : description? t = some d) :
    Takes optionalDescription [t] (some d) Token.IsValid := by
  unfold optionalDescription
  refine takes_peek_cons ?_
  cases t with
  | string text =>
    cases h
    exact (takes_advance _).thenPure fun _ => _
  | blockString text =>
    cases h
    exact (takes_advance _).thenPure fun _ => _
  | _ => cases h

theorem isDescription_of {t : Token} {d : Description} (h : description? t = some d) :
    isDescription t = true := by
  cases t with
  | string text => rfl
  | blockString text => rfl
  | _ => cases h

theorem restorable_description : Yields optionalDescription RestoresDescription := by
  refine yields_peek.bind fun t ht => ?_
  have hgiven : ∀ {t : Token} {d : Description}, description? t = some d →
      Writes (renderString d.text d.block) [t] → RestoresDescription (some d) :=
    fun {t d} hkind hwrites => ⟨[t], hwrites.opens_append opens_lineBreak detaches_lineBreak,
      (takes_description hkind).weaken fun _ h => h.1, Or.inr ⟨t, rfl, isDescription_of hkind⟩⟩
  cases t with
  | string text =>
    exact passes_advance.bind fun _ _ =>
      yields_pure (hgiven (t := .string text) rfl (writes_controlQuoted text))
  | blockString text =>
    refine passes_advance.bind fun _ _ => yields_pure ?_
    obtain ⟨lines, hlines, rfl⟩ := ht
    exact hgiven (t := .blockString _) rfl (BlockText.writes_render hlines)
  | _ =>
    exact yields_pure ⟨[], opens_empty, takes_description_none.weaken fun _ h => h.2, Or.inl rfl⟩

end Reader

end SchemaLoom.Sdl
