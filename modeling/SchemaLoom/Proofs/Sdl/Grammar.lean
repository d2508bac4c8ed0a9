/-
The grammar of fields.

A field is spelled by one sequence of tokens (`Field.tokens`), which is given along its structure
and without regard to how it is read.  The readers agree with it in both directions: they take
what a field is spelled by as that field (`Takes`), and of what they return they have taken the
spelling (`Spells`).

Two conditions say which fields the grammar has (`Field.IsGrammatical`).  Their values are
constants, and lists, objects and list types nest no deeper than a document may.

Input fields and fields are two grammars with the same shape.  `Describes` puts together what is
needed of either, and the modules on the reading of a single field are written for both at once.
-/
import SchemaLoom.Proofs.Sdl.Bound

namespace SchemaLoom.Sdl

variable {α β : Type}

/-! ### Spellings

Values nest, so their spelling is by recursion, with the lists of items and entries spelled beside
it.
-/

mutual

/-- The tokens of a value. -/
def Value.tokens : Value → List Token
  | .variable n => [.punctuator .dollar, .name n]
  | .int digits => [.int digits]
  | .float digits => [.float digits]
  | .string text block => [if block then .blockString text else .string text]
  | .boolean truth => [.name (if truth then "true" else "false")]
  | .null => [.name "null"]
  | .enum n => [.name n]
  | .list items => .punctuator .bracketLeft :: (itemsTokens items ++ [.punctuator .bracketRight])
  | .object entries =>
    .punctuator .braceLeft :: (entriesTokens entries ++ [.punctuator .braceRight])

/-- The tokens of the items of a list. -/
def itemsTokens : List Value → List Token
  | [] => []
  | v :: vs => v.tokens ++ itemsTokens vs

/-- The tokens of the entries of an object. -/
def entriesTokens : List (String × Value) → List Token
  | [] => []
  | (key, v) :: rest => .name key :: .punctuator .colon :: (v.tokens ++ entriesTokens rest)

end

/-- The tokens of an entry of an object, or of an argument. -/
def entryTokens (entry : String × Value) : List Token :=
  .name entry.1 :: .punctuator .colon :: entry.2.tokens

theorem itemsTokens_eq (vs : List Value) : itemsTokens vs = vs.flatMap Value.tokens := by
  induction vs with
  | nil => rfl
  | cons v vs ih => rw [itemsTokens, ih, List.flatMap_cons]

theorem entriesTokens_eq (entries : List (String × Value)) :
    entriesTokens entries = entries.flatMap entryTokens := by
  induction entries with
  | nil => rfl
  | cons entry entries ih =>
    obtain ⟨key, v⟩ := entry
    rw [entriesTokens, ih, List.flatMap_cons, entryTokens]
    rfl

/-- The value is a constant that opens at most so many levels.  The names that stand for other
constants are no names of enum values. -/
def Value.Fits : Nat → Value → Prop
  | _, .variable _ => False
  | _, .enum n => n ∉ Reader.reservedValues
  | 0, .list _ | 0, .object _ => False
  | room + 1, .list items => ∀ v ∈ items, v.Fits room
  | room + 1, .object entries => ∀ entry ∈ entries, entry.2.Fits room
  | _, .int _ | _, .float _ | _, .string _ _ | _, .boolean _ | _, .null => True

/-- The tokens of a directive. -/
def Directive.tokens (d : Directive) : List Token :=
  .punctuator .at :: .name d.name ::
    Reader.betweenTokens .parenLeft .parenRight (d.arguments.map entryTokens)

/-- The arguments of the directive are constants. -/
def Directive.IsGrammatical (d : Directive) : Prop :=
  ∀ entry ∈ d.arguments, entry.2.Fits Reader.nestingLimit

/-- The token of a description. -/
def Description.token (d : Description) : Token :=
  if d.block then .blockString d.text else .string d.text

/-- The tokens of a default value, if there is one. -/
def defaultTokens : Option Value → List Token
  | none => []
  | some v => .punctuator .equals :: v.tokens

/-- The tokens of an input field. -/
def InputField.tokens (f : InputField) : List Token :=
  f.description.toList.map Description.token ++
    .name f.name :: .punctuator .colon ::
      (f.type.tokens ++ (defaultTokens f.default ++ f.directives.flatMap Directive.tokens))

/-- The grammar has the input field `f`. -/
structure InputField.IsGrammatical (f : InputField) : Prop where
  type : f.type.Fits Reader.nestingLimit
  default : ∀ v ∈ f.default, v.Fits Reader.nestingLimit
  directives : ∀ d ∈ f.directives, d.IsGrammatical

/-- The tokens of a field. -/
def Field.tokens (f : Field) : List Token :=
  f.description.toList.map Description.token ++
    .name f.name ::
      (Reader.betweenTokens .parenLeft .parenRight (f.arguments.map InputField.tokens) ++
        .punctuator .colon :: (f.type.tokens ++ f.directives.flatMap Directive.tokens))

/-- The grammar has the field `f`. -/
structure Field.IsGrammatical (f : Field) : Prop where
  arguments : ∀ a ∈ f.arguments, a.IsGrammatical
  type : f.type.Fits Reader.nestingLimit
  directives : ∀ d ∈ f.directives, d.IsGrammatical

namespace Reader

/-! ### Spellings are taken

By induction on the levels that may still be opened.  A name is taken as a value by what it stands
for, which is why names of enum values are restricted.
-/

theorem first_value (v : Value) : ∃ t ∈ v.tokens.head?, Stops [.bracketRight] t := by
  have hmark : ∀ {m : Punctuator}, m ≠ .bracketRight → Stops [.bracketRight] (.punctuator m) :=
    fun h => stops_punctuator (by simpa using h)
  cases v with
  | «variable» n => exact ⟨_, rfl, hmark (by decide)⟩
  | list items => exact ⟨_, rfl, hmark (by decide)⟩
  | object entries => exact ⟨_, rfl, hmark (by decide)⟩
  | int digits => exact ⟨_, rfl, stops_of_single rfl _⟩
  | float digits => exact ⟨_, rfl, stops_of_single rfl _⟩
  | string text block => cases block <;> exact ⟨_, rfl, stops_of_single rfl _⟩
  | _ => exact ⟨_, rfl, stops_name _ _⟩

theorem first_entry (entry : String × Value) : ∃ t ∈ (entryTokens entry).head?, IsWord t :=
  ⟨_, rfl, entry.1, rfl⟩

theorem namedValue_of_not_reserved {n : String} (h : n ∉ reservedValues) :
    namedValue n = .enum n := by
  unfold namedValue
  split
  · exact absurd (by decide) h
  · exact absurd (by decide) h
  · exact absurd (by decide) h
  · rfl

/-- A constant is taken if the constants within it are. -/
theorem takes_value_step {room : Nat}
    (hinner : ∀ less, room = less + 1 → ∀ v : Value, v.Fits less →
      Takes (valueWithin true less) v.tokens v Token.IsValid) {v : Value} (hfits : v.Fits room) :
    Takes (valueWithin true room) v.tokens v Token.IsValid := by
  cases v with
  | «variable» n => cases room <;> exact hfits.elim
  | int digits => exact takes_single rfl
  | float digits => exact takes_single rfl
  | string text block => cases block <;> exact takes_single rfl
  | boolean truth => cases truth <;> exact takes_single rfl
  | null => exact takes_single rfl
  | enum n =>
    have hfree : n ∉ reservedValues := by cases room <;> exact hfits
    exact takes_single (congrArg some (namedValue_of_not_reserved hfree))
  | list items =>
    cases room with
    | zero => exact hfits.elim
    | succ room =>
      obtain ⟨hrepeats, hhead⟩ := repeats_of_first (fun v hv => hinner room rfl v (hfits v hv))
        (fun v _ => first_value v) fun _ h => h.1
      rw [Value.tokens, itemsTokens_eq]
      exact takes_list hrepeats hhead
  | object entries =>
    cases room with
    | zero => exact hfits.elim
    | succ room =>
      have hentry : ∀ e ∈ entries, Takes (argument true room) (entryTokens e) e Token.IsValid :=
        fun e he => takes_argument (hinner room rfl e.2 (hfits e he)) (first_value e.2)
      obtain ⟨hrepeats, hhead⟩ := repeats_of_first hentry (fun e _ => first_entry e)
        fun _ h => (h.stops [.braceRight]).1
      rw [Value.tokens, entriesTokens_eq]
      exact takes_object hrepeats hhead

/-- **A constant is taken from its tokens.** -/
theorem takes_value : ∀ (room : Nat) (v : Value), v.Fits room →
    Takes (valueWithin true room) v.tokens v Token.IsValid := by
  intro room
  induction room with
  | zero =>
    refine fun v hfits => takes_value_step ?_ hfits
    exact fun _ h => nomatch h
  | succ room ih =>
    refine fun v hfits => takes_value_step ?_ hfits
    intro less h
    cases h
    exact ih

theorem takes_constantDirectives {ds : List Directive} (h : ∀ d ∈ ds, d.IsGrammatical) :
    Takes (directives true) (ds.flatMap Directive.tokens) ds (Stops [.at, .parenLeft]) := by
  have harguments : ∀ d ∈ ds, Takes (arguments true nestingLimit)
      (betweenTokens .parenLeft .parenRight (d.arguments.map entryTokens)) d.arguments
      (Stops [.parenLeft]) := by
    intro d hd
    have hentry : ∀ e ∈ d.arguments,
        Takes (argument true nestingLimit) (entryTokens e) e Token.IsValid :=
      fun e he => takes_argument (takes_value _ e.2 (h d hd e he)) (first_value e.2)
    obtain ⟨hrepeats, hhead⟩ := repeats_of_first hentry (fun e _ => first_entry e)
      fun _ h => (h.stops [.parenRight]).1
    exact (takes_between .parenLeft .parenRight hrepeats hhead
      (fun t h => (h.stops [.parenRight]).ne (by simp)) (Token.isValid_punctuator _)
      fun _ h => h).weaken fun t h => ⟨h.1, fun _ => h.ne (by simp)⟩
  have hfirst : ∀ d ∈ ds, ∃ t ∈ d.tokens.head?, t = .punctuator .at := fun d _ => ⟨_, rfl, rfl⟩
  obtain ⟨hrepeats, hhead⟩ := repeats_of_first
    (fun d hd => takes_directive (n := d.name) (harguments d hd) head_betweenTokens) hfirst
    (by rintro t rfl; exact stops_punctuator (by simp))
  exact takes_directivesWithin hrepeats hhead

theorem head_directives (ds : List Directive) :
    ∀ t ∈ (ds.flatMap Directive.tokens).head?, t = .punctuator .at := by
  cases ds with
  | nil => exact fun t ht => nomatch ht
  | cons d ds =>
    intro t ht
    cases ht
    rfl

theorem description?_token (d : Description) : description? d.token = some d := by
  obtain ⟨text, block⟩ := d
  cases block <;> rfl

theorem takes_descriptionTokens (description : Option Description) :
    Takes optionalDescription (description.toList.map Description.token) description
      AfterDescription := by
  cases description with
  | none => exact takes_description_none.weaken fun _ h => h.2
  | some d => exact (takes_description (description?_token d)).weaken fun _ h => h.1

theorem isFront_descriptionTokens (description : Option Description) :
    IsFront (description.toList.map Description.token) := by
  cases description with
  | none => exact Or.inl rfl
  | some d => exact Or.inr ⟨d.token, rfl, isDescription_of (description?_token d)⟩

theorem takes_defaultTokens {default : Option Value} (h : ∀ v ∈ default, v.Fits nestingLimit) :
    Takes optionalDefault (defaultTokens default) default (Stops [.equals]) := by
  cases default with
  | none => exact takes_default_none.weaken fun _ h => h.ne (by simp)
  | some v =>
    exact (takes_default (takes_value _ v (h v rfl)) (first_value v)).weaken fun _ h => h.1

theorem head_defaultTokens (default : Option Value) :
    ∀ t ∈ (defaultTokens default).head?, t = .punctuator .equals := by
  cases default with
  | none => exact fun t ht => nomatch ht
  | some v =>
    intro t ht
    cases ht
    rfl

theorem takes_typeTokens {type : TypeRef} (h : type.Fits nestingLimit) :
    Takes typeRef type.tokens type (Stops [.bang]) :=
  (takes_typeRefWithin type nestingLimit h).weaken fun _ h => ⟨h.1, h.ne (by simp)⟩

theorem first_type (type : TypeRef) : ∃ t ∈ type.tokens.head?, t.IsValid := by
  rcases type.tokens_start with ⟨n, rest, h⟩ | ⟨rest, h⟩
  · exact ⟨.name n, by rw [h]; rfl, Token.isValid_name n⟩
  · exact ⟨.punctuator .bracketLeft, by rw [h]; rfl, Token.isValid_punctuator _⟩

theorem takes_inputTokens {f : InputField} (h : f.IsGrammatical) :
    Takes inputField f.tokens f EndsMember :=
  takes_describedInput (takes_descriptionTokens _) (takes_typeTokens h.type) (first_type _)
    (takes_defaultTokens h.default) (takes_constantDirectives h.directives) (head_defaultTokens _)
    (head_directives _)

theorem first_input (f : InputField) : ∃ t ∈ f.tokens.head?, BeginsMember t :=
  first_described (isFront_descriptionTokens _) (stops_name _ _)

theorem takes_fieldTokens {f : Field} (h : f.IsGrammatical) :
    Takes field f.tokens f EndsMember := by
  obtain ⟨hrepeats, hhead⟩ := repeats_of_first (fun a ha => takes_inputTokens (h.arguments a ha))
    (fun a _ => first_input a) fun _ h => h.ends
  have hargs := takes_between .parenLeft .parenRight hrepeats hhead (fun t h => h.ne (by simp))
    (stops_punctuator (by decide)) fun _ h => h.1
  exact takes_describedField (takes_descriptionTokens _)
    (hargs.weaken fun t h => ⟨h.1, fun _ => h.ne (by simp)⟩) (takes_typeTokens h.type)
      (first_type _)
    (takes_constantDirectives h.directives) head_betweenTokens (head_directives _)

theorem first_field (f : Field) : ∃ t ∈ f.tokens.head?, BeginsMember t :=
  first_described (isFront_descriptionTokens _) (stops_name _ _)

/-! ### What is taken is a spelling

The lemmas follow the readers, and not the grammar.  Where a reader looks at the next token before
it decides, what it has taken is told for each token by itself (`spells_peek`).
-/

/-- Of each value that `r` returns it has taken tokens `S`. -/
def Spells (r : Reader α) (S : List Token → α → Prop) : Prop :=
  ∀ bound ts a rest, r bound ts = .ok (a, rest) → ∃ taken, ts = taken ++ rest ∧ S taken a

/-- With the token `t` next, the reader `r` has taken tokens `S` of each value that it returns. -/
def SpellsAt (t : Token) (r : Reader α) (S : List Token → α → Prop) : Prop :=
  ∀ bound ts a rest, r bound (t :: ts) = .ok (a, rest) → ∃ taken, t :: ts = taken ++ rest ∧
    S taken a

theorem spells_pure {S : List Token → α → Prop} {a : α} (h : S [] a) : Spells (pure a) S := by
  intro bound ts b rest hread
  cases hread
  exact ⟨[], rfl, h⟩

theorem spells_throw (fault : SyntaxFault) (S : List Token → α → Prop) :
    Spells (throw fault) S := by
  intro bound ts a rest hread
  cases hread

theorem Spells.at {r : Reader α} {S : List Token → α → Prop} (h : Spells r S) (t : Token) :
    SpellsAt t r S :=
  fun bound ts a rest hread => h bound (t :: ts) a rest hread

theorem Spells.weaken {r : Reader α} {S U : List Token → α → Prop} (h : Spells r S)
    (hu : ∀ ts a, S ts a → U ts a) : Spells r U := by
  intro bound ts a rest hread
  obtain ⟨taken, hsame, ha⟩ := h bound ts a rest hread
  exact ⟨taken, hsame, hu taken a ha⟩

/-- **Readers one after the other take spellings one after the other**, so `Spells` follows the
readers as they are composed. -/
theorem Spells.bind {r : Reader α} {f : α → Reader β} {S : List Token → α → Prop}
    {U : List Token → β → Prop} (hfirst : Spells r S)
    (hthen : ∀ a taken, S taken a → Spells (f a) fun us b => U (taken ++ us) b) :
    Spells (r >>= f) U := by
  intro bound ts b rest hread
  obtain ⟨a, between, hread, hothers⟩ := of_bind hread
  obtain ⟨taken, rfl, ha⟩ := hfirst bound ts a between hread
  obtain ⟨more, rfl, hb⟩ := hthen a taken ha bound between b rest hothers
  exact ⟨taken ++ more, (List.append_assoc ..).symm, hb⟩

theorem spells_read {f : Nat → Reader β} {U : List Token → β → Prop} (h : ∀ n, Spells (f n) U) :
    Spells (read >>= f) U :=
  fun bound ts b rest hread => h bound bound ts b rest hread

theorem spells_ite {c : Prop} [Decidable c] {r s : Reader α} {S : List Token → α → Prop}
    (hr : c → Spells r S) (hs : ¬ c → Spells s S) : Spells (if c then r else s) S := by
  split
  next h => exact hr h
  next h => exact hs h

theorem spellsAt_ite {t : Token} {c : Prop} [Decidable c] {r s : Reader α}
    {S : List Token → α → Prop} (hr : c → SpellsAt t r S) (hs : ¬ c → SpellsAt t s S) :
    SpellsAt t (if c then r else s) S := by
  split
  next h => exact hr h
  next h => exact hs h

/-- What is taken is told by the next token. -/
theorem spells_peek {f : Token → Reader β} {U : List Token → β → Prop} (hend : Spells (f .eof) U)
    (hnext : ∀ t, SpellsAt t (f t) U) : Spells (peek >>= f) U := by
  intro bound ts b rest hread
  change f (ts.headD .eof) bound ts = .ok (b, rest) at hread
  cases ts with
  | nil => exact hend bound [] b rest hread
  | cons t ts => exact hnext t bound ts b rest hread

/-- A token that is passed over is the first of those taken. -/
theorem spellsAt_advance {t : Token} {f : Unit → Reader β} {U : List Token → β → Prop}
    (h : Spells (f ()) fun us b => U (t :: us) b) : SpellsAt t (advance >>= f) U := by
  intro bound ts b rest hread
  obtain ⟨_, between, htaken, hothers⟩ := of_bind hread
  obtain rfl : between = ts := eq_drop_of_advance htaken
  obtain ⟨taken, rfl, hb⟩ := h bound between b rest hothers
  exact ⟨t :: taken, rfl, hb⟩

/-- A token that is passed over last. -/
theorem spellsAt_advance_last {t : Token} {S : List Token → Unit → Prop} (h : S [t] ()) :
    SpellsAt t advance S := by
  intro bound ts u rest hread
  obtain rfl : rest = ts := eq_drop_of_advance hread
  exact ⟨[t], rfl, h⟩

theorem spells_mark (m : Punctuator) : Spells (mark m) fun ts _ => ts = [.punctuator m] := by
  refine spells_peek (spells_throw _ _) fun t => spellsAt_ite ?_ fun _ => (spells_throw _ _).at t
  rintro rfl
  exact spellsAt_advance_last rfl

theorem spells_optionalMark (m : Punctuator) :
    Spells (optionalMark m) fun ts found => ts = if found then [.punctuator m] else [] := by
  have hnone : Spells (pure false) fun ts found =>
      ts = if found then [Token.punctuator m] else [] := spells_pure rfl
  refine spells_peek (spells_ite (fun h => nomatch h) fun _ => hnone) fun t => ?_
  refine spellsAt_ite ?_ fun _ => hnone.at t
  rintro rfl
  exact spellsAt_advance (spells_pure rfl)

theorem spells_name : Spells name fun ts n => ts = [.name n] := by
  refine spells_peek (spells_throw _ _) fun t => ?_
  cases t with
  | name n => exact spellsAt_advance (spells_pure rfl)
  | _ => exact (spells_throw _ _).at _

section Repetition

variable {item : Reader α} {tokens : α → List Token} {P : α → Prop}
  (hitem : Spells item fun ts a => ts = tokens a ∧ P a)

include hitem

/-- An item in front of others. -/
theorem spells_cons {r : Reader (List α)} {closing : List Token}
    (h : Spells r fun ts as => ts = as.flatMap tokens ++ closing ∧ ∀ a ∈ as, P a) :
    Spells (item >>= fun first => r >>= fun rest => pure (first :: rest)) fun ts as =>
      as ≠ [] ∧ ts = as.flatMap tokens ++ closing ∧ ∀ a ∈ as, P a := by
  refine hitem.bind fun a _ ⟨hsame, ha⟩ => h.bind fun as _ ⟨hothers, has⟩ => spells_pure ?_
  subst hsame hothers
  refine ⟨List.cons_ne_nil a as, ?_, List.forall_mem_cons.2 ⟨ha, has⟩⟩
  rw [List.append_nil, List.flatMap_cons, List.append_assoc]

theorem spells_itemsWithin (closing : Punctuator) : ∀ n, Spells (itemsWithin closing item n)
    fun ts as => ts = as.flatMap tokens ++ [.punctuator closing] ∧ ∀ a ∈ as, P a := by
  intro n
  induction n with
  | zero => exact spells_peek (spells_throw _ _) fun t => (spells_throw _ _).at t
  | succ n ih =>
    unfold itemsWithin
    refine (spells_optionalMark closing).bind fun isClosed taken htaken => ?_
    subst htaken
    cases isClosed with
    | true => exact spells_pure ⟨rfl, fun _ h => absurd h List.not_mem_nil⟩
    | false => exact (spells_cons hitem ih).weaken fun _ _ h => h.2

theorem spells_itemsUntil (closing : Punctuator) : Spells (itemsUntil closing item)
    fun ts as => ts = as.flatMap tokens ++ [.punctuator closing] ∧ ∀ a ∈ as, P a :=
  spells_read fun n => spells_itemsWithin hitem closing n

theorem spells_someUntil (closing : Punctuator) : Spells (someUntil closing item)
    fun ts as => as ≠ [] ∧ ts = as.flatMap tokens ++ [.punctuator closing] ∧ ∀ a ∈ as, P a :=
  spells_cons hitem (spells_itemsUntil hitem closing)

theorem spells_optionalBetween (opening closing : Punctuator) :
    Spells (optionalBetween opening closing item)
      fun ts as => ts = betweenTokens opening closing (as.map tokens) ∧ ∀ a ∈ as, P a := by
  refine (spells_optionalMark opening).bind fun isOpen taken htaken => ?_
  subst htaken
  cases isOpen with
  | false => exact spells_pure ⟨rfl, fun _ h => nomatch h⟩
  | true =>
    refine (spells_someUntil hitem closing).weaken ?_
    rintro ts as ⟨hsome, rfl, has⟩
    obtain ⟨a, as, rfl⟩ := List.exists_cons_of_ne_nil hsome
    exact ⟨by rw [List.flatMap_def]; rfl, has⟩

theorem spells_whileWithin (test : Token → Bool) : ∀ n, Spells (whileWithin test item n)
    fun ts as => ts = as.flatMap tokens ∧ ∀ a ∈ as, P a := by
  intro n
  induction n with
  | zero => exact spells_pure ⟨rfl, fun _ h => nomatch h⟩
  | succ n ih =>
    have hothers : Spells (whileWithin test item n) fun ts as =>
        ts = as.flatMap tokens ++ [] ∧ ∀ a ∈ as, P a :=
      ih.weaken fun _ _ h => ⟨by rw [h.1, List.append_nil], h.2⟩
    have hmore : Spells (item >>= fun first => whileWithin test item n >>= fun rest =>
        pure (first :: rest)) fun ts as => ts = as.flatMap tokens ∧ ∀ a ∈ as, P a :=
      (spells_cons hitem hothers).weaken fun _ _ h => ⟨by rw [h.2.1, List.append_nil], h.2.2⟩
    have hnone : Spells (pure [] : Reader (List α)) fun ts as =>
        ts = as.flatMap tokens ∧ ∀ a ∈ as, P a := spells_pure ⟨rfl, fun _ h => nomatch h⟩
    unfold whileWithin
    refine spells_peek (spells_ite (fun _ => hmore) fun _ => hnone) fun t => ?_
    exact spellsAt_ite (fun _ => hmore.at t) fun _ => hnone.at t

theorem spells_whileNext (test : Token → Bool) : Spells (whileNext test item)
    fun ts as => ts = as.flatMap tokens ∧ ∀ a ∈ as, P a :=
  spells_read fun n => spells_whileWithin hitem test n

end Repetition

/-- A name that stands for a value spells it. -/
theorem namedValue_spelled (room : Nat) (n : String) :
    [Token.name n] = (namedValue n).tokens ∧ (namedValue n).Fits room := by
  unfold namedValue
  split
  · exact ⟨rfl, by cases room <;> trivial⟩
  · exact ⟨rfl, by cases room <;> trivial⟩
  · exact ⟨rfl, by cases room <;> trivial⟩
  next htrue hfalse hnull =>
    have hfree : n ∉ reservedValues := by
      simp only [reservedValues, List.mem_cons, List.not_mem_nil, or_false, not_or]
      exact ⟨htrue, hfalse, hnull⟩
    exact ⟨rfl, by cases room <;> exact hfree⟩

theorem spells_argument {room : Nat}
    (hvalue : Spells (valueWithin true room) fun ts v => ts = v.tokens ∧ v.Fits room) :
    Spells (argument true room) fun ts e => ts = entryTokens e ∧ e.2.Fits room := by
  refine spells_name.bind fun key _ hkey => (spells_mark .colon).bind fun _ _ hcolon =>
    hvalue.bind fun v _ ⟨hsame, hfits⟩ => spells_pure ⟨?_, hfits⟩
  rw [hkey, hcolon, hsame, List.append_nil]
  rfl

theorem spells_forbiddenVariable (S : List Token → α → Prop) :
    Spells (forbiddenVariable : Reader α) S := by
  intro bound ts a rest hread
  obtain ⟨_, _, -, hread⟩ := of_bind hread
  obtain ⟨_, _, -, hread⟩ := of_bind hread
  obtain ⟨t, _, -, hread⟩ := of_bind hread
  cases t <;> cases hread

/-- What is taken for a value spells it if what is taken for the values within it spells these. -/
theorem spells_value_step {room : Nat} (hinner : ∀ less, room = less + 1 →
      Spells (valueWithin true less) fun ts v => ts = v.tokens ∧ v.Fits less) :
    Spells (valueWithin true room) fun ts v => ts = v.tokens ∧ v.Fits room := by
  have hsingle : ∀ {t : Token} {v : Value}, [t] = v.tokens → v.Fits room →
      SpellsAt t (advance >>= fun _ => pure v) fun ts v => ts = v.tokens ∧ v.Fits room :=
    fun hsame hfits => spellsAt_advance (spells_pure ⟨hsame, hfits⟩)
  unfold valueWithin
  refine spells_peek (spells_throw _ _) fun t => ?_
  split
  · exact hsingle rfl (by cases room <;> trivial)
  · exact hsingle rfl (by cases room <;> trivial)
  · exact hsingle rfl (by cases room <;> trivial)
  · exact hsingle rfl (by cases room <;> trivial)
  next n => exact hsingle (namedValue_spelled room n).1 (namedValue_spelled room n).2
  · cases room with
    | zero => exact (spells_throw _ _).at _
    | succ room =>
      refine spellsAt_advance ((spells_itemsUntil (hinner room rfl) .bracketRight).bind ?_)
      rintro items _ ⟨rfl, hfits⟩
      refine spells_pure ⟨?_, hfits⟩
      rw [Value.tokens, itemsTokens_eq, List.append_nil]
  · cases room with
    | zero => exact (spells_throw _ _).at _
    | succ room =>
      have hentry := spells_argument (hinner room rfl)
      refine spellsAt_advance ((spells_itemsUntil hentry .braceRight).bind ?_)
      rintro entries _ ⟨rfl, hfits⟩
      refine spells_pure ⟨?_, hfits⟩
      rw [Value.tokens, entriesTokens_eq, List.append_nil]
  · exact (spells_forbiddenVariable _).at _
  · exact (spells_throw _ _).at t

/-- **What is taken for a constant spells it**, by induction on the room that `valueWithin` has
left. -/
theorem spells_value : ∀ room,
    Spells (valueWithin true room) fun ts v => ts = v.tokens ∧ v.Fits room := by
  intro room
  induction room with
  | zero => exact spells_value_step fun _ h => nomatch h
  | succ room ih =>
    refine spells_value_step fun less h => ?_
    cases h
    exact ih

theorem spells_directives : Spells (directives true)
    fun ts ds => ts = ds.flatMap Directive.tokens ∧ ∀ d ∈ ds, d.IsGrammatical := by
  have harguments := spells_optionalBetween (spells_argument (spells_value nestingLimit))
    .parenLeft .parenRight
  have hdirective : Spells (directive true nestingLimit)
      fun ts d => ts = d.tokens ∧ d.IsGrammatical := by
    refine (spells_mark .at).bind fun _ _ hat => spells_name.bind fun n _ hname =>
      harguments.bind fun args _ ⟨hsame, hfits⟩ => spells_pure ⟨?_, hfits⟩
    rw [hat, hname, hsame, List.append_nil]
    rfl
  exact spells_whileNext hdirective _

/-- What is taken for a type spells it, and within some levels the type can be written. -/
theorem spells_typeRefWithin : ∀ room,
    Spells (typeRefWithin room) fun ts t => ts = t.tokens ∧ t.Fits room := by
  -- Only what stands in front of a required mark may get one.
  have hmarked : ∀ {room : Nat} {r : Reader TypeRef},
      (Spells r fun ts t => ts = t.tokens ∧ t.Fits room ∧ ∀ other, t ≠ .nonNull other) →
        Spells (r >>= marked) fun ts t => ts = t.tokens ∧ t.Fits room := by
    intro room r hr
    refine hr.bind ?_
    rintro inner _ ⟨rfl, hfits, hplain⟩
    refine (spells_optionalMark .bang).bind ?_
    rintro isMarked _ rfl
    cases isMarked with
    | false => exact spells_pure ⟨by simp, hfits⟩
    | true => exact spells_pure ⟨by simp [TypeRef.tokens], by cases room <;> exact ⟨hfits, hplain⟩⟩
  have hnamed : ∀ room, Spells (name >>= fun n => pure (TypeRef.named n))
      fun ts t => ts = t.tokens ∧ t.Fits room ∧ ∀ other, t ≠ .nonNull other := by
    intro room
    refine spells_name.bind ?_
    rintro n _ rfl
    exact spells_pure ⟨rfl, by cases room <;> trivial, fun _ h => nomatch h⟩
  intro room
  induction room with
  | zero =>
    rw [typeRefWithin_eq]
    refine hmarked ((spells_optionalMark .bracketLeft).bind ?_)
    rintro isList _ rfl
    cases isList with
    | true => exact spells_throw _ _
    | false => exact hnamed 0
  | succ room ih =>
    rw [typeRefWithin_eq]
    refine hmarked ((spells_optionalMark .bracketLeft).bind ?_)
    rintro isList _ rfl
    cases isList with
    | true =>
      refine ih.bind ?_
      rintro item _ ⟨rfl, hfits⟩
      refine (spells_mark .bracketRight).bind ?_
      rintro _ _ rfl
      exact spells_pure ⟨by simp [TypeRef.tokens], hfits, fun _ h => nomatch h⟩
    | false => exact hnamed (room + 1)

theorem spells_optionalDescription : Spells optionalDescription
    fun ts description => ts = description.toList.map Description.token := by
  refine spells_peek (spells_pure rfl) fun t => ?_
  cases t with
  | string text => exact spellsAt_advance (spells_pure rfl)
  | blockString text => exact spellsAt_advance (spells_pure rfl)
  | _ => exact (spells_pure rfl : Spells (pure none) fun ts (description : Option Description) =>
      ts = description.toList.map Description.token).at _

theorem spells_optionalDefault : Spells optionalDefault
    fun ts default => ts = defaultTokens default ∧ ∀ v ∈ default, v.Fits nestingLimit := by
  refine (spells_optionalMark .equals).bind ?_
  rintro isGiven _ rfl
  cases isGiven with
  | false => exact spells_pure ⟨rfl, fun _ h => nomatch h⟩
  | true =>
    refine (spells_value nestingLimit).bind ?_
    rintro v _ ⟨rfl, hfits⟩
    refine spells_pure ⟨by simp [defaultTokens], ?_⟩
    rintro _ ⟨⟩
    exact hfits

/-! ### Fields -/

/-- The reader `item` agrees with the grammar of members that has those with `P`, spelled by
`tokens`. -/
structure Describes (item : Reader α) (tokens : α → List Token) (P : α → Prop) : Prop where
  takes : ∀ {a}, P a → Takes item (tokens a) a EndsMember
  first : ∀ a, ∃ t ∈ (tokens a).head?, BeginsMember t
  spells : Spells item fun ts a => ts = tokens a ∧ P a

/-- **Input fields are read as the grammar has them.** -/
theorem describes_inputField :
    Describes inputField InputField.tokens InputField.IsGrammatical where
  takes := takes_inputTokens
  first := first_input
  spells := by
    refine spells_optionalDescription.bind fun description _ hfront =>
      spells_name.bind fun n _ hname =>
      (spells_mark .colon).bind fun _ _ hcolon => (spells_typeRefWithin nestingLimit).bind
        fun type _ ⟨htype, hfits⟩ =>
          spells_optionalDefault.bind fun default _ ⟨hdefault, hconstant⟩ =>
          spells_directives.bind fun ds _ ⟨hdirectives, hds⟩ =>
            spells_pure ⟨?_, hfits, hconstant, hds⟩
    rw [hfront, hname, hcolon, htype, hdefault, hdirectives, List.append_nil]
    rfl

/-- **Fields are read as the grammar has them.** -/
theorem describes_field : Describes field Field.tokens Field.IsGrammatical where
  takes := takes_fieldTokens
  first := first_field
  spells := by
    refine spells_optionalDescription.bind fun description _ hfront =>
      spells_name.bind fun n _ hname =>
      (spells_optionalBetween describes_inputField.spells .parenLeft .parenRight).bind
        fun args _ ⟨hargs, hgrammatical⟩ => (spells_mark .colon).bind fun _ _ hcolon =>
          (spells_typeRefWithin nestingLimit).bind fun type _ ⟨htype, hfits⟩ =>
            spells_directives.bind fun ds _ ⟨hdirectives, hds⟩ =>
              spells_pure ⟨?_, hgrammatical, hfits, hds⟩
    rw [hfront, hname, hargs, hcolon, htype, hdirectives, List.append_nil]
    rfl

end Reader

end SchemaLoom.Sdl
