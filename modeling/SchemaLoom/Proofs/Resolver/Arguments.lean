/-
What requests read of the arguments of an operation.

An expression refers to the argument that it looks at, without braces or with them
(`ReadsArgument`), and if it goes on to a part of the argument, to that part (`ReadsPart`).
Since it is known which expressions a request is made of, it is known what it reads: the
arguments that its key or relation needs, those that every list has, and what names of indexes
show.

Both are forms of references, and a reference is looked for in the text of the whole request.  So
nothing that an expression stands in has a say, and `Template.IsMadeOf` turns the question into
one about the expressions.

An argument whose name continues another's is another argument.  What follows a name must
therefore begin with a character that no name goes on with (`IsPath`).
-/
import SchemaLoom.Proofs.Resolver.Requests

namespace SchemaLoom.Resolver

open Surface (listingArguments keyQueryArguments)

/-! ### Paths -/

/-- The text `tail` may follow the name of an argument: it does not go on with the name, and has no
sign of references. -/
structure IsPath (tail : String) : Prop where
  apart : Sdl.Apart tail.toList
  plain : '$' ∉ tail.toList

theorem isPath_empty : IsPath "" := ⟨Sdl.apart_nil, by decide⟩

theorem isPath_dot {more : String} (h : '$' ∉ more.toList) : IsPath ("." ++ more) := by
  refine ⟨?_, ?_⟩
  · rw [String.toList_append]
    exact Sdl.apart_cons (by decide) more.toList
  · rw [String.toList_append, List.mem_append, not_or]
    exact ⟨by decide, h⟩

theorem isWhole_of_isName {name : String} (h : Sdl.isName name = true) {rest : List Char}
    (hrest : Sdl.Apart rest) : IsWhole name.toList rest where
  notEmpty := by
    intro hnone
    rw [String.toList_eq_nil_iff] at hnone
    subst hnone
    exact absurd h (by decide)
  continues := Sdl.continuesName_of_isName h
  ends := hrest

/-! ### Forms of references

A reference begins with a fixed text and ends where no name goes on (`isForm_argument`).  In
braces it ends with the closing brace.
-/

/-- The text refers to the argument `name`, without braces or with them. -/
def ReadsArgument (text name : String) : Prop :=
  Shows "$ctx.args." "" text name ∨ Shows "$\x7bctx.args." "\x7d" text name

/-- What references to the parts open with that are given in a field of an argument. -/
def partOpening (argument accessor : String) : String :=
  "$ctx.args." ++ argument ++ "." ++ accessor ++ "."

/-- The text refers to the part `name` that is given in the field `accessor` of `argument`. -/
def ReadsPart (argument accessor text name : String) : Prop :=
  Shows (partOpening argument accessor) "" text name

theorem isForm_argument : IsForm "$ctx.args." "" where
  starts := ⟨"$ctx.args.", by decide, List.prefix_rfl⟩
  opens := ⟨"ctx.args.".toList, by decide, by decide⟩
  whole := by simp [separators]

theorem isForm_braced : IsForm "$\x7bctx.args." "\x7d" where
  starts := ⟨"$\x7bctx.args.", by decide, List.prefix_rfl⟩
  opens := ⟨"\x7bctx.args.".toList, by decide, by decide⟩
  whole := by simp [separators]

theorem partOpening_toList (argument accessor : String) : (partOpening argument accessor).toList
    = "$ctx.args.".toList ++ (argument.toList ++ '.' :: (accessor.toList ++ ['.'])) := by
  simp [partOpening]

theorem isForm_part {argument accessor : String} (hargument : Sdl.isName argument = true)
    (haccessor : accessor ∈ sortAccessors) : IsForm (partOpening argument accessor) "" where
  starts := ⟨"$ctx.args.", by decide, by
    rw [partOpening_toList]
    exact List.prefix_append _ _⟩
  opens := by
    have hplain : ∀ a ∈ sortAccessors, '$' ∉ a.toList := by decide
    refine ⟨"ctx.args.".toList ++ (argument.toList ++ '.' :: (accessor.toList ++ ['.'])), ?_, ?_⟩
    · rw [partOpening_toList]
      rfl
    · simp [sign_not_mem_of_isName hargument, hplain accessor haccessor]
  whole := by
    have hplain : ∀ k ∈ separators, k ∉ "$ctx.args.".toList ∧ k ≠ '.' ∧
        ∀ a ∈ sortAccessors, k ∉ a.toList := by
      simp [separators, sortAccessors, comparisons]
    intro k hk
    obtain ⟨hlead, hdot, hother⟩ := hplain k hk
    have hname : k ∉ argument.toList := fun hmem => by
      have hcontinues := Sdl.continuesName_of_isName hargument k hmem
      rw [not_isNameContinue_of_separator hk] at hcontinues
      cases hcontinues
    rw [partOpening_toList]
    simp only [List.mem_append, List.mem_cons, List.not_mem_nil, or_false, not_or]
    exact ⟨⟨hlead, hname, hdot, hother accessor haccessor, hdot⟩, by simp⟩

/-- A silent text reads no argument. -/
theorem not_readsArgument_of_isSilent {text name : String} (h : IsSilent text) :
    ¬ ReadsArgument text name :=
  not_or.2 ⟨isForm_argument.not_shows h, isForm_braced.not_shows h⟩

/-! ### Expressions -/

theorem argument_toList (word tail : String) :
    (argument word ++ tail).toList = "$ctx.args.".toList ++ (word.toList ++ tail.toList) := by
  simp [argument]

section Expressions

variable {word tail name : String} (hword : Sdl.isName word = true)

include hword

theorem argument_front (htail : IsPath tail) :
    ∃ rest, (argument word ++ tail).toList = '$' :: rest ∧ '$' ∉ rest := by
  refine ⟨"ctx.args.".toList ++ (word.toList ++ tail.toList), by simp [argument], ?_⟩
  simp [sign_not_mem_of_isName hword, htail.plain]

/-- **An expression refers to the argument it looks at**, and `Shows` no other. -/
theorem shows_argument (htail : IsPath tail) :
    Shows "$ctx.args." "" (argument word ++ tail) name ↔ word = name := by
  obtain ⟨rest, htext, hrest⟩ := argument_front hword htail
  rw [isForm_argument.shows_front htext hrest, argument_toList]
  constructor
  · rintro ⟨after, hsame, hwhole⟩
    have hhere := isWhole_of_isName hword htail.apart
    exact String.toList_inj.1 (hhere.eq hwhole (List.append_cancel_left hsame)).1
  · rintro rfl
    exact ⟨tail.toList, rfl, isWhole_of_isName hword htail.apart⟩

theorem not_shows_braced_argument (htail : IsPath tail) :
    ¬ Shows "$\x7bctx.args." "\x7d" (argument word ++ tail) name := by
  obtain ⟨rest, htext, hrest⟩ := argument_front hword htail
  rw [isForm_braced.shows_front htext hrest, argument_toList]
  rintro ⟨after, hsame, -⟩
  exact absurd (congrArg (fun cs => cs[1]?) hsame) (by simp)

theorem readsArgument_argument (htail : IsPath tail) :
    ReadsArgument (argument word ++ tail) name ↔ word = name := by
  rw [ReadsArgument, shows_argument hword htail,
    or_iff_left (not_shows_braced_argument hword htail)]

/-- An expression refers to the part of an argument that it looks at, if it looks at one. -/
theorem readsPart_argument {own accessor : String} (hown : Sdl.isName own = true)
    (haccessor : accessor ∈ sortAccessors) (htail : IsPath tail) :
    ReadsPart own accessor (argument word ++ tail) name ↔ word = own ∧
      ∃ after, tail.toList = '.' :: (accessor.toList ++ '.' :: (name.toList ++ after)) ∧
        IsWhole name.toList after := by
  obtain ⟨rest, htext, hrest⟩ := argument_front hword htail
  rw [ReadsPart, (isForm_part hown haccessor).shows_front htext hrest, argument_toList,
    partOpening_toList]
  constructor
  · rintro ⟨after, hsame, hwhole⟩
    rw [List.append_assoc, List.append_assoc, List.append_cancel_left_eq] at hsame
    have hhere := isWhole_of_isName hword htail.apart
    have hthere : IsWhole own.toList
        ('.' :: (accessor.toList ++ ['.']) ++ (name.toList ++ ("".toList ++ after))) :=
      isWhole_of_isName hown (Sdl.apart_cons (by decide) _)
    obtain ⟨hname, hafter⟩ := hhere.eq hthere hsame
    exact ⟨String.toList_inj.1 hname, after, by simpa using hafter, hwhole⟩
  · rintro ⟨rfl, after, hafter, hwhole⟩
    exact ⟨after, by simp [hafter], hwhole⟩

end Expressions

/-- An argument in braces. -/
def braced (name : String) : String := "$\x7bctx.args." ++ name ++ "\x7d"

theorem braced_toList (name : String) :
    (braced name).toList = "$\x7bctx.args.".toList ++ (name.toList ++ "\x7d".toList) := by
  simp [braced]

/-- **An argument in braces is referred to as such.** -/
theorem readsArgument_braced {word name : String} (hword : Sdl.isName word = true) :
    ReadsArgument (braced word) name ↔ word = name := by
  have htext : (braced word).toList
      = '$' :: ("\x7bctx.args.".toList ++ (word.toList ++ "\x7d".toList)) := by simp [braced]
  have hrest : '$' ∉ "\x7bctx.args.".toList ++ (word.toList ++ "\x7d".toList) := by
    simp [sign_not_mem_of_isName hword]
  have hend : Sdl.Apart "\x7d".toList := Sdl.apart_cons (by decide) []
  rw [ReadsArgument, isForm_argument.shows_front htext hrest, isForm_braced.shows_front htext hrest,
    braced_toList, or_iff_right]
  · constructor
    · rintro ⟨after, hsame, hwhole⟩
      have hhere := isWhole_of_isName hword hend
      exact String.toList_inj.1 (hhere.eq hwhole (List.append_cancel_left hsame)).1
    · rintro rfl
      exact ⟨[], by simp, isWhole_of_isName hword hend⟩
  · rintro ⟨after, hsame, -⟩
    exact absurd (congrArg (fun cs => cs[1]?) hsame) (by simp)

/-! ### Templates

A template that is made of expressions reads what they read.
-/

section MadeOf

variable {t : Template} {expressions : List String} (h : t.IsMadeOf expressions) {name : String}

include h

theorem Template.IsMadeOf.readsArgument :
    ReadsArgument t.text name ↔ ∃ e ∈ expressions, ReadsArgument e name := by
  rw [ReadsArgument, Template.shows_text isForm_argument, Template.shows_text isForm_braced,
    h isForm_argument, h isForm_braced]
  simp only [ReadsArgument, and_or_left, exists_or]

theorem Template.IsMadeOf.readsPart {own accessor : String} (hown : Sdl.isName own = true)
    (haccessor : accessor ∈ sortAccessors) :
    ReadsPart own accessor t.text name ↔ ∃ e ∈ expressions, ReadsPart own accessor e name := by
  have hform := isForm_part hown haccessor
  rw [ReadsPart, Template.shows_text hform, h hform]
  rfl

end MadeOf

/-! ### Getting an item -/

/-- The joined values of arguments are read in braces. -/
theorem readsArgument_joinedValue {names : List String} (hnames : ∀ n ∈ names, Sdl.isName n = true)
    {name : String} :
    ReadsArgument (quoted (joinedValue names "ctx.args")) name ↔ name ∈ names := by
  have hlead : "$\x7b" ++ "ctx.args" ++ "." = "$\x7bctx.args." := by decide
  have hdistributes : ReadsArgument (quoted (joinedValue names "ctx.args")) name ↔
      ∃ n ∈ names, ReadsArgument (braced n) name := by
    simp only [ReadsArgument, shows_quoted isForm_argument, shows_quoted isForm_braced, joinedValue,
      shows_joined isForm_argument, shows_joined isForm_braced, List.mem_map,
      exists_exists_and_eq_and, hlead, braced, and_or_left, exists_or]
  rw [hdistributes]
  constructor
  · rintro ⟨n, hn, hread⟩
    exact (readsArgument_braced (hnames n hn)).1 hread ▸ hn
  · intro hhere
    exact ⟨name, hhere, (readsArgument_braced (hnames name hhere)).2 rfl⟩

/-- **Getting an item reads the fields of its key** (`getRequest`). -/
theorem readsArgument_getRequest {key : Key} (hnames : ∀ n ∈ key.fields, Sdl.isName n = true)
    {name : String} : ReadsArgument (getRequest key).text name ↔ name ∈ key.fields := by
  have hvalue : ∀ n ∈ key.fields, (ReadsArgument ("$ctx.args." ++ n) name ↔ name = n) := by
    intro n hn
    rw [← String.append_empty (s := "$ctx.args." ++ n), eq_comm]
    exact readsArgument_argument (hnames n hn) isPath_empty
  rw [(isMadeOf_getRequest (sign_not_mem_attributes hnames)).readsArgument]
  obtain ⟨partition, sortFields, keyName, queryField⟩ := key
  have hpartition := hvalue partition List.mem_cons_self
  match sortFields with
  | [] => simp [keyValues, Key.fields, hpartition]
  | [field] =>
    have hfield := hvalue field (by simp [Key.fields])
    simp [keyValues, Key.fields, hpartition, hfield]
  | first :: next :: rest =>
    have hjoined : ReadsArgument (quoted (joinedValue (first :: next :: rest) "ctx.args")) name ↔
        name ∈ first :: next :: rest :=
      readsArgument_joinedValue fun n hn => hnames n (List.mem_cons_of_mem partition hn)
    simp [keyValues, Key.fields, hpartition, hjoined]

/-! ### Querying by a key -/

section Read

variable {key : Key} {name : String}

theorem readsArgument_word {word : String} (hword : Sdl.isName word = true) :
    ReadsArgument (argument word) name ↔ word = name := by
  rw [← String.append_empty (s := argument word)]
  exact readsArgument_argument hword isPath_empty

/-- Whatever looks at the sort argument reads it. -/
theorem exists_tail_of_mem_sortExpressions (hfields : ∀ n ∈ key.sortFields, '$' ∉ n.toList)
    {own e : String} (he : e ∈ sortExpressions key own) :
    ∃ tail, e = argument own ++ tail ∧ IsPath tail := by
  have hoperators : ∀ o ∈ sortOperators, '$' ∉ o.toList := by decide
  have haccessors : ∀ a ∈ sortAccessors, '$' ∉ a.toList := by decide
  unfold sortExpressions at he
  rw [List.mem_append, List.mem_cons, List.mem_map] at he
  rcases he with (rfl | ⟨o, ho, rfl⟩) | he
  · exact ⟨"", String.append_empty.symm, isPath_empty⟩
  · exact ⟨"." ++ o, String.append_assoc, isPath_dot (hoperators o ho)⟩
  split at he
  · obtain ⟨a, ha, rfl⟩ := List.mem_map.1 he
    exact ⟨"." ++ a, String.append_assoc, isPath_dot (haccessors a ha)⟩
  · rcases List.mem_cons.1 he with rfl | he
    · exact ⟨"." ++ "between.size() != 2", by simp, isPath_dot (by decide)⟩
    · obtain ⟨a, ha, he⟩ := List.mem_flatMap.1 he
      obtain ⟨p, hp, rfl⟩ := List.mem_map.1 he
      refine ⟨"." ++ (a ++ "." ++ p), by simp only [String.append_assoc], isPath_dot ?_⟩
      simp [haccessors a ha, hfields p hp]

/-- **A key query reads the arguments that key queries have (`keyQueryArguments`), and what the name
of the key shows.** -/
theorem readsArgument_keyQueryRequest (hnames : ∀ n ∈ key.fields, Sdl.isName n = true)
    (hargument : ∀ a ∈ key.sortArgument?, Sdl.isName a = true) :
    ReadsArgument (keyQueryRequest key).text name ↔
      name ∈ keyQueryArguments key ∨ ReadsArgument (shownName key.name) name := by
  have hfields : ∀ n ∈ key.sortFields, '$' ∉ n.toList := fun n hn =>
    sign_not_mem_of_isName (hnames n (List.mem_cons_of_mem key.partition hn))
  have hsort : ∀ a ∈ key.sortArgument?,
      ((∃ e ∈ sortExpressions key a, ReadsArgument e name) ↔ a = name) := by
    intro a ha
    constructor
    · rintro ⟨e, he, hread⟩
      obtain ⟨tail, rfl, htail⟩ := exists_tail_of_mem_sortExpressions hfields he
      exact (readsArgument_argument (hargument a ha) htail).1 hread
    · intro hsame
      exact ⟨argument a, List.mem_cons_self, (readsArgument_word (hargument a ha)).2 hsame⟩
  have hwords : ∀ w ∈ listingArguments, Sdl.isName w = true := by decide
  have hmade := isMadeOf_keyQueryRequest hnames fun a ha => sign_not_mem_of_isName (hargument a ha)
  rw [hmade.readsArgument, exists_keyQueryExpressions,
    readsArgument_word (hnames key.partition List.mem_cons_self),
    exists_congr fun a => and_congr_right (hsort a),
    exists_congr fun w => and_congr_right fun hw => readsArgument_word (hwords w hw)]
  simp [keyQueryArguments, eq_comm, or_assoc]

/-! ### Parts of a composite sort key

Under an operator the argument holds the sort fields one by one, or, between two bounds, in a
list.  The expressions look at all of them, so the parts that are read are the sort fields.
-/

section Parts

variable {own accessor : String} (hown : Sdl.isName own = true)
  (haccessor : accessor ∈ sortAccessors)

include hown haccessor

/-- An expression that looks at no part reads none. -/
theorem not_readsPart_argument {word tail : String} (hword : Sdl.isName word = true)
    (htail : IsPath tail) (hother : ¬ ('.' :: (accessor.toList ++ ['.'])) <+: tail.toList) :
    ¬ ReadsPart own accessor (argument word ++ tail) name := by
  rw [readsPart_argument hword hown haccessor htail]
  rintro ⟨-, after, htext, -⟩
  exact hother ⟨name.toList ++ after, by simp [htext]⟩

theorem not_readsPart_word {word : String} (hword : Sdl.isName word = true) :
    ¬ ReadsPart own accessor (argument word) name := by
  rw [← String.append_empty (s := argument word)]
  exact not_readsPart_argument hown haccessor hword isPath_empty (by simp)

/-- **An expression reads the part that it looks at.** -/
theorem readsPart_part {word field part : String} (hword : Sdl.isName word = true)
    (hfield : field ∈ sortAccessors) (hpart : Sdl.isName part = true) :
    ReadsPart own accessor (argument word ++ "." ++ field ++ "." ++ part) name ↔
      word = own ∧ field = accessor ∧ part = name := by
  have hfields : ∀ a ∈ sortAccessors, '$' ∉ a.toList ∧ '.' ∉ a.toList := by decide
  have hdot : '.' ∉ part.toList := fun hmem =>
    absurd (Sdl.continuesName_of_isName hpart '.' hmem) (by decide)
  have htext : argument word ++ "." ++ field ++ "." ++ part
      = argument word ++ ("." ++ (field ++ "." ++ part)) := by simp only [String.append_assoc]
  have htail : IsPath ("." ++ (field ++ "." ++ part)) :=
    isPath_dot (by simp [(hfields field hfield).1, sign_not_mem_of_isName hpart])
  have hwhole := isWhole_of_isName hpart Sdl.apart_nil
  rw [htext, readsPart_argument hword hown haccessor htail]
  refine and_congr_right fun _ => ⟨?_, ?_⟩
  · rintro ⟨after, hsame, hname⟩
    have hparts : field.toList ++ '.' :: part.toList
        = accessor.toList ++ '.' :: (name.toList ++ after) := by simpa using hsame
    obtain ⟨hhere, -, hrest⟩ :=
      (List.append_cons_inj_of_notMem (hfields field hfield).2 hdot).1 hparts
    refine ⟨String.toList_inj.1 hhere, String.toList_inj.1 (hwhole.eq hname ?_).1⟩
    rw [List.append_nil, hrest]
  · rintro ⟨rfl, rfl⟩
    exact ⟨[], by simp, hwhole⟩

/-- Of the expressions for a composite sort key, those that look at parts read them. -/
theorem exists_readsPart_iff (hnames : ∀ n ∈ key.fields, Sdl.isName n = true)
    (hcomposite : key.isComposite = true) :
    (∃ e ∈ sortExpressions key own, ReadsPart own accessor e name) ↔ name ∈ key.sortFields := by
  have hparts : ∀ n ∈ key.sortFields, Sdl.isName n = true := fun n hn =>
    hnames n (List.mem_cons_of_mem key.partition hn)
  have hoperators : ∀ o ∈ sortOperators, '$' ∉ o.toList ∧
      ∀ a ∈ sortAccessors, ¬ ('.' :: (a.toList ++ ['.'])) <+: '.' :: o.toList := by decide
  have hsize : ∀ a ∈ sortAccessors,
      ¬ ('.' :: (a.toList ++ ['.'])) <+: ".between.size() != 2".toList := by decide
  have hexpressions : sortExpressions key own
      = argument own :: sortOperators.map (argument own ++ "." ++ ·)
        ++ (argument own ++ ".between.size() != 2") :: sortAccessors.flatMap fun a =>
          key.sortFields.map (argument own ++ "." ++ a ++ "." ++ ·) := by
    unfold sortExpressions
    split
    next field hone => simp [Key.isComposite, hone] at hcomposite
    · rfl
  rw [hexpressions]
  constructor
  · rintro ⟨e, he, hread⟩
    rw [List.mem_append, List.mem_cons, List.mem_cons, List.mem_map, List.mem_flatMap] at he
    rcases he with (rfl | ⟨o, ho, rfl⟩) | rfl | ⟨field, hfield, he⟩
    · exact absurd hread (not_readsPart_word hown haccessor hown)
    · rw [String.append_assoc] at hread
      exact absurd hread (not_readsPart_argument hown haccessor hown
        (isPath_dot (hoperators o ho).1) (by simpa using (hoperators o ho).2 accessor haccessor))
    · have htail : IsPath ("." ++ "between.size() != 2") := isPath_dot (by decide)
      exact absurd hread (not_readsPart_argument hown haccessor hown (by simpa using htail)
        (hsize accessor haccessor))
    · obtain ⟨part, hpart, rfl⟩ := List.mem_map.1 he
      exact ((readsPart_part hown haccessor hown hfield (hparts part hpart)).1 hread).2.2 ▸ hpart
  · intro hpart
    have hhere :=
      (readsPart_part hown haccessor hown haccessor (hparts name hpart)).2 ⟨rfl, rfl, rfl⟩
    refine ⟨_, List.mem_append_right _ (List.mem_cons_of_mem _ ?_), hhere⟩
    exact List.mem_flatMap.2 ⟨accessor, haccessor, List.mem_map_of_mem hpart⟩

/-- **Under each operator of `sortAccessors`, a query by a composite key reads the sort fields of
the key, and what the name of the key shows.** -/
theorem readsPart_keyQueryRequest (hnames : ∀ n ∈ key.fields, Sdl.isName n = true)
    (hcomposite : key.isComposite = true) (hsort : key.sortArgument? = some own) :
    ReadsPart own accessor (keyQueryRequest key).text name ↔
      name ∈ key.sortFields ∨ ReadsPart own accessor (shownName key.name) name := by
  have hplain : ∀ a ∈ key.sortArgument?, '$' ∉ a.toList := by
    intro a ha
    rw [hsort, Option.mem_some_iff] at ha
    exact ha ▸ sign_not_mem_of_isName hown
  have hwords : ¬ ∃ w ∈ listingArguments, ReadsPart own accessor (argument w) name := by
    have hnamed : ∀ w ∈ listingArguments, Sdl.isName w = true := by decide
    rintro ⟨w, hw, hread⟩
    exact not_readsPart_word hown haccessor (hnamed w hw) hread
  have hpartition : ¬ ReadsPart own accessor (argument key.partition) name :=
    not_readsPart_word hown haccessor (hnames key.partition List.mem_cons_self)
  rw [(isMadeOf_keyQueryRequest hnames hplain).readsPart hown haccessor, exists_keyQueryExpressions,
    or_iff_right hpartition, or_iff_right hwords, hsort]
  simp only [Option.mem_some_iff, exists_eq_left',
    exists_readsPart_iff hown haccessor hnames hcomposite]

end Parts

end Read

/-! ### Following a relation -/

/-- **Following a relation to many reads the arguments that lists have (`listingArguments`), and
what its names show.** -/
theorem readsArgument_relatedItemsRequest (yours mine : String) (index : Option String)
    {name : String} :
    ReadsArgument (relatedItemsRequest yours mine index).text name ↔
      name ∈ listingArguments ∨
        ∃ n ∈ [yours, mine] ++ (index.filter (· ≠ "")).toList, ReadsArgument n name := by
  have hwords : ∀ w ∈ listingArguments, Sdl.isName w = true := by decide
  have hlisting : (∃ e ∈ listingArguments.map argument, ReadsArgument e name) ↔
      name ∈ listingArguments := by
    simp only [List.mem_map, exists_exists_and_eq_and]
    rw [exists_congr fun w => and_congr_right fun hw => readsArgument_word (hwords w hw)]
    simp
  rw [(isMadeOf_relatedItemsRequest yours mine index).readsArgument, List.append_assoc]
  simp only [List.mem_append, or_and_right, exists_or, hlisting]

end SchemaLoom.Resolver