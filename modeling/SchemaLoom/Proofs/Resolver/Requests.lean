/-
What requests are made of.

A request is put together from expressions that look at the arguments of an operation, from
words, and from names of attributes and of indexes.  A line shows what its expressions show, and
a template what its lines show; so it is known what a request shows once its expressions are
listed (`Template.IsMadeOf`).  The names of attributes are names of the schema language, which
hold no sign of references.  The names of indexes may be any texts, and therefore count among the
expressions.

The statements are about any form of reference, since the same expressions are asked for
arguments and for parts of them.  What a single expression shows is left open here.

The conditions on a sort key of one field and on one of several fields differ only in the values
that they compare it with, so both are taken apart by one lemma (`shows_operators`).
-/
import SchemaLoom.Proofs.Resolver.Reference
import SchemaLoom.Proofs.Surface.Entries

namespace SchemaLoom.Resolver

open Surface (listingArguments)

/-! ### Names -/

/-- A name holds no sign of references. -/
theorem sign_not_mem_of_isName {name : String} (h : Sdl.isName name = true) : '$' ∉ name.toList :=
  Sdl.not_mem_of_isName (by decide) h

theorem sign_not_mem_joined {names : List String} (h : ∀ n ∈ names, '$' ∉ n.toList) :
    '$' ∉ (keySeparator.intercalate names).toList := by
  have hother : ∀ c ∈ (keySeparator.intercalate names).toList, c ≠ '$' :=
    forall_mem_intercalate (by simp [keySeparator]) fun n hn c hc hsign => h n hn (hsign ▸ hc)
  exact fun hmem => hother '$' hmem rfl

/-- The attributes of a key that is made of names hold no sign of references. -/
theorem sign_not_mem_attributes {key : Key} (hnames : ∀ n ∈ key.fields, Sdl.isName n = true) :
    ∀ a ∈ key.attributes, '$' ∉ a.toList := by
  have hplain : ∀ n ∈ key.fields, '$' ∉ n.toList := fun n hn => sign_not_mem_of_isName (hnames n hn)
  intro a ha
  rcases List.mem_cons.1 ha with rfl | ha
  · exact hplain key.partition List.mem_cons_self
  · rw [Option.mem_toList, Key.sortKey?] at ha
    split at ha
    · cases ha
    · cases ha
      exact sign_not_mem_joined fun n hn => hplain n (List.mem_cons_of_mem key.partition hn)

/-! ### Templates -/

/-- The template `t` shows what `expressions` show, whatever references look like. -/
def Template.IsMadeOf (t : Template) (expressions : List String) : Prop :=
  ∀ ⦃opening closing : String⦄, IsForm opening closing → ∀ name,
    t.Shows opening closing name ↔ ∃ e ∈ expressions, Resolver.Shows opening closing e name

/-! ### Getting an item -/

/-- Texts that are joined as in a shared attribute are kept apart. -/
theorem shows_joined {opening closing name : String} (h : IsForm opening closing)
    (texts : List String) :
    Shows opening closing (keySeparator.intercalate texts) name ↔
      ∃ text ∈ texts, Shows opening closing text name := by
  induction texts with
  | nil => exact iff_of_false (h.not_shows (by decide)) (by simp)
  | cons first rest ih =>
    cases rest with
    | nil => simp
    | cons next rest =>
      have hjoint : IsTail ['#'] ∧ IsLead ['#'] := by decide
      rw [String.intercalate_cons_cons, List.exists_mem_cons_iff, ← ih]
      exact h.shows_middle hjoint.1 hjoint.2 first _

/-- Getting an item takes the expressions for the values of its key. -/
theorem isMadeOf_getRequest {key : Key} (hplain : ∀ a ∈ key.attributes, '$' ∉ a.toList) :
    (getRequest key).IsMadeOf ((keyValues key "ctx.args").map (·.2)) := by
  intro opening closing h name
  have hentry : ∀ e ∈ keyValues key "ctx.args",
      (Shows opening closing (named e.1 ("$util.dynamodb.toDynamoDBJson(" ++ e.2 ++ ")")) name ↔
        Shows opening closing e.2 name) := by
    intro e he
    have hattribute : e.1 ∈ key.attributes :=
      map_fst_keyValues key "ctx.args" ▸ List.mem_map_of_mem he
    rw [shows_named h, h.shows_tail (by decide), h.shows_lead (by decide),
      or_iff_right (h.not_shows (isSilent_of_not_mem (hplain e.1 hattribute)))]
  rw [getRequest, keyMember, Template.shows_request h (by decide) (by decide)]
  simp only [List.mem_singleton, exists_eq_left]
  rw [Template.shows_submap h (by decide), keyEntries]
  simp only [List.mem_map, exists_exists_and_eq_and]
  exact exists_congr fun e => and_congr_right fun he => hentry e he

/-! ### Querying by a key

There is an expression for each way to compare a sort key.  Which of them a query has depends on
the sort fields alone (`sortExpressions`).
-/

/-- The fields of a sort argument. -/
def sortOperators : List String := ["beginsWith", "between"] ++ comparisons.map (·.1)

/-- The values in the fields of a sort argument. -/
def sortAccessors : List String :=
  ["beginsWith", "between[0]", "between[1]"] ++ comparisons.map (·.1)

/-- A comparison of the sort key names no argument. -/
theorem isSilent_comparison : ∀ c ∈ comparisons, IsSilent ("#sortKey " ++ c.2 ++ " :sortKey") := by
  decide

section Conditions

variable {opening closing name : String} (h : IsForm opening closing)

include h

theorem shows_narrow (condition : String) :
    Shows opening closing (narrow condition) name ↔ Shows opening closing condition name := by
  have htarget : ¬ Shows opening closing "$modelQueryExpression.expression" name :=
    h.not_shows_word (by decide)
  rw [narrow, shows_assign h, shows_quoted h, h.shows_lead (by decide), or_iff_right htarget]

theorem shows_sortKeyName (sortKey : String) :
    Shows opening closing (sortKeyName sortKey) name ↔ Shows opening closing sortKey name := by
  have hplaceholder : ¬ Shows opening closing "#sortKey" name := h.not_shows_word (by decide)
  rw [sortKeyName, shows_put h (by decide), shows_quoted h, or_iff_right hplaceholder]

theorem shows_sortKeyValue {placeholder : String} (hplaceholder : IsSilent placeholder)
    (value : String) : Shows opening closing (sortKeyValue placeholder value) name ↔
      Shows opening closing value name := by
  rw [sortKeyValue, shows_put h (by decide), or_iff_right (h.not_shows hplaceholder)]

/-- A condition on the sort key shows what the values do that it compares with. -/
theorem shows_condition {condition sortKey : String} (hcondition : IsSilent condition)
    (hkey : '$' ∉ sortKey.toList) {values : Template} :
    Template.Shows opening closing (narrow condition :: sortKeyName sortKey :: values) name ↔
      values.Shows opening closing name := by
  rw [Template.shows_cons, Template.shows_cons, shows_narrow h, shows_sortKeyName h,
    or_iff_right (h.not_shows hcondition),
    or_iff_right (h.not_shows (isSilent_of_not_mem hkey))]

theorem shows_whenSortGiven {sortArgument field : String} {body : Template} :
    Template.Shows opening closing (whenSortGiven sortArgument field body) name ↔
      Shows opening closing (argument sortArgument) name ∨
        Shows opening closing (argument sortArgument ++ "." ++ field) name ∨
          body.Shows opening closing name := by
  rw [whenSortGiven, Template.shows_whenever h,
    h.shows_middle (by decide) (by decide), shows_isGiven h, shows_isGiven h, or_assoc]

/-- Conditions on a sort key look at the sort argument, at its fields, and at values in them. -/
theorem shows_operators {sortArgument : String} {first second : Template}
    {other : String × String → Template} {check : Prop} {value : String → Prop}
    (hfirst : first.Shows opening closing name ↔ value "beginsWith")
    (hsecond : second.Shows opening closing name ↔ check ∨ value "between[0]" ∨ value "between[1]")
    (hother : ∀ c ∈ comparisons, (other c).Shows opening closing name ↔ value c.1) :
    Template.Shows opening closing
        (whenSortGiven sortArgument "beginsWith" first ++
          whenSortGiven sortArgument "between" second
          ++ comparisons.flatMap fun c => whenSortGiven sortArgument c.1 (other c)) name ↔
      Shows opening closing (argument sortArgument) name ∨
        (∃ o ∈ sortOperators, Shows opening closing (argument sortArgument ++ "." ++ o) name) ∨
          check ∨ ∃ a ∈ sortAccessors, value a := by
  rw [Template.shows_append, Template.shows_append, Template.shows_flatMap, shows_whenSortGiven h,
    shows_whenSortGiven h, hfirst, hsecond,
    exists_congr fun c => and_congr_right fun hc => by rw [shows_whenSortGiven h, hother c hc]]
  constructor
  · rintro (((hargument | hfield | hvalue) | hargument | hfield | hcheck | hvalue | hvalue) |
      ⟨c, hc, hargument | hfield | hvalue⟩)
    · exact Or.inl hargument
    · exact Or.inr (Or.inl ⟨"beginsWith", by decide, hfield⟩)
    · exact Or.inr (Or.inr (Or.inr ⟨"beginsWith", by decide, hvalue⟩))
    · exact Or.inl hargument
    · exact Or.inr (Or.inl ⟨"between", by decide, hfield⟩)
    · exact Or.inr (Or.inr (Or.inl hcheck))
    · exact Or.inr (Or.inr (Or.inr ⟨"between[0]", by decide, hvalue⟩))
    · exact Or.inr (Or.inr (Or.inr ⟨"between[1]", by decide, hvalue⟩))
    · exact Or.inl hargument
    · exact Or.inr (Or.inl ⟨c.1, List.mem_append_right _ (List.mem_map_of_mem hc), hfield⟩)
    · exact Or.inr (Or.inr (Or.inr
        ⟨c.1, List.mem_append_right _ (List.mem_map_of_mem hc), hvalue⟩))
  · rintro (hargument | ⟨o, ho, hfield⟩ | hcheck | ⟨a, ha, hvalue⟩)
    · exact Or.inl (Or.inl (Or.inl hargument))
    · simp only [sortOperators, List.mem_append, List.mem_cons, List.not_mem_nil, or_false,
        List.mem_map] at ho
      rcases ho with (rfl | rfl) | ⟨c, hc, rfl⟩
      · exact Or.inl (Or.inl (Or.inr (Or.inl hfield)))
      · exact Or.inl (Or.inr (Or.inr (Or.inl hfield)))
      · exact Or.inr ⟨c, hc, Or.inr (Or.inl hfield)⟩
    · exact Or.inl (Or.inr (Or.inr (Or.inr (Or.inl hcheck))))
    · simp only [sortAccessors, List.mem_append, List.mem_cons, List.not_mem_nil, or_false,
        List.mem_map] at ha
      rcases ha with (rfl | rfl | rfl) | ⟨c, hc, rfl⟩
      · exact Or.inl (Or.inl (Or.inr (Or.inr hvalue)))
      · exact Or.inl (Or.inr (Or.inr (Or.inr (Or.inr (Or.inl hvalue)))))
      · exact Or.inl (Or.inr (Or.inr (Or.inr (Or.inr (Or.inr hvalue)))))
      · exact Or.inr ⟨c, hc, Or.inr (Or.inr hvalue)⟩

/-- Conditions on a sort key of one field compare it with values. -/
theorem shows_simpleSortLines {sortKey : String} (hkey : '$' ∉ sortKey.toList)
    (sortArgument : String) :
    Template.Shows opening closing (simpleSortLines sortKey sortArgument) name ↔
      Shows opening closing (argument sortArgument) name ∨
        (∃ o ∈ sortOperators, Shows opening closing (argument sortArgument ++ "." ++ o) name) ∨
          False ∨
            ∃ a ∈ sortAccessors, Shows opening closing
              (argument sortArgument ++ "." ++ a) name := by
  refine shows_operators h ?_ ?_ fun c hc => ?_
  · rw [shows_condition h (by decide) hkey, Template.shows_singleton,
      shows_sortKeyValue h (by decide), shows_stored h]
  · rw [shows_condition h (by decide) hkey, Template.shows_cons, Template.shows_singleton,
      shows_sortKeyValue h (by decide), shows_sortKeyValue h (by decide),
      shows_stored h, shows_stored h, false_or]
  · rw [shows_condition h (isSilent_comparison c hc) hkey, Template.shows_singleton,
      shows_sortKeyValue h (by decide), shows_stored h]

/-- Joining parts looks at each of them. -/
theorem shows_joinParts {target : String} (htarget : IsSilent target)
    (hlead : IsLead (target ++ keySeparator).toList) (sortArgument field : String)
    (parts : List String) :
    Template.Shows opening closing (joinParts sortArgument field parts target) name ↔
      ∃ p ∈ parts, Shows opening closing
        (argument sortArgument ++ "." ++ field ++ "." ++ p) name := by
  have hsilent : ¬ Shows opening closing target name := h.not_shows htarget
  have hstart : ¬ Shows opening closing (assign target (quoted "")) name := by
    rw [shows_assign h, not_or, shows_quoted h]
    exact ⟨hsilent, h.not_shows (by decide)⟩
  have hpart : ∀ p value : String,
      (Shows opening closing value name ↔
        Shows opening closing (argument sortArgument ++ "." ++ field ++ "." ++ p) name) →
      (Shows opening closing
          ("#if( " ++ isGiven (argument sortArgument ++ "." ++ field ++ "." ++ p) ++ " ) "
            ++ assign target (quoted value) ++ " #end") name ↔
        Shows opening closing (argument sortArgument ++ "." ++ field ++ "." ++ p) name) := by
    intro p value hvalue
    rw [h.shows_tail (by decide), h.shows_middle (by decide) (by decide),
      h.shows_lead (by decide), shows_isGiven h, shows_assign h, shows_quoted h,
      or_iff_right hsilent, hvalue, or_self]
  unfold joinParts
  dsimp only
  rw [Template.shows_cons, or_iff_right hstart]
  cases parts with
  | nil => exact iff_of_false Template.not_shows_nil (by simp)
  | cons first rest =>
    rw [Template.shows_cons, List.exists_mem_cons_iff]
    refine or_congr (hpart first _ (by rw [String.empty_append])) ?_
    simp only [Template.Shows, List.mem_map, exists_exists_and_eq_and]
    refine exists_congr fun p => and_congr_right fun _ => hpart p _ ?_
    have hsplit : target ++ keySeparator ++ (argument sortArgument ++ "." ++ field) ++ "." ++ p
        = target ++ keySeparator ++ (argument sortArgument ++ "." ++ field ++ "." ++ p) := by
      simp only [String.append_assoc]
    have hfixed : String.ofList (target ++ keySeparator).toList = target ++ keySeparator :=
      String.ofList_toList
    rw [hsplit, ← hfixed, h.shows_lead hlead]

/-- Conditions on a sort key of several fields compare it with values that join parts. -/
theorem shows_compositeSortLines {sortKey sortArgument : String} (hkey : '$' ∉ sortKey.toList)
    (hargument : '$' ∉ sortArgument.toList) (parts : List String) :
    Template.Shows opening closing (compositeSortLines sortKey sortArgument parts) name ↔
      Shows opening closing (argument sortArgument) name ∨
        (∃ o ∈ sortOperators, Shows opening closing (argument sortArgument ++ "." ++ o) name) ∨
          Shows opening closing (argument sortArgument ++ ".between.size() != 2") name ∨
            ∃ a ∈ sortAccessors, ∃ p ∈ parts,
              Shows opening closing (argument sortArgument ++ "." ++ a ++ "." ++ p) name := by
  -- a single value is compared under every operator but that of ranges
  have hsingle : ∀ field condition : String, IsSilent condition →
      (Template.Shows opening closing
        (joinParts sortArgument field parts "$sortKeyValue"
          ++ [narrow condition, sortKeyName sortKey,
            sortKeyValue ":sortKey" (storedText "$sortKeyValue")]) name ↔
        ∃ p ∈ parts,
          Shows opening closing (argument sortArgument ++ "." ++ field ++ "." ++ p) name) := by
    intro field condition hcondition
    rw [Template.shows_append, shows_joinParts h (by decide) (by decide),
      shows_condition h hcondition hkey, Template.shows_singleton,
      shows_sortKeyValue h (by decide), or_iff_left (h.not_shows (by decide))]
  refine shows_operators h (hsingle "beginsWith" _ (by decide)) ?_
    fun c hc => hsingle c.1 _ (isSilent_comparison c hc)
  have hcomplaint : ¬ Shows opening closing ("$util.error(\"Argument " ++ sortArgument
      ++ ".between expects exactly 2 elements.\")") name := by
    rw [String.append_assoc, h.shows_lead (by decide)]
    exact h.not_shows (isSilent_of_not_mem (by simp [hargument]))
  have hfirst : ¬ Shows opening closing (storedText "$sortKeyValue0") name :=
    h.not_shows (by decide)
  have hsecond : ¬ Shows opening closing (storedText "$sortKeyValue1") name :=
    h.not_shows (by decide)
  rw [Template.shows_append, Template.shows_append, Template.shows_append,
    Template.shows_whenever h, Template.shows_singleton, or_iff_left hcomplaint,
    shows_joinParts h (by decide) (by decide),
    shows_joinParts h (by decide) (by decide),
    shows_condition h (by decide) hkey, Template.shows_cons, Template.shows_singleton,
    shows_sortKeyValue h (by decide), shows_sortKeyValue h (by decide), or_assoc,
    or_assoc, or_iff_left hsecond, or_iff_left hfirst]

end Conditions

/-- The expressions by which a key query looks at its sort argument. -/
def sortExpressions (key : Key) (sortArgument : String) : List String :=
  argument sortArgument :: sortOperators.map (argument sortArgument ++ "." ++ ·)
    ++ match key.sortFields with
      | [_] => sortAccessors.map (argument sortArgument ++ "." ++ ·)
      | parts =>
        (argument sortArgument ++ ".between.size() != 2")
          :: sortAccessors.flatMap fun a => parts.map (argument sortArgument ++ "." ++
            a ++ "." ++ ·)

/-- The expressions of a key query; the name of the key is shown as it is. -/
def keyQueryExpressions (key : Key) : List String :=
  argument key.partition :: key.sortArgument?.elim [] (sortExpressions key)
    ++ listingArguments.map argument ++ [shownName key.name]

theorem exists_keyQueryExpressions {key : Key} {P : String → Prop} :
    (∃ e ∈ keyQueryExpressions key, P e) ↔
      P (argument key.partition) ∨ (∃ a ∈ key.sortArgument?, ∃ e ∈ sortExpressions key a, P e) ∨
        (∃ w ∈ listingArguments, P (argument w)) ∨ P (shownName key.name) := by
  have hsort : (∃ e ∈ key.sortArgument?.elim [] (sortExpressions key), P e) ↔
      ∃ a ∈ key.sortArgument?, ∃ e ∈ sortExpressions key a, P e := by
    cases key.sortArgument? with
    | none => simp
    | some a => simp
  rw [← hsort, keyQueryExpressions]
  simp [or_and_right, exists_or]

section Requests

variable {opening closing name : String} (h : IsForm opening closing)

include h

theorem shows_limitLine :
    Shows opening closing limitLine name ↔ Shows opening closing (argument "limit") name := by
  have htarget : ¬ Shows opening closing "$limit" name := h.not_shows_word (by decide)
  have hdefault : ¬ Shows opening closing "100" name := h.not_shows_word (by decide)
  rw [limitLine, shows_assign h, shows_orElse h, or_iff_right htarget, or_iff_left hdefault]

theorem shows_parsedFilter :
    Shows opening closing parsedFilter name ↔ Shows opening closing (argument "filter") name := by
  have htext : parsedFilter = "$util.parseJson(\"$util.transform.toDynamoDBFilterExpression("
      ++ argument "filter" ++ ")\")" := by decide
  rw [htext, h.shows_tail (by decide), h.shows_lead (by decide)]

/-- The order of a request shows only what it depends on. -/
theorem shows_directionLines :
    Template.Shows opening closing (directionLines "$QueryRequest") name ↔
    Shows opening closing (argument "sortDirection") name := by
  have hbodies : ∀ value ∈ ["true", "false"], ¬ Template.Shows opening closing
      [assign ("$QueryRequest" ++ ".scanIndexForward") value] name := by
    intro value hvalue
    rw [Template.shows_singleton]
    exact h.not_shows (by revert value; decide)
  rw [directionLines, Template.shows_choose h, isDescending, h.shows_tail (by decide),
    h.shows_middle (by decide) (by decide), shows_isGiven h, or_self,
    or_iff_left (not_or.2 ⟨hbodies "false" (by simp), hbodies "true" (by simp)⟩)]

theorem shows_partitionNeeded {partition sortArgument : String}
    (hpartition : '$' ∉ partition.toList)
    (hargument : '$' ∉ sortArgument.toList) :
    Template.Shows opening closing (partitionNeeded partition sortArgument) name ↔
      Shows opening closing (argument sortArgument) name ∨
        Shows opening closing (argument partition) name := by
  have hcomplaint : ¬ Shows opening closing
      ("$util.error(\"When providing argument '" ++ sortArgument
        ++ "' you must also provide argument '" ++ partition ++ "'\", \"InvalidArgumentsError\")")
      name := by
    rw [h.shows_tail (by decide), h.shows_middle (by decide) (by decide),
      h.shows_lead (by decide), not_or]
    exact ⟨h.not_shows (isSilent_of_not_mem hargument),
      h.not_shows (isSilent_of_not_mem hpartition)⟩
  rw [partitionNeeded, Template.shows_whenever h, Template.shows_singleton, or_iff_left hcomplaint,
    h.shows_tail (by decide), h.shows_middle (by decide) (by decide),
    shows_isGiven h]

theorem shows_partitionLines {partition : String} (hpartition : '$' ∉ partition.toList) :
    Template.Shows opening closing (partitionLines partition) name ↔
      Shows opening closing (argument partition) name := by
  have hplain : ∀ text : String, '$' ∉ text.toList → ¬ Shows opening closing text name :=
    fun text htext => h.not_shows (isSilent_of_not_mem htext)
  have htarget : ¬ Shows opening closing "$modelQueryExpression.expression" name :=
    h.not_shows_word (by decide)
  have hequation := hplain ("#" ++ partition ++ " = :" ++ partition) (by simp [hpartition])
  have hname := hplain ("#" ++ partition) (by simp [hpartition])
  have hvalue := hplain (":" ++ partition) (by simp [hpartition])
  rw [partitionLines, Template.shows_whenever h, List.cons_append, Template.shows_cons,
    Template.shows_append, Template.shows_mapping h (by decide) (by decide),
    Template.shows_mapping h (by decide) (by decide)]
  simp only [List.mem_singleton, exists_eq_left]
  rw [Template.shows_singleton, Template.shows_singleton, shows_assign h, shows_quoted h,
    shows_named h, shows_named h, shows_quoted h, shows_stored h, or_iff_right htarget,
    or_iff_right hequation, or_iff_right hname, or_iff_right hvalue,
    or_iff_right (hplain partition hpartition), shows_isGiven h, or_self]

theorem shows_sortLines {key : Key} (hkey : ∀ n ∈ key.sortFields, '$' ∉ n.toList)
    {sortArgument : String}
    (hargument : '$' ∉ sortArgument.toList) :
    Template.Shows opening closing (sortLines key sortArgument) name ↔
      ∃ e ∈ sortExpressions key sortArgument, Shows opening closing e name := by
  obtain ⟨partition, sortFields, keyName, queryField⟩ := key
  unfold sortLines sortExpressions
  split
  next field hone =>
    dsimp only at hone
    subst hone
    rw [shows_simpleSortLines h (hkey field (by simp)), false_or]
    simp [or_and_right, exists_or]
  next fields hother =>
    dsimp only at hkey
    rw [shows_compositeSortLines h (sign_not_mem_joined hkey) hargument]
    simp [or_and_right, exists_or, and_assoc]

/-- The conditions on the sort key stand between remarks. -/
theorem shows_appliedConditions {key : Key} (hkey : ∀ n ∈ key.sortFields, '$' ∉ n.toList)
    {sortArgument : String} (hargument : '$' ∉ sortArgument.toList) :
    Template.Shows opening closing
        (remark "[Start] Applying Key Condition" :: sortLines key sortArgument
          ++ [remark "[End] Applying Key Condition"]) name ↔
      ∃ e ∈ sortExpressions key sortArgument, Shows opening closing e name := by
  have hstart : ¬ Shows opening closing (remark "[Start] Applying Key Condition") name :=
    h.not_shows (by decide)
  have hend : ¬ Shows opening closing (remark "[End] Applying Key Condition") name :=
    h.not_shows (by decide)
  rw [List.cons_append, Template.shows_cons, Template.shows_append, Template.shows_singleton,
    shows_sortLines h hkey hargument, or_iff_right hstart, or_iff_left hend]

/-- Of what a query is begun with, only the name of its index is no fixed word. -/
theorem shows_queryMapping (index : String) :
    Template.Shows opening closing
        (mapping "#set( $QueryRequest = "
          [[named "version" (quoted "2017-02-28")], [named "operation" (quoted "Query")],
            [named "limit" "$limit"], [named "query" "$modelQueryExpression"],
            [named "index" (quoted index)]] " )") name ↔
      Shows opening closing index name := by
  have hwords : ∀ line ∈ [named "version" (quoted "2017-02-28"), named "operation" (quoted "Query"),
      named "limit" "$limit", named "query" "$modelQueryExpression"],
      ¬ Shows opening closing line name :=
    fun line hline => h.not_shows (by revert line; decide)
  simp only [List.forall_mem_cons] at hwords
  obtain ⟨hversion, hoperation, hlimit, hquery, -⟩ := hwords
  have hindex : ¬ Shows opening closing "index" name := h.not_shows_word (by decide)
  rw [Template.shows_mapping h (by decide) (by decide)]
  simp only [List.exists_mem_cons_iff, Template.shows_singleton, hversion, hoperation, hlimit,
    hquery, shows_named h, shows_quoted h, hindex, false_or, List.not_mem_nil, false_and,
    exists_const, or_false]

/-- What is set if an argument is given shows the argument. -/
theorem shows_inlineSet {target value : String} (htarget : IsSilent ("$QueryRequest." ++ target))
    (hvalue : Shows opening closing value name ↔ Shows opening closing (argument target) name) :
    Shows opening closing
        ("#if( " ++ argument target ++ " ) " ++
          assign ("$QueryRequest." ++ target) value ++ " #end")
        name ↔ Shows opening closing (argument target) name := by
  rw [h.shows_tail (by decide), h.shows_middle (by decide) (by decide),
    h.shows_lead (by decide), shows_assign h, or_iff_right (h.not_shows htarget), hvalue,
    or_self]

end Requests

/-- **A key query takes the expressions for its arguments (`keyQueryExpressions`), and shows the
name of the key.** -/
theorem isMadeOf_keyQueryRequest {key : Key} (hnames : ∀ n ∈ key.fields, Sdl.isName n = true)
    (hargument : ∀ a ∈ key.sortArgument?, '$' ∉ a.toList) :
    (keyQueryRequest key).IsMadeOf (keyQueryExpressions key) := by
  intro opening closing h name
  have hpartition : '$' ∉ key.partition.toList :=
    sign_not_mem_of_isName (hnames key.partition List.mem_cons_self)
  have hfields : ∀ n ∈ key.sortFields, '$' ∉ n.toList := fun n hn =>
    sign_not_mem_of_isName (hnames n (List.mem_cons_of_mem key.partition hn))
  have hstart : ¬ Template.Shows opening closing
      [remark "[Start] Set query expression for @key", assign "$modelQueryExpression" "\x7b\x7d"]
      name :=
    Template.not_shows h (by decide)
  have hlimit : Template.Shows opening closing
      [remark "[End] Set query expression for @key", limitLine] name ↔
        Shows opening closing (argument "limit") name := by
    rw [Template.shows_cons, Template.shows_singleton, shows_limitLine h,
      or_iff_right (h.not_shows (by decide))]
  have hend : ¬ Shows opening closing "$util.toJson($QueryRequest)" name :=
    h.not_shows_word (by decide)
  unfold keyQueryRequest
  dsimp only
  rw [Template.shows_append, Template.shows_append, Template.shows_append, Template.shows_append,
    Template.shows_append, Template.shows_append, Template.shows_append, or_iff_right hstart,
    Template.shows_elim, Template.shows_elim, shows_partitionLines h hpartition, hlimit,
    shows_queryMapping h, shows_directionLines h, Template.shows_cons, Template.shows_cons,
    Template.shows_singleton, or_iff_left hend, shows_inlineSet h (by decide) Iff.rfl,
    shows_inlineSet h (by decide) (shows_parsedFilter h),
    exists_congr fun a => and_congr_right fun ha =>
      shows_partitionNeeded h hpartition (hargument a ha),
    exists_congr fun a => and_congr_right fun ha =>
      shows_appliedConditions h hfields (hargument a ha)]
  rw [exists_keyQueryExpressions]
  constructor
  · rintro
      ((((((⟨a, ha, hsort | hhere⟩ | hhere) | hsort) | hword) | hname) | hword) | hword | hword)
    · exact Or.inr (Or.inl ⟨a, ha, argument a, List.mem_cons_self, hsort⟩)
    · exact Or.inl hhere
    · exact Or.inl hhere
    · exact Or.inr (Or.inl hsort)
    · exact Or.inr (Or.inr (Or.inl ⟨"limit", by decide, hword⟩))
    · exact Or.inr (Or.inr (Or.inr hname))
    · exact Or.inr (Or.inr (Or.inl ⟨"sortDirection", by decide, hword⟩))
    · exact Or.inr (Or.inr (Or.inl ⟨"nextToken", by decide, hword⟩))
    · exact Or.inr (Or.inr (Or.inl ⟨"filter", by decide, hword⟩))
  · rintro (hhere | hsort | ⟨w, hw, hword⟩ | hname)
    · exact Or.inl (Or.inl (Or.inl (Or.inl (Or.inl (Or.inr hhere)))))
    · exact Or.inl (Or.inl (Or.inl (Or.inl (Or.inr hsort))))
    · simp only [listingArguments, List.mem_cons, List.not_mem_nil, or_false] at hw
      rcases hw with rfl | rfl | rfl | rfl
      · exact Or.inl (Or.inr hword)
      · exact Or.inr (Or.inr hword)
      · exact Or.inl (Or.inl (Or.inl (Or.inr hword)))
      · exact Or.inr (Or.inl hword)
    · exact Or.inl (Or.inl (Or.inr hname))

/-! ### Following a relation -/

section Related

variable {opening closing name : String} (h : IsForm opening closing)

include h

theorem shows_matching (yours mine : String) :
    (∃ m ∈ matching yours mine, m.Shows opening closing name) ↔
      Shows opening closing yours name ∨ Shows opening closing mine name := by
  have hexpression : ¬ Shows opening closing
      (named "expression" (quoted "#connectionAttribute = :connectionAttribute")) name :=
    h.not_shows (by decide)
  have hname : ¬ Shows opening closing "#connectionAttribute" name := h.not_shows_word (by decide)
  have hvalue : ¬ Shows opening closing ":connectionAttribute" name := h.not_shows_word (by decide)
  simp only [matching, List.exists_mem_cons_iff, List.not_mem_nil, false_and, exists_const,
    or_false, Template.shows_singleton]
  rw [Template.shows_submap h (by decide), Template.shows_submap h (by decide),
    or_iff_right hexpression]
  simp only [List.mem_singleton, exists_eq_left]
  rw [shows_named h, shows_named h, shows_quoted h, shows_stored h, h.shows_source,
    or_iff_right hname, or_iff_right hvalue]

/-- A choice of a member between an expression and a word shows its condition and the expression. -/
theorem shows_chosenMember {word condition body otherwise : String} (hword : IsSilent word)
    (hotherwise : IsSilent otherwise) :
    Shows opening closing (named word
        ("#if( " ++ condition ++ " ) " ++ body ++ " #else " ++ otherwise ++ " #end")) name ↔
      Shows opening closing condition name ∨ Shows opening closing body name := by
  rw [shows_named h, or_iff_right (h.not_shows hword), h.shows_tail (by decide),
    h.shows_middle (by decide) (by decide), or_iff_left (h.not_shows hotherwise),
    h.shows_middle (by decide) (by decide), h.shows_lead (by decide)]

/-- An index that is named is shown by its name. -/
theorem exists_shows_indexMember (index : Option String) :
    (∃ m ∈ (index.map fun n => [named "index" (quoted n)]).toList,
        Template.Shows opening closing m name) ↔
      ∃ n ∈ index.toList, Shows opening closing n name := by
  have hword : ¬ Shows opening closing "index" name := h.not_shows_word (by decide)
  cases index with
  | none => simp
  | some n => simp [Template.shows_singleton, shows_named h, shows_quoted h, hword]

end Related

/-- **Following a relation to many takes the expressions for `listingArguments`, and shows its
names.** -/
theorem isMadeOf_relatedItemsRequest (yours mine : String) (index : Option String) :
    (relatedItemsRequest yours mine index).IsMadeOf
      (listingArguments.map argument ++ [yours, mine] ++ (index.filter (· ≠ "")).toList) := by
  intro opening closing h name
  have hquery : ¬ Shows opening closing (named "query" "$util.toJson($query)") name :=
    h.not_shows (by decide)
  have hlimit : ¬ Shows opening closing (named "limit" "$limit") name :=
    h.not_shows (by decide)
  have horder : Shows opening closing
      (argument "sortDirection" ++ " && " ++ argument "sortDirection" ++ " == \"DESC\"") name ↔
        Shows opening closing (argument "sortDirection") name := by
    rw [h.shows_tail (by decide), h.shows_middle (by decide) (by decide),
      or_self]
  have hfalse : ¬ Shows opening closing "false" name := h.not_shows_word (by decide)
  have hfilter :
      Shows opening closing "$util.transform.toDynamoDBFilterExpression($ctx.args.filter)"
      name ↔ Shows opening closing (argument "filter") name := by
    -- The literal is cut where the argument stands in it.
    have htext : "$util.transform.toDynamoDBFilterExpression($ctx.args.filter)"
        = "$util.transform.toDynamoDBFilterExpression(" ++ argument "filter" ++ ")" := by decide
    rw [htext, h.shows_tail (by decide), h.shows_lead (by decide)]
  have hnext : Shows opening closing "$util.toJson($ctx.args.nextToken)" name ↔
      Shows opening closing (argument "nextToken") name := by
    have htext : "$util.toJson($ctx.args.nextToken)"
        = "$util.toJson(" ++ argument "nextToken" ++ ")" := by decide
    rw [htext, h.shows_tail (by decide), h.shows_lead (by decide)]
  unfold relatedItemsRequest
  dsimp only
  rw [List.cons_append, Template.shows_cons, Template.shows_append, shows_limitLine h,
    Template.shows_mapping h (by decide) (by decide), shows_matching h,
    Template.shows_request h (by decide) (by decide)]
  simp only [List.mem_append, or_and_right, exists_or, exists_shows_indexMember h]
  simp only [List.exists_mem_cons_iff, List.not_mem_nil, false_and, exists_const, or_false,
    Template.shows_singleton]
  rw [or_iff_right hquery, shows_chosenMember h (by decide) (by decide), horder,
    or_iff_left hfalse, shows_chosenMember h (by decide) (by decide), hfilter, or_self,
    or_iff_right hlimit, shows_chosenMember h (by decide) (by decide), hnext, or_self]
  constructor
  · rintro (hword | hgiven | (hword | hword | hword) | hindex)
    · exact Or.inl (Or.inl ⟨_, List.mem_map_of_mem (by decide), hword⟩)
    · exact Or.inl (Or.inr hgiven)
    · exact Or.inl (Or.inl ⟨_, List.mem_map_of_mem (by decide), hword⟩)
    · exact Or.inl (Or.inl ⟨_, List.mem_map_of_mem (by decide), hword⟩)
    · exact Or.inl (Or.inl ⟨_, List.mem_map_of_mem (by decide), hword⟩)
    · exact Or.inr hindex
  · rintro ((⟨e, he, hword⟩ | hgiven) | hindex)
    · simp only [listingArguments, List.map_cons, List.map_nil, List.mem_cons, List.not_mem_nil,
        or_false] at he
      rcases he with rfl | rfl | rfl | rfl
      · exact Or.inr (Or.inr (Or.inl (Or.inl hword)))
      · exact Or.inr (Or.inr (Or.inl (Or.inr (Or.inl hword))))
      · exact Or.inl hword
      · exact Or.inr (Or.inr (Or.inl (Or.inr (Or.inr hword))))
    · exact Or.inr (Or.inl hgiven)
    · exact Or.inr (Or.inr (Or.inr hindex))

end SchemaLoom.Resolver
