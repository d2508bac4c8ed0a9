/-
Requests whose blocks are balanced.

A request is made of statements, of blocks and of map literals, which close what they open.  What
may spoil the balance are number signs in front of names: a composite sort key joins the names of
its fields in the attribute that they share, a marker joins the names of its type and field to a
key, and a key query calls its partition by its name.  If one of these names is the word `end`,
the number sign and the name close a block that is not open; all other requests are balanced.

What the requests of items come to is told elsewhere, block by block.  Here queries by a key are
added, and the conditions of all requests of a table put together.  A condition is carried
through a template as what its blocks are level under (`LevelIf`), so the statement is exact both
ways.
-/
import SchemaLoom.Proofs.Resolver.ItemBlocks
import SchemaLoom.Resolver.Listing

namespace SchemaLoom.Resolver

/-! ### Querying by a key -/

section Query

variable {key : Key} {sortArgument : String}

theorem level_limitLine : Level limitLine :=
  level_assign (by decide) (plain_orElse.2 ⟨plain_argument.2 (by decide), by decide⟩)

theorem level_directionLines {variableName : String} (hvariable : Plain variableName) :
    (directionLines variableName).Level := by
  have hdescending : Plain isDescending := by
    simp only [isDescending, plain_append, plain_isGiven, plain_argument,
      (by decide : Plain "sortDirection"), (by decide : Plain " && "),
      (by decide : Plain " == \"DESC\""), and_true]
  have htarget : Plain (variableName ++ ".scanIndexForward") :=
    plain_append.2 ⟨hvariable, plain_ofList rfl⟩
  exact (Template.levelIf_choose (level_of_plain hdescending)
    (Template.level_line (level_assign htarget (by decide)))
    (Template.level_line (level_assign htarget (by decide)))).congr (and_iff_left trivial)

/-- The placeholder of the partition is its name behind a number sign. -/
theorem levelIf_partitionLines {partition : String} (hname : Sdl.isName partition = true) :
    (partitionLines partition).LevelIf (partition ≠ "end") := by
  have hplain := plain_of_isName hname
  have hplaceholder : LevelIf ("#" ++ partition) (partition ≠ "end") := by
    have hbehind := LevelIf.behind_name hname (level_of_plain (by decide : Plain "")) (by decide)
    rw [String.append_empty] at hbehind
    exact hbehind.congr (and_iff_left trivial)
  have hequal : LevelIf ("#" ++ partition ++ " = :" ++ partition) (partition ≠ "end") := by
    have hparted : Parted (" = :" ++ partition).toList := by
      rw [String.toList_append]
      exact (by decide : Parted (" = :".toList ++ []))
    have hbehind := LevelIf.behind_name hname
      (level_of_plain (plain_append.2 ⟨(by decide : Plain " = :"), hplain⟩)) hparted
    rw [← String.append_assoc] at hbehind
    exact hbehind.congr (and_iff_left trivial)
  have hexpression := levelIf_assign (plain_ofList rfl : Plain "$modelQueryExpression.expression")
    (levelIf_quoted hequal)
  have hnames := Template.levelIf_mapping
    (level_ofList (by decide) : Level "#set( $modelQueryExpression.expressionNames = ")
    (by decide : Plain " )")
    (membersLevel_nil.line (hplaceholder.named (levelIf_quoted (level_of_plain hplain))))
  have hvalue : Plain (named (":" ++ partition) (stored (argument partition))) :=
    plain_named.2 ⟨plain_append.2 ⟨by decide, hplain⟩, plain_stored.2 (plain_argument.2 hplain)⟩
  have hvalues := Template.levelIf_mapping
    (level_ofList (by decide) : Level "#set( $modelQueryExpression.expressionValues = ")
    (by decide : Plain " )") (membersLevel_nil.line (level_of_plain hvalue))
  have hgiven : Level (isGiven (argument partition)) :=
    level_of_plain (plain_isGiven.2 (plain_argument.2 hplain))
  exact (Template.levelIf_whenever hgiven ((hnames.append hvalues).cons hexpression)).congr
    (by simp)

theorem level_partitionNeeded {partition : String} (hpartition : Plain partition)
    (hargument : Plain sortArgument) : (partitionNeeded partition sortArgument).Level := by
  have hcondition : Plain (isGiven (argument sortArgument) ++ " && $util.isNull("
      ++ argument partition ++ ")") := by
    simp only [plain_append, plain_isGiven, plain_argument, hpartition, hargument, and_true,
      (plain_ofList rfl : Plain " && $util.isNull("), (by decide : Plain ")")]
  have hmessage : Plain ("$util.error(\"When providing argument '" ++ sortArgument
      ++ "' you must also provide argument '" ++
        partition ++ "'\", \"InvalidArgumentsError\")") := by
    simp only [plain_append, hpartition, hargument, and_true,
      (plain_ofList rfl : Plain "$util.error(\"When providing argument '"),
      (plain_ofList rfl : Plain "' you must also provide argument '"),
      (plain_ofList rfl : Plain "'\", \"InvalidArgumentsError\")")]
  exact Template.levelIf_whenever (level_of_plain hcondition)
    (Template.level_line (level_of_plain hmessage))

/-- A condition on the sort key shows the name of its attribute. -/
theorem levelIf_condition {condition sortKey : String} (hcondition : Level condition) {P : Prop}
    (hkey : LevelIf sortKey P) {values : Template} (hvalues : values.Level) :
    Template.LevelIf (narrow condition :: sortKeyName sortKey :: values) P := by
  have hnarrow : Level (narrow condition) :=
    levelIf_assign (plain_ofList rfl)
      (levelIf_quoted (LevelIf.behind hcondition (plain_ofList rfl)))
  have hname : LevelIf (sortKeyName sortKey) P :=
    (levelIf_put (plain_ofList rfl) (level_ofList (by decide)) (levelIf_quoted hkey)).congr
      (and_iff_right trivial)
  exact ((Template.LevelIf.cons hvalues hname).cons hnarrow).congr (by simp)

theorem level_sortKeyValue {placeholder value : String} (hplaceholder : Plain placeholder)
    (hvalue : Level value) : Level (sortKeyValue placeholder value) :=
  (levelIf_put (plain_ofList rfl) (level_of_plain hplaceholder) hvalue).congr (and_iff_left trivial)

theorem level_beginsWith : Level beginsWith := level_ofList (by decide)

theorem level_between : Level between := level_ofList (by decide)

theorem level_comparison : ∀ c ∈ comparisons, Level ("#sortKey " ++ c.2 ++ " :sortKey") := by
  have hmarks : ∀ c ∈ comparisons, blockMarks false ("#sortKey " ++ c.2 ++ " :sortKey").toList = []
      ∧ endsInRemark false ("#sortKey " ++ c.2 ++ " :sortKey").toList = false := by decide
  exact fun c hc => level_of_blockMarks (hmarks c hc)

theorem plain_comparison : ∀ c ∈ comparisons, Plain c.1 := by decide

section Lines

variable (hargument : Plain sortArgument)

include hargument

theorem plain_accessor {accessor : String} (haccessor : Plain accessor) :
    Plain (argument sortArgument ++ "." ++ accessor) := by
  simp only [plain_append, plain_argument, hargument, haccessor, (by decide : Plain "."), and_true]

theorem levelIf_whenSortGiven {P : Prop} {field : String} (hfield : Plain field) {body : Template}
    (hbody : body.LevelIf P) : (whenSortGiven sortArgument field body).LevelIf P := by
  have hgiven : Plain (isGiven (argument sortArgument) ++ " && "
      ++ isGiven (argument sortArgument ++ "." ++ field)) := by
    simp only [plain_append, plain_isGiven, plain_argument, hargument, hfield,
      (by decide : Plain "."), (by decide : Plain " && "), and_true]
  exact Template.levelIf_whenever (level_of_plain hgiven) hbody

/-- Conditions of all kinds are level if each of them is. -/
theorem levelIf_operators {P : Prop} {first second : Template} {other : String × String → Template}
    (hfirst : first.LevelIf P) (hsecond : second.LevelIf P)
    (hother : ∀ c ∈ comparisons, (other c).LevelIf P) :
    Template.LevelIf (whenSortGiven sortArgument "beginsWith" first
      ++ whenSortGiven sortArgument "between" second
      ++ comparisons.flatMap fun c => whenSortGiven sortArgument c.1 (other c)) P := by
  have hothers := Template.levelIf_flatMap fun c hc =>
    levelIf_whenSortGiven hargument (plain_comparison c hc) (hother c hc)
  refine (((levelIf_whenSortGiven hargument (by decide) hfirst).append
    (levelIf_whenSortGiven hargument (by decide) hsecond)).append hothers).congr ?_
  exact ⟨fun h => h.1.1, fun hp => ⟨⟨hp, hp⟩, fun _ _ => hp⟩⟩

theorem levelIf_simpleSortLines {P : Prop} {sortKey : String} (hkey : LevelIf sortKey P) :
    (simpleSortLines sortKey sortArgument).LevelIf P := by
  have hvalue : ∀ {path : String}, Plain path →
      Level (stored (argument sortArgument ++ "." ++ path)) := fun hpath =>
    level_of_plain (plain_stored.2 (plain_accessor hargument hpath))
  refine levelIf_operators hargument
    (levelIf_condition level_beginsWith hkey
      (Template.level_line (level_sortKeyValue (by decide) (hvalue (by decide)))))
    (levelIf_condition level_between hkey
      (Template.level_cons (level_sortKeyValue (by decide) (hvalue (by decide)))
        (Template.level_line (level_sortKeyValue (by decide) (hvalue (by decide))))))
    fun c hc => ?_
  exact levelIf_condition (level_comparison c hc) hkey
    (Template.level_line (level_sortKeyValue (by decide) (hvalue (plain_comparison c hc))))

/-- What is joined are references, which number signs do not make marks. -/
theorem level_joinParts {field target : String} (hfield : Plain field) {parts : List String}
    (hparts : ∀ p ∈ parts, Plain p) (htarget : Plain target) :
    (joinParts sortArgument field parts target).Level := by
  have hreference : ∀ p ∈ parts, Plain (argument sortArgument ++ "." ++ field ++ "." ++ p) :=
    fun p hp => plain_append.2 ⟨plain_append.2 ⟨plain_accessor hargument hfield, by decide⟩,
      hparts p hp⟩
  have hline : ∀ p ∈ parts, ∀ lead,
      Level (lead ++ (argument sortArgument ++ "." ++ field) ++ "." ++ p) →
      Level ("#if( " ++ isGiven (argument sortArgument ++ "." ++ field ++ "." ++ p) ++ " ) "
        ++ assign target (quoted (lead ++ (argument sortArgument ++ "." ++ field) ++ "." ++ p))
        ++ " #end") := fun p hp lead htext =>
    levelIf_inlineBlock (plain_isGiven.2 (hreference p hp))
      (levelIf_assign htarget (levelIf_quoted htext))
  have hjoined : ∀ p ∈ parts, Level
      (target ++ keySeparator ++ (argument sortArgument ++ "." ++ field) ++ "." ++ p) := by
    intro p hp
    have hsign : (argument sortArgument ++ "." ++ field ++ "." ++ p).toList.head? = some '$' := by
      unfold argument
      simp
    have hbehind :=
      (LevelIf.behind_numberSign (level_of_plain (hreference p hp)) hsign).behind htarget
    simp only [keySeparator, String.append_assoc] at hbehind ⊢
    exact hbehind
  have hempty : Level (assign target (quoted "")) := level_assign htarget (by decide)
  unfold joinParts
  cases parts with
  | nil => exact Template.level_line hempty
  | cons first rest =>
    rw [List.forall_mem_cons] at hreference hline hjoined
    have hfirst : Level ("" ++ (argument sortArgument ++ "." ++ field) ++ "." ++ first) :=
      level_of_plain (by rw [String.empty_append]; exact hreference.1)
    exact Template.level_cons hempty <| Template.level_cons (hline.1 "" hfirst) <|
      (Template.levelIf_map fun p hp => hline.2 p hp _ (hjoined.2 p hp)).congr (by simp)

theorem levelIf_compositeSortLines {P : Prop} {sortKey : String} (hkey : LevelIf sortKey P)
    {parts : List String} (hparts : ∀ p ∈ parts, Plain p) :
    (compositeSortLines sortKey sortArgument parts).LevelIf P := by
  have hstored : ∀ {variableName : String}, Plain variableName → Level (storedText variableName) :=
    fun hvariable => levelIf_inlineMap_single (level_namedText (by decide) hvariable)
  have hjoin : ∀ {field target : String}, Plain field → Plain target →
      (joinParts sortArgument field parts target).Level := fun hfield htarget =>
    level_joinParts hargument hfield hparts htarget
  have hsize : Template.Level (whenever (argument sortArgument ++ ".between.size() != 2")
      ["$util.error(\"Argument " ++ sortArgument ++ ".between expects exactly 2 elements.\")"]) :=
    Template.levelIf_whenever
      (level_of_plain (plain_append.2 ⟨plain_argument.2 hargument, plain_ofList rfl⟩))
      (Template.level_line (level_of_plain
        (plain_append.2 ⟨plain_append.2 ⟨plain_ofList rfl, hargument⟩, plain_ofList rfl⟩)))
  refine levelIf_operators hargument ?_ ?_ fun c hc => ?_
  · exact (hjoin (by decide) (by decide)).append (levelIf_condition level_beginsWith hkey
      (Template.level_line (level_sortKeyValue (by decide) (hstored (by decide)))))
  · rw [List.append_assoc, List.append_assoc]
    exact hsize.append <| (hjoin (by decide) (by decide)).append <|
      (hjoin (by decide) (by decide)).append <| levelIf_condition level_between hkey <|
        Template.level_cons (level_sortKeyValue (by decide) (hstored (by decide)))
          (Template.level_line (level_sortKeyValue (by decide) (hstored (by decide))))
  · exact (hjoin (plain_comparison c hc) (by decide)).append
      (levelIf_condition (level_comparison c hc) hkey
        (Template.level_line (level_sortKeyValue (by decide) (hstored (by decide)))))

end Lines

theorem levelIf_sortLines (hkey : key.IsNamed) (hargument : Plain sortArgument) :
    (sortLines key sortArgument).LevelIf ("end" ∉ key.sortFields.tail) := by
  have hnames := isName_sortField hkey
  unfold sortLines
  split
  next field hfields =>
    rw [hfields] at hnames ⊢
    exact levelIf_simpleSortLines hargument
      ((level_of_isName (hnames field List.mem_cons_self)).congr (by simp))
  next =>
    exact levelIf_compositeSortLines hargument (levelIf_joined hnames)
      fun f hf => plain_of_isName (hnames f hf)

theorem levelIf_keyQueryRequest (hkey : key.IsNamed) : (keyQueryRequest key).LevelIf
    (key.partition ≠ "end" ∧ "end" ∉ key.sortFields.tail) := by
  have hpartition := plain_partition hkey
  have hargument : ∀ a ∈ key.sortArgument?, Plain a := by
    intro a ha
    unfold Key.sortArgument? at ha
    split at ha
    · cases ha
    next hsome =>
      cases ha
      exact plain_of_isName (Surface.isName_glued (by simpa using hsome) (isName_sortField hkey))
  -- The parts about the sort argument are there only if the key has sort fields.
  have hneeded : Template.Level (key.sortArgument?.elim [] (partitionNeeded key.partition)) := by
    cases hsort : key.sortArgument? with
    | none => exact Template.level_nil
    | some a => exact level_partitionNeeded hpartition (hargument a hsort)
  have hlines : Template.LevelIf (key.sortArgument?.elim [] fun sortArgument =>
      remark "[Start] Applying Key Condition" :: sortLines key sortArgument
        ++ [remark "[End] Applying Key Condition"]) ("end" ∉ key.sortFields.tail) := by
    cases hsort : key.sortArgument? with
    | none =>
      have hnone : key.sortFields = [] := by simpa [Key.sortArgument?] using hsort
      exact Template.level_nil.congr (by simp [hnone])
    | some a =>
      exact ((level_remark_ofList rfl).append ((levelIf_sortLines hkey (hargument a hsort)).append
        (level_remark_ofList rfl))).congr (and_iff_left trivial)
  have hindex : Plain (shownName key.name) := by
    cases hname : key.name with
    | none => exact (by decide : Plain absentName)
    | some n =>
      by_cases hempty : n = ""
      · rw [hempty]
        exact (by decide : Plain "")
      · exact plain_of_isName (hkey.name n (by simp [present, hname, hempty]))
  have hstart : Template.Level
      [remark "[Start] Set query expression for @key", assign "$modelQueryExpression" "\x7b\x7d"] :=
    (level_remark_ofList rfl).append
      (Template.level_line (level_assign (by decide) (by decide)))
  have hend : Template.Level [remark "[End] Set query expression for @key", limitLine] :=
    (level_remark_ofList rfl).append (Template.level_line level_limitLine)
  have hrequest :=
    Template.levelIf_mapping (level_ofList (by decide) : Level "#set( $QueryRequest = ")
    (by decide : Plain " )") <| ((((membersLevel_nil.line
      (level_namedText (by decide : Plain "index") hindex)).line
      (level_of_plain (by decide : Plain (named "query" "$modelQueryExpression")))).line
      (level_of_plain (by decide : Plain (named "limit" "$limit")))).line
      (level_namedText (by decide : Plain "operation") (by decide : Plain "Query"))).line
      (level_namedText (by decide : Plain "version") (by decide : Plain "2017-02-28"))
  have hinline : ∀ {name value : String}, Plain name → Plain value →
      Level ("#if( " ++ argument name ++ " ) " ++ assign ("$QueryRequest." ++ name) value
        ++ " #end") := fun hname hvalue =>
    levelIf_inlineBlock (plain_argument.2 hname)
      (level_assign (plain_append.2 ⟨by decide, hname⟩) hvalue)
  have hrest : Template.Level
      ["#if( " ++ argument "nextToken" ++ " ) "
          ++ assign ("$QueryRequest." ++ "nextToken") (argument "nextToken") ++ " #end",
        "#if( " ++ argument "filter" ++ " ) " ++ assign ("$QueryRequest." ++ "filter") parsedFilter
          ++ " #end",
        "$util.toJson($QueryRequest)"] :=
    Template.level_cons (hinline (by decide) (plain_argument.2 (by decide))) <|
      Template.level_cons (hinline (by decide) (plain_ofList rfl)) <|
      Template.level_line (level_of_plain (plain_ofList rfl))
  exact (((((((hstart.append hneeded).append (levelIf_partitionLines
    (hkey.fields key.partition List.mem_cons_self))).append hlines).append hend).append
      hrequest).append (level_directionLines (by decide))).append hrest).congr (by simp)

end Query

/-! ### Balance -/

/-- **A request is balanced (`Template.Balanced`) unless a name behind a number sign in it is the
word that closes blocks.** Such names are those of the sort fields of a composite sort key, but for
the first; those of type and unique fields, in markers; and that of the partition of a key by which
items are queried. -/
theorem balanced_requests_iff (type : String) (key : Key) (compositeKeys : List Key)
    (uniqueFields : List String) (generatesId : Bool) (htype : Sdl.isName type = true)
    (hkey : key.IsNamed) (hkeys : ∀ k ∈ compositeKeys, k.IsNamed)
    (hfields : ∀ f ∈ uniqueFields, Sdl.isName f = true) :
    ((getRequest key).Balanced ↔ "end" ∉ key.sortFields.tail) ∧
    ((itemRequest key).Balanced ↔ "end" ∉ key.sortFields.tail) ∧
    ((createRequest type key compositeKeys uniqueFields generatesId).Balanced ↔
      "end" ∉ key.sortFields.tail ∧ (∀ k ∈ compositeKeys, "end" ∉ k.sortFields.tail) ∧
        ∀ f ∈ uniqueFields, type ≠ "end" ∧ f ≠ "end") ∧
    ((updateRequest type key compositeKeys uniqueFields).Balanced ↔
      "end" ∉ key.sortFields.tail ∧ (∀ k ∈ compositeKeys, "end" ∉ k.sortFields.tail) ∧
        ∀ f ∈ uniqueFields, type ≠ "end" ∧ f ≠ "end") ∧
    ((deleteRequest type key uniqueFields).Balanced ↔
      "end" ∉ key.sortFields.tail ∧ ∀ f ∈ uniqueFields, type ≠ "end" ∧ f ≠ "end") ∧
    ((keyQueryRequest key).Balanced ↔
      key.partition ≠ "end" ∧ "end" ∉ key.sortFields.tail) :=
  ⟨Template.balanced_iff (levelIf_getRequest hkey),
    Template.balanced_iff (levelIf_itemRequest hkey),
    Template.balanced_iff (levelIf_createRequest htype hkey hkeys hfields generatesId),
    Template.balanced_iff (levelIf_updateRequest htype hkey hkeys hfields),
    Template.balanced_iff (levelIf_deleteRequest htype hkey hfields),
    Template.balanced_iff (levelIf_keyQueryRequest hkey)⟩

/-- Bookings that are sorted by start and end are neither stored nor queried by balanced
requests. -/
theorem unbalanced_bookings :
    let byRoom : Key := ⟨"room", ["start", "end"], some "ByRoom", none⟩
    let byEnd : Key := ⟨"end", [], some "ByEnd", none⟩
    ¬ (createRequest "Booking" ⟨"id", [], none, none⟩ [byRoom] [] true).Balanced ∧
      ¬ (keyQueryRequest byRoom).Balanced ∧ ¬ (keyQueryRequest byEnd).Balanced ∧
      (getRequest byEnd).Balanced := by
  intro byRoom byEnd
  have hroom :=
    balanced_requests_iff "Booking" byRoom [] [] true (by decide) (by decide) (by decide)
    (by decide)
  have hend := balanced_requests_iff "Booking" byEnd [] [] true (by decide) (by decide) (by decide)
    (by decide)
  have hcreate :=
    (balanced_requests_iff "Booking" ⟨"id", [], none, none⟩ [byRoom] [] true (by decide)
    (by decide) (by decide) (by decide)).2.2.1
  exact ⟨fun h => absurd (hcreate.1 h) (by decide),
    fun h => absurd (hroom.2.2.2.2.2.1 h) (by decide),
    fun h => absurd (hend.2.2.2.2.2.1 h) (by decide), hend.1.2 (by decide)⟩

end SchemaLoom.Resolver
