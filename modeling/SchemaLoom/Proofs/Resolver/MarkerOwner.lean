/-
Who owns the marker of a unique value.

A marker refers to the item that has its value.  A request that creates or changes an item stores
the reference in the markers that it claims, and a request that changes or deletes one compares
it before a marker is claimed again or given up.  All of them take the same expression for it, so
what one request has claimed the next one recognises.

The expression looks at the partition of the primary key alone.  Items that differ in nothing but
sort fields therefore pass for one another, and a marker belongs to a single item only where the
primary key has no other field than its partition.

What a request stores and compares is read off its lines (`storedReferences`,
`comparedReferences`), and so off the text that is emitted.  Most lines hold no reference because
of the way they begin (`otherStarts`); the two that hold one say it between a fixed opening and a
fixed closing.  What an expression comes to is told by `valueOf`, for given values of the fields
of the input.
-/
import Mathlib.Data.List.DropRight
import SchemaLoom.Proofs.Artifact.Location
import SchemaLoom.Proofs.Resolver.Lines
import SchemaLoom.Proofs.Resolver.Requests
import SchemaLoom.Resolver.Mutation

namespace SchemaLoom.Resolver

/-! ### What lines say -/

/-- A line without the blanks in front of it and the commas behind it. -/
def bareLine (line : String) : List Char := (line.toList.dropWhile (· = ' ')).rdropWhile (· = ',')

theorem bareLine_shiftedLine (line : String) : bareLine (shiftedLine line) = bareLine line := by
  unfold shiftedLine
  split
  next hempty => rw [hempty]
  · simp [bareLine]

theorem bareLine_comma (line : String) : bareLine (line ++ ",") = bareLine line := by
  have hcomma : (line ++ ",").toList = line.toList ++ [','] := by simp
  rw [bareLine, bareLine, hcomma, List.dropWhile_append]
  split
  next hblank => simp [List.isEmpty_iff.1 hblank, List.rdropWhile]
  · exact List.rdropWhile_concat_pos _ _ _ (by simp)

/-- A line that begins with no blank has none in front. -/
theorem dropWhile_blank {cs : List Char} (h : cs.head?.any (· ≠ ' ') = true) :
    cs.dropWhile (· = ' ') = cs := by
  cases cs with
  | nil => rfl
  | cons c cs => simpa using h

/-- Reads what lines say between an opening and a closing. -/
def LineReader.between (opening closing : String) : LineReader String where
  read line :=
    (((bareLine line).dropPrefix? opening.toList).bind
      (·.dropSuffix? closing.toList)).toList.map String.ofList
  read_shiftedLine line := by rw [bareLine_shiftedLine]
  read_comma line := by rw [bareLine_comma]

section Between

variable {opening closing : String}

/-- What stands between the opening and the closing is read. -/
theorem read_between (hopening : opening.toList.head?.any (· ≠ ' ') = true)
    (hclosing : closing.toList.getLast?.any (· ≠ ',') = true) (said : String) :
    (LineReader.between opening closing).read (opening ++ said ++ closing) = [said] := by
  obtain ⟨c, hlast, hc⟩ := (Option.any_eq_true _ _).1 hclosing
  obtain ⟨front, hfront⟩ := List.getLast?_eq_some_iff.1 hlast
  have hbegins := begins_append (begins_append hopening said) closing
  have hline : bareLine (opening ++ said ++ closing)
      = opening.toList ++ (said.toList ++ closing.toList) := by
    rw [bareLine, dropWhile_blank hbegins, String.toList_append, String.toList_append,
      List.append_assoc, hfront, ← List.append_assoc said.toList,
      ← List.append_assoc opening.toList]
    exact List.rdropWhile_concat_neg _ _ _ (by simpa using hc)
  have hinitial : (opening.toList ++ (said.toList ++ closing.toList)).dropPrefix? opening.toList
      = some (said.toList ++ closing.toList) := List.dropPrefix?_append_of_beq _ (BEq.rfl)
  have hsuffix : (said.toList ++ closing.toList).dropSuffix? closing.toList = some said.toList :=
    List.dropSuffix?_eq_some_iff.2 ⟨closing.toList, rfl, BEq.rfl⟩
  simp [LineReader.between, hline, hinitial, hsuffix]

/-- Nothing is read where a line begins otherwise. -/
theorem read_eq_nil (start : String) (hblank : start.toList.head?.any (· ≠ ' ') = true)
    (hshort : ¬ opening.toList <+: start.toList) (hlong : ¬ start.toList <+: opening.toList)
    (rest : String) : (LineReader.between opening closing).read (start ++ rest) = [] := by
  have hbare : bareLine (start ++ rest) <+: start.toList ++ rest.toList := by
    rw [bareLine, dropWhile_blank (begins_append hblank rest), String.toList_append]
    exact List.rdropWhile_prefix _ _
  have hnone : (bareLine (start ++ rest)).dropPrefix? opening.toList = none := by
    rw [Option.eq_none_iff_forall_ne_some]
    intro behind hsome
    obtain ⟨lead, hlead, hsame⟩ := List.dropPrefix?_eq_some_iff.1 hsome
    rw [beq_iff_eq] at hsame
    have hopening : opening.toList <+: bareLine (start ++ rest) := ⟨behind, hsame ▸ hlead.symm⟩
    rcases List.prefix_or_prefix_of_prefix (hopening.trans hbare)
      (List.prefix_append _ _) with h | h
    · exact hshort h
    · exact hlong h
  simp [LineReader.between, hnone]

end Between

/-! ### References

A reference is read off the line on which it is stored or compared.  All other lines begin
differently (`IsOther`) and are passed over.
-/

/-- What a reference stands behind where a marker is made to store it. -/
def storedOpening : String :=
  named "attributeValues" ("$util.dynamodb.toMapValues(" ++ "\x7b " ++ named referenceAttribute "")

/-- What a reference stands behind where a marker is compared with it. -/
def comparedOpening : String :=
  named "expressionValues" ("\x7b " ++ named ":ref" "$util.dynamodb.toDynamoDB(")

/-- Reads the references that markers are made to store. -/
def storedReferences : LineReader String := .between storedOpening (" \x7d" ++ ")")

/-- Reads the references that markers are compared with. -/
def comparedReferences : LineReader String := .between comparedOpening (")" ++ " \x7d")

/-- The readers of references. -/
def referenceReaders : List (LineReader String) := [storedReferences, comparedReferences]

/-- A line that begins with `start` holds no reference. -/
def IsOther (start : String) : Prop :=
  start.toList.head?.any (· ≠ ' ') = true ∧
    ∀ word ∈ [storedOpening, comparedOpening],
      ¬ word.toList <+: start.toList ∧ ¬ start.toList <+: word.toList

instance (start : String) : Decidable (IsOther start) :=
  inferInstanceAs (Decidable (start.toList.head?.any (· ≠ ' ') = true ∧
    ∀ word ∈ [storedOpening, comparedOpening],
      ¬ word.toList <+: start.toList ∧ ¬ start.toList <+: word.toList))

/-- Names of members that hold no reference. -/
def otherMembers : List String :=
  ["version", "operation", "table", "key", "update", "expression", "expressionNames", "condition",
    "transactItems"]

/-- How the lines of requests begin that hold no reference. -/
def otherStarts : List String :=
  ["## ", "#set( ", "#if( ", "#foreach( ", "#else", "#end", "$util.qr(", "\x7b", "\x7d", "\"#id",
      "\"condition\": ", "$util.qr($transactItems.add(", named "expressionValues" "\x7b\x7d",
      named "attributeValues" "$util.dynamodb.toMapValues($ctx.args.input)"]
    ++ otherMembers.map fun name => quoted name ++ ": "

theorem isOther_of_mem : ∀ start ∈ otherStarts, IsOther start := by decide +kernel

section Other

variable {r : LineReader String} (hr : r ∈ referenceReaders)

include hr

theorem read_other {start : String} (hstart : start ∈ otherStarts) (rest : String) :
    r.read (start ++ rest) = [] := by
  obtain ⟨hblank, hwords⟩ := isOther_of_mem start hstart
  simp only [List.forall_mem_cons] at hwords
  obtain ⟨hstored, hcompared, -⟩ := hwords
  simp only [referenceReaders, List.mem_cons, List.not_mem_nil, or_false] at hr
  rcases hr with rfl | rfl
  · exact read_eq_nil start hblank hstored.1 hstored.2 rest
  · exact read_eq_nil start hblank hcompared.1 hcompared.2 rest

theorem read_word {line : String} (hline : line ∈ otherStarts) : r.read line = [] := by
  rw [← String.append_empty (s := line)]
  exact read_other hr hline ""

theorem read_member {name : String} (hname : name ∈ otherMembers) (value : String) :
    r.read (named name value) = [] :=
  read_other hr (List.mem_append_right _ (List.mem_map_of_mem hname)) value

theorem read_remark (words : String) : r.read (remark words) = [] := by
  rw [remark, String.append_assoc]
  exact read_other hr (by decide) _

theorem read_assign (target value : String) : r.read (assign target value) = [] := by
  simp only [assign, String.append_assoc]
  exact read_other hr (by decide) _

theorem read_perform (expression : String) : r.read (perform expression) = [] := by
  rw [perform, String.append_assoc]
  exact read_other hr (by decide) _

theorem read_put (target name value : String) : r.read (put target name value) = [] :=
  read_perform hr _

theorem read_putInput (field value : String) : r.read (putInput field value) = [] :=
  read_perform hr _

theorem read_if (condition : String) : r.read ("#if( " ++ condition ++ " )") = [] := by
  rw [String.append_assoc]
  exact read_other hr (by decide) _

theorem read_forEach (item collection : String) :
    r.read ("#foreach( " ++ item ++ " in " ++ collection ++ " )") = [] := by
  simp only [String.append_assoc]
  exact read_other hr (by decide) _

theorem read_else : r.read "#else" = [] := read_word hr (by decide)

theorem read_end : r.read "#end" = [] := read_word hr (by decide)

/-! ### Parts of requests -/

/-- A map literal on whose first line no reference stands holds those of its members. -/
theorem readAll_literal {lead : String} (hlead : r.read (lead ++ "\x7b") = []) (ms : List Template)
    (tail : String) : r.readAll (mapping lead ms tail) = ms.flatMap r.readAll := by
  have htail : r.read ("\x7d" ++ tail) = [] := read_other hr (by decide) tail
  rw [r.readAll_mapping, hlead, htail, List.nil_append, List.append_nil]

theorem readAll_givenCondition : r.readAll givenCondition = [] := by
  simp only [givenCondition, r.readAll_whenever, r.readAll_cons, r.readAll_nil, read_if hr,
    read_end hr, read_assign hr, read_put hr, read_perform hr, List.append_nil]

/-- A condition is begun on a line that is moved to the right in any case. -/
theorem read_beginsCondition : r.read ("  #set( $condition = " ++ "\x7b") = [] := by
  have hline : "  #set( $condition = " ++ "\x7b" =
    shiftedLine ("#set( " ++ "$condition = \x7b") := by
    decide
  rw [hline, r.read_shiftedLine]
  exact read_other hr (by decide) _

theorem readAll_withoutEmptyValues : r.readAll withoutEmptyValues = [] := by
  simp (disch := decide) only [withoutEmptyValues, r.readAll_block,
    readAll_literal hr (read_beginsCondition hr), List.flatMap_cons, List.flatMap_nil,
    r.readAll_singleton, read_if hr, read_end hr, read_member hr, List.append_nil]

theorem readAll_keyNames (key : Key) : r.readAll (keyNames key) = [] := by
  rw [keyNames, submap, readAll_literal hr (read_member hr (by decide) _)]
  have hjoined : ∀ rest : String, "\"" ++ ("#id" ++ rest) = "\"#id" ++ rest := fun rest => by
    rw [← String.append_assoc, show "\"" ++ "#id" = "\"#id" from by decide]
  simp only [placeholders, List.flatMap_map, r.readAll_singleton, named, quoted,
    String.append_assoc, hjoined]
  exact List.flatMap_eq_nil_iff.2 fun a _ => read_other hr (by decide) _

theorem readAll_existingCondition (key : Key) {more : List Template}
    (hmore : more.flatMap r.readAll = []) : r.readAll (existingCondition key more) = [] := by
  have hnames : r.readAll ((placeholders key).map fun p =>
      put "$condition.expressionNames" p.1 (quoted p.2)) = [] := by
    rw [LineReader.readAll, List.flatMap_map]
    exact List.flatMap_eq_nil_iff.2 fun p _ => read_put hr _ _ _
  simp (disch := decide) only [existingCondition, r.readAll_branch, r.readAll_shifted,
    r.readAll_cons, r.readAll_nil, readAll_literal hr (read_beginsCondition hr), List.flatMap_cons,
    hmore, hnames, readAll_keyNames hr, read_if hr, read_else hr, read_end hr, read_assign hr,
    read_put hr, read_member hr, List.append_nil]

theorem readAll_compositeValues (keys : List Key) :
    r.readAll (keys.flatMap compositeValue) = [] := by
  rw [r.readAll_flatMap]
  refine List.flatMap_eq_nil_iff.2 fun key _ => ?_
  simp only [compositeValue, r.readAll_cons, r.readAll_whenever, r.readAll_nil, read_remark hr,
    read_if hr, read_end hr, read_putInput hr, List.append_nil]

theorem readAll_updateExpression : r.readAll updateExpression = [] := by
  simp only [updateExpression, appendItems, r.readAll_append, r.readAll_forEach, r.readAll_choose,
    r.readAll_whenever, r.readAll_cons, r.readAll_nil, read_assign hr, read_put hr, read_if hr,
    read_forEach hr, read_else hr, read_end hr, List.append_nil]

theorem readAll_transactionRequest : r.readAll transactionRequest = [] := by
  have hlead : r.read ("" ++ "\x7b") = [] := read_word hr (by decide)
  simp (disch := decide) only [transactionRequest, request, readAll_literal hr hlead,
    List.flatMap_cons, List.flatMap_nil, r.readAll_singleton, read_member hr, List.append_nil]

theorem readAll_addWrite (ms : List Template) : r.readAll (addWrite ms) = ms.flatMap r.readAll :=
  readAll_literal hr (read_other hr (by decide) _) ms "))"

theorem readAll_itemWrite (type operation : String) (key : Key) {more : List Template}
    (hmore : more.flatMap r.readAll = []) :
    r.readAll (itemWrite type operation key more) = [] := by
  simp (disch := decide) only [itemWrite, readAll_addWrite hr, List.flatMap_append,
    List.flatMap_cons, List.flatMap_nil, r.readAll_singleton, hmore, read_member hr,
    List.append_nil]

/-! ### Markers -/

theorem read_beginsMarkerCondition : r.read ("\"condition\": " ++ "\x7b") = [] :=
  read_other hr (by decide) "\x7b"

theorem readAll_freeMarker (key : Key) : r.readAll (freeMarker key) = [] := by
  simp (disch := decide) only [freeMarker, readAll_literal hr (read_beginsMarkerCondition hr),
    List.flatMap_cons, List.flatMap_nil, r.readAll_singleton, read_member hr, List.append_nil]

theorem readAll_ownMarker (key : Key) : r.readAll (ownMarker key)
    = r.read
      (named "expressionValues" (inlineMap [named ":ref" (stored (markerReference key))])) := by
  simp (disch := decide) only [ownMarker, readAll_literal hr (read_beginsMarkerCondition hr),
    List.flatMap_cons, List.flatMap_nil, r.readAll_singleton, read_member hr, List.nil_append,
    List.append_nil]

theorem readAll_claimMarker (type : String) (key : Key) (field : String) (condition : Template) :
    r.readAll (claimMarker type key field condition)
      = r.read (named "attributeValues" ("$util.dynamodb.toMapValues("
          ++ inlineMap [named referenceAttribute (markerReference key)] ++ ")"))
        ++ r.readAll condition := by
  simp (disch := decide) only [claimMarker, readAll_addWrite hr, List.flatMap_cons,
    List.flatMap_nil, r.readAll_singleton, read_member hr, List.nil_append, List.append_nil]

theorem readAll_releaseMarker (type : String) (key : Key) (field : String) :
    r.readAll (releaseMarker type key field) = r.readAll (ownMarker key) := by
  simp (disch := decide) only [releaseMarker, readAll_addWrite hr, List.flatMap_cons,
    List.flatMap_nil, r.readAll_singleton, read_member hr, List.nil_append, List.append_nil]

theorem readAll_claimOnCreate (type : String) (key : Key) (field : String) :
    r.readAll (claimOnCreate type key field)
      = r.readAll (claimMarker type key field (freeMarker key)) := by
  unfold claimOnCreate uniqueRemark
  rw [r.readAll_cons, r.readAll_whenever, read_remark hr, read_if hr, read_end hr, List.append_nil,
    List.nil_append, List.nil_append]

theorem readAll_reassignMarker (type : String) (key : Key) (field : String) :
    r.readAll (reassignMarker type key field)
      = r.readAll (claimMarker type key field (ownMarker key))
        ++ r.readAll (releaseMarker type key field) := by
  unfold reassignMarker uniqueRemark
  simp only [r.readAll_cons, r.readAll_whenever, r.readAll_append, r.readAll_block,
    r.readAll_hanging, read_remark hr, read_if hr, read_end hr, List.append_nil, List.nil_append]

theorem readAll_releaseOnDelete (type : String) (key : Key) (field : String) :
    r.readAll (releaseOnDelete type key field) = r.readAll (releaseMarker type key field) := by
  unfold releaseOnDelete uniqueRemark
  rw [r.readAll_cons, r.readAll_whenever, read_remark hr, read_if hr, read_end hr, List.append_nil,
    List.nil_append, List.nil_append]

/-! ### Requests of tables with unique fields -/

variable (type : String) (key : Key) (compositeKeys : List Key) {uniqueFields : List String}

theorem readAll_createRequest (hunique : uniqueFields ≠ []) (generatesId : Bool) :
    r.readAll (createRequest type key compositeKeys uniqueFields generatesId)
      = uniqueFields.flatMap fun field =>
        r.readAll (claimMarker type key field (freeMarker key)) := by
  have hbegins : r.read ("#set( $condition = " ++ "\x7b") = [] := by
    rw [show "#set( $condition = " ++ "\x7b" = "#set( " ++ "$condition = \x7b" from by decide]
    exact read_other hr (by decide) _
  have hgenerated : r.readAll (if generatesId then
      [putInput key.partition
        ("$util.defaultIfNullOrBlank(" ++ input key.partition ++ ", $util.autoId())")]
      else []) = [] := by
    split
    · rw [r.readAll_singleton, read_putInput hr]
    · rfl
  have hmembers : List.flatMap r.readAll
      [[named "attributeValues" "$util.dynamodb.toMapValues($ctx.args.input)"],
        [named "condition" "$condition"]] = [] := by
    simp (disch := decide) only [List.flatMap_cons, List.flatMap_nil, r.readAll_singleton,
      read_word hr, read_member hr, List.append_nil]
  simp (disch := decide) only [createRequest, List.isEmpty_eq_false_iff.2 hunique,
    Bool.false_eq_true, if_false, typeMark, newTransaction, r.readAll_append, r.readAll_cons,
    r.readAll_nil, hgenerated, r.readAll_flatMap uniqueFields, readAll_literal hr hbegins,
    List.flatMap_cons, List.flatMap_nil, readAll_claimOnCreate hr, readAll_compositeValues hr,
    readAll_keyNames hr, readAll_givenCondition hr, readAll_withoutEmptyValues hr,
    readAll_itemWrite hr _ _ _ hmembers, readAll_transactionRequest hr, read_remark hr,
    read_assign hr, read_putInput hr, read_member hr, List.append_nil, List.nil_append]

theorem readAll_updateRequest (hunique : uniqueFields ≠ []) :
    r.readAll (updateRequest type key compositeKeys uniqueFields)
      = uniqueFields.flatMap fun field =>
        r.readAll (claimMarker type key field (ownMarker key))
          ++ r.readAll (releaseMarker type key field) := by
  have hvalues : List.flatMap r.readAll [[named "expressionValues" "\x7b\x7d"]] = [] := by
    rw [List.flatMap_singleton, r.readAll_singleton, read_word hr (by decide)]
  have hmembers : List.flatMap r.readAll
      [[named "update" "$update"], [named "condition" "$condition"]] = [] := by
    simp (disch := decide) only [List.flatMap_cons, List.flatMap_nil, r.readAll_singleton,
      read_member hr, List.append_nil]
  simp only [updateRequest, List.isEmpty_eq_false_iff.2 hunique, Bool.false_eq_true, if_false,
    typeMark, newTransaction, existingItem, r.readAll_append, r.readAll_cons, r.readAll_nil,
    r.readAll_flatMap uniqueFields, readAll_reassignMarker hr, readAll_compositeValues hr,
    readAll_existingCondition hr key hvalues, readAll_givenCondition hr,
    readAll_withoutEmptyValues hr, readAll_updateExpression hr, readAll_itemWrite hr _ _ _ hmembers,
    readAll_transactionRequest hr, read_remark hr, read_assign hr, read_putInput hr,
    List.append_nil, List.nil_append]

theorem readAll_deleteRequest (hunique : uniqueFields ≠ []) :
    r.readAll (deleteRequest type key uniqueFields)
      = uniqueFields.flatMap fun field => r.readAll (releaseMarker type key field) := by
  have hnone : List.flatMap r.readAll [] = [] := rfl
  have hmembers : List.flatMap r.readAll [[named "condition" "$condition"]] = [] := by
    rw [List.flatMap_singleton, r.readAll_singleton, read_member hr (by decide)]
  simp only [deleteRequest, List.isEmpty_eq_false_iff.2 hunique, Bool.false_eq_true, if_false,
    newTransaction, existingItem, r.readAll_append, r.readAll_cons, r.readAll_flatMap uniqueFields,
    readAll_releaseOnDelete hr,
    readAll_existingCondition hr key hnone, readAll_givenCondition hr,
    readAll_withoutEmptyValues hr, readAll_itemWrite hr _ _ _ hmembers,
    readAll_transactionRequest hr, read_assign hr, List.append_nil, List.nil_append]

end Other

/-! ### The one expression -/

theorem stored_mem : storedReferences ∈ referenceReaders := List.mem_cons_self

theorem compared_mem : comparedReferences ∈ referenceReaders :=
  List.mem_cons_of_mem _ List.mem_cons_self

section Marker

variable (type : String) (key : Key) (field : String)

/-- What a condition on the owner compares is no reference that is stored. -/
theorem stored_ownMarker : storedReferences.readAll (ownMarker key) = [] := by
  rw [readAll_ownMarker stored_mem]
  exact read_eq_nil (quoted "expressionValues" ++ ": ") (by decide) (by decide) (by decide) _

theorem compared_ownMarker :
    comparedReferences.readAll (ownMarker key) = [markerReference key] := by
  have hline : named "expressionValues" (inlineMap [named ":ref" (stored (markerReference key))])
      = comparedOpening ++ markerReference key ++ (")" ++ " \x7d") := by
    unfold comparedOpening inlineMap stored named
    simp only [String.intercalate_singleton, String.append_assoc]
  rw [readAll_ownMarker compared_mem, hline]
  exact read_between (begins_append (by decide) _) (by decide) (markerReference key)

theorem stored_claimMarker (condition : Template) :
    storedReferences.readAll (claimMarker type key field condition)
      = markerReference key :: storedReferences.readAll condition := by
  have hline : named "attributeValues" ("$util.dynamodb.toMapValues("
        ++ inlineMap [named referenceAttribute (markerReference key)] ++ ")")
      = storedOpening ++ markerReference key ++ (" \x7d" ++ ")") := by
    unfold storedOpening inlineMap named
    simp only [String.intercalate_singleton, String.append_assoc, String.empty_append]
  have hread : storedReferences.read (storedOpening ++ markerReference key ++ (" \x7d" ++ ")"))
      = [markerReference key] :=
    read_between (begins_append (by decide) _) (by decide) (markerReference key)
  rw [readAll_claimMarker stored_mem, hline, hread, List.singleton_append]

theorem compared_claimMarker (condition : Template) :
    comparedReferences.readAll (claimMarker type key field condition)
      = comparedReferences.readAll condition := by
  rw [readAll_claimMarker compared_mem]
  have hnone : comparedReferences.read (named "attributeValues" ("$util.dynamodb.toMapValues("
      ++ inlineMap [named referenceAttribute (markerReference key)] ++ ")")) = [] :=
    read_eq_nil (quoted "attributeValues" ++ ": ") (by decide) (by decide) (by decide) _
  rw [hnone, List.nil_append]

end Marker

/-! ### Values of expressions

An expression is evaluated for given fields of the input (`valueOf`).  It identifies an item if
its value is the same only for inputs with the same key.
-/

/-- The value of what follows a sign of references: a field of the input in front has the value that
is given for it. -/
def partValue (values : String → String) (part : List Char) : List Char :=
  let fieldValue := fun (cs : List Char) =>
    (values (String.ofList (cs.takeWhile Sdl.isNameContinue))).toList
  match
    part.dropPrefix? "ctx.args.input.".toList, part.dropPrefix? "\x7bctx.args.input.".toList with
  | some rest, _ => fieldValue rest ++ rest.dropWhile Sdl.isNameContinue
  | none, some rest => fieldValue rest ++ (rest.dropWhile Sdl.isNameContinue).drop 1
  | none, none => '$' :: part

/-- The value of an expression for given values of the fields of the input. -/
def valueOf (values : String → String) (expression : String) : String :=
  let parts := Text.splitChars '$' expression.toList
  String.ofList (parts.headD [] ++ parts.tail.flatMap (partValue values))

/-- The value of `expression` changes with the field `field` of the input. -/
def DependsOn (expression field : String) : Prop :=
  ∃ values other : String → String, (∀ f, f ≠ field → values f = other f) ∧
    valueOf values expression ≠ valueOf other expression

/-- Inputs for which `expression` has the same value have the same `key`. -/
def Identifies (expression : String) (key : Key) : Prop :=
  ∀ values other : String → String, valueOf values expression = valueOf other expression →
    ∀ f ∈ key.fields, values f = other f

section Input

variable {field : String} (hfield : Sdl.isName field = true)

include hfield

theorem valueOf_input (values : String → String) : valueOf values (input field) = values field := by
  have hparts : (input field).toList = [] ++ '$' :: ("ctx.args.input.".toList ++ field.toList) := by
    unfold input
    exact String.toList_append
  have hsign : '$' ∉ "ctx.args.input.".toList ++ field.toList := by
    rw [List.mem_append, not_or]
    exact ⟨by decide, sign_not_mem_of_isName hfield⟩
  have hinitial : ("ctx.args.input.".toList ++ field.toList).dropPrefix? "ctx.args.input.".toList
      = some field.toList := List.dropPrefix?_append_of_beq _ BEq.rfl
  have hname := Sdl.continuesName_of_isName hfield
  rw [valueOf, hparts, Artifact.splitChars_append_cons List.not_mem_nil,
    Artifact.splitChars_of_not_mem hsign]
  simp only [List.headD_cons, List.tail_cons, List.nil_append, List.flatMap_singleton, partValue,
    hinitial]
  rw [List.takeWhile_eq_self_iff.2 hname, List.dropWhile_eq_nil_iff.2 hname, List.append_nil,
    String.ofList_toList, String.ofList_toList]

theorem dependsOn_input (other : String) : DependsOn (input field) other ↔ other = field := by
  constructor
  · rintro ⟨values, changed, hsame, hdiffers⟩
    rw [valueOf_input hfield, valueOf_input hfield] at hdiffers
    by_contra hother
    exact hdiffers (hsame field (Ne.symm hother))
  · rintro rfl
    refine ⟨fun _ => "", fun f => if f = other then "0" else "", fun f hf => (if_neg hf).symm, ?_⟩
    rw [valueOf_input hfield, valueOf_input hfield, if_pos rfl]
    decide

theorem identifies_input (key : Key) :
    Identifies (input field) key ↔ ∀ f ∈ key.fields, f = field := by
  constructor
  · intro hidentifies f hf
    by_contra hother
    have hsame := hidentifies (fun _ => "") (fun g => if g = f then "0" else "")
      (by rw [valueOf_input hfield, valueOf_input hfield, if_neg (Ne.symm hother)]) f hf
    rw [if_pos rfl] at hsame
    exact absurd hsame (by decide)
  · intro hall values other hsame f hf
    rwa [hall f hf, ← valueOf_input hfield values, ← valueOf_input hfield other]

end Input

/-! ### Owners -/

/-- **Every request that knows owners knows them by one expression, `markerReference`.** It is
stored once for each unique field when an item is created or changed, compared twice for each when
an item is changed and once when it is deleted. The expression depends on every field of the primary
key, and tells items with different primary keys apart, only if the key has no field but its
partition. -/
theorem owners_of_requests (type : String) (key : Key) (compositeKeys : List Key)
    (uniqueFields : List String) (generatesId : Bool) (hunique : uniqueFields ≠ [])
    (hpartition : Sdl.isName key.partition = true) :
    (storedReferences.readAll (createRequest type key compositeKeys uniqueFields generatesId)
        = uniqueFields.map (fun _ => markerReference key) ∧
      comparedReferences.readAll
        (createRequest type key compositeKeys uniqueFields generatesId) = [])
    ∧ (storedReferences.readAll (updateRequest type key compositeKeys uniqueFields)
        = uniqueFields.map (fun _ => markerReference key) ∧
      comparedReferences.readAll (updateRequest type key compositeKeys uniqueFields)
        = uniqueFields.flatMap fun _ => [markerReference key, markerReference key])
    ∧ (storedReferences.readAll (deleteRequest type key uniqueFields) = [] ∧
      comparedReferences.readAll (deleteRequest type key uniqueFields)
        = uniqueFields.map fun _ => markerReference key)
    ∧ ((∀ f ∈ key.fields, DependsOn (markerReference key) f) ↔
        ∀ f ∈ key.sortFields, f = key.partition)
    ∧ (Identifies (markerReference key) key ↔ ∀ f ∈ key.sortFields, f = key.partition) := by
  have hfields :
      (∀ f ∈ key.fields, f = key.partition) ↔ ∀ f ∈ key.sortFields, f = key.partition := by
    rw [Key.fields, List.forall_mem_cons, and_iff_right rfl]
  refine ⟨⟨?_, ?_⟩, ⟨?_, ?_⟩, ⟨?_, ?_⟩, ?_, ?_⟩
  · rw [readAll_createRequest stored_mem _ _ _ hunique]
    simp only [stored_claimMarker, readAll_freeMarker stored_mem, ← List.map_eq_flatMap]
  · rw [readAll_createRequest compared_mem _ _ _ hunique]
    simp only [compared_claimMarker, readAll_freeMarker compared_mem]
    exact List.flatMap_eq_nil_iff.2 fun _ _ => rfl
  · rw [readAll_updateRequest stored_mem _ _ _ hunique]
    simp only [stored_claimMarker, readAll_releaseMarker stored_mem, stored_ownMarker,
      List.append_nil, ← List.map_eq_flatMap]
  · rw [readAll_updateRequest compared_mem _ _ _ hunique]
    simp only [compared_claimMarker, readAll_releaseMarker compared_mem, compared_ownMarker,
      List.cons_append, List.nil_append]
  · rw [readAll_deleteRequest stored_mem _ _ hunique]
    simp only [readAll_releaseMarker stored_mem, stored_ownMarker]
    exact List.flatMap_eq_nil_iff.2 fun _ _ => rfl
  · rw [readAll_deleteRequest compared_mem _ _ hunique]
    simp only [readAll_releaseMarker compared_mem, compared_ownMarker, ← List.map_eq_flatMap]
  · simp only [markerReference, dependsOn_input hpartition, hfields]
  · rw [markerReference, identifies_input hpartition, hfields]

/-- Readings of one device at different times pass for one another. -/
theorem owners_of_readings :
    let key : Key := ⟨"deviceId", ["at"], none, none⟩
    storedReferences.readAll (updateRequest "Reading" key [] ["serial"])
        = ["$ctx.args.input.deviceId"] ∧
      comparedReferences.readAll (deleteRequest "Reading" key ["serial"])
        = ["$ctx.args.input.deviceId"] ∧
      ¬ (∀ f ∈ key.fields, DependsOn "$ctx.args.input.deviceId" f) ∧
      ¬ Identifies "$ctx.args.input.deviceId" key := by
  intro key
  have hreference : markerReference key = "$ctx.args.input.deviceId" := by decide
  have hother : ¬ ∀ f ∈ key.sortFields, f = key.partition := by decide
  obtain ⟨-, ⟨hstored, -⟩, ⟨-, hcompared⟩, hdepends, hidentifies⟩ :=
    owners_of_requests "Reading" key [] ["serial"] false (by decide) (by decide)
  rw [hreference] at hstored hcompared hdepends hidentifies
  exact ⟨hstored, hcompared, fun h => hother (hdepends.1 h), fun h => hother (hidentifies.1 h)⟩

end SchemaLoom.Resolver
