/-
The blocks of requests for items.

A shared attribute joins the names of its fields by number signs, so the requests that show one
are level only if none of its fields, but for the first, is the word that closes blocks
(`level_attributes_iff`).  The key of a marker joins the names of the type and of the unique
field in the same way (`levelIf_markerKey`).

Everything else in the requests that get, create, change and delete items is level: number signs
stand in front of words of their own, of numbered placeholders and of references.

There is one lemma for each function that builds a part, in the order in which the parts are put
together.  A part that shows no name is level; one that does is level under a condition, and the
conditions of parts are conjoined.
-/
import SchemaLoom.Proofs.Resolver.BlockTemplates
import SchemaLoom.Proofs.Surface.Generated
import SchemaLoom.Proofs.Surface.Printing
import SchemaLoom.Resolver.Mutation

namespace SchemaLoom.Resolver

/-! ### Attributes of keys

The attribute of a composite key is the one place where a mark can come about.  All lemmas that
follow are of the form that a template is level if this attribute is.
-/

section Attributes

variable {key : Key} (hkey : key.IsNamed)

include hkey

theorem plain_partition : Plain key.partition :=
  plain_of_isName (hkey.fields key.partition List.mem_cons_self)

theorem isName_sortField : ∀ f ∈ key.sortFields, Sdl.isName f = true :=
  fun f hf => hkey.fields f (List.mem_cons_of_mem key.partition hf)

/-- The attribute of the sort key is level if no field but the first is the word that closes
blocks. -/
theorem levelIf_sortKey {s : String} (hs : key.sortKey? = some s) :
    LevelIf s ("end" ∉ key.sortFields.tail) := by
  unfold Key.sortKey? at hs
  split at hs
  · cases hs
  · cases hs
    exact levelIf_joined (isName_sortField hkey)

theorem levelIf_shownSortKey :
    LevelIf (shownName key.sortKey?) ("end" ∉ key.sortFields.tail) := by
  cases hs : key.sortKey? with
  | some s => exact levelIf_sortKey hkey hs
  | none =>
    have hnone : key.sortFields = [] := by simpa [Key.sortKey?] using hs
    exact (level_of_plain (by decide : Plain absentName)).congr (by simp [hnone])

theorem levelIf_attribute : ∀ a ∈ key.attributes, LevelIf a (Level a) := by
  unfold Key.attributes
  rw [List.forall_mem_cons]
  refine ⟨(level_of_plain (plain_partition hkey)).self, fun a ha => ?_⟩
  exact (levelIf_sortKey hkey (Option.mem_toList.1 ha)).self

/-- **The attributes of a key are level if no sort field but the first is the word that closes
blocks (`Level`).** -/
theorem level_attributes_iff :
    (∀ a ∈ key.attributes, Level a) ↔ "end" ∉ key.sortFields.tail := by
  have hpartition := level_of_plain (plain_partition hkey)
  unfold Key.attributes
  rw [List.forall_mem_cons, and_iff_right hpartition]
  cases hs : key.sortKey? with
  | some s => simpa using (levelIf_sortKey hkey hs).level_iff
  | none =>
    have hnone : key.sortFields = [] := by simpa [Key.sortKey?] using hs
    simp [hnone]

theorem levelIf_keyValue {source : String} :
    ∀ e ∈ keyValues key source, LevelIf e.1 (Level e.1) := fun e he =>
  levelIf_attribute hkey e.1 (map_fst_keyValues key source ▸ List.mem_map_of_mem he)

theorem level_keyValues_iff {source : String} :
    (∀ e ∈ keyValues key source, Level e.1) ↔ "end" ∉ key.sortFields.tail := by
  rw [← level_attributes_iff hkey, ← map_fst_keyValues key source, List.forall_mem_map]

variable {source : String} (hsource : Plain source)

include hsource

theorem level_keyValue : ∀ e ∈ keyValues key source, Level e.2 := by
  have hfield : ∀ f, Plain f → Plain ("$" ++ source ++ "." ++ f) := by
    intro f hf
    simp only [plain_append, hsource, hf, (by decide : Plain "$"), (by decide : Plain "."),
      and_true]
  have hnames := isName_sortField hkey
  unfold keyValues
  rw [List.forall_mem_cons]
  refine ⟨level_of_plain (hfield _ (plain_partition hkey)), ?_⟩
  split
  next => exact List.forall_mem_nil _
  next field hfields =>
    rw [hfields] at hnames
    rw [List.forall_mem_singleton]
    exact level_of_plain (hfield _ (plain_of_isName (hnames field List.mem_cons_self)))
  next fields _ _ =>
    rw [List.forall_mem_singleton]
    exact levelIf_quoted (level_joinedValue (fun f hf => plain_of_isName (hnames f hf)) hsource)

theorem levelIf_keyMap : LevelIf (keyMap key source) ("end" ∉ key.sortFields.tail) :=
  (levelIf_inlineMap fun e he =>
    (levelIf_keyValue hkey e he).named (level_keyValue hkey hsource e he)).congr
      (level_keyValues_iff hkey)

theorem levelIf_keyMember : (keyMember key source).LevelIf ("end" ∉ key.sortFields.tail) := by
  refine (Template.levelIf_submap (by decide) fun e he => ?_).congr (level_keyValues_iff hkey)
  have hvalue : Level ("$util.dynamodb.toDynamoDBJson(" ++ e.2 ++ ")") :=
    LevelIf.enclosed (level_keyValue hkey hsource e he) (plain_ofList rfl) (by decide) (by decide)
  exact (levelIf_keyValue hkey e he).named hvalue

end Attributes

/-! ### Getting an item -/

theorem levelIf_getRequest {key : Key} (hkey : key.IsNamed) :
    (getRequest key).LevelIf ("end" ∉ key.sortFields.tail) := by
  have hmember := levelIf_keyMember hkey (by decide : Plain "ctx.args")
  exact Template.levelIf_request (by decide) (by decide)
    ((membersLevel_nil.cons hmember).congr (and_iff_left trivial))

theorem levelIf_itemRequest {key : Key} (hkey : key.IsNamed) :
    (itemRequest key).LevelIf ("end" ∉ key.sortFields.tail) := by
  have hmember := levelIf_keyMember hkey (by decide : Plain inputSource)
  have hread : Level (named "consistentRead" "true") := level_of_plain (by decide)
  exact Template.levelIf_request (by decide) (by decide)
    (((membersLevel_nil.line hread).cons hmember).congr (by simp))

/-! ### Conditions -/

section Conditions

variable {key : Key}

theorem plain_toString (n : Nat) : Plain (toString n) := by
  intro hmem
  rw [show toString n = n.repr from rfl, Nat.toList_repr] at hmem
  exact absurd (Nat.isDigit_of_mem_toDigits (by decide) (by decide) hmem) (by decide)

theorem level_placeholder : ∀ p ∈ placeholders key, Level p.1 := by
  intro p hp
  obtain ⟨a, -, rfl⟩ := List.mem_map.1 hp
  obtain ⟨ms, hms, htext⟩ := level_of_plain (plain_toString a.2)
  refine ⟨ms, hms, fun rest hrest => ?_⟩
  rw [← htext rest hrest, String.toList_append, List.append_assoc]
  simp [blockMarks, markAt, goesOnInRemark]

theorem map_snd_placeholders (key : Key) : (placeholders key).map (·.2) = key.attributes := by
  rw [placeholders, List.map_map]
  exact List.zipIdx_map_fst 0 key.attributes

theorem level_keyCondition (key : Key) {function : String} (hfunction : Plain function) :
    Level (keyCondition key function) := by
  have hcall : Plain (function ++ "(") := plain_append.2 ⟨hfunction, by decide⟩
  refine (levelIf_intercalate (by decide) (by decide) fun p hp => ?_).congr
    (iff_true_intro fun _ _ => trivial)
  exact LevelIf.enclosed (level_placeholder p hp) hcall (by decide) (by decide)

theorem level_givenCondition : givenCondition.Level :=
  Template.levelIf_whenever (level_of_plain (plain_ofList rfl)) <|
    Template.level_cons (level_assign (plain_ofList rfl) (plain_ofList rfl)) <|
    Template.level_cons
      (level_put (plain_ofList rfl) (level_of_plain (plain_ofList rfl)) (plain_ofList rfl)) <|
    Template.level_cons (levelIf_perform (level_of_plain (plain_ofList rfl))) <|
    Template.level_cons
      (level_assign (plain_ofList rfl) (plain_orElse.2 ⟨plain_ofList rfl, plain_ofList rfl⟩)) <|
    Template.level_cons (levelIf_perform (level_of_plain (plain_ofList rfl))) <|
    Template.level_line (level_assign (plain_ofList rfl) (plain_ofList rfl))

theorem level_withoutEmptyValues : withoutEmptyValues.Level :=
  Template.levelIf_block (level_of_plain (plain_ofList rfl)) <|
    (Template.levelIf_mapping (level_ofList (by decide)) (by decide)
      ((membersLevel_nil.line (level_of_plain
        (plain_named.2 ⟨plain_ofList rfl, plain_ofList rfl⟩))).line (level_of_plain
        (plain_named.2 ⟨plain_ofList rfl, plain_ofList rfl⟩)))).congr (by simp)

variable (hkey : key.IsNamed)

include hkey

theorem levelIf_placeholder : ∀ p ∈ placeholders key, LevelIf p.2 (Level p.2) := fun p hp =>
  levelIf_attribute hkey p.2 (map_snd_placeholders key ▸ List.mem_map_of_mem hp)

theorem level_placeholders_iff :
    (∀ p ∈ placeholders key, Level p.2) ↔ "end" ∉ key.sortFields.tail := by
  rw [← level_attributes_iff hkey, ← map_snd_placeholders, List.forall_mem_map]

theorem levelIf_keyNames : (keyNames key).LevelIf ("end" ∉ key.sortFields.tail) :=
  (Template.levelIf_submap (by decide) fun p hp =>
    (levelIf_named (level_placeholder p hp) (levelIf_quoted (levelIf_placeholder hkey p hp))).congr
      (and_iff_right trivial)).congr (level_placeholders_iff hkey)

theorem levelIf_existingCondition {more : List Template} (hmore : MembersLevelIf more True) :
    (existingCondition key more).LevelIf ("end" ∉ key.sortFields.tail) := by
  have hthere := level_keyCondition key (by decide : Plain "attribute_exists")
  have hboth :
      Level (quoted ("($condition.expression) AND " ++ keyCondition key "attribute_exists")) :=
    levelIf_quoted (LevelIf.behind hthere (plain_ofList rfl))
  have hput : Level (put "$condition" "expression"
      (quoted ("($condition.expression) AND " ++ keyCondition key "attribute_exists"))) :=
    (levelIf_put (by decide) (level_of_plain (by decide)) hboth).congr (by simp)
  have hputs : Template.LevelIf ((placeholders key).map fun p =>
      put "$condition.expressionNames" p.1 (quoted p.2)) ("end" ∉ key.sortFields.tail) :=
    (Template.levelIf_map fun p hp => (levelIf_put (plain_ofList rfl) (level_placeholder p hp)
      (levelIf_quoted (levelIf_placeholder hkey p hp))).congr (and_iff_right trivial)).congr
        (level_placeholders_iff hkey)
  have hassign : Level (assign "$condition" "$authCondition") :=
    level_assign (by decide) (by decide)
  have hexpression : Level (named "expression" (quoted (keyCondition key "attribute_exists"))) :=
    levelIf_member (levelIf_quoted hthere) (by decide)
  have hnew := Template.levelIf_mapping (level_ofList (by decide) : Level "  #set( $condition = ")
    (by decide : Plain " )") ((hmore.cons (levelIf_keyNames hkey)).line hexpression)
  exact (Template.levelIf_branch (level_of_plain (plain_ofList rfl))
    ((hputs.cons hput).cons hassign).shifted hnew).congr (by simp)

end Conditions

/-! ### Composite keys -/

theorem level_remark_of_isLine {words : String} (h : Sdl.IsLine words) :
    Template.Level [remark words] := Template.level_remark fun hbreak => h.ne_break _ hbreak rfl

theorem level_remark_ofList {cs : List Char} (h : cs.all (· != '\n') = true) :
    Template.Level [remark (String.ofList cs)] := Template.level_remark fun hbreak => by
  rw [String.toList_ofList] at hbreak
  simpa using List.all_eq_true.1 h '\n' hbreak

/-- The name of a shared attribute stands in a remark and in one statement. -/
theorem levelIf_compositeValue {key : Key} (hkey : key.IsNamed) :
    (compositeValue key).LevelIf ("end" ∉ key.sortFields.tail) := by
  have hnames := isName_sortField hkey
  have hshown : Sdl.IsLine (shownName key.sortKey?) := by
    unfold Key.sortKey?
    split
    · exact Sdl.isLine_of_all (by decide)
    · exact forall_mem_intercalate (Sdl.isLine_of_all (by decide)) fun f hf =>
        Sdl.isLine_of_isName (hnames f hf)
  have hgiven : Level (" && ".intercalate (key.sortFields.map fun f => isGiven (input f))) :=
    (levelIf_intercalate (by decide) (by decide) fun f hf =>
      level_of_plain (plain_isGiven.2 (plain_input.2 (plain_of_isName (hnames f hf))))).congr
        (by simp)
  have hvalue : Level (quoted (joinedValue key.sortFields inputSource)) :=
    levelIf_quoted (level_joinedValue (fun f hf => plain_of_isName (hnames f hf)) (by decide))
  have hput : LevelIf (putInput (shownName key.sortKey?)
      (quoted (joinedValue key.sortFields inputSource))) ("end" ∉ key.sortFields.tail) :=
    (levelIf_put (by decide) (levelIf_shownSortKey hkey) hvalue).congr (and_iff_left trivial)
  have hremark := level_remark_of_isLine
    ((Sdl.isLine_of_all (by decide) : Sdl.IsLine "Composite sort key ").append hshown)
  exact hremark.append (Template.levelIf_whenever hgiven (Template.levelIf_line hput))

theorem levelIf_compositeValues {keys : List Key} (hkeys : ∀ k ∈ keys, k.IsNamed) :
    Template.LevelIf (keys.flatMap compositeValue) (∀ k ∈ keys, "end" ∉ k.sortFields.tail) :=
  Template.levelIf_flatMap fun k hk => levelIf_compositeValue (hkeys k hk)

/-! ### Markers

Each unique field has a marker, whose key names the type and the field behind number signs.  The
statements about a marker differ in what they do, but only its key may spoil their balance.
-/

/-- Of a write the key decides. -/
theorem levelIf_addWrite {type operation keyText : String} (htype : Sdl.isName type = true)
    (hoperation : Plain operation) {P : Prop} (hkey : LevelIf keyText P) {more : List Template}
    (hmore : MembersLevelIf more True) :
    (addWrite ([named "table" (quoted type)] :: [named "operation" (quoted operation)]
      :: [named "key" keyText] :: more)).LevelIf P := by
  have hmembers := ((hmore.line (levelIf_member hkey (by decide : Plain "key"))).line
    (level_namedText (by decide : Plain "operation") hoperation)).line
      (level_namedText (by decide : Plain "table") (plain_of_isName htype))
  exact (Template.levelIf_mapping (level_of_plain (plain_ofList rfl)) (by decide) hmembers).congr
    (by simp)

theorem level_uniqueRemark {field : String} (hfield : Sdl.isName field = true) :
    Template.Level [uniqueRemark field] :=
  level_remark_of_isLine ((Sdl.isLine_of_all (by decide)).append (Sdl.isLine_of_isName hfield))

section Markers

variable {type : String} {key : Key} {field : String} (htype : Sdl.isName type = true)
  (hkey : key.IsNamed) (hfield : Sdl.isName field = true)

include hkey

/-- The placeholder of the partition of a marker is a word of its own. -/
theorem level_markerName : Level (named "#marker" (quoted key.partition)) :=
  LevelIf.named (level_ofList (by decide)) (levelIf_quoted (level_of_plain (plain_partition hkey)))

theorem level_freeMarker : (freeMarker key).Level := by
  have hexpression : Level (named "expression" (quoted "attribute_not_exists(#marker)")) :=
    levelIf_member (levelIf_quoted (level_ofList (by decide))) (by decide)
  have hnames :
      Level (named "expressionNames" (inlineMap [named "#marker" (quoted key.partition)])) :=
    levelIf_member (levelIf_inlineMap_single (level_markerName hkey)) (by decide)
  exact (Template.levelIf_mapping (level_of_plain (by decide)) (by decide)
    ((membersLevel_nil.line hnames).line hexpression)).congr (by simp)

theorem level_ownMarker : (ownMarker key).Level := by
  have hexpression :
      Level (named "expression" (quoted "attribute_not_exists(#marker) OR #ref = :ref")) :=
    levelIf_member (levelIf_quoted (level_ofList (by decide))) (by decide)
  have hreference : Level (named "#ref" (quoted referenceAttribute)) :=
    LevelIf.named (level_ofList (by decide)) (level_of_plain (by decide))
  have hnames : Level (named "expressionNames" (inlineMap
      [named "#marker" (quoted key.partition), named "#ref" (quoted referenceAttribute)])) :=
    levelIf_member ((levelIf_inlineMap_pair (level_markerName hkey) hreference).congr
      (and_iff_left trivial)) (by decide)
  have hvalue : Plain (named ":ref" (stored (markerReference key))) :=
    plain_named.2 ⟨by decide, plain_stored.2 (plain_input.2 (plain_partition hkey))⟩
  have hvalues : Level
      (named "expressionValues" (inlineMap [named ":ref" (stored (markerReference key))])) :=
    levelIf_member (levelIf_inlineMap_single (level_of_plain hvalue)) (by decide)
  exact (Template.levelIf_mapping (level_of_plain (by decide)) (by decide)
    (((membersLevel_nil.line hvalues).line hnames).line hexpression)).congr (by simp)

include htype hfield

/-- The key of a marker shows the names of type and field behind number signs, and the sort key. -/
theorem levelIf_markerKey {value : String} (hvalue : Plain value)
    (hsign : value.toList.head? = some '$') : LevelIf (markerKey type key field value)
      ((type ≠ "end" ∧ field ≠ "end") ∧ "end" ∉ key.sortFields.tail) := by
  have htext : LevelIf (keySeparator.intercalate [markerWord, type, field, value])
      (type ≠ "end" ∧ field ≠ "end") := by
    have hbehind := ((LevelIf.behind_numberSign (level_of_plain hvalue) hsign).behind_name hfield
      (parted_of_head? (by simp))).behind_name htype (parted_of_head? (by simp))
    have hwhole := hbehind.behind (by decide : Plain markerWord)
    refine LevelIf.congr ?_ (and_congr_right fun _ => and_iff_left trivial)
    simpa [keySeparator, String.append_assoc] using hwhole
  have hpartition := levelIf_member (levelIf_quoted htext) (plain_partition hkey)
  have hword : Level (quoted markerWord) := level_of_plain (by decide)
  unfold markerKey
  refine LevelIf.enclosed ?_ (plain_ofList rfl) (by decide) (by decide)
  cases hs : key.sortKey? with
  | none =>
    have hnone : key.sortFields = [] := by simpa [Key.sortKey?] using hs
    exact (levelIf_inlineMap_single hpartition).congr (by simp [hnone])
  | some s =>
    exact levelIf_inlineMap_pair hpartition ((levelIf_sortKey hkey hs).named hword)

theorem levelIf_claimMarker {condition : Template} (hcondition : condition.Level) :
    (claimMarker type key field condition).LevelIf
      ((type ≠ "end" ∧ field ≠ "end") ∧ "end" ∉ key.sortFields.tail) := by
  have hmarker := levelIf_markerKey htype hkey hfield
    (plain_input.2 (plain_of_isName hfield)) (by unfold input; simp)
  have hreference : Plain (named referenceAttribute (markerReference key)) :=
    plain_named.2 ⟨by decide, plain_input.2 (plain_partition hkey)⟩
  have hattributes : Level (named "attributeValues" ("$util.dynamodb.toMapValues("
      ++ inlineMap [named referenceAttribute (markerReference key)] ++ ")")) :=
    levelIf_member (LevelIf.enclosed (levelIf_inlineMap_single (level_of_plain hreference))
      (plain_ofList rfl) (by decide) (by decide)) (by decide)
  exact levelIf_addWrite htype (by decide) hmarker
    (((membersLevel_nil.cons hcondition).line hattributes).congr (by simp))

theorem levelIf_releaseMarker : (releaseMarker type key field).LevelIf
    ((type ≠ "end" ∧ field ≠ "end") ∧ "end" ∉ key.sortFields.tail) := by
  have hstored : Plain (storedValue field) :=
    plain_append.2 ⟨by decide, plain_of_isName hfield⟩
  have hmarker := levelIf_markerKey htype hkey hfield hstored (by unfold storedValue; simp)
  exact levelIf_addWrite htype (by decide) hmarker
    ((membersLevel_nil.cons (level_ownMarker hkey)).congr (by simp))

theorem levelIf_claimOnCreate : (claimOnCreate type key field).LevelIf
    ((type ≠ "end" ∧ field ≠ "end") ∧ "end" ∉ key.sortFields.tail) := by
  have hgiven : Level (isGiven (input field)) :=
    level_of_plain (plain_isGiven.2 (plain_input.2 (plain_of_isName hfield)))
  have hclaim := levelIf_claimMarker htype hkey hfield (level_freeMarker hkey)
  exact (level_uniqueRemark hfield).append (Template.levelIf_whenever hgiven hclaim)

theorem levelIf_reassignMarker : (reassignMarker type key field).LevelIf
    ((type ≠ "end" ∧ field ≠ "end") ∧ "end" ∉ key.sortFields.tail) := by
  have hname := plain_of_isName hfield
  have hstored : Plain (storedValue field) := plain_append.2 ⟨by decide, hname⟩
  have hchanged : Level ("$ctx.args.input.containsKey(" ++ quoted field ++ ") && " ++ input field
      ++ " != " ++ storedValue field) := level_of_plain (by
    simp only [plain_append, plain_quoted, plain_input, hname, hstored, and_true,
      (plain_ofList rfl : Plain "$ctx.args.input.containsKey("), (by decide : Plain ") && "),
      (by decide : Plain " != ")])
  have hclaim := levelIf_claimMarker htype hkey hfield (level_ownMarker hkey)
  have hrelease := levelIf_releaseMarker htype hkey hfield
  have hboth := (Template.levelIf_block (level_of_plain (plain_isGiven.2 (plain_input.2 hname)))
    hclaim.hanging).append
      (Template.levelIf_block (level_of_plain (plain_isGiven.2 hstored)) hrelease.hanging)
  exact (level_uniqueRemark hfield).append
    ((Template.levelIf_whenever hchanged hboth).congr and_self_iff)

theorem levelIf_releaseOnDelete : (releaseOnDelete type key field).LevelIf
    ((type ≠ "end" ∧ field ≠ "end") ∧ "end" ∉ key.sortFields.tail) := by
  have hgiven : Level (isGiven (storedValue field)) :=
    level_of_plain (plain_isGiven.2 (plain_append.2 ⟨by decide, plain_of_isName hfield⟩))
  exact (level_uniqueRemark hfield).append
    (Template.levelIf_whenever hgiven (levelIf_releaseMarker htype hkey hfield))

end Markers

/-! ### Writes -/

section Writes

variable {type : String} {key : Key} {uniqueFields : List String} (htype : Sdl.isName type = true)
  (hkey : key.IsNamed) (hfields : ∀ f ∈ uniqueFields, Sdl.isName f = true)

theorem level_newTransaction : Level newTransaction := level_assign (by decide) (by decide)

theorem level_existingItem : Level existingItem :=
  level_assign (by decide) (plain_orElse.2 ⟨by decide, by decide⟩)

theorem level_transactionRequest : transactionRequest.Level :=
  (Template.levelIf_request (by decide) (by decide)
    (membersLevel_nil.line (level_of_plain (plain_named.2 ⟨by decide, plain_ofList rfl⟩)))).congr
      (and_iff_left trivial)

/-- The condition of a request is looked up, not written out. -/
theorem level_conditionMember : conditionMember.Level :=
  Template.level_line (level_of_plain (plain_named.2 ⟨by decide, plain_ofList rfl⟩))

include hfields in
/-- A transaction shows the names of type and unique fields in the lines about markers. -/
theorem levelIf_transaction {lines : String → Template}
    (hlines : ∀ f, Sdl.isName f = true → (lines f).LevelIf
      ((type ≠ "end" ∧ f ≠ "end") ∧ "end" ∉ key.sortFields.tail))
    {before between : Template} (hbefore : before.LevelIf ("end" ∉ key.sortFields.tail))
    (hbetween : between.Level) :
    Template.LevelIf (before ++ (between ++ uniqueFields.flatMap lines) ++ transactionRequest)
      ("end" ∉ key.sortFields.tail ∧ ∀ f ∈ uniqueFields, type ≠ "end" ∧ f ≠ "end") := by
  have hmarkers := Template.levelIf_flatMap fun f hf => hlines f (hfields f hf)
  refine ((hbefore.append (hbetween.append hmarkers)).append level_transactionRequest).congr ?_
  rw [and_iff_left trivial]
  exact and_congr_right fun hkey => forall₂_congr fun f _ => and_iff_left hkey

include htype hkey

theorem levelIf_itemWrite {operation : String} (hoperation : Plain operation) {more : List Template}
    (hmore : MembersLevelIf more True) :
    (itemWrite type operation key more).LevelIf ("end" ∉ key.sortFields.tail) := by
  have hvalue := LevelIf.enclosed (levelIf_keyMap hkey (by decide : Plain inputSource))
    (plain_ofList rfl : Plain "$util.dynamodb.toMapValues(") (by decide : Plain ")") (by decide)
  exact levelIf_addWrite htype hoperation hvalue hmore

end Writes

/-! ### Creating, changing and deleting items -/

theorem level_appendItems {item collection text : String} (hitem : Plain item)
    (hcollection : Plain collection) (htext : Plain text) :
    (appendItems item collection text).Level :=
  Template.levelIf_forEach hitem hcollection <|
    Template.level_cons (level_assign (by decide)
      (plain_quoted.2 (plain_append.2 ⟨plain_ofList rfl, htext⟩))) <|
    Template.levelIf_whenever (level_of_plain (plain_ofList rfl)) <|
    Template.level_line (level_assign (plain_ofList rfl) (plain_quoted.2 (plain_ofList rfl)))

/-- Number signs stand in front of a reference there, in placeholders. -/
theorem level_updateExpression : updateExpression.Level := by
  have hplaceholder : Level "#$entryKeyAttributeName" := level_ofList (by decide)
  have hstart : Template.Level [assign "$expNames" "\x7b\x7d", assign "$expValues" "\x7b\x7d",
      assign "$expSet" "\x7b\x7d", assign "$expRemove" "[]"] :=
    Template.level_cons (level_assign (by decide) (by decide)) <|
      Template.level_cons (level_assign (by decide) (by decide)) <|
      Template.level_cons (level_assign (by decide) (by decide)) <|
      Template.level_line (level_assign (by decide) (by decide))
  have hremoved : Template.Level
      [assign "$discard" ("$expRemove.add(" ++ quoted "#$entryKeyAttributeName" ++ ")"),
        put "$expNames" "#$entryKeyAttributeName" (quoted "$entry.key")] :=
    Template.level_cons (levelIf_assign (by decide)
        ((levelIf_quoted hplaceholder).enclosed (by decide) (by decide) (by decide))) <|
      Template.level_line (level_put (by decide) hplaceholder (plain_quoted.2 (by decide)))
  have hset : Template.Level
      [put "$expSet" "#$entryKeyAttributeName" (quoted ":$entryKeyAttributeName"),
        put "$expNames" "#$entryKeyAttributeName" (quoted "$entry.key"),
        put "$expValues" ":$entryKeyAttributeName" (stored "$entry.value")] :=
    Template.level_cons (level_put (by decide) hplaceholder (plain_quoted.2 (plain_ofList rfl))) <|
      Template.level_cons (level_put (by decide) hplaceholder (plain_quoted.2 (by decide))) <|
      Template.level_line (level_put (by decide) (level_of_plain (plain_ofList rfl))
        (plain_stored.2 (by decide)))
  have hentries := Template.levelIf_forEach (by decide : Plain "$entry") (plain_ofList rfl :
      Plain "$util.map.copyAndRemoveAllKeys($ctx.args.input, $keyFields).entrySet()")
    (Template.level_cons (level_assign (plain_ofList rfl : Plain "$entryKeyAttributeName")
        (plain_ofList rfl : Plain "$entry.key.replaceAll(\"[^A-Za-z0-9_]\", \"_\")"))
      ((Template.levelIf_choose
        (level_of_plain (plain_ofList rfl : Plain "$util.isNull($entry.value)"))
        hremoved hset).congr (and_iff_left trivial)))
  have hempty : Template.Level [assign "$expression" (quoted "")] :=
    Template.level_line (level_assign (by decide) (by decide))
  have hsets := Template.levelIf_whenever (level_of_plain (by decide : Plain "!$expSet.isEmpty()"))
    (Template.level_cons
      (level_assign (by decide : Plain "$expression") (by decide : Plain (quoted "SET")))
      (level_appendItems (by decide : Plain "$entry") (by decide : Plain "$expSet.entrySet()")
        (by decide : Plain "$entry.key = $entry.value")))
  have hremoves := Template.levelIf_whenever
    (level_of_plain (by decide : Plain "!$expRemove.isEmpty()"))
    (Template.level_cons (level_assign (by decide : Plain "$expression")
        (plain_quoted.2 (by decide : Plain "$expression REMOVE")))
      (level_appendItems (by decide : Plain "$entry") (by decide : Plain "$expRemove")
        (by decide : Plain "$entry")))
  have hupdate : Template.Level
      [assign "$update" "\x7b\x7d", put "$update" "expression" (quoted "$expression")] :=
    Template.level_cons (level_assign (by decide) (by decide)) <|
      Template.level_line (level_put (by decide) (level_of_plain (by decide))
        (plain_quoted.2 (by decide)))
  have hnames :=
    Template.levelIf_whenever (level_of_plain (by decide : Plain "!$expNames.isEmpty()"))
    (Template.level_line (level_put (by decide : Plain "$update")
      (level_of_plain (by decide : Plain "expressionNames")) (by decide : Plain "$expNames")))
  have hvalues := Template.levelIf_whenever
    (level_of_plain (by decide : Plain "!$expValues.isEmpty()"))
    (Template.level_line (level_put (by decide : Plain "$update")
      (level_of_plain (by decide : Plain "expressionValues")) (by decide : Plain "$expValues")))
  exact (((((((hstart.append hentries).append hempty).append hsets).append hremoves).append
    hupdate).append hnames).append hvalues).congr (by simp only [and_self])

section Requests

variable {type : String} {key : Key} {compositeKeys : List Key} {uniqueFields : List String}
  (htype : Sdl.isName type = true) (hkey : key.IsNamed) (hkeys : ∀ k ∈ compositeKeys, k.IsNamed)
  (hfields : ∀ f ∈ uniqueFields, Sdl.isName f = true)

include htype in
theorem level_typeMark : Level (typeMark type) :=
  level_put (by decide) (level_of_plain (by decide)) (plain_quoted.2 (plain_of_isName htype))

include hkey in
theorem level_generatedId : Level (putInput key.partition
    ("$util.defaultIfNullOrBlank(" ++ input key.partition ++ ", $util.autoId())")) := by
  have hpartition := plain_partition hkey
  have hvalue :
      Plain ("$util.defaultIfNullOrBlank(" ++ input key.partition ++ ", $util.autoId())") := by
    simp only [plain_append, plain_input, hpartition, and_true,
      (plain_ofList rfl : Plain "$util.defaultIfNullOrBlank("),
      (plain_ofList rfl : Plain ", $util.autoId())")]
  exact level_put (by decide) (level_of_plain hpartition) hvalue

include hkey in
/-- The fields of a key are names, so only its attributes may spoil the list of both. -/
theorem levelIf_fixedFields :
    LevelIf (", ".intercalate ((Text.distinct (key.fields ++ key.attributes)).map quoted))
      ("end" ∉ key.sortFields.tail) := by
  have hfields : ∀ f ∈ key.fields, Level f := fun f hf => level_of_isName (hkey.fields f hf)
  have hfixed : ∀ a ∈ Text.distinct (key.fields ++ key.attributes), LevelIf a (Level a) := by
    intro a ha
    rw [Text.mem_distinct, List.mem_append] at ha
    exact ha.elim (fun hfield => LevelIf.self (hfields a hfield)) (levelIf_attribute hkey a)
  refine (levelIf_intercalate (by decide) (by decide) fun a ha =>
    levelIf_quoted (hfixed a ha)).congr ?_
  simp only [← level_attributes_iff hkey, Text.mem_distinct, List.mem_append, or_imp, forall_and]
  exact and_iff_right hfields

include hfields in
/-- The item alone or, with unique fields, a transaction. -/
theorem levelIf_write {alone : Template} (halone : alone.LevelIf ("end" ∉ key.sortFields.tail))
    {lines : String → Template}
    (hlines : ∀ f, Sdl.isName f = true → (lines f).LevelIf
      ((type ≠ "end" ∧ f ≠ "end") ∧ "end" ∉ key.sortFields.tail))
    {before between : Template} (hbefore : before.LevelIf ("end" ∉ key.sortFields.tail))
    (hbetween : between.Level) :
    Template.LevelIf (if uniqueFields.isEmpty then alone
      else before ++ (between ++ uniqueFields.flatMap lines) ++ transactionRequest)
      ("end" ∉ key.sortFields.tail ∧ ∀ f ∈ uniqueFields, type ≠ "end" ∧ f ≠ "end") := by
  split
  next hempty =>
    have hnone := List.isEmpty_iff.1 hempty
    exact halone.congr (by simp [hnone])
  · exact levelIf_transaction hfields hlines hbefore hbetween

include htype hkey hkeys hfields

theorem levelIf_createRequest (generatesId : Bool) :
    (createRequest type key compositeKeys uniqueFields generatesId).LevelIf
      ("end" ∉ key.sortFields.tail ∧ (∀ k ∈ compositeKeys, "end" ∉ k.sortFields.tail) ∧
        ∀ f ∈ uniqueFields, type ≠ "end" ∧ f ≠ "end") := by
  have hmoments : Template.Level
      [remark "[Start] Prepare DynamoDB PutItem Request.", assign "$createdAt" now,
        remark "Automatically set the createdAt timestamp.",
        putInput "createdAt" (orElse (input "createdAt") "$createdAt"),
        remark "Automatically set the updatedAt timestamp.",
        putInput "updatedAt" (orElse (input "updatedAt") "$createdAt"), typeMark type] := by
    have hmoment : ∀ name, Plain name →
        Level (putInput name (orElse (input name) "$createdAt")) := fun name hname =>
      level_put (by decide) (level_of_plain hname)
        (plain_orElse.2 ⟨plain_input.2 hname, plain_ofList rfl⟩)
    exact (level_remark_ofList rfl).append <|
      Template.level_cons (level_assign (plain_ofList rfl) (plain_ofList rfl)) <|
      (level_remark_ofList rfl).append <| Template.level_cons (hmoment "createdAt" (by decide)) <|
      (level_remark_ofList rfl).append <| Template.level_cons (hmoment "updatedAt" (by decide)) <|
      Template.level_line (level_typeMark htype)
  have hgenerated : Template.Level (if generatesId then
      [putInput key.partition
        ("$util.defaultIfNullOrBlank(" ++ input key.partition ++ ", $util.autoId())")]
      else []) := by
    split
    · exact Template.level_line (level_generatedId hkey)
    · exact Template.level_nil
  have hexpression :
      Level (named "expression" (quoted (keyCondition key "attribute_not_exists"))) :=
    levelIf_member (levelIf_quoted (level_keyCondition key (by decide))) (by decide)
  have hcondition :=
    Template.levelIf_mapping (level_ofList (by decide) : Level "#set( $condition = ")
    (by decide : Plain " )") ((membersLevel_nil.cons (levelIf_keyNames hkey)).line hexpression)
  have halone : Template.LevelIf (request "2017-02-28" "PutItem"
      [keyMember key inputSource,
        [named "attributeValues" "$util.dynamodb.toMapValuesJson($ctx.args.input)"],
        conditionMember]) ("end" ∉ key.sortFields.tail) :=
    (Template.levelIf_request (by decide) (by decide) (((membersLevel_nil.cons
      level_conditionMember).line
        (level_of_plain (plain_named.2 ⟨by decide, plain_ofList rfl⟩))).cons
          (levelIf_keyMember hkey (by decide)))).congr (by simp)
  have hitem : Template.LevelIf (newTransaction :: itemWrite type "PutItem" key
      [[named "attributeValues" "$util.dynamodb.toMapValues($ctx.args.input)"],
        [named "condition" "$condition"]]) ("end" ∉ key.sortFields.tail) :=
    Template.level_cons level_newTransaction <| levelIf_itemWrite htype hkey (by decide) <|
      ((membersLevel_nil.line (level_of_plain (by decide))).line
        (level_of_plain (plain_named.2 ⟨by decide, plain_ofList rfl⟩))).congr (by simp)
  have hwrite := levelIf_write hfields halone
    (fun f hf => levelIf_claimOnCreate htype hkey hf) hitem Template.level_nil
  have hend : Template.Level [remark "[End] Prepare DynamoDB PutItem Request."] :=
    level_remark_ofList rfl
  exact (((((((hmoments.append hgenerated).append (levelIf_compositeValues hkeys)).append
    hcondition).append level_givenCondition).append level_withoutEmptyValues).append hwrite).append
      hend).congr (by tauto)

theorem levelIf_updateRequest :
    (updateRequest type key compositeKeys uniqueFields).LevelIf
      ("end" ∉ key.sortFields.tail ∧ (∀ k ∈ compositeKeys, "end" ∉ k.sortFields.tail) ∧
        ∀ f ∈ uniqueFields, type ≠ "end" ∧ f ≠ "end") := by
  have hvalues : MembersLevelIf [[named "expressionValues" "\x7b\x7d"]] True :=
    (membersLevel_nil.line (level_of_plain (by decide))).congr (and_iff_left trivial)
  have hexists := levelIf_existingCondition hkey hvalues
  have hmoment : Template.Level [remark "Automatically set the updatedAt timestamp.",
      putInput "updatedAt" (orElse (input "updatedAt") now), typeMark type] :=
    (level_remark_ofList rfl).append <|
      Template.level_cons (level_put (by decide) (level_of_plain (by decide))
        (plain_orElse.2 ⟨plain_input.2 (by decide), plain_ofList rfl⟩)) <|
      Template.level_line (level_typeMark htype)
  have hfixed : Template.LevelIf [assign "$keyFields" ("[" ++ ", ".intercalate
      ((Text.distinct (key.fields ++ key.attributes)).map quoted) ++ "]")]
      ("end" ∉ key.sortFields.tail) :=
    Template.levelIf_line (levelIf_assign (by decide)
      ((levelIf_fixedFields hkey).enclosed (by decide) (by decide) (by decide)))
  have halone : Template.LevelIf (request "2017-02-28" "UpdateItem"
      [keyMember key inputSource, [named "update" "$util.toJson($update)"], conditionMember])
      ("end" ∉ key.sortFields.tail) :=
    (Template.levelIf_request (by decide) (by decide) (((membersLevel_nil.cons
      level_conditionMember).line
        (level_of_plain (plain_named.2 ⟨by decide, plain_ofList rfl⟩))).cons
          (levelIf_keyMember hkey (by decide)))).congr (by simp)
  have hitem : Template.LevelIf (newTransaction :: itemWrite type "UpdateItem" key
      [[named "update" "$update"], [named "condition" "$condition"]])
      ("end" ∉ key.sortFields.tail) :=
    Template.level_cons level_newTransaction <| levelIf_itemWrite htype hkey (by decide) <|
      ((membersLevel_nil.line (level_of_plain (by decide))).line
        (level_of_plain (by decide))).congr (by simp)
  have hwrite := levelIf_write hfields halone
    (fun f hf => levelIf_reassignMarker htype hkey hf) hitem
      (Template.level_line level_existingItem)
  exact (((((((hexists.append hmoment).append (levelIf_compositeValues hkeys)).append
    level_givenCondition).append level_withoutEmptyValues).append hfixed).append
      level_updateExpression).append hwrite).congr (by tauto)

omit hkeys

theorem levelIf_deleteRequest : (deleteRequest type key uniqueFields).LevelIf
    ("end" ∉ key.sortFields.tail ∧ ∀ f ∈ uniqueFields, type ≠ "end" ∧ f ≠ "end") := by
  have hexists := levelIf_existingCondition hkey membersLevel_nil
  have halone : Template.LevelIf
      (request "2017-02-28" "DeleteItem" [keyMember key inputSource, conditionMember])
      ("end" ∉ key.sortFields.tail) :=
    (Template.levelIf_request (by decide) (by decide) ((membersLevel_nil.cons
      level_conditionMember).cons (levelIf_keyMember hkey (by decide)))).congr (by simp)
  have hitem : Template.LevelIf (existingItem :: newTransaction :: itemWrite type "DeleteItem" key
      [[named "condition" "$condition"]]) ("end" ∉ key.sortFields.tail) :=
    Template.level_cons level_existingItem <| Template.level_cons level_newTransaction <|
      levelIf_itemWrite htype hkey (by decide) <|
        (membersLevel_nil.line (level_of_plain (by decide))).congr (by simp)
  have hwrite := levelIf_write hfields halone
    (fun f hf => levelIf_releaseOnDelete htype hkey hf) hitem Template.level_nil
  have hcondition := (hexists.append level_givenCondition).append level_withoutEmptyValues
  exact (hcondition.append hwrite).congr (by simp)

end Requests

end SchemaLoom.Resolver
