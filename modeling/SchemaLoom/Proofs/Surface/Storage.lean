/-
What the storage is told of a table.

The declaration of a table starts with the primary key.  Each further definition of an attribute
and each index is an edit of what stands there so far, and all of these edits lead through the
same mappings to two lists.  `declaration` is the tree after any number of them: one more edit
makes one list one longer (`patch_definition`, `patch_index`), so the whole run of fragments ends
with all definitions and all indexes, in order (`foldlM_declaring`).

The definitions of the primary key come first, as they do among the attributes of all keys; so
together they define each attribute once, as long as the key itself names none twice.  The
attributes that keys use are the same as those that are defined (`usesAttribute_iff`).

An edit copies the tree, and a tree that is too deep cannot be copied.  The declaration is five
collections deep around what is listed, and what is listed is flat.
-/
import SchemaLoom.Proofs.Artifact.Location
import SchemaLoom.Proofs.Catalog.Acceptance
import SchemaLoom.Proofs.Sdl.Named
import SchemaLoom.Proofs.Tree.Edit

namespace SchemaLoom

/-! ### Attributes of keys -/

/-- **The attributes of a key differ if its fields differ and none holds the separator.** -/
theorem Key.nodup_attributes {k : Key} (hdistinct : k.fields.Nodup)
    (hplain : ∀ f ∈ k.fields, '#' ∉ f.toList) : k.attributes.Nodup := by
  unfold Key.attributes Key.sortKey?
  cases hsort : k.sortFields with
  | nil => simp
  | cons first rest =>
    rw [Key.fields, hsort] at hdistinct hplain
    have hother : k.partition ≠ keySeparator.intercalate (first :: rest) := by
      cases rest with
      | nil =>
        rw [String.intercalate_singleton]
        rintro hsame
        simp [hsame] at hdistinct
      | cons next rest =>
        intro hsame
        apply hplain k.partition List.mem_cons_self
        rw [hsame, String.intercalate_cons_cons]
        simp [keySeparator]
    simpa using hother

namespace Surface

open Artifact

variable {t : Table}

/-! ### The declaration so far

After every edit the declaration has the shape of `stackOf`, with two lists that have become
longer.
-/

/-- A stack with a table of some properties. -/
def stackOf (t : Table) (properties : Tree) : Tree :=
  Tree.record [("Resources", Tree.record [(resourceName t,
    Tree.record [("Type", .text "AWS::DynamoDB::Table"), ("Properties", properties)])])]

/-- The properties of a table with some definitions of attributes and some indexes. -/
def properties (t : Table) (definitions indexes : List Tree) : Tree :=
  Tree.record
    ([("TableName", .text t.name), ("AttributeDefinitions", .list definitions),
      ("StreamSpecification", Tree.record [("StreamViewType", .text "NEW_AND_OLD_IMAGES")]),
      ("KeySchema", keySchema t.primaryKey.partition t.primaryKey.sortKey?),
      ("ProvisionedThroughput", throughput)] ++
      if indexes.isEmpty then [] else [("GlobalSecondaryIndexes", .list indexes)])

theorem tableDeclaration_eq (t : Table) :
    tableDeclaration t = (t.primaryKey.attributes.mapM (attributeDefinition t)).map
      fun definitions => stackOf t (properties t definitions []) := by
  rw [tableDeclaration]
  cases t.primaryKey.attributes.mapM (attributeDefinition t) with
  | error fault => rfl
  | ok definitions => rfl

/-- The keys that lead to the properties of a table. -/
def propertyKeys (t : Table) : List String := ["Resources", resourceName t, "Properties"]

theorem pathSegments_propertyPath (hname : '#' ∉ t.name.toList) {property : String}
    (hproperty : '#' ∉ property.toList) :
    pathSegments (propertyPath t property) = propertyKeys t ++ [property] := by
  refine splitAtChar_intercalate (List.cons_ne_nil _ _) ?_
  intro part hpart
  simp only [List.mem_cons, List.not_mem_nil, or_false] at hpart
  rcases hpart with rfl | rfl | rfl | rfl
  · decide
  · show '#' ∉ (t.name ++ "Table").toList
    rw [String.toList_append, List.mem_append, not_or]
    exact ⟨hname, by decide⟩
  · decide
  · exact hproperty

theorem propertyPath_ne_empty (t : Table) (property : String) : propertyPath t property ≠ "" := by
  intro hempty
  have hlength := congrArg (fun s => s.toList.length) hempty
  simp [propertyPath, String.intercalate_cons_cons] at hlength

theorem enters_properties (t : Table) (es : List (Scalar × Tree)) :
    Tree.Enters (stackOf t (.map es)).entries (propertyKeys t) es := by
  have hproperties := (Tree.get?_record_of_ne (by decide : "Type" ≠ "Properties")
    (.text "AWS::DynamoDB::Table") [("Properties", .map es)]).trans (Tree.get?_record_self _ _ _)
  exact .deeper (Tree.get?_record_self _ _ _) (.deeper (Tree.get?_record_self _ _ _)
    (.deeper hproperties (.here es)))

theorem within_properties (t : Table) (es new : List (Scalar × Tree)) :
    Tree.map (Tree.within new (propertyKeys t) (stackOf t (.map es)).entries)
      = stackOf t (.map new) := by
  simp [propertyKeys, stackOf, Tree.within, Tree.record, Tree.entries, Tree.lookup, Tree.insert]

/-- **A patch of a property of a table edits that property**, at the path where `stackOf` has it. -/
theorem patch_property (hname : '#' ∉ t.name.toList) {before after : List (Scalar × Tree)}
    {p : TreePatch} {property : String} (v : Tree) (hproperty : '#' ∉ property.toList)
    (hpath : p.path = propertyPath t property)
    (hdepth : (stackOf t (.map before)).isWithin Tree.copyingDepth = true)
    (hleaf : ∀ index, Tree.lookup (.text property) before ≠ some (.shared index))
    (hvalue : Tree.leafEdit p (Tree.lookup (.text property) before) = .ok v)
    (hafter : Tree.insert (.text property) v before = after) :
    (Forest.ofTree (stackOf t (.map before))).patch p
      = .ok (Forest.ofTree (stackOf t (.map after))) := by
  have hsegments := pathSegments_propertyPath hname hproperty
  have hpatch := Forest.patch_of_enters (enters_properties t before)
    (hpath ▸ propertyPath_ne_empty t property) (hpath ▸ hsegments) hleaf hdepth
  rw [hvalue] at hpatch
  refine hpatch.trans ?_
  show Except.ok (Forest.ofTree _) = _
  rw [within_properties, hafter]

/-! ### Depth -/

/-- Around definitions and indexes there are five collections. -/
theorem isWithin_stackOf {depth : Nat} {definitions indexes : List Tree}
    (hdefinitions : ∀ d ∈ definitions, d.isWithin (depth + 1) = true)
    (hindexes : ∀ i ∈ indexes, i.isWithin (depth + 1) = true) :
    (stackOf t (properties t definitions indexes)).isWithin (depth + 6) = true := by
  have hkey : (keySchema t.primaryKey.partition t.primaryKey.sortKey?).isWithin (depth + 2)
      = true := by
    simp [keySchema]
  cases hnone : indexes.isEmpty with
  | false =>
    simp [stackOf, properties, throughput, hnone, hkey]
    exact ⟨hdefinitions, hindexes⟩
  | true =>
    simp [stackOf, properties, throughput, hnone, hkey]
    exact hdefinitions

theorem of_attributeDefinition {name : String} {d : Tree} (h : attributeDefinition t name = .ok d) :
    ∃ letter, t.attributeType name = .ok letter ∧
      d = Tree.record [("AttributeName", .text name), ("AttributeType", .text letter)] := by
  unfold attributeDefinition at h
  obtain ⟨letter, hletter, h⟩ := Outcome.of_bind_eq_ok h
  cases h
  exact ⟨letter, hletter, rfl⟩

theorem isWithin_attributeDefinition {name : String} {d : Tree}
    (h : attributeDefinition t name = .ok d) (depth : Nat) : d.isWithin (depth + 1) = true := by
  obtain ⟨letter, -, rfl⟩ := of_attributeDefinition h
  simp

theorem isWithin_indexDeclaration (i : Index) (depth : Nat) :
    (indexDeclaration i).isWithin (depth + 3) = true := by
  simp [indexDeclaration, keySchema, throughput]

theorem copied_of_isWithin {t : Tree} (h : t.isWithin Tree.copyingDepth = true) :
    t.copied = .ok t := by
  rw [Tree.copied, if_pos h]

/-! ### One edit -/

/-- Another definition of an attribute comes behind those that are there. -/
theorem patch_definition (hname : '#' ∉ t.name.toList) {definitions : List Tree} {d : Tree}
    (hdefinitions : ∀ other ∈ definitions, other.isWithin 488 = true)
    (hcopied : d.copied = .ok d) :
    (Forest.ofTree (stackOf t (properties t definitions []))).patch
        (.replaceAt (propertyPath t "AttributeDefinitions") d)
      = .ok (Forest.ofTree (stackOf t (properties t (definitions ++ [d]) []))) := by
  have hdepth : (stackOf t (properties t definitions [])).isWithin (487 + 6) = true :=
    isWithin_stackOf hdefinitions (by simp)
  refine patch_property hname (.list (definitions ++ [d]))
    (by decide : '#' ∉ "AttributeDefinitions".toList) rfl hdepth ?_ ?_ ?_
  · simp [Tree.lookup]
  · simp [Tree.lookup, Tree.leafEdit, Tree.replaceEdit, hcopied]
  · simp [Tree.insert]

/-- Another index comes behind those that are there. -/
theorem patch_index (hname : '#' ∉ t.name.toList) {definitions indexes : List Tree} {i : Tree}
    (hdefinitions : ∀ d ∈ definitions, d.isWithin 488 = true)
    (hindexes : ∀ other ∈ indexes, other.isWithin 488 = true) (hcopied : i.copied = .ok i) :
    (Forest.ofTree (stackOf t (properties t definitions indexes))).patch
        (.appendAt (propertyPath t "GlobalSecondaryIndexes") i)
      = .ok (Forest.ofTree (stackOf t (properties t definitions (indexes ++ [i])))) := by
  have hdepth : (stackOf t (properties t definitions indexes)).isWithin (487 + 6) = true :=
    isWithin_stackOf hdefinitions hindexes
  cases indexes with
  | nil =>
    refine patch_property hname (.list [i])
      (by decide : '#' ∉ "GlobalSecondaryIndexes".toList) rfl hdepth ?_ ?_ ?_
    · simp [Tree.lookup]
    · simp [Tree.lookup, Tree.leafEdit, Tree.appendEdit, hcopied]
    · simp [Tree.insert]
  | cons first rest =>
    refine patch_property hname (.list (first :: rest ++ [i]))
      (by decide : '#' ∉ "GlobalSecondaryIndexes".toList) rfl hdepth ?_ ?_ ?_
    · simp [Tree.lookup]
    · simp [Tree.lookup, Tree.leafEdit, Tree.appendEdit, hcopied]
    · simp [Tree.insert]

/-! ### All fragments

The fragments are the declaration with its primary key, one edit for each further definition, and
one for each index.  Every edit makes one of the two lists longer and leaves the other as it is.
-/

/-- The fragments that declare a table, for definitions of attributes and indexes. -/
def declaring (t : Table) (own others : List Tree) (indexes : List Index) : List Fragment :=
  Fragment.ofTree (tableLocation t.name) (stackOf t (properties t own [])) ::
    (others.map fun d => Fragment.ofPatch (tableLocation t.name)
      (.replaceAt (propertyPath t "AttributeDefinitions") d)) ++
    indexes.map fun i => Fragment.ofPatch (tableLocation t.name)
      (.appendAt (propertyPath t "GlobalSecondaryIndexes") (indexDeclaration i))

/-- The tree `d` holds nothing but values. -/
def IsFlat (d : Tree) : Prop := ∀ depth, d.isWithin (depth + 1) = true

variable {location : String} {definitions : List Tree}

theorem stepTree_ofPatch {f next : Forest} {p : TreePatch} (h : f.patch p = .ok next)
    (place : String) :
    stepTree location (.forest f) (Fragment.ofPatch place p) = .ok (.forest next) := by
  show ((f.patch p).mapError Fault.badPatch).map Draft.forest = _
  rw [h]
  rfl

theorem foldlM_definitions (hname : '#' ∉ t.name.toList) {others : List Tree}
    (hdefinitions : ∀ d ∈ definitions, IsFlat d) (hothers : ∀ d ∈ others, IsFlat d) :
    (others.map fun d => Fragment.ofPatch (tableLocation t.name)
        (.replaceAt (propertyPath t "AttributeDefinitions") d)).foldlM (stepTree location)
        (.forest (.ofTree (stackOf t (properties t definitions []))))
      = .ok (.forest (.ofTree (stackOf t (properties t (definitions ++ others) [])))) := by
  induction others generalizing definitions with
  | nil =>
    rw [List.append_nil]
    rfl
  | cons d others ih =>
    rw [List.forall_mem_cons] at hothers
    have hpatch := patch_definition hname (fun other hother => hdefinitions other hother 487)
      (copied_of_isWithin (hothers.1 492))
    have hnext : ∀ other ∈ definitions ++ [d], IsFlat other := by
      intro other hother
      rcases List.mem_append.1 hother with hold | hnew
      · exact hdefinitions other hold
      · exact List.mem_singleton.1 hnew ▸ hothers.1
    rw [List.map_cons, List.foldlM_cons, stepTree_ofPatch hpatch, Outcome.ok_bind,
      ih hnext hothers.2, List.append_assoc, List.singleton_append]

theorem foldlM_indexes (hname : '#' ∉ t.name.toList) (before indexes : List Index)
    (hdefinitions : ∀ d ∈ definitions, IsFlat d) :
    (indexes.map fun i => Fragment.ofPatch (tableLocation t.name)
        (.appendAt (propertyPath t "GlobalSecondaryIndexes") (indexDeclaration i))).foldlM
        (stepTree location)
        (.forest (.ofTree (stackOf t (properties t definitions (before.map indexDeclaration)))))
      = .ok (.forest (.ofTree
          (stackOf t (properties t definitions ((before ++ indexes).map indexDeclaration))))) := by
  induction indexes generalizing before with
  | nil =>
    rw [List.append_nil]
    rfl
  | cons i indexes ih =>
    have hindexes : ∀ other ∈ before.map indexDeclaration, other.isWithin 488 = true := by
      intro other hother
      obtain ⟨j, -, rfl⟩ := List.mem_map.1 hother
      exact isWithin_indexDeclaration j 485
    have hpatch := patch_index hname (fun d hd => hdefinitions d hd 487) hindexes
      (copied_of_isWithin (isWithin_indexDeclaration i 490))
    have hnext : before.map indexDeclaration ++ [indexDeclaration i]
        = (before ++ [i]).map indexDeclaration := by
      simp
    rw [hnext] at hpatch
    rw [List.map_cons, List.foldlM_cons, stepTree_ofPatch hpatch, Outcome.ok_bind, ih,
      List.append_assoc, List.singleton_append]

/-- **The fragments of a table make a tree with all definitions and all indexes, in order**: the run
of `stepTree` over what `declaring` lists. -/
theorem foldlM_declaring (hname : '#' ∉ t.name.toList) {own others : List Tree}
    (hown : ∀ d ∈ own, IsFlat d) (hothers : ∀ d ∈ others, IsFlat d) (indexes : List Index)
    (draft : Draft) :
    (declaring t own others indexes).foldlM (stepTree location) draft
      = .ok (.forest (.ofTree
          (stackOf t (properties t (own ++ others) (indexes.map indexDeclaration))))) := by
  have hall : ∀ d ∈ own ++ others, IsFlat d := by
    intro d hd
    rcases List.mem_append.1 hd with hd | hd
    · exact hown d hd
    · exact hothers d hd
  rw [declaring, List.cons_append, List.foldlM_cons]
  show List.foldlM _ (Draft.forest (.ofTree (stackOf t (properties t own [])))) _ = _
  rw [List.foldlM_append, foldlM_definitions hname hown hothers, Outcome.ok_bind]
  exact foldlM_indexes hname [] indexes hall

/-- **The fragments of a table are there if every attribute of a key has a stored type**
(`attributeDefinition`). -/
theorem storageFragments_eq_ok {fs : List Fragment} :
    storageFragments t = .ok fs ↔ ∃ own others attributes indexes,
      t.primaryKey.attributes.mapM (attributeDefinition t) = .ok own ∧
      t.keyAttributes = .ok attributes ∧
      (attributes.filter fun name => !t.primaryKey.attributes.contains name).mapM
        (attributeDefinition t) = .ok others ∧
      t.secondaryIndexes = .ok indexes ∧ fs = declaring t own others indexes := by
  unfold storageFragments
  simp only [tableDeclaration_eq, Outcome.mapM_bind_pure]
  constructor
  · intro h
    obtain ⟨base, hbase, h⟩ := Outcome.of_bind_eq_ok h
    obtain ⟨own, hown, rfl⟩ := Outcome.of_map_eq_ok hbase
    obtain ⟨attributes, hattributes, h⟩ := Outcome.of_bind_eq_ok h
    obtain ⟨definitions, hdefinitions, h⟩ := Outcome.of_bind_eq_ok h
    obtain ⟨others, hothers, rfl⟩ := Outcome.of_map_eq_ok hdefinitions
    obtain ⟨indexes, hindexes, h⟩ := Outcome.of_bind_eq_ok h
    cases h
    exact ⟨own, others, attributes, indexes, hown, hattributes, hothers, hindexes, rfl⟩
  · rintro ⟨own, others, attributes, indexes, hown, hattributes, hothers, hindexes, rfl⟩
    rw [hown, hattributes]
    simp only [Except.map, Outcome.ok_bind, hothers, hindexes]
    rfl

/-! ### Definitions and keys -/

/-- The properties of a table in a stack. -/
def propertiesOf? (t : Table) (stack : Tree) : Option Tree :=
  ((stack.get? "Resources").bind (·.get? (resourceName t))).bind (·.get? "Properties")

/-- The list `items` has an item for the attribute `name`. -/
def Lists (name : String) (items : Tree) : Prop :=
  ∃ ts, items = .list ts ∧ ∃ part ∈ ts, part.get? "AttributeName" = some (.text name)

/-- The key of a table of these properties, or of one of its indexes, uses the attribute `name`. -/
def UsesAttribute (properties : Tree) (name : String) : Prop :=
  (∃ key, properties.get? "KeySchema" = some key ∧ Lists name key) ∨
    ∃ indexes, properties.get? "GlobalSecondaryIndexes" = some (.list indexes) ∧
      ∃ i ∈ indexes, ∃ key, i.get? "KeySchema" = some key ∧ Lists name key

theorem propertiesOf?_stackOf (t : Table) (properties : Tree) :
    propertiesOf? t (stackOf t properties) = some properties := by
  simp [propertiesOf?, stackOf, Tree.get?_record_of_ne]

theorem lists_keySchema {name partition : String} {sort : Option String} :
    Lists name (keySchema partition sort) ↔ name ∈ partition :: sort.toList := by
  cases sort <;> simp [Lists, keySchema, eq_comm]

theorem get?_indexes (t : Table) (definitions indexes : List Tree) :
    (properties t definitions indexes).get? "GlobalSecondaryIndexes"
      = if indexes = [] then none else some (.list indexes) := by
  cases indexes <;> simp [properties, Tree.record, Tree.get?, Tree.lookup]

/-- **The attributes that are used are those of the primary key and of the indexes
(`UsesAttribute`).** -/
theorem usesAttribute_iff {definitions : List Tree} {indexes : List Index} {name : String} :
    UsesAttribute (properties t definitions (indexes.map indexDeclaration)) name ↔
      name ∈ t.primaryKey.attributes ∨ ∃ i ∈ indexes, name ∈ i.attributes := by
  have hkey : (properties t definitions (indexes.map indexDeclaration)).get? "KeySchema"
      = some (keySchema t.primaryKey.partition t.primaryKey.sortKey?) := by
    simp [properties, Tree.record, Tree.get?, Tree.lookup]
  have hindex : ∀ i : Index, (indexDeclaration i).get? "KeySchema"
      = some (keySchema i.partition i.sort) := by
    intro i
    simp [indexDeclaration, Tree.get?_record_of_ne]
  unfold UsesAttribute
  rw [hkey, get?_indexes]
  refine or_congr ?_ ?_
  · simp only [Option.some.injEq, exists_eq_left', lists_keySchema, Key.attributes]
  · constructor
    · rintro ⟨trees, htrees, tree, htree, key, hkey, hlists⟩
      split at htrees
      · cases htrees
      · cases htrees
        obtain ⟨i, hi, rfl⟩ := List.mem_map.1 htree
        rw [hindex] at hkey
        cases hkey
        exact ⟨i, hi, lists_keySchema.1 hlists⟩
    · rintro ⟨i, hi, hname⟩
      have htree : indexDeclaration i ∈ indexes.map indexDeclaration := List.mem_map_of_mem hi
      exact ⟨_, if_neg (List.ne_nil_of_mem htree), _, htree, _, hindex i, lists_keySchema.2 hname⟩

theorem map_attributeName {names : List String} {ds : List Tree}
    (h : names.mapM (attributeDefinition t) = .ok ds) :
    ds.map (·.get? "AttributeName") = names.map fun name => some (.text name) := by
  induction names generalizing ds with
  | nil =>
    cases h
    rfl
  | cons name names ih =>
    rw [List.mapM_cons] at h
    obtain ⟨d, hd, h⟩ := Outcome.of_bind_eq_ok h
    obtain ⟨rest, hrest, h⟩ := Outcome.of_bind_eq_ok h
    cases h
    obtain ⟨letter, -, rfl⟩ := of_attributeDefinition hd
    rw [List.map_cons, List.map_cons, ih hrest, Tree.get?_record_self]

theorem isFlat_of_mapM {names : List String} {ds : List Tree}
    (h : names.mapM (attributeDefinition t) = .ok ds) : ∀ d ∈ ds, IsFlat d := by
  intro d hd depth
  obtain ⟨name, -, hname⟩ := Outcome.exists_of_mem_mapM h hd
  exact isWithin_attributeDefinition hname depth

/-- The attributes of the primary key come first among those of all keys. -/
theorem attributes_of_keyAttributes {indexes : List Index} (hnodup : t.primaryKey.attributes.Nodup)
    (hindexes : t.secondaryIndexes = .ok indexes) :
    ∃ attributes, t.keyAttributes = .ok attributes ∧ attributes.Nodup ∧
      (∀ name, name ∈ attributes ↔
        name ∈ t.primaryKey.attributes ∨ ∃ i ∈ indexes, name ∈ i.attributes) ∧
      t.primaryKey.attributes ++
        (attributes.filter fun name => !t.primaryKey.attributes.contains name) = attributes := by
  refine ⟨_, by rw [Table.keyAttributes, hindexes]; rfl, Text.nodup_distinct _, ?_,
    Text.append_filter_distinct hnodup⟩
  intro name
  simp

theorem exists_attributeDefinition_iff {name : String} :
    (∃ d, attributeDefinition t name = .ok d) ↔ ∃ shape, t.fieldShape? name = .ok shape := by
  unfold attributeDefinition Table.attributeType
  cases t.fieldShape? name with
  | error fault => simp
  | ok shape => simp

end Surface

namespace Catalog

open Surface Artifact

/-- Types of a text have names without the separator of paths. -/
theorem separator_not_mem_of_gather {text schemaName : String} {document : Sdl.Document}
    {scope : Sdl.Scope} {c : Catalog} (hparse : Sdl.Document.parse text = .ok document)
    (hgather : (gather { document, schemaName, scope }).outcome = .ok c) {t : Table}
    (ht : t ∈ c.tables) : '#' ∉ t.name.toList := by
  obtain ⟨hrooted, hsame, -⟩ := rooted_of_gather hgather
  have hmem := Sdl.Document.mem_declarations.1 (hrooted.mem_declarations ht).1
  rw [hsame] at hmem
  have hname : Sdl.isName t.name = true := (Sdl.Document.isNamed_of_parse hparse _ hmem).1
  intro hseparator
  have hcontinues := Sdl.continuesName_of_isName hname '#' hseparator
  exact absurd hcontinues (by decide)

/-- **The storage is told of each attribute of a key once, and of nothing else**, as long as the
fields of the primary key differ and none holds the separator.  It is told of all indexes, if there
are any. -/
theorem storage_of_gather {text schemaName : String} {document : Sdl.Document} {scope : Sdl.Scope}
    {c : Catalog} (hparse : Sdl.Document.parse text = .ok document)
    (hgather : (gather { document, schemaName, scope }).outcome = .ok c) {t : Table}
    (ht : t ∈ c.tables) (hdistinct : t.primaryKey.fields.Nodup)
    (hplain : ∀ f ∈ t.primaryKey.fields, '#' ∉ f.toList) :
    ∃ indexes attributes, t.secondaryIndexes = .ok indexes ∧ t.keyAttributes = .ok attributes ∧
      attributes.Nodup ∧
      ((∃ fs, storageFragments t = .ok fs) ↔
        ∀ name ∈ attributes, ∃ shape, t.fieldShape? name = .ok shape) ∧
      ∀ fs, storageFragments t = .ok fs → ∀ draft, ∃ stack properties definitions,
        fs.foldlM (stepTree (tableLocation t.name)) draft = .ok (.forest (.ofTree stack)) ∧
        propertiesOf? t stack = some properties ∧
        properties.get? "AttributeDefinitions" = some (.list definitions) ∧
        definitions.map (·.get? "AttributeName") = attributes.map (fun name => some (.text name)) ∧
        (∀ name, name ∈ attributes ↔ UsesAttribute properties name) ∧
        properties.get? "GlobalSecondaryIndexes"
          = if indexes = [] then none else some (.list (indexes.map indexDeclaration)) := by
  have hname := separator_not_mem_of_gather hparse hgather ht
  have hends : t.EndsAreNamed := by
    rw [outcome_gather] at hgather
    obtain ⟨before, hbefore, rfl⟩ := Outcome.of_map_eq_ok hgather
    exact endsAreNamed_of_classify (rooted_of_collected hbefore).1.tableNames ht
  obtain ⟨indexes, hindexes⟩ := Table.exists_secondaryIndexes hends
  obtain ⟨attributes, hattributes, hnodup, hmem, hsplit⟩ :=
    attributes_of_keyAttributes (Key.nodup_attributes hdistinct hplain) hindexes
  -- First that it succeeds exactly if all attributes have shapes, then what comes of it.
  refine ⟨indexes, attributes, hindexes, hattributes, hnodup, ⟨?_, ?_⟩, ?_⟩
  · rintro ⟨fs, hfragments⟩ name hmember
    obtain ⟨own, others, names, -, hown, hnames, hothers, -, -⟩ :=
      storageFragments_eq_ok.1 hfragments
    rw [hattributes] at hnames
    cases hnames
    rw [← hsplit] at hmember
    apply exists_attributeDefinition_iff.1
    rcases List.mem_append.1 hmember with hownname | hother
    · obtain ⟨d, -, hd⟩ := Outcome.exists_result_of_mem hown hownname
      exact ⟨d, hd⟩
    · obtain ⟨d, -, hd⟩ := Outcome.exists_result_of_mem hothers hother
      exact ⟨d, hd⟩
  · intro hshapes
    have hdefined : ∀ name ∈ attributes, ∃ d, attributeDefinition t name = .ok d :=
      fun name hmember => exists_attributeDefinition_iff.2 (hshapes name hmember)
    obtain ⟨own, hown⟩ := Outcome.exists_mapM fun name hmember =>
      hdefined name ((hmem name).2 (Or.inl hmember))
    obtain ⟨others, hothers⟩ := Outcome.exists_mapM fun name hmember =>
      hdefined name (List.mem_filter.1 hmember).1
    exact ⟨_, storageFragments_eq_ok.2
      ⟨own, others, attributes, indexes, hown, hattributes, hothers, hindexes, rfl⟩⟩
  · intro fs hfragments draft
    obtain ⟨own, others, names, is, hown, hnames, hothers, his, rfl⟩ :=
      storageFragments_eq_ok.1 hfragments
    rw [hattributes] at hnames
    cases hnames
    rw [hindexes] at his
    cases his
    refine ⟨_, _, own ++ others,
      foldlM_declaring hname (isFlat_of_mapM hown) (isFlat_of_mapM hothers) indexes draft,
      propertiesOf?_stackOf t _, ?_, ?_, ?_, ?_⟩
    · simp [properties, Tree.record, Tree.get?, Tree.lookup]
    · rw [List.map_append, map_attributeName hown, map_attributeName hothers, ← List.map_append,
        hsplit]
    · intro name
      rw [usesAttribute_iff, hmem]
    · rw [get?_indexes]
      simp

/-- Posts by author and time, found by time as well, of several tenants. -/
def timedPosts : String :=
  "type Post @model @key(fields: [\"author\", \"at\"]) @key(fields: [\"at\"], name: \"ByTime\")
    @multiTenancy \x7b author: ID! at: Int \x7d"

/-- The storage is told of three attributes of posts: the tenant is used by an index alone. -/
theorem timedPosts_storage :
    ∃ document c t fs stack properties definitions,
      Sdl.Document.parse timedPosts = .ok document ∧
      (gather { document, schemaName := "schema.graphql", scope := none }).outcome = .ok c ∧
      t ∈ c.tables ∧ storageFragments t = .ok fs ∧
      fs.foldlM (stepTree (tableLocation t.name)) (.forest (.ofTree .null))
        = .ok (.forest (.ofTree stack)) ∧
      propertiesOf? t stack = some properties ∧
      properties.get? "AttributeDefinitions" = some (.list definitions) ∧
      definitions.map (·.get? "AttributeName")
        = ["author", "at", "tenantId"].map fun name => some (.text name) := by
  have hfacts : Outcome.Holds (Sdl.Document.parse timedPosts) fun document =>
      Outcome.Holds (gather { document, schemaName := "schema.graphql", scope := none }).outcome
        fun c => ∃ t ∈ c.tables, t.primaryKey.fields.Nodup ∧
          (∀ f ∈ t.primaryKey.fields, '#' ∉ f.toList) ∧
          Outcome.Holds t.keyAttributes (· = ["author", "at", "tenantId"]) ∧
          Outcome.Holds (storageFragments t) fun _ => True := by
    decide +kernel
  obtain ⟨document, hparse, c, hgather, t, ht, hdistinct, hplain, ⟨_, hattributes, rfl⟩, fs,
    hfragments, -⟩ := hfacts
  obtain ⟨indexes, attributes, -, hown, -, -, hall⟩ :=
    storage_of_gather hparse hgather ht hdistinct hplain
  rw [hattributes] at hown
  cases hown
  obtain ⟨stack, properties, definitions, hfold, hproperties, hdefinitions, hnames, -⟩ :=
    hall fs hfragments (.forest (.ofTree .null))
  exact ⟨document, c, t, fs, stack, properties, definitions, hparse, hgather, ht, hfragments, hfold,
    hproperties, hdefinitions, hnames⟩

end Catalog

end SchemaLoom
