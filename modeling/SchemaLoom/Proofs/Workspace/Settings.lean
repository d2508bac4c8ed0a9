/-
Which values are configurations, and which are refused without words.

A value is a configuration if it is nothing at all, or a mapping with no keys but the four that
are known and with values that fit them (`Config.IsHeldBy`); a key that is absent leaves its
default.  Any other value is to be refused in words (`InWords`).

The words for unknown keys are put together from the keys in ascending order.  Keys of a mapping
may be scalars of all kinds, though, and not every two of them have an order, nor can every
integer be written out.  So it is the complaint itself that breaks off for some values
(`Config.Confuses`), and for no others: every other check names a key or a position that it
knows.

Each reader of a value comes with two lemmas, one that says when it accepts and one that says
that it refuses in words.  `checkKeys_cases` is the only one with a third outcome, and so the
only place from which a failure without words can come.
-/
import Mathlib.Data.List.Forall2
import SchemaLoom.Command.Run
import SchemaLoom.Outcome

namespace SchemaLoom

/-! ### Values -/

/-- The tree `t` is shown as `text`; a scalar that is no text is shown as one. -/
def Tree.IsText (t : Tree) (text : String) : Prop :=
  ∃ s : Scalar, t = leaf s ∧ s.shownText? = some text

/-- The tree `t` is the truth value `truth`. -/
def Tree.IsTruth (t : Tree) (truth : Bool) : Prop := t = bool truth

/-- The tree `t` is nothing, or it lists `texts`. -/
def Tree.MayListTexts (t : Tree) (texts : Option (List String)) : Prop :=
  (t = null ∧ texts = none) ∨
    ∃ items all, t = list items ∧ List.Forall₂ Tree.IsText items all ∧ texts = some all

namespace Config

/-- The value `a` fits what is `given` for a key.  Without anything given it is the `default`. -/
def Fits {α : Type} (fits : Tree → α → Prop) (default : α) (given : Option Tree) (a : α) : Prop :=
  given.elim (a = default) (fits · a)

/-- What a mapping of a forest gives for a key. -/
def given (f : Forest) (entries : List (Scalar × Tree)) (key : String) : Option Tree :=
  (Tree.lookup (.text key) entries).map f.resolve

/-- The mapping with `entries` holds the configuration `c`. -/
structure IsHeldBy (c : Config) (f : Forest) (entries : List (Scalar × Tree)) : Prop where
  known : ∀ e ∈ entries, ∃ key ∈ keys, e.1.sameKey (.text key) = true
  inSchema : Fits Tree.IsText ({} : Config).inSchema (given f entries "in-schema") c.inSchema
  buildDirectory :
    Fits Tree.IsText ({} : Config).buildDirectory
      (given f entries "build-directory") c.buildDirectory
  appendOnly :
    Fits Tree.IsTruth ({} : Config).appendOnly (given f entries "append-only") c.appendOnly
  types : Fits Tree.MayListTexts ({} : Config).types (given f entries "types") c.types

/-- The keys of a mapping that are none of a configuration. -/
def unknownKeys (entries : List (Scalar × Tree)) : List Scalar :=
  (entries.map (·.1)).filter fun key => !isKnown key

/-- The unknown keys cannot be complained of: two of them have no order, or one cannot be written.
-/
def Confuses (entries : List (Scalar × Tree)) : Prop :=
  ¬ (unknownKeys entries).Pairwise (fun key other => (key.lt? other).isSome) ∨
    ∃ key ∈ unknownKeys entries, key.isWritable = false

/-! ### Values of keys -/

section Readers

variable {key : String} {v : Option Tree}

theorem readText_eq_ok_iff {default text : String} :
    readText key default v = .ok text ↔ Fits Tree.IsText default v text := by
  unfold Fits Tree.IsText
  match v with
  | none => simp [readText, eq_comm]
  | some (.leaf s) => cases htext : s.shownText? <;> simp [readText, htext]
  | some (.list _) | some (.map _) | some (.set _) | some (.shared _) => simp [readText]

theorem readTruth_eq_ok_iff {default truth : Bool} :
    readTruth key default v = .ok truth ↔ Fits Tree.IsTruth default v truth := by
  unfold Fits Tree.IsTruth
  match v with
  | none => simp [readTruth, eq_comm]
  | some (.leaf s) => cases s <;> simp [readTruth]
  | some (.list _) | some (.map _) | some (.set _) | some (.shared _) => simp [readTruth]

/-- Items are read from any position on just if all of them are texts. -/
theorem readItems_eq_ok_iff {i : Nat} {items : List Tree} {texts : List String} :
    readItems key i items = .ok texts ↔ List.Forall₂ Tree.IsText items texts := by
  induction items generalizing i texts with
  | nil => simp [readItems, eq_comm]
  | cons t items ih =>
    rw [List.forall₂_cons_left_iff]
    match t with
    | .leaf s =>
      cases htext : s.shownText? with
      | none => simp [readItems, Tree.IsText, htext]
      | some first =>
        have hfirst : ∀ text, (Tree.leaf s).IsText text ↔ text = first := by
          simp [Tree.IsText, htext, eq_comm]
        simp only [readItems, htext, Outcome.map_eq_ok_iff, ih, hfirst]
        constructor
        · rintro ⟨rest, hrest, rfl⟩
          exact ⟨first, rest, rfl, hrest, rfl⟩
        · rintro ⟨_, rest, rfl, hrest, rfl⟩
          exact ⟨rest, hrest, rfl⟩
    | .list _ | .map _ | .set _ | .shared _ => simp [readItems, Tree.IsText]

theorem readTexts_eq_ok_iff {texts : Option (List String)} :
    readTexts key v = .ok texts ↔ Fits Tree.MayListTexts none v texts := by
  unfold Fits Tree.MayListTexts
  match v with
  | none => simp [readTexts, eq_comm]
  | some (.leaf s) => cases s <;> simp [readTexts, eq_comm]
  | some (.list items) =>
    simp [readTexts, Outcome.map_eq_ok_iff, readItems_eq_ok_iff, eq_comm (a := texts)]
  | some (.map _) | some (.set _) | some (.shared _) => simp [readTexts]

/-! ### Refusals -/

/-- The `fault` is told in words, whatever file the text is from. -/
abbrev InWords (fault : ConfigFault) : Prop := ∀ path, Command.isWorded (.content path fault) = true

theorem inWords_of_readText {default : String} {fault : ConfigFault}
    (h : readText key default v = .error fault) : InWords fault := by
  match v with
  | none => cases h
  | some (.leaf s) =>
    cases htext : s.shownText? <;> simp only [readText, htext, Option.elim] at h <;> cases h
    exact fun _ => rfl
  | some (.list _) | some (.map _) | some (.set _) | some (.shared _) =>
    cases h
    exact fun _ => rfl

theorem inWords_of_readTruth {default : Bool} {fault : ConfigFault}
    (h : readTruth key default v = .error fault) : InWords fault := by
  unfold readTruth at h
  split at h <;> cases h
  exact fun _ => rfl

theorem inWords_of_readItems {i : Nat} {items : List Tree} {fault : ConfigFault}
    (h : readItems key i items = .error fault) : InWords fault := by
  fun_induction readItems key i items with
  | case1 i => cases h
  | case2 i s rest text htext ih => exact ih (Outcome.of_map_eq_error h)
  | case3 i s rest htext =>
    cases h
    exact fun _ => rfl
  | case4 i t rest hleaf =>
    cases h
    exact fun _ => rfl

theorem inWords_of_readTexts {fault : ConfigFault} (h : readTexts key v = .error fault) :
    InWords fault := by
  unfold readTexts at h
  split at h
  · cases h
  · cases h
  · exact inWords_of_readItems (Outcome.of_map_eq_error h)
  · cases h
    exact fun _ => rfl

end Readers

/-! ### Keys

The check is on all keys at once, before any value is read.  So a mapping with unknown keys is
refused for them, whatever is wrong with its values.
-/

section Keys

variable {entries : List (Scalar × Tree)}

theorem areOrdered_iff {ks : List Scalar} :
    areOrdered ks = true ↔ ks.Pairwise fun key other => (key.lt? other).isSome := by
  induction ks with
  | nil => simp [areOrdered]
  | cons key ks ih => rw [areOrdered, Bool.and_eq_true, List.all_eq_true, ih, List.pairwise_cons]

/-- Nothing is unknown just if all keys are known. -/
theorem unknownKeys_eq_nil_iff :
    unknownKeys entries = [] ↔ ∀ e ∈ entries, ∃ key ∈ keys, e.1.sameKey (.text key) = true := by
  simp [unknownKeys, isKnown, List.filter_eq_nil_iff]

/-- Keys that confuse are unknown. -/
theorem Confuses.unknownKeys_ne_nil (h : Confuses entries) : unknownKeys entries ≠ [] := by
  intro hnone
  rcases h with hunordered | ⟨key, hkey, -⟩
  · exact hunordered (hnone ▸ .nil)
  · simp [hnone] at hkey

/-- **Keys are accepted if they are known, and refused otherwise, in words unless they confuse.** -/
theorem checkKeys_cases (entries : List (Scalar × Tree)) :
    (unknownKeys entries = [] ∧ checkKeys (entries.map (·.1)) = .ok ()) ∨
      (unknownKeys entries ≠ [] ∧ ∃ fault, checkKeys (entries.map (·.1)) = .error fault ∧
        ∀ path, Command.isWorded (.content path fault) = false ↔ Confuses entries) := by
  unfold checkKeys
  rw [← unknownKeys]
  cases hunknown : unknownKeys entries with
  | nil => exact Or.inl ⟨rfl, rfl⟩
  | cons key ks =>
    refine Or.inr ⟨List.cons_ne_nil key ks, ?_⟩
    dsimp only
    split
    next hordered =>
      split
      next hwritable =>
        refine ⟨_, rfl, fun _ => ⟨fun h => (nomatch h), fun hconfuses => ?_⟩⟩
        rcases hconfuses with hunordered | ⟨other, hother, hlong⟩
        · exact absurd (hunknown ▸ areOrdered_iff.1 hordered) hunordered
        · rw [List.all_eq_true.1 hwritable other (hunknown ▸ hother)] at hlong
          cases hlong
      next hlong =>
        rw [Bool.not_eq_true, List.all_eq_false] at hlong
        obtain ⟨other, hother, hlong⟩ := hlong
        exact ⟨_, rfl, fun _ =>
          iff_of_true rfl (Or.inr ⟨other, hunknown ▸ hother, Bool.not_eq_true _ ▸ hlong⟩)⟩
    next hunordered =>
      refine ⟨_, rfl, fun _ => iff_of_true rfl (Or.inl fun hpairwise => hunordered ?_)⟩
      exact areOrdered_iff.2 (hunknown ▸ hpairwise)

end Keys

/-! ### Configurations -/

/-- What a mapping is read as. -/
theorem ofForest_map {f : Forest} {entries : List (Scalar × Tree)}
    (hroot : f.resolve f.root = .map entries) :
    ofForest f = (do
      checkKeys (entries.map (·.1))
      let inSchema ← readText "in-schema" "schema.graphql" (given f entries "in-schema")
      let buildDirectory ← readText "build-directory" "build" (given f entries "build-directory")
      let appendOnly ← readTruth "append-only" false (given f entries "append-only")
      let types ← readTexts "types" (given f entries "types")
      return { inSchema, buildDirectory, appendOnly, types }) := by
  unfold ofForest
  rw [hroot]
  rfl

/-- What is neither nothing nor a mapping is refused in words. -/
theorem ofForest_other {f : Forest} (hnull : f.resolve f.root ≠ .null)
    (hmap : ∀ entries, f.resolve f.root ≠ .map entries) : ofForest f = .error .notAMapping := by
  unfold ofForest
  split
  next hroot => exact absurd hroot hnull
  next entries hroot => exact absurd hroot (hmap entries)
  · rfl

/-- **A forest is read as a configuration just if it is nothing, or a mapping that holds it.** -/
theorem ofForest_eq_ok_iff {f : Forest} {c : Config} : ofForest f = .ok c ↔
    (f.resolve f.root = .null ∧ c = {}) ∨
      ∃ entries, f.resolve f.root = .map entries ∧ c.IsHeldBy f entries := by
  by_cases hnull : f.resolve f.root = .null
  · simp [ofForest, hnull, eq_comm]
  by_cases hmap : ∃ entries, f.resolve f.root = .map entries
  · obtain ⟨entries, hroot⟩ := hmap
    have hheld : ofForest f = .ok c ↔ c.IsHeldBy f entries := by
      rw [ofForest_map hroot]
      rcases checkKeys_cases entries with ⟨hknown, hchecked⟩ | ⟨hunknown, fault, hchecked, -⟩
      · rw [hchecked, Outcome.ok_bind]
        constructor
        · intro h
          obtain ⟨inSchema, hschema, h⟩ := Outcome.of_bind_eq_ok h
          obtain ⟨buildDirectory, hdirectory, h⟩ := Outcome.of_bind_eq_ok h
          obtain ⟨appendOnly, happend, h⟩ := Outcome.of_bind_eq_ok h
          obtain ⟨types, htypes, h⟩ := Outcome.of_bind_eq_ok h
          cases h
          exact ⟨unknownKeys_eq_nil_iff.1 hknown, readText_eq_ok_iff.1 hschema,
            readText_eq_ok_iff.1 hdirectory, readTruth_eq_ok_iff.1 happend,
            readTexts_eq_ok_iff.1 htypes⟩
        · rintro ⟨-, hschema, hdirectory, happend, htypes⟩
          rw [readText_eq_ok_iff.2 hschema, Outcome.ok_bind, readText_eq_ok_iff.2 hdirectory,
            Outcome.ok_bind, readTruth_eq_ok_iff.2 happend, Outcome.ok_bind,
            readTexts_eq_ok_iff.2 htypes, Outcome.ok_bind]
          rfl
      · rw [hchecked, Outcome.error_bind]
        exact iff_of_false (nomatch ·) fun h => hunknown (unknownKeys_eq_nil_iff.2 h.known)
    rw [hheld, hroot]
    simp
  · rw [not_exists] at hmap
    rw [ofForest_other hnull hmap]
    simp [hnull, hmap]

/-- **A forest is refused without words just if it is a mapping whose unknown keys cannot be
complained of.** -/
theorem wordless_of_forest_iff {f : Forest} (path : Workspace.Path) :
    (∃ fault, ofForest f = .error fault ∧ Command.isWorded (.content path fault) = false) ↔
      ∃ entries, f.resolve f.root = .map entries ∧ Confuses entries := by
  by_cases hnull : f.resolve f.root = .null
  · simp [ofForest, hnull]
  by_cases hmap : ∃ entries, f.resolve f.root = .map entries
  · obtain ⟨entries, hroot⟩ := hmap
    have hconfuses : (∃ fault, ofForest f = .error fault ∧
        Command.isWorded (.content path fault) = false) ↔ Confuses entries := by
      rw [ofForest_map hroot]
      rcases checkKeys_cases entries with ⟨hknown, hchecked⟩ | ⟨-, fault, hchecked, hwordless⟩
      · -- the values of known keys are refused in words
        rw [hchecked, Outcome.ok_bind]
        refine iff_of_false ?_ fun hconfuses => hconfuses.unknownKeys_ne_nil hknown
        rintro ⟨fault, h, hwordless⟩
        have hwords : InWords fault := by
          rcases Outcome.of_bind_eq_error h with h | ⟨_, -, h⟩
          · exact inWords_of_readText h
          rcases Outcome.of_bind_eq_error h with h | ⟨_, -, h⟩
          · exact inWords_of_readText h
          rcases Outcome.of_bind_eq_error h with h | ⟨_, -, h⟩
          · exact inWords_of_readTruth h
          rcases Outcome.of_bind_eq_error h with h | ⟨_, -, h⟩
          · exact inWords_of_readTexts h
          · cases h
        rw [hwords path] at hwordless
        cases hwordless
      · rw [hchecked, Outcome.error_bind, ← hwordless path]
        simp
    rw [hconfuses, hroot]
    simp
  · rw [not_exists] at hmap
    rw [ofForest_other hnull hmap]
    simp [hmap, Command.isWorded]

/-- **A text that holds a value is a configuration just if the value is nothing or a mapping that
holds the configuration, and it is refused in words unless that or its unknown keys cannot be
complained of.** -/
theorem configuration_of_value {text : String} {f : Forest} (hvalue : Yaml.read text = .ok f)
    (path : Workspace.Path) :
    (∀ c, parse text = .ok c ↔ (f.resolve f.root = .null ∧ c = {}) ∨
      ∃ entries, f.resolve f.root = .map entries ∧ c.IsHeldBy f entries) ∧
    ((∃ fault, parse text = .error fault ∧ Command.isWorded (.content path fault) = false) ↔
      ∃ entries, f.resolve f.root = .map entries ∧ Confuses entries) := by
  have hparse : parse text = ofForest f := by rw [parse, hvalue]
  rw [hparse]
  exact ⟨fun c => ofForest_eq_ok_iff, wordless_of_forest_iff path⟩

/-- A number and a word, neither of which is a key of a configuration. -/
def mixedKeys : String := "1: a\noutput: b\n"

/-- The keys of a mapping. -/
def mappingKeys? : Tree → Option (List Scalar)
  | .map entries => some (entries.map (·.1))
  | _ => none

theorem mixedKeys_read : Outcome.Holds (Yaml.read mixedKeys) fun f =>
    mappingKeys? (f.resolve f.root) = some [.int 1, .text "output"] := by
  decide +kernel

/-- They have no order, so the complaint about them breaks off. -/
theorem mixedKeys_wordless : ∃ f, Yaml.read mixedKeys = .ok f ∧ (∀ c, parse mixedKeys ≠ .ok c) ∧
    ∃ fault, parse mixedKeys = .error fault ∧
      Command.isWorded (.content (Workspace.Path.root.join Workspace.settingsName) fault) =
        false := by
  obtain ⟨f, hvalue, hkeys⟩ := mixedKeys_read
  obtain ⟨-, hwordless⟩ :=
    configuration_of_value hvalue (Workspace.Path.root.join Workspace.settingsName)
  have hroot : ∃ entries, f.resolve f.root = .map entries ∧
      entries.map (·.1) = [.int 1, .text "output"] := by
    unfold mappingKeys? at hkeys
    split at hkeys
    next entries hroot => exact ⟨entries, hroot, Option.some.inj hkeys⟩
    · cases hkeys
  obtain ⟨entries, hroot, hkeys⟩ := hroot
  have hunordered : ¬ (unknownKeys entries).Pairwise fun key other => (key.lt? other).isSome := by
    rw [unknownKeys, hkeys]
    decide
  obtain ⟨fault, hfault, hpath⟩ := hwordless.2 ⟨entries, hroot, Or.inl hunordered⟩
  exact ⟨f, hvalue, fun c hread => (nomatch hfault.symm.trans hread), fault, hfault, hpath⟩

end Config

end SchemaLoom
