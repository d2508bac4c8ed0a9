/-
What appending makes of definitions.

Appended definitions replace those of their kinds and names.  So of several definitions with one
key only the last is kept, in the place of the first: appending loses nothing exactly if no key
occurs twice (`append_of_nodup`).

Putting a definition is the step, and it either replaces the one of its key or goes to the end.
From that the keys of the result are known (`keys_append`): those that were there, and behind
them the new ones, each once.

Appending the same definitions again changes nothing (`append_append`).  Two definitions of
different keys may be put in either order as soon as one of them has its place, so a definition
that is put again may be moved up to where it was put first.
-/
import Mathlib.Data.List.Induction
import SchemaLoom.Proofs.Sdl.Site

namespace SchemaLoom.Sdl

/-! ### One definition -/

theorem mem_putDefinition {d e : Definition} {ds : List Definition} (h : e ∈ putDefinition d ds) :
    e = d ∨ e ∈ ds := by
  induction ds with
  | nil => exact Or.inl (List.mem_singleton.1 h)
  | cons first ds ih =>
    rw [putDefinition] at h
    split at h
    · rcases List.mem_cons.1 h with rfl | h
      · exact Or.inl rfl
      · exact Or.inr (List.mem_cons_of_mem first h)
    · rcases List.mem_cons.1 h with rfl | h
      · exact Or.inr List.mem_cons_self
      · exact (ih h).imp_right (List.mem_cons_of_mem first)

theorem keys_putDefinition (d : Definition) (ds : List Definition) :
    (putDefinition d ds).map (·.key)
      = if d.key ∈ ds.map (·.key) then ds.map (·.key) else ds.map (·.key) ++ [d.key] := by
  induction ds with
  | nil => rfl
  | cons first ds ih =>
    by_cases hsame : first.key = d.key
    · simp [putDefinition, hsame]
    · rw [putDefinition, if_neg hsame, List.map_cons, ih, List.map_cons]
      by_cases hlater : d.key ∈ ds.map (·.key)
      · rw [if_pos hlater, if_pos (List.mem_cons_of_mem _ hlater)]
      · have hnowhere : d.key ∉ first.key :: ds.map (·.key) := by
          simpa [Ne.symm hsame] using hlater
        rw [if_neg hlater, if_neg hnowhere, List.cons_append]

/-- A definition of a new key goes to the end. -/
theorem putDefinition_of_new {d : Definition} {ds : List Definition}
    (h : d.key ∉ ds.map (·.key)) : putDefinition d ds = ds ++ [d] := by
  induction ds with
  | nil => rfl
  | cons first ds ih =>
    rw [List.map_cons, List.mem_cons, not_or] at h
    rw [putDefinition, if_neg (Ne.symm h.1), ih h.2, List.cons_append]

/-! ### Several definitions -/

theorem mem_append {doc : Document} {ds : List Definition} {d : Definition}
    (h : d ∈ (doc.append ds).definitions) : d ∈ doc.definitions ∨ d ∈ ds := by
  unfold Document.append at h
  dsimp only at h
  generalize doc.definitions = acc at h ⊢
  induction ds generalizing acc with
  | nil => exact Or.inl h
  | cons first ds ih =>
    rcases ih _ h with hacc | hrest
    · rcases mem_putDefinition hacc with rfl | hold
      · exact Or.inr List.mem_cons_self
      · exact Or.inl hold
    · exact Or.inr (List.mem_cons_of_mem first hrest)

/-- The keys of appended definitions follow those that were there, each once. -/
theorem keys_append (doc : Document) (ds : List Definition) :
    (doc.append ds).definitions.map (·.key) = doc.definitions.map (·.key)
      ++ (Text.distinct (ds.map (·.key))).filter fun k => k ∉ doc.definitions.map (·.key) := by
  unfold Document.append
  dsimp only
  generalize doc.definitions = acc
  induction ds generalizing acc with
  | nil => simp [Text.distinct]
  | cons first ds ih =>
    rw [List.foldl_cons, ih, keys_putDefinition, List.map_cons, Text.distinct, List.filter_cons,
      List.filter_filter]
    by_cases hknown : first.key ∈ acc.map (·.key)
    · rw [if_pos hknown, if_neg (by simpa using hknown)]
      congr 1
      refine List.filter_congr fun k _ => ?_
      by_cases hsame : k = first.key
      · simp [hsame, hknown]
      · simp [hsame]
    · rw [if_neg hknown, if_pos (by simpa using hknown), List.append_assoc, List.singleton_append]
      congr 2
      refine List.filter_congr fun k _ => ?_
      by_cases hsame : k = first.key
      · simp [hsame]
      · simp [hsame]

/-- **Appending to nothing keeps every key once.** -/
theorem keys_append_empty (ds : List Definition) :
    (Document.empty.append ds).definitions.map (·.key) = Text.distinct (ds.map (·.key)) := by
  rw [keys_append]
  simp [Document.empty]

/-- Appended definitions with new keys of their own are kept as they are. -/
theorem append_of_nodup {doc : Document} {ds : List Definition}
    (hnodup : ((doc.definitions ++ ds).map (·.key)).Nodup) :
    doc.append ds = ⟨doc.definitions ++ ds⟩ := by
  unfold Document.append
  congr 1
  generalize doc.definitions = acc at hnodup ⊢
  induction ds generalizing acc with
  | nil => simp
  | cons first ds ih =>
    have hnew : first.key ∉ acc.map (·.key) := by
      rw [List.map_append, List.nodup_append] at hnodup
      intro hknown
      exact hnodup.2.2 _ hknown _ (by simp) rfl
    rw [List.foldl_cons, putDefinition_of_new hnew, ih _ (by simpa using hnodup)]
    simp

/-! ### Appending again

Two definitions of different keys can be put into a document in either order if one of them has
its place already (`putDefinition_comm`).  So all that was appended once finds its place the
second time.
-/

theorem mem_keys_putDefinition {k : DefinitionKind × Option String} {d : Definition}
    {ds : List Definition} :
    k ∈ (putDefinition d ds).map (·.key) ↔ k = d.key ∨ k ∈ ds.map (·.key) := by
  rw [keys_putDefinition]
  split
  next hknown =>
    constructor
    · exact Or.inr
    · rintro (rfl | h)
      · exact hknown
      · exact h
  · rw [List.mem_append, List.mem_singleton, or_comm]

/-- The later of two definitions with one key is kept. -/
theorem putDefinition_putDefinition_of_key_eq {d e : Definition} (h : e.key = d.key)
    (ds : List Definition) : putDefinition e (putDefinition d ds) = putDefinition e ds := by
  induction ds with
  | nil => simp [putDefinition, h]
  | cons first ds ih =>
    by_cases hhere : first.key = d.key
    · simp [putDefinition, hhere, h]
    · rw [putDefinition, if_neg hhere, putDefinition, if_neg (by rw [h]; exact hhere),
        putDefinition, if_neg (by rw [h]; exact hhere), ih]

/-- Definitions with different keys can be put in either order, if one of them has its place. -/
theorem putDefinition_comm {d e : Definition} (h : e.key ≠ d.key) {ds : List Definition}
    (hknown : e.key ∈ ds.map (·.key)) :
    putDefinition e (putDefinition d ds) = putDefinition d (putDefinition e ds) := by
  induction ds with
  | nil => cases hknown
  | cons first ds ih =>
    by_cases hhere : first.key = d.key
    · have hother : first.key ≠ e.key := fun hsame => h (hsame.symm.trans hhere)
      simp [putDefinition, hhere, h.symm]
    · by_cases hsame : first.key = e.key
      · simp [putDefinition, hsame, h]
      · have hlater : e.key ∈ ds.map (·.key) := by
          rcases List.mem_cons.1 hknown with hfirst | hlater
          · exact absurd hfirst.symm hsame
          · exact hlater
        simp [putDefinition, hhere, hsame, ih hlater]

/-- What is put at the end need not be put at the start, too. -/
theorem putDefinition_foldl {d : Definition} {es ds : List Definition}
    (hknown : ∀ e ∈ es, e.key ∈ ds.map (·.key)) :
    putDefinition d (es.foldl (fun acc e => putDefinition e acc) (putDefinition d ds))
      = putDefinition d (es.foldl (fun acc e => putDefinition e acc) ds) := by
  induction es generalizing ds with
  | nil => exact putDefinition_putDefinition_of_key_eq rfl ds
  | cons e es ih =>
    have hrest : ∀ f ∈ es, f.key ∈ (putDefinition e ds).map (·.key) := fun f hf =>
      mem_keys_putDefinition.2 (Or.inr (hknown f (List.mem_cons_of_mem e hf)))
    rw [List.foldl_cons, List.foldl_cons]
    by_cases hsame : e.key = d.key
    · rw [putDefinition_putDefinition_of_key_eq hsame]
    · rw [putDefinition_comm hsame (hknown e List.mem_cons_self), ih hrest]

/-- **Appending the same definitions again changes nothing.** -/
theorem append_append (doc : Document) (ds : List Definition) :
    (doc.append ds).append ds = doc.append ds := by
  unfold Document.append
  congr 1
  dsimp only
  generalize doc.definitions = acc
  -- The last definition is put last both times, so the first time it need not be put at all.
  induction ds using List.reverseRecOn with
  | nil => rfl
  | append_singleton ds d ih =>
    have hknown : ∀ e ∈ ds, e.key ∈
        (ds.foldl (fun acc e => putDefinition e acc) acc).map (·.key) := by
      intro e he
      have hkeys := keys_append ⟨acc⟩ ds
      unfold Document.append at hkeys
      dsimp only at hkeys
      rw [hkeys, List.mem_append, List.mem_filter, Text.mem_distinct, decide_eq_true_eq]
      by_cases hold : e.key ∈ acc.map (·.key)
      · exact Or.inl hold
      · exact Or.inr ⟨List.mem_map_of_mem he, hold⟩
    rw [List.foldl_append, List.foldl_append, List.foldl_cons, List.foldl_nil, List.foldl_cons,
      List.foldl_nil, putDefinition_foldl hknown, ih]

/-! ### Types that can be edited -/

/-- **Appending to nothing loses no type that can be told apart (`targetNames`).** -/
theorem targetNames_append_empty {ds : List Definition} (hnodup : (targetNames ds).Nodup) :
    (targetNames (Document.empty.append ds).definitions).Nodup ∧
      ∀ n ∈ targetNames ds, n ∈ targetNames (Document.empty.append ds).definitions := by
  have hwithin : ∀ d ∈ (Document.empty.append ds).definitions, d ∈ ds := by
    intro d hd
    rcases mem_append hd with hnone | hmem
    · cases hnone
    · exact hmem
  have hkeys := keys_append_empty ds
  constructor
  · have hdistinct : ((Document.empty.append ds).definitions.map (·.key)).Nodup := by
      rw [hkeys]
      exact Text.nodup_distinct _
    rw [targetNames, List.nodup_iff_pairwise_ne, List.pairwise_filterMap]
    refine ((List.pairwise_map.1 hdistinct).filter _).imp_of_mem ?_
    intro d e hd he hne name hdname other hename hsame
    subst hsame
    rw [List.mem_filter] at hd he
    have hequal := eq_of_isTarget hnodup name (hwithin d hd.1) (hwithin e he.1)
      (by simp [Definition.isTarget, hd.2, hdname]) (by simp [Definition.isTarget, he.2, hename])
    exact hne (congrArg Definition.key hequal)
  · intro n hn
    obtain ⟨d, hd, htarget⟩ := mem_targetNames.1 hn
    have hkey : d.key ∈ (Document.empty.append ds).definitions.map (·.key) := by
      rw [hkeys, Text.mem_distinct]
      exact List.mem_map_of_mem hd
    obtain ⟨e, he, hsame⟩ := List.mem_map.1 hkey
    refine mem_targetNames.2 ⟨e, he, ?_⟩
    have hname : e.name? = d.name? := congrArg Prod.snd hsame
    rw [Definition.isTarget, Definition.isEditable_eq_of_key hsame, hname]
    exact htarget

/-- A type that can be told apart is still the same after appending to nothing. -/
theorem mem_append_empty {ds : List Definition} (hnodup : (targetNames ds).Nodup) {d : Definition}
    (hd : d ∈ ds) {name : String} (htarget : d.isTarget name = true) :
    d ∈ (Document.empty.append ds).definitions := by
  obtain ⟨e, he, hreached⟩ := mem_targetNames.1
    ((targetNames_append_empty hnodup).2 name (mem_targetNames.2 ⟨d, hd, htarget⟩))
  rcases mem_append he with hnone | hmem
  · cases hnone
  · rwa [eq_of_isTarget hnodup name hd hmem htarget hreached]

end SchemaLoom.Sdl
