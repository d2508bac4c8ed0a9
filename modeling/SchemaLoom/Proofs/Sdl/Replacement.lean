/-
Which definition of a key is kept, and where.

Appending goes through definitions one by one, and each replaces the first of its key or comes to
the end.  So what is there before keeps its places and what is new comes behind, in the order in
which the keys first occur; and of all definitions that are appended with one key the last counts
(`lastOfKey?`).

The closed form is made of two parts, `replaceFirsts` for the old definitions and
`newDefinitions` for the others.  That appending comes to it is by induction on the definitions
from behind, so each part has a lemma on one more definition at the end.
-/
import Mathlib.Data.List.Basic
import SchemaLoom.Proofs.Sdl.Append

namespace SchemaLoom.Sdl

/-! ### What appending comes to -/

/-- The last of some definitions with a key. -/
def lastOfKey? (ds : List Definition) (key : DefinitionKind × Option String) : Option Definition :=
  ds.reverse.find? fun d => d.key = key

/-- What takes the place of a definition: the last that others have for its key, unless the key is
one of those in `seen`, which have been replaced before. -/
def replacement (ds : List Definition) (seen : List (DefinitionKind × Option String))
    (d : Definition) : Definition :=
  if d.key ∈ seen then d else (lastOfKey? ds d.key).getD d

/-- Definitions with the first of every key replaced by the last that others have for it. -/
def replaceFirsts (ds : List Definition) (seen : List (DefinitionKind × Option String))
    (old : List Definition) : List Definition :=
  old.mapIdx fun i d => replacement ds (seen ++ (old.take i).map (·.key)) d

/-- The keys of some definitions that none of the old ones has, in the order in which they first
occur. -/
def newKeys (ds old : List Definition) : List (DefinitionKind × Option String) :=
  (Text.distinct (ds.map (·.key))).filter fun k => k ∉ old.map (·.key)

/-- The last definition of every new key. -/
def newDefinitions (ds old : List Definition) : List Definition :=
  (newKeys ds old).filterMap (lastOfKey? ds)

@[simp] theorem lastOfKey?_nil (key : DefinitionKind × Option String) : lastOfKey? [] key = none :=
  rfl

theorem lastOfKey?_concat (ds : List Definition) (d : Definition)
    (key : DefinitionKind × Option String) :
    lastOfKey? (ds ++ [d]) key = if d.key = key then some d else lastOfKey? ds key := by
  rw [lastOfKey?, List.reverse_append, List.reverse_singleton, List.singleton_append,
    List.find?_cons]
  by_cases hkey : d.key = key
  · simp [hkey]
  · simp [hkey, lastOfKey?]

theorem key_of_lastOfKey? {ds : List Definition} {key : DefinitionKind × Option String}
    {d : Definition} (h : lastOfKey? ds key = some d) : d.key = key := by
  simpa using List.find?_some h

theorem lastOfKey?_isSome {ds : List Definition} {key : DefinitionKind × Option String} :
    (lastOfKey? ds key).isSome = true ↔ key ∈ ds.map (·.key) := by
  simp [lastOfKey?, List.find?_isSome, List.mem_map]

theorem key_replacement (ds : List Definition) (seen : List (DefinitionKind × Option String))
    (d : Definition) : (replacement ds seen d).key = d.key := by
  unfold replacement
  split
  · rfl
  · cases hlast : lastOfKey? ds d.key with
    | none => rfl
    | some last => exact key_of_lastOfKey? hlast

/-- One more definition matters for its key alone, and only as long as that has not been
replaced. -/
theorem replacement_concat (ds : List Definition) (seen : List (DefinitionKind × Option String))
    (d e : Definition) : replacement (ds ++ [d]) seen e
      = if d.key = e.key ∧ e.key ∉ seen then d else replacement ds seen e := by
  unfold replacement
  rw [lastOfKey?_concat]
  by_cases hseen : e.key ∈ seen
  · simp [hseen]
  · by_cases hsame : d.key = e.key
    · simp [hseen, hsame]
    · simp [hseen, hsame]

theorem replaceFirsts_cons (ds : List Definition) (seen : List (DefinitionKind × Option String))
    (d : Definition) (old : List Definition) :
    replaceFirsts ds seen (d :: old)
      = replacement ds seen d :: replaceFirsts ds (seen ++ [d.key]) old := by
  simp [replaceFirsts, List.mapIdx_cons]

/-- Replacing changes no keys. -/
theorem keys_replaceFirsts (ds : List Definition) (seen : List (DefinitionKind × Option String))
    (old : List Definition) : (replaceFirsts ds seen old).map (·.key) = old.map (·.key) := by
  induction old generalizing seen with
  | nil => rfl
  | cons d old ih => rw [replaceFirsts_cons, List.map_cons, ih, key_replacement, List.map_cons]

/-- Without definitions nothing is replaced. -/
theorem replaceFirsts_nil (seen : List (DefinitionKind × Option String)) (old : List Definition) :
    replaceFirsts [] seen old = old := by
  induction old generalizing seen with
  | nil => rfl
  | cons d old ih =>
    rw [replaceFirsts_cons, ih]
    simp [replacement]

/-- A definition more changes nothing if its key has been replaced, or is not there. -/
theorem replaceFirsts_concat_of_seen {d : Definition} {seen : List (DefinitionKind × Option String)}
    {old : List Definition} (h : d.key ∈ old.map (·.key) → d.key ∈ seen) (ds : List Definition) :
    replaceFirsts (ds ++ [d]) seen old = replaceFirsts ds seen old := by
  induction old generalizing seen with
  | nil => rfl
  | cons e old ih =>
    have hlater : d.key ∈ old.map (·.key) → d.key ∈ seen ++ [e.key] := fun hknown =>
      List.mem_append_left _ (h (List.mem_cons_of_mem _ hknown))
    have hstays : ¬ (d.key = e.key ∧ e.key ∉ seen) := fun ⟨hsame, hnew⟩ =>
      hnew (hsame ▸ h (hsame ▸ List.mem_cons_self))
    rw [replaceFirsts_cons, replaceFirsts_cons, ih hlater, replacement_concat, if_neg hstays]

/-- A definition more is put in the place of the first of its key. -/
theorem replaceFirsts_concat {d : Definition} {seen : List (DefinitionKind × Option String)}
    {old : List Definition} (h : d.key ∉ seen) (hknown : d.key ∈ old.map (·.key))
    (ds : List Definition) :
    replaceFirsts (ds ++ [d]) seen old = putDefinition d (replaceFirsts ds seen old) := by
  induction old generalizing seen with
  | nil => cases hknown
  | cons e old ih =>
    rw [replaceFirsts_cons, replaceFirsts_cons, replacement_concat, putDefinition, key_replacement]
    by_cases hsame : e.key = d.key
    · rw [if_pos hsame, if_pos ⟨hsame.symm, hsame ▸ h⟩,
        replaceFirsts_concat_of_seen fun _ => by simp [hsame]]
    · have hlater : d.key ∈ old.map (·.key) :=
        (List.mem_cons.1 hknown).resolve_left (Ne.symm hsame)
      have hnotseen : d.key ∉ seen ++ [e.key] := by simp [h, Ne.symm hsame]
      rw [if_neg hsame, if_neg fun hboth => hsame hboth.1.symm, ih hnotseen hlater]

/-- What comes last for other keys stays. -/
theorem filterMap_lastOfKey?_of_not_mem {d : Definition}
    {keys : List (DefinitionKind × Option String)} (h : d.key ∉ keys) (ds : List Definition) :
    keys.filterMap (lastOfKey? (ds ++ [d])) = keys.filterMap (lastOfKey? ds) := by
  refine List.filterMap_congr fun k hk => ?_
  have hother : d.key ≠ k := fun hsame => h (hsame ▸ hk)
  rw [lastOfKey?_concat, if_neg hother]

theorem filterMap_lastOfKey?_concat {d : Definition} {ds : List Definition}
    {keys : List (DefinitionKind × Option String)} (hnodup : keys.Nodup) (hkey : d.key ∈ keys)
    (hknown : ∀ k ∈ keys, k ∈ ds.map (·.key)) :
    keys.filterMap (lastOfKey? (ds ++ [d])) = putDefinition d (keys.filterMap (lastOfKey? ds)) := by
  induction keys with
  | nil => cases hkey
  | cons k keys ih =>
    obtain ⟨hnew, hrest⟩ := List.nodup_cons.1 hnodup
    obtain ⟨last, hlast⟩ := Option.isSome_iff_exists.1
      (lastOfKey?_isSome.2 (hknown k List.mem_cons_self))
    rw [List.filterMap_cons_some hlast, putDefinition, key_of_lastOfKey? hlast]
    by_cases hsame : k = d.key
    · subst hsame
      have hhere : lastOfKey? (ds ++ [d]) d.key = some d := by rw [lastOfKey?_concat, if_pos rfl]
      rw [if_pos rfl, List.filterMap_cons_some hhere, filterMap_lastOfKey?_of_not_mem hnew]
    · have hhere : lastOfKey? (ds ++ [d]) k = some last := by
        rw [lastOfKey?_concat, if_neg (Ne.symm hsame), hlast]
      have hlater : d.key ∈ keys := (List.mem_cons.1 hkey).resolve_left (Ne.symm hsame)
      rw [if_neg hsame, List.filterMap_cons_some hhere,
        ih hrest hlater fun other hother => hknown other (List.mem_cons_of_mem k hother)]

/-- The keys of which something is added. -/
theorem mem_newKeys {ds old : List Definition} {k : DefinitionKind × Option String} :
    k ∈ newKeys ds old ↔ k ∈ ds.map (·.key) ∧ k ∉ old.map (·.key) := by
  rw [newKeys, List.mem_filter, Text.mem_distinct, decide_eq_true_eq]

theorem newKeys_concat (ds old : List Definition) (d : Definition) :
    newKeys (ds ++ [d]) old
      = if d.key ∈ ds.map (·.key) ∨ d.key ∈ old.map (·.key) then newKeys ds old
        else newKeys ds old ++ [d.key] := by
  rw [newKeys, newKeys, List.map_append, List.map_singleton, Text.distinct_concat]
  by_cases hthere : d.key ∈ ds.map (·.key)
  · rw [if_pos (Text.mem_distinct.2 hthere), if_pos (Or.inl hthere)]
  · rw [if_neg fun hamong => hthere (Text.mem_distinct.1 hamong), List.filter_append]
    by_cases hold : d.key ∈ old.map (·.key)
    · rw [if_pos (Or.inr hold), List.filter_cons_of_neg (by simpa using hold), List.filter_nil,
        List.append_nil]
    · rw [if_neg (not_or.2 ⟨hthere, hold⟩), List.filter_cons_of_pos (by simpa using hold),
        List.filter_nil]

/-- Nothing more is added for a key that was there. -/
theorem newDefinitions_concat_of_old {d : Definition} {old : List Definition}
    (h : d.key ∈ old.map (·.key)) (ds : List Definition) :
    newDefinitions (ds ++ [d]) old = newDefinitions ds old := by
  have hother : d.key ∉ newKeys ds old := fun hnew => (mem_newKeys.1 hnew).2 h
  rw [newDefinitions, newKeys_concat, if_pos (Or.inr h), filterMap_lastOfKey?_of_not_mem hother,
    newDefinitions]

/-- A definition more of a key that was not there is put among those that are added. -/
theorem newDefinitions_concat {d : Definition} {old : List Definition}
    (h : d.key ∉ old.map (·.key)) (ds : List Definition) :
    newDefinitions (ds ++ [d]) old = putDefinition d (newDefinitions ds old) := by
  have hknown : ∀ k ∈ newKeys ds old, k ∈ ds.map (·.key) := fun k hk => (mem_newKeys.1 hk).1
  rw [newDefinitions, newKeys_concat, newDefinitions]
  by_cases hthere : d.key ∈ ds.map (·.key)
  · have hnodup : (newKeys ds old).Nodup := (Text.nodup_distinct _).filter _
    rw [if_pos (Or.inl hthere),
      filterMap_lastOfKey?_concat hnodup (mem_newKeys.2 ⟨hthere, h⟩) hknown]
  · have hother : d.key ∉ newKeys ds old := fun hnew => hthere (hknown _ hnew)
    have hlast : lastOfKey? (ds ++ [d]) d.key = some d := by rw [lastOfKey?_concat, if_pos rfl]
    have hnew : d.key ∉ ((newKeys ds old).filterMap (lastOfKey? ds)).map (·.key) := by
      rw [List.mem_map]
      rintro ⟨e, he, hsame⟩
      obtain ⟨k, hk, hlastofk⟩ := List.mem_filterMap.1 he
      exact hother (by rwa [← hsame, key_of_lastOfKey? hlastofk])
    rw [if_neg (not_or.2 ⟨hthere, h⟩), List.filterMap_append, putDefinition_of_new hnew,
      filterMap_lastOfKey?_of_not_mem hother, List.filterMap_cons_some hlast, List.filterMap_nil]

/-- A definition is put among those in front if they have one of its key, else among those
behind. -/
theorem putDefinition_append (d : Definition) (ds es : List Definition) :
    putDefinition d (ds ++ es)
      = if d.key ∈ ds.map (·.key) then putDefinition d ds ++ es else ds ++ putDefinition d es := by
  induction ds with
  | nil => simp
  | cons e ds ih =>
    rw [List.cons_append, putDefinition, putDefinition, ih, List.map_cons]
    by_cases hsame : e.key = d.key
    · simp [hsame]
    · by_cases hlater : d.key ∈ ds.map (·.key)
      · rw [if_neg hsame, if_neg hsame, if_pos hlater, if_pos (List.mem_cons_of_mem _ hlater),
          List.cons_append]
      · have hnowhere : d.key ∉ e.key :: ds.map (·.key) := by simpa [Ne.symm hsame] using hlater
        rw [if_neg hsame, if_neg hlater, if_neg hnowhere, List.cons_append]

/-- **Appending replaces the first definition of every key by the last that is appended with it
(`replaceFirsts`)**, adds the last of every other key in the order in which these keys first occur
(`newDefinitions`), and leaves everything else as it is and where it is. Appending once more changes
nothing. -/
theorem append_definitions_eq (doc : Document) (ds : List Definition) :
    (doc.append ds).definitions
        = replaceFirsts ds [] doc.definitions ++ newDefinitions ds doc.definitions ∧
      (doc.append ds).append ds = doc.append ds := by
  refine ⟨?_, append_append doc ds⟩
  -- One definition more is put where the first of its key is: among those that were there, or
  -- among the new ones.
  induction ds using List.reverseRecOn with
  | nil =>
    rw [replaceFirsts_nil]
    exact (List.append_nil _).symm
  | append_singleton ds d ih =>
    have hstep :
        (doc.append (ds ++ [d])).definitions = putDefinition d (doc.append ds).definitions := by
      simp [Document.append]
    rw [hstep, ih, putDefinition_append, keys_replaceFirsts]
    split
    next hold =>
      rw [replaceFirsts_concat List.not_mem_nil hold, newDefinitions_concat_of_old hold]
    next hnew =>
      rw [replaceFirsts_concat_of_seen fun hold => absurd hold hnew, newDefinitions_concat hnew]

end SchemaLoom.Sdl
