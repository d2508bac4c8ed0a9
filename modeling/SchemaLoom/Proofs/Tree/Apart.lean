/-
Patches of places that lie apart.

A patch goes through the mappings on its path and changes in each of them the value of one key;
so every other value stays, and the keys that there are stay in their order (`at?_of_editUnder`,
`keys_of_editUnder`).  Where two paths part, their patches change values of different keys of one
mapping.  Neither sees what the other does, and all that tells their order is the order of the
keys that they add (`Reorders`).

The induction is on the common beginning of the two paths.  Edits under one key meet if they do
so there (`meets_into`), and edits of different keys meet in any case (`meets_alter`).

The one thing that patches do to trees as a whole is to copy them, and how deep a tree is depends
on both patches.  So one order may fail where the other does not, but only because something is
too deep to be copied (`Agree.deep`).
-/
import SchemaLoom.Proofs.Tree.Edit

namespace SchemaLoom

/-- Neither of the paths leads to the other's end. -/
def Apart (ps qs : List String) : Prop := ¬ ps <+: qs ∧ ¬ qs <+: ps

instance (ps qs : List String) : Decidable (Apart ps qs) := inferInstanceAs (Decidable (_ ∧ _))

namespace Tree

/-- The entries of a mapping. -/
abbrev Entries := List (Scalar × Tree)

/-- The value at a path of keys. -/
def at? : List String → Tree → Option Tree
  | [], t => some t
  | key :: keys, t => (t.get? key).bind (at? keys)

/-- The tree is another with the entries of one of its mappings in another order. -/
inductive Reorders : Tree → Tree → Prop
  | perm {es fs : Entries} (h : es.Perm fs) : Reorders (map es) (map fs)
  | entry {before behind : Entries} {key : Scalar} {t u : Tree} (h : Reorders t u) :
      Reorders (map (before ++ (key, t) :: behind)) (map (before ++ (key, u) :: behind))

/-! ### Single keys -/

theorem sameKey_text_iff {k : Scalar} {key : String} :
    k.sameKey (.text key) = true ↔ k = .text key := by
  cases k with
  | text other => simp
  | float value =>
    cases hint : value.toInt? <;> simp [Scalar.sameKey, Scalar.quantity?, hint]
  | _ => simp [Scalar.sameKey, Scalar.quantity?]

section Keys

variable {α : Type} {a b key : String} {v w : α} {es : List (Scalar × α)}

theorem lookup_insert_self (key : String) (v : α) (es : List (Scalar × α)) :
    lookup (.text key) (insert (.text key) v es) = some v := by
  induction es with
  | nil => simp [insert, lookup]
  | cons e es ih =>
    obtain ⟨k, x⟩ := e
    by_cases hhere : k.sameKey (.text key) = true
    · simp [insert, lookup, hhere]
    · simp [insert, lookup, hhere, ih]

theorem lookup_insert_of_ne (h : a ≠ b) (v : α) (es : List (Scalar × α)) :
    lookup (.text a) (insert (.text b) v es) = lookup (.text a) es := by
  induction es with
  | nil => simp [insert, lookup, Ne.symm h]
  | cons e es ih =>
    obtain ⟨k, x⟩ := e
    by_cases hhere : k.sameKey (.text b) = true
    · have hother : ¬ k.sameKey (.text a) = true := by
        rw [sameKey_text_iff.1 hhere]
        simpa using Ne.symm h
      simp [insert, lookup, hhere, hother]
    · simp [insert, lookup, hhere, ih]

theorem insert_insert (key : String) (v w : α) (es : List (Scalar × α)) :
    insert (.text key) w (insert (.text key) v es) = insert (.text key) w es := by
  induction es with
  | nil => simp [insert]
  | cons e es ih =>
    obtain ⟨k, x⟩ := e
    by_cases hhere : k.sameKey (.text key) = true
    · simp [insert, hhere]
    · simp [insert, hhere, ih]

/-- Values of different keys are put in either order; the keys that are new come in that order. -/
theorem insert_insert_perm (h : a ≠ b) (v w : α) (es : List (Scalar × α)) :
    (insert (.text b) w (insert (.text a) v es)).Perm
      (insert (.text a) v (insert (.text b) w es)) := by
  induction es with
  | nil => simpa [insert, h, Ne.symm h] using List.Perm.swap _ _ _
  | cons e es ih =>
    obtain ⟨k, x⟩ := e
    by_cases ha : k.sameKey (.text a) = true
    · have hb : ¬ k.sameKey (.text b) = true := by
        rw [sameKey_text_iff.1 ha]
        simpa using h
      simp [insert, ha, hb]
    · by_cases hb : k.sameKey (.text b) = true
      · simp [insert, ha, hb]
      · simpa [insert, ha, hb] using ih

/-- Keys that are there keep their order, and a new one comes behind them. -/
theorem keys_insert (key : Scalar) (v : α) (es : List (Scalar × α)) :
    es.map Prod.fst <+: (insert key v es).map Prod.fst := by
  induction es with
  | nil => exact List.nil_prefix
  | cons e es ih =>
    obtain ⟨k, x⟩ := e
    rw [insert]
    split
    · exact List.prefix_refl _
    · exact List.cons_prefix_cons.2 ⟨rfl, ih⟩

/-- The place of a key does not depend on its value. -/
theorem exists_insert (key : Scalar) (es : List (Scalar × α)) :
    ∃ before k behind, ∀ v, insert key v es = before ++ (k, v) :: behind := by
  induction es with
  | nil => exact ⟨[], key, [], fun _ => rfl⟩
  | cons e es ih =>
    obtain ⟨k, x⟩ := e
    by_cases hhere : k.sameKey key = true
    · exact ⟨[], k, es, fun v => by simp [insert, hhere]⟩
    · obtain ⟨before, other, behind, hrest⟩ := ih
      exact ⟨(k, x) :: before, other, behind, fun v => by simp [insert, hhere, hrest]⟩

end Keys

theorem Reorders.insert {t u : Tree} (h : Reorders t u) (key : Scalar) (es : Entries) :
    Reorders (map (insert key t es)) (map (insert key u es)) := by
  obtain ⟨before, k, behind, hplace⟩ := exists_insert key es
  rw [hplace, hplace]
  exact .entry h

/-! ### Changes of one key

An edit under a path alters the value of the first key, by an edit under the rest of the path.
-/

/-- Entries with the value of a key changed. -/
def alter (key : String) (change : LeafEdit) (es : Entries) : Except TreeFault Entries :=
  (change (lookup (.text key) es)).map fun v => insert (.text key) v es

/-- The entries of what counts as a mapping; where nothing is, the mapping is empty. -/
def mappingOf? : Option Tree → Option Entries
  | none | some null => some []
  | some (map es) => some es
  | some _ => none

/-- A change of a value that goes on among the entries of it. -/
def into (path segment : String)
    (change : Entries → Except TreeFault Entries) : LeafEdit := fun old =>
  match mappingOf? old with
  | some es => (change es).map map
  | none => .error (.notAMapping segment path)

theorem of_mappingOf?_eq_some {old : Option Tree} {es : Entries} (h : mappingOf? old = some es) :
    old = some (map es) ∨ es = [] ∧ (old = none ∨ old = some null) := by
  unfold mappingOf? at h
  split at h
  · exact Or.inr ⟨(Option.some.inj h).symm, Or.inl rfl⟩
  · exact Or.inr ⟨(Option.some.inj h).symm, Or.inr rfl⟩
  · cases h
    exact Or.inl rfl
  · cases h

section Edits

variable {path path' a b segment key key' : String} {edit edit' change change' : LeafEdit}
  {es fs : Entries} {keys keys' : List String}

theorem editUnder_nil : editUnder path edit es [] key = alter key edit es := by
  rw [editUnder, alter]
  cases edit (lookup (.text key) es) <;> rfl

theorem editUnder_cons : editUnder path edit es (segment :: keys) key
    = alter segment (into path segment fun inner => editUnder path edit inner keys key) es := by
  rw [editUnder, alter]
  generalize lookup (.text segment) es = old
  unfold into
  split
  · dsimp only [mappingOf?]
    cases editUnder path edit [] keys key <;> rfl
  · dsimp only [mappingOf?]
    cases editUnder path edit [] keys key <;> rfl
  next inner =>
    dsimp only [mappingOf?]
    cases editUnder path edit inner keys key <;> rfl
  next hnull hmap =>
    rw [mappingOf?]
    · rfl
    · exact hnull
    · exact hmap

/-- The value of a key is changed, and no other. -/
theorem of_alter_eq_ok (h : alter key change es = .ok fs) :
    ∃ v, change (lookup (.text key) es) = .ok v ∧ fs = insert (.text key) v es := by
  obtain ⟨v, hchange, rfl⟩ := Outcome.of_map_eq_ok h
  exact ⟨v, hchange, rfl⟩

/-- A change of the entries is made of a mapping, or where nothing is. -/
theorem of_into_eq_ok {inner : Entries → Except TreeFault Entries}
    {old : Option Tree} {v : Tree} (h : into path segment inner old = .ok v) :
    ∃ es fs, inner es = .ok fs ∧ v = map fs ∧
      (old = some (map es) ∨ es = [] ∧ (old = none ∨ old = some null)) := by
  unfold into at h
  split at h
  next es hmapping =>
    obtain ⟨fs, hinner, rfl⟩ := Outcome.of_map_eq_ok h
    exact ⟨es, fs, hinner, rfl, of_mappingOf?_eq_some hmapping⟩
  · cases h

/-- An edit is too deep only for what it does at the end of the path. -/
theorem exists_of_editUnder_deep (h : editUnder path edit es keys key = .error .tooDeep) :
    ∃ old, edit old = .error .tooDeep := by
  induction keys generalizing es with
  | nil =>
    rw [editUnder_nil, alter] at h
    exact ⟨_, Outcome.of_map_eq_error h⟩
  | cons segment keys ih =>
    rw [editUnder_cons, alter] at h
    have hinto := Outcome.of_map_eq_error h
    unfold into at hinto
    split at hinto
    · exact ih (Outcome.of_map_eq_error hinto)
    · cases hinto

/-! ### What stays -/

/-- Nothing is in a place where there is no mapping. -/
theorem at?_cons_of_absent {old : Option Tree} (h : old = none ∨ old = some null)
    (keys : List String) :
    old.bind (at? (key :: keys)) = none := by
  rcases h with rfl | rfl <;> rfl

theorem at?_map_cons (key : String) (keys : List String) (es : Entries) :
    (map es).at? (key :: keys) = (lookup (.text key) es).bind (at? keys) := rfl

theorem apart_cons_self {ps qs : List String} : Apart (key :: ps) (key :: qs) ↔ Apart ps qs := by
  simp [Apart, List.cons_prefix_cons]

/-- What lies apart from the path of an edit stays. -/
theorem at?_of_editUnder (h : editUnder path edit es keys key = .ok fs) {qs : List String}
    (hapart : Apart qs (keys ++ [key])) : (map fs).at? qs = (map es).at? qs := by
  induction keys generalizing es fs qs with
  | nil =>
    cases qs with
    | nil => exact absurd List.nil_prefix hapart.1
    | cons q qs =>
      have hother : q ≠ key := fun hsame => hapart.2 (hsame ▸ List.prefix_append [q] qs)
      rw [editUnder_nil] at h
      obtain ⟨v, -, rfl⟩ := of_alter_eq_ok h
      rw [at?_map_cons, at?_map_cons, lookup_insert_of_ne hother]
  | cons segment keys ih =>
    cases qs with
    | nil => exact absurd List.nil_prefix hapart.1
    | cons q qs =>
      rw [editUnder_cons] at h
      obtain ⟨v, hinto, rfl⟩ := of_alter_eq_ok h
      rw [at?_map_cons, at?_map_cons]
      by_cases hsame : q = segment
      -- Both paths go on below this key; if nothing is there yet, nothing was there to stay.
      · subst hsame
        have hrest : Apart qs (keys ++ [key]) := apart_cons_self.1 hapart
        obtain ⟨inner, inner', hinner, rfl, hold⟩ := of_into_eq_ok hinto
        rw [lookup_insert_self, Option.bind_some, ih hinner hrest]
        rcases hold with hold | ⟨rfl, hold⟩
        · rw [hold, Option.bind_some]
        · cases qs with
          | nil => exact absurd List.nil_prefix hrest.1
          | cons q' qs => rw [at?_cons_of_absent hold]; rfl
      · rw [lookup_insert_of_ne hsame]

/-- The mappings on the path of an edit keep their keys, in their order. -/
theorem keys_of_editUnder (h : editUnder path edit es keys key = .ok fs) {ws : List String}
    (hway : ws <+: keys) {inner : Entries} (hat : (map es).at? ws = some (map inner)) :
    ∃ inner', (map fs).at? ws = some (map inner') ∧ inner.map Prod.fst <+: inner'.map Prod.fst := by
  induction keys generalizing es fs ws with
  | nil =>
    obtain rfl := List.prefix_nil.1 hway
    cases hat
    rw [editUnder_nil] at h
    obtain ⟨v, -, rfl⟩ := of_alter_eq_ok h
    exact ⟨_, rfl, keys_insert _ _ _⟩
  | cons segment keys ih =>
    rw [editUnder_cons] at h
    obtain ⟨v, hinto, rfl⟩ := of_alter_eq_ok h
    cases ws with
    | nil =>
      cases hat
      exact ⟨_, rfl, keys_insert _ _ _⟩
    | cons w ws =>
      obtain ⟨rfl, hrest⟩ := List.cons_prefix_cons.1 hway
      obtain ⟨below, below', hbelow, rfl, hold⟩ := of_into_eq_ok hinto
      rw [at?_map_cons] at hat
      have hsome : (map below).at? ws = some (map inner) := by
        rcases hold with hold | ⟨rfl, hold⟩
        · rwa [hold, Option.bind_some] at hat
        · cases ws with
          | nil => rcases hold with hold | hold <;> rw [hold] at hat <;> cases hat
          | cons w' ws =>
            rw [at?_cons_of_absent hold] at hat
            cases hat
      rw [at?_map_cons, lookup_insert_self]
      exact ih hbelow hrest hsome

/-! ### Either order

Two edits whose paths part at some key alter two entries of one mapping there.  Up to that key
they go the same way.
-/

/-- Two ways to change entries that both fail, or come to the same but for the order of entries. -/
inductive Meets : Except TreeFault Entries → Except TreeFault Entries → Prop
  | ok {es fs : Entries} (h : Reorders (map es) (map fs)) : Meets (.ok es) (.ok fs)
  | error (f g : TreeFault) : Meets (.error f) (.error g)

theorem Meets.insert {x y : Except TreeFault Entries} (h : Meets x y) (key : Scalar)
    (es : Entries) :
    Meets ((x.map map).map fun v => Tree.insert key v es)
      ((y.map map).map fun v => Tree.insert key v es) := by
  cases h with
  | ok hreorders => exact .ok (hreorders.insert key es)
  | error f g => exact .error f g

theorem alter_bind_alter (h : a ≠ b) :
    (alter a change es >>= alter b change') =
      (change (lookup (.text a) es) >>= fun v =>
        (change' (lookup (.text b) es)).map fun w =>
          insert (.text b) w (insert (.text a) v es)) := by
  rw [alter]
  cases change (lookup (.text a) es) with
  | error fault => rfl
  | ok v =>
    show alter b change' (insert (.text a) v es) = _
    rw [alter, lookup_insert_of_ne (Ne.symm h)]
    rfl

theorem alter_bind_alter_self :
    (alter key change es >>= alter key change') =
      (change (lookup (.text key) es) >>= fun v => change' (some v)).map
        fun w => insert (.text key) w es := by
  rw [alter]
  cases change (lookup (.text key) es) with
  | error fault => rfl
  | ok v =>
    show alter key change' (insert (.text key) v es) = (change' (some v)).map _
    rw [alter, lookup_insert_self]
    cases change' (some v) with
    | error fault => rfl
    | ok w => exact congrArg Except.ok (insert_insert key v w es)

/-- Changes of different keys meet. -/
theorem meets_alter (h : a ≠ b) :
    Meets (alter a change es >>= alter b change') (alter b change' es >>= alter a change) := by
  rw [alter_bind_alter h, alter_bind_alter (Ne.symm h)]
  cases change (lookup (.text a) es) with
  | error fault => cases change' (lookup (.text b) es) <;> exact .error _ _
  | ok v =>
    cases change' (lookup (.text b) es) with
    | error fault => exact .error _ _
    | ok w => exact .ok (.perm (insert_insert_perm h v w es))

/-- Changes under one key meet if they do so there. -/
theorem meets_into {inner inner' : Entries → Except TreeFault Entries}
    (h : ∀ es, Meets (inner es >>= inner') (inner' es >>= inner)) :
    Meets (alter key (into path segment inner) es >>= alter key (into path' segment inner'))
      (alter key (into path' segment inner') es >>= alter key (into path segment inner)) := by
  have htwice {path path' : String}
      {inner inner' : Entries → Except TreeFault Entries}
      {below : Entries} {old : Option Tree} (hold : mappingOf? old = some below) :
      (into path segment inner old >>= fun v => into path' segment inner' (some v))
        = (inner below >>= inner').map map := by
    rw [into, hold]
    dsimp only
    cases inner below <;> rfl
  rw [alter_bind_alter_self, alter_bind_alter_self]
  cases hold : mappingOf? (lookup (.text key) es) with
  | none =>
    simp only [into, hold]
    exact .error _ _
  | some below =>
    rw [htwice hold, htwice hold]
    exact (h below).insert _ es

/-- Edits of places that lie apart meet. -/
theorem meets_editUnder (hapart : Apart (keys ++ [key]) (keys' ++ [key'])) (es : Entries) :
    Meets
      (editUnder path edit es keys key >>= fun fs => editUnder path' edit' fs keys' key')
      (editUnder path' edit' es keys' key' >>= fun fs => editUnder path edit fs keys key) := by
  -- Down to the first keys that differ both edits go through the same mappings, and no path ends
  -- there.
  induction keys generalizing es keys' with
  | nil =>
    cases keys' with
    | nil =>
      simp only [editUnder_nil]
      exact meets_alter fun hsame => hapart.1 (hsame ▸ List.prefix_refl _)
    | cons segment' keys' =>
      simp only [editUnder_nil, editUnder_cons]
      exact meets_alter fun hsame => hapart.1 (hsame ▸ List.prefix_append [key] _)
  | cons segment keys ih =>
    cases keys' with
    | nil =>
      simp only [editUnder_nil, editUnder_cons]
      exact meets_alter fun hsame => hapart.2 (hsame ▸ List.prefix_append [segment] _)
    | cons segment' keys' =>
      simp only [editUnder_cons]
      by_cases hsame : segment = segment'
      · subst hsame
        exact meets_into fun inner => ih (apart_cons_self.1 hapart) inner
      · exact meets_alter hsame

end Edits

end Tree

/-! ### Patches -/

/-- The value that a patch brings. -/
def TreePatch.value : TreePatch → Tree
  | replaceAt _ value | appendAt _ value => value

theorem Tree.copied_of_replaceEdit {value : Tree} {old : Option Tree} {fault : TreeFault}
    (h : replaceEdit value old = .error fault) : value.copied = .error fault := by
  unfold replaceEdit at h
  split at h
  · cases hcopied : value.copied with
    | error other => simpa [hcopied] using h
    | ok v => simp [hcopied] at h
  · exact h

theorem Tree.copied_of_appendEdit {path : String} {value : Tree} {old : Option Tree}
    (h : appendEdit path value old = .error .tooDeep) : value.copied = .error .tooDeep := by
  unfold appendEdit at h
  cases hcopied : value.copied with
  | error other => split at h <;> simp_all
  | ok v => split at h <;> simp [hcopied] at h

/-- At the end of the path a patch copies its value, and nothing else. -/
theorem TreePatch.isWithin_of_atEnd_deep {p : TreePatch} {old : Option Tree}
    (h : p.atEnd old = .error .tooDeep) : p.value.isWithin Tree.copyingDepth = false := by
  have hcopied : p.value.copied = .error .tooDeep := by
    cases p with
    | replaceAt path value => exact Tree.copied_of_replaceEdit h
    | appendAt path value => exact Tree.copied_of_appendEdit h
  unfold Tree.copied at hcopied
  split at hcopied
  · cases hcopied
  next hdeep => simpa using hdeep

theorem exists_pathSegments (path : String) : ∃ keys key, pathSegments path = keys ++ [key] := by
  have hsome : pathSegments path ≠ [] := by
    simp [pathSegments, Text.splitAtChar, Text.splitChars_ne_nil]
  obtain hnil | ⟨keys, key, hsegments⟩ := (pathSegments path).eq_nil_or_concat
  · exact absurd hnil hsome
  · exact ⟨keys, key, hsegments.trans (List.concat_eq_append ..)⟩

namespace Tree

theorem patch_map {p : TreePatch} {keys : List String} {key : String} (hpath : p.path ≠ "")
    (hsegments : pathSegments p.path = keys ++ [key]) (es : Entries) :
    (map es).patch p = if (map es).isWithin copyingDepth then
      (editUnder p.path p.atEnd es keys key).map map else .error .tooDeep := by
  rw [Tree.patch]
  split
  next hdepth =>
    rw [Forest.patch_ofTree hpath hsegments hdepth]
    cases editUnder p.path p.atEnd es keys key <;> rfl
  next hdepth =>
    rw [Forest.patch_of_deep hpath hdepth]
    rfl

/-- Two patches in a row are two edits in a row, unless what they copy is too deep. -/
theorem patch_bind_patch {p q : TreePatch} {keys keys' : List String} {key key' : String}
    (hpath : p.path ≠ "") (hpath' : q.path ≠ "") (hsegments : pathSegments p.path = keys ++ [key])
    (hsegments' : pathSegments q.path = keys' ++ [key']) (es : Entries) :
    ((map es).patch p >>= fun t => t.patch q) = .error .tooDeep ∨
      ((map es).patch p >>= fun t => t.patch q) =
        (editUnder p.path p.atEnd es keys key >>= fun fs =>
          editUnder q.path q.atEnd fs keys' key').map map := by
  rw [patch_map hpath hsegments]
  split
  · cases editUnder p.path p.atEnd es keys key with
    | error fault => exact Or.inr rfl
    | ok fs =>
      show (map fs).patch q = _ ∨
        (map fs).patch q = (editUnder q.path q.atEnd fs keys' key').map map
      rw [patch_map hpath' hsegments']
      split
      · exact Or.inr rfl
      · exact Or.inl rfl
  · exact Or.inl rfl

/-- The outcomes are the same but for the order of entries, or both refusals; unless in one of them
something is too deep to be copied. -/
inductive Agree : Except TreeFault Tree → Except TreeFault Tree → Prop
  | same {t u : Tree} (h : Reorders t u) : Agree (.ok t) (.ok u)
  | refused {f g : TreeFault} (hfirst : f ≠ .tooDeep) (hsecond : g ≠ .tooDeep) :
      Agree (.error f) (.error g)
  | deep {x y : Except TreeFault Tree} (h : x = .error .tooDeep ∨ y = .error .tooDeep) : Agree x y

theorem agree_of_meets {x y : Except TreeFault Entries} (h : Meets x y) :
    Agree (x.map map) (y.map map) := by
  cases h with
  | ok hreorders => exact .same hreorders
  | error f g =>
    by_cases hfirst : f = .tooDeep
    · exact .deep (Or.inl (hfirst ▸ rfl))
    · by_cases hsecond : g = .tooDeep
      · exact .deep (Or.inr (hsecond ▸ rfl))
      · exact .refused hfirst hsecond

/-- **A patch leaves alone what lies apart from its path (`Apart`)**, and adds keys behind those
that there are. Patches whose paths lie apart can be made in either order, as far as the trees and
values can be copied. -/
theorem patch_apart (es : Entries) {p : TreePatch} (hpath : p.path ≠ "") :
    ((map es).patch p = .error .tooDeep →
      (map es).isWithin copyingDepth = false ∨ p.value.isWithin copyingDepth = false) ∧
    (∀ t, (map es).patch p = .ok t →
      (∀ qs, Apart qs (pathSegments p.path) → t.at? qs = (map es).at? qs) ∧
      ∀ ws inner, ws <+: (pathSegments p.path).dropLast → (map es).at? ws = some (map inner) →
        ∃ inner', t.at? ws = some (map inner') ∧ inner.map Prod.fst <+: inner'.map Prod.fst) ∧
    ∀ q : TreePatch, q.path ≠ "" → Apart (pathSegments p.path) (pathSegments q.path) →
      Agree ((map es).patch p >>= fun t => t.patch q) ((map es).patch q >>=
        fun t => t.patch p) := by
  obtain ⟨keys, key, hsegments⟩ := exists_pathSegments p.path
  refine ⟨?_, ?_, ?_⟩
  · intro hpatch
    rw [patch_map hpath hsegments] at hpatch
    split at hpatch
    · obtain ⟨old, hold⟩ := exists_of_editUnder_deep (Outcome.of_map_eq_error hpatch)
      exact Or.inr (TreePatch.isWithin_of_atEnd_deep hold)
    next hdeep => exact Or.inl (by simpa using hdeep)
  · intro t hpatch
    rw [patch_map hpath hsegments] at hpatch
    split at hpatch
    · obtain ⟨fs, hedit, rfl⟩ := Outcome.of_map_eq_ok hpatch
      rw [hsegments, List.dropLast_concat]
      exact ⟨fun qs hapart => at?_of_editUnder hedit hapart,
        fun ws inner hway hat => keys_of_editUnder hedit hway hat⟩
    · cases hpatch
  · intro q hpath' hapart
    obtain ⟨keys', key', hsegments'⟩ := exists_pathSegments q.path
    rw [hsegments, hsegments'] at hapart
    rcases patch_bind_patch hpath hpath' hsegments hsegments' es with hdeep | hfirst
    · exact .deep (Or.inl hdeep)
    rcases patch_bind_patch hpath' hpath hsegments' hsegments es with hdeep | hsecond
    · exact .deep (Or.inr hdeep)
    rw [hfirst, hsecond]
    exact agree_of_meets (meets_editUnder hapart es)

/-- A value that is set and a list that is begun below one mapping, in either order. -/
theorem siblings_patched :
    let es : Entries := [(.text "a", record [("k", .int 1)]), (.text "c", .int 3)]
    let p : TreePatch := .replaceAt "a#b" (.int 2)
    let q : TreePatch := .appendAt "a#d#e" (.int 4)
    (∃ t, (map es).patch p = .ok t ∧ t.at? ["c"] = some (.int 3) ∧
      t.at? ["a", "k"] = some (.int 1)) ∧
      ∃ t u, ((map es).patch p >>= fun t => t.patch q) = .ok t ∧
        ((map es).patch q >>= fun t => t.patch p) = .ok u ∧ Reorders t u := by
  intro es p q
  have hpath : p.path ≠ "" := by decide
  have hsegments : pathSegments p.path = ["a", "b"] := by decide +kernel
  constructor
  · have hpatch : ∃ t, (map es).patch p = .ok t := ⟨_, rfl⟩
    obtain ⟨t, hpatch⟩ := hpatch
    have hstays := ((patch_apart es hpath).2.1 t hpatch).1
    rw [hsegments] at hstays
    exact ⟨t, hpatch, hstays ["c"] (by decide), hstays ["a", "k"] (by decide)⟩
  · have hfirst : ∃ t, ((map es).patch p >>= fun t => t.patch q) = .ok t := ⟨_, rfl⟩
    have hsecond : ∃ u, ((map es).patch q >>= fun t => t.patch p) = .ok u := ⟨_, rfl⟩
    obtain ⟨t, hfirst⟩ := hfirst
    obtain ⟨u, hsecond⟩ := hsecond
    have hagree := (patch_apart es hpath).2.2 q (by decide) (by decide +kernel)
    rw [hfirst, hsecond] at hagree
    cases hagree with
    | same h => exact ⟨t, u, hfirst, hsecond, h⟩
    | deep h => simp at h

/-! ### What tells the order -/

/-- A list in lists. -/
def nest : Nat → Tree
  | 0 => list []
  | n + 1 => list [nest n]

@[simp] theorem isWithin_nest (n depth : Nat) : (nest n).isWithin depth = decide (n ≤ depth) := by
  induction n generalizing depth with
  | zero => cases depth <;> rfl
  | succ n ih =>
    cases depth with
    | zero => rfl
    | succ depth => simp [nest, isWithin, areWithin, ih]

/-- Depth tells in which order patches are made, and a part that stands in two places is changed in
both. -/
theorem order_of_deep_patches_and_shared_part :
    (let p : TreePatch := .replaceAt "a" (nest 493)
     let q : TreePatch := .replaceAt "b" (.int 1)
     Apart (pathSegments p.path) (pathSegments q.path) ∧
       ((map []).patch p >>= fun t => t.patch q) = .error .tooDeep ∧
       ∃ t, ((map []).patch q >>= fun t => t.patch p) = .ok t) ∧
    (⟨record [("a", .shared 0), ("b", .shared 0)], [record [("k", .int 1)]]⟩ : Forest).patch
        (.replaceAt "a#k" (.int 2))
      = .ok ⟨record [("a", .shared 0), ("b", .shared 0)], [record [("k", .int 2)]]⟩ := by
  refine ⟨?_, rfl⟩
  have hnest := isWithin_nest 493
  generalize nest 493 = v at hnest ⊢
  intro p q
  have hsegments : pathSegments p.path = [] ++ ["a"] := show pathSegments "a" = _ by decide +kernel
  have hsegments' : pathSegments q.path = [] ++ ["b"] := by decide +kernel
  have hpath : p.path ≠ "" := show "a" ≠ "" by decide
  have hcopied : v.copied = .ok v := by simp [copied, hnest, copyingDepth]
  have hpatch (es : Entries) (hwithin : (map es).isWithin copyingDepth = true)
      (hnew : lookup (.text "a") es = none) :
      (map es).patch p = .ok (map (insert (.text "a") v es)) := by
    rw [patch_map hpath hsegments, if_pos hwithin, editUnder_nil, alter, hnew]
    show ((v.copied).map _).map map = _
    rw [hcopied]
    rfl
  have htoodeep : ¬ (record [("a", v)]).isWithin copyingDepth = true := by
    simp [copyingDepth, hnest]
  refine ⟨by rw [hsegments, hsegments']; decide, ?_, ?_⟩
  · rw [hpatch [] rfl rfl]
    exact (patch_map (by decide) hsegments' _).trans (if_neg htoodeep)
  · exact ⟨_, hpatch [(.text "b", .int 1)] rfl rfl⟩

end Tree

end SchemaLoom
