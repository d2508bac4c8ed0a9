/-
Facts about lists and texts that are not about the program.

Nothing here mentions a schema, a table or a template.  What is collected is what several proofs
need of `List`, `Option` and `String` and the library does not state in the form in which they
need it; what the library has is used by its name there.

Three patterns come up again and again.  Two lists match member by member, `List.Forall₂`, and
something is read off both.  Members of a list have names of their own, which is to say that
`(as.map name).Nodup`, so a name finds one member wherever it stands.  And a fact about a text is a
fact about `String.toList`, so the first character of a text is `toList.head?`.
-/
import Mathlib.Data.List.Forall2
import Mathlib.Data.List.Nodup

namespace SchemaLoom

/-! ### Lists that match member by member -/

theorem forall₂_concat {α β : Type} {R : α → β → Prop} {as : List α} {bs : List β} {a : α} {b : β}
    (h : List.Forall₂ R as bs) (hlast : R a b) : List.Forall₂ R (as ++ [a]) (bs ++ [b]) :=
  List.rel_append h (.cons hlast .nil)

theorem exists_getElem?_of_forall₂ {α β : Type} {R : α → β → Prop} {as : List α} {bs : List β}
    (h : List.Forall₂ R as bs) {i : Nat} {a : α} (ha : as[i]? = some a) :
    ∃ b, bs[i]? = some b ∧ R a b := by
  induction h generalizing i with
  | nil => cases ha
  | cons hfirst _ ih =>
    cases i with
    | zero =>
      cases ha
      exact ⟨_, rfl, hfirst⟩
    | succ i => exact ih ha

/-- If `f` and `g` take the same of any two members that match, then they take the same of lists
that match. -/
theorem filterMap_eq_of_forall₂ {α β γ : Type} {R : α → β → Prop} {f : α → Option γ}
    {g : β → Option γ} {as : List α} {bs : List β} (h : List.Forall₂ R as bs)
    (hsame : ∀ a ∈ as, ∀ b, R a b → f a = g b) : as.filterMap f = bs.filterMap g := by
  induction h with
  | nil => rfl
  | @cons a b as bs hhead _ ih =>
    rw [List.forall_mem_cons] at hsame
    rw [List.filterMap_cons, List.filterMap_cons, hsame.1 b hhead, ih hsame.2]

/-- If `f` can be told from `p`, then lists that are the same under `p` are so under `f`. -/
theorem map_eq_of_map_eq {α β γ : Type} {p : α → β} {f : α → γ} (hf : ∀ a b, p a = p b → f a = f b)
    {as bs : List α} (h : as.map p = bs.map p) : as.map f = bs.map f := by
  induction as generalizing bs with
  | nil =>
    rw [List.map_nil, eq_comm, List.map_eq_nil_iff] at h
    rw [h]
  | cons a as ih =>
    cases bs with
    | nil => cases h
    | cons b bs =>
      rw [List.map_cons, List.map_cons, List.cons.injEq] at h
      rw [List.map_cons, List.map_cons, hf a b h.1, ih h.2]

/-- The two shapes of `Option.Rel`, as equations. -/
theorem rel_cases {α : Type} {R : α → α → Prop} {x y : Option α} (h : Option.Rel R x y) :
    x = none ∧ y = none ∨ ∃ a b, x = some a ∧ y = some b ∧ R a b := by
  cases h with
  | none => exact Or.inl ⟨rfl, rfl⟩
  | some hsame => exact Or.inr ⟨_, _, rfl, rfl, hsame⟩

theorem rel_imp {α : Type} {R S : α → α → Prop} {x y : Option α} (h : Option.Rel R x y)
    (himplies : ∀ a b, R a b → S a b) : Option.Rel S x y := by
  cases h with
  | none => exact .none
  | some hsame => exact .some (himplies _ _ hsame)

/-! ### Members with names of their own

`List.inj_on_of_nodup_map` says that a name is that of one member only.  So whether a member is
found by its name depends on the members alone, not on their order.
-/

theorem find?_eq_some_iff_of_nodup {α β : Type} [DecidableEq β] {f : α → β} {as : List α}
    (hnodup : (as.map f).Nodup) {name : β} {a : α} :
    as.find? (fun a => f a = name) = some a ↔ a ∈ as ∧ f a = name := by
  refine ⟨fun h => ⟨List.mem_of_find?_eq_some h, by simpa using List.find?_some h⟩, ?_⟩
  rintro ⟨hmem, hname⟩
  cases hfound : as.find? fun a => f a = name with
  | none => simpa [hname] using List.find?_eq_none.1 hfound a hmem
  | some b =>
    have hsame : f b = name := by simpa using List.find?_some hfound
    rw [List.inj_on_of_nodup_map hnodup hmem (List.mem_of_find?_eq_some hfound)
      (hname.trans hsame.symm)]

theorem find?_of_perm {α : Type} {f : α → String} {as bs : List α} (hnodup : (as.map f).Nodup)
    (hperm : as.Perm bs) (name : String) :
    as.find? (fun a => f a = name) = bs.find? fun a => f a = name := by
  refine Option.ext fun a => ?_
  rw [find?_eq_some_iff_of_nodup hnodup,
    find?_eq_some_iff_of_nodup ((hperm.map f).nodup_iff.1 hnodup), hperm.mem_iff]

/-- At most one member has the key `k`, so what is taken of all that have it is what is taken of
the first. -/
theorem flatMap_of_nodup {α β γ : Type} [DecidableEq β] {key : α → β} {as : List α}
    (hnodup : (as.map key).Nodup) (k : β) (g : α → List γ) :
    (as.flatMap fun a => if key a = k then g a else [])
      = (as.find? fun a => key a = k).elim [] g := by
  induction as with
  | nil => rfl
  | cons a as ih =>
    rw [List.map_cons, List.nodup_cons] at hnodup
    rw [List.flatMap_cons, ih hnodup.2, List.find?_cons]
    by_cases hkey : key a = k
    · have hnone : as.find? (fun a => key a = k) = none := by
        rw [List.find?_eq_none]
        intro b hb hsame
        refine hnodup.1 ?_
        rw [hkey, ← of_decide_eq_true hsame]
        exact List.mem_map_of_mem hb
      simp [hkey, hnone]
    · simp [hkey]

theorem eq_singleton_of_nodup {α : Type} {as : List α} {a : α} (hnodup : as.Nodup)
    (hall : ∀ b ∈ as, b = a) (hmem : a ∈ as) : as = [a] := by
  obtain ⟨n, rfl⟩ : ∃ n, as = List.replicate n a := ⟨as.length, List.eq_replicate_of_mem hall⟩
  have hmost := List.nodup_replicate.1 hnodup
  have hsome : n ≠ 0 := (List.mem_replicate.1 hmem).1
  obtain rfl : n = 1 := by omega
  rfl

/-- No two members of which `p` or `q` holds are the same just if no two of which `p` holds are,
and no two of which `q` holds. -/
theorem nodup_filter_or {α : Type} {p q : α → Bool} {as : List α} :
    (as.filter fun a => p a || q a).Nodup ↔ (as.filter p).Nodup ∧ (as.filter q).Nodup := by
  simp only [List.nodup_iff_pairwise_ne, List.pairwise_filter, ← List.pairwise_and_iff]
  refine List.Pairwise.iff fun a b => ?_
  constructor
  · intro h
    exact ⟨fun ha hb => h (by simp [ha]) (by simp [hb]),
      fun ha hb => h (by simp [ha]) (by simp [hb])⟩
  · rintro ⟨hp, hq⟩ ha hb rfl
    rcases (Bool.or_eq_true _ _).mp ha with ha | ha
    · exact hp ha ha rfl
    · exact hq ha ha rfl

theorem pairwise_of_length_filter_le_one {α : Type} {p : α → Bool} {as : List α}
    (h : (as.filter p).length ≤ 1) : as.Pairwise fun a b => ¬ (p a = true ∧ p b = true) := by
  induction as with
  | nil => exact List.Pairwise.nil
  | cons a as ih =>
    rw [List.filter_cons] at h
    by_cases ha : p a = true
    · rw [if_pos ha, List.length_cons] at h
      have hnone : as.filter p = [] := List.length_eq_zero_iff.1 (by omega)
      refine List.pairwise_cons.2 ⟨?_, ih (by simp [hnone])⟩
      intro b hb hboth
      exact List.filter_eq_nil_iff.1 hnone b hb hboth.2
    · rw [if_neg ha] at h
      exact List.pairwise_cons.2 ⟨fun b _ hboth => ha hboth.1, ih h⟩

/-! ### Searching -/

/-- What is found among the members of which `p` holds is found among all, if what is `sought` has
`p` and `q`. -/
theorem find?_of_filter {α : Type} {p q sought : α → Bool} {as : List α} {a : α}
    (h : (as.filter p).find? q = some a) (hsought : sought a = true)
    (honly : ∀ x ∈ as, sought x = true → p x = true ∧ q x = true) : as.find? sought = some a := by
  rw [List.find?_filter, List.find?_eq_some_iff_append] at h
  obtain ⟨-, front, back, rfl, hfront⟩ := h
  refine List.find?_eq_some_iff_append.2 ⟨hsought, front, back, rfl, fun x hx => ?_⟩
  have hnot := hfront x hx
  cases hthis : sought x with
  | false => rfl
  | true =>
    obtain ⟨hp, hq⟩ := honly x (List.mem_append_left _ hx) hthis
    simp [hp, hq] at hnot

/-- What holds of all names in a table and of the default holds of whatever is looked up there. -/
theorem of_lookup_getD {P : String → Prop} {names : List (String × String)}
    (hall : ∀ e ∈ names, P e.2) {default : String} (hdefault : P default) (key : String) :
    P ((names.lookup key).getD default) := by
  cases hfound : names.lookup key with
  | none => exact hdefault
  | some n =>
    obtain ⟨before, after, hsplit, -⟩ := List.lookup_eq_some_iff.1 hfound
    exact hall (key, n) (hsplit ▸ List.mem_append_right _ List.mem_cons_self)

/-- The first member of two parts is that of the front part, or that of the part behind if the front
part is absent. -/
theorem forall_head?_append {α : Type} {P : α → Prop} {front behind : List α}
    (hfront : ∀ a ∈ front.head?, P a) (hbehind : ∀ a ∈ behind.head?, P a) :
    ∀ a ∈ (front ++ behind).head?, P a := by
  cases front with
  | nil => exact hbehind
  | cons a front => exact hfront

/-! ### Changes -/

/-- What `f` says is the same after a change at one position if the change leaves it alone. -/
theorem map_modify_of_eq {α β : Type} {f : α → β} {g : α → α} (hsame : ∀ a, f (g a) = f a)
    (position : Nat) (as : List α) : (as.modify position g).map f = as.map f := by
  refine List.ext_getElem? fun i => ?_
  rw [List.getElem?_map, List.getElem?_map, List.getElem?_modify]
  by_cases hhere : position = i
  · cases as[i]? with
    | none => simp
    | some a => simp [hhere, hsame]
  · simp [hhere]

theorem forall_mem_modify {α : Type} {P : α → Prop} {as : List α} (h : ∀ a ∈ as, P a)
    (change : α → α) (hchange : ∀ a, P a → P (change a)) (position : Nat) :
    ∀ a ∈ as.modify position change, P a := by
  intro a ha
  obtain ⟨i, hi⟩ := List.getElem?_of_mem ha
  rw [List.getElem?_modify] at hi
  obtain ⟨other, hother, rfl⟩ := Option.map_eq_some_iff.1 hi
  have hold := h other (List.mem_of_getElem? hother)
  by_cases hhere : position = i
  · rw [if_pos hhere]
    exact hchange other hold
  · rw [if_neg hhere]
    exact hold

/-- What one of several steps brings about, and none of them undoes, holds in the end. -/
theorem foldl_of_one {α β : Type} {f : β → α → β} {P : β → Prop} {as : List α}
    (hone : ∃ a ∈ as, ∀ b, P (f b a)) (hkeep : ∀ a ∈ as, ∀ b, P b → P (f b a)) (b : β) :
    P (as.foldl f b) := by
  obtain ⟨a, ha, hhere⟩ := hone
  obtain ⟨before, behind, rfl⟩ := List.append_of_mem ha
  rw [List.foldl_append, List.foldl_cons]
  exact List.foldlRecOn behind f (hhere _) fun b hb a ha =>
    hkeep a (List.mem_append_right _ (List.mem_cons_of_mem _ ha)) b hb

/-! ### Parts of lists -/

/-- If `k` stands in a list that holds a `word` without `k`, then the word stands before `k` or
behind it. -/
theorem append_cons_eq_append {α : Type} {k : α} {as bs before word after : List α} (hk : k ∉ word)
    (h : as ++ k :: bs = before ++ (word ++ after)) :
    (∃ more, as = before ++ (word ++ more) ∧ after = more ++ k :: bs) ∨
      ∃ more, before = as ++ k :: more ∧ bs = more ++ (word ++ after) := by
  rcases List.append_eq_append_iff.1 h with ⟨more, hbefore, hrest⟩ | ⟨more, has, hrest⟩
  · cases more with
    | nil =>
      cases word with
      | nil => exact Or.inl ⟨[], by simpa using hbefore.symm, by simpa using hrest.symm⟩
      | cons c word =>
        rw [List.nil_append, List.cons_append, List.cons.injEq] at hrest
        exact absurd (hrest.1 ▸ List.mem_cons_self) hk
    | cons c more =>
      rw [List.cons_append, List.cons.injEq] at hrest
      exact Or.inr ⟨more, hrest.1 ▸ hbefore, hrest.2⟩
  · rcases List.append_eq_append_iff.1 hrest with ⟨more', hmore, hafter⟩ | ⟨more', hword, hafter⟩
    · exact Or.inl ⟨more', by rw [has, hmore], hafter⟩
    · cases more' with
      | nil =>
        rw [List.append_nil] at hword
        exact Or.inl ⟨[], by simp [has, hword], hafter.symm⟩
      | cons c more' =>
        rw [List.cons_append, List.cons.injEq] at hafter
        exact absurd (by simp [hword, hafter.1]) hk

/-- The last of several members that are kept is none that was the first before. -/
theorem exists_getLast {α : Type} {first : α} {moved before kept after : List α}
    (h : first :: moved = before ++ kept ++ after) (hseveral : 2 ≤ kept.length) :
    ∃ a ∈ moved, a ∈ kept.getLast? := by
  have hkept : kept ≠ [] := by
    rintro rfl
    simp at hseveral
  cases before with
  | cons b before =>
    obtain ⟨-, rfl⟩ := List.cons.inj h
    exact ⟨kept.getLast hkept, by simp, List.getLast?_eq_some_getLast hkept⟩
  | nil =>
    obtain ⟨k, more, rfl⟩ := List.exists_cons_of_ne_nil hkept
    obtain ⟨-, rfl⟩ := List.cons.inj h
    have hmore : more ≠ [] := by
      rintro rfl
      simp at hseveral
    refine ⟨more.getLast hmore, by simp, ?_⟩
    rw [List.getLast?_eq_some_getLast (List.cons_ne_nil _ _), List.getLast_cons hmore]
    rfl

/-! ### Texts

A text that is put together begins as its first piece does, and holds no character but those of its
pieces and of what separates them.
-/

theorem head_append {s : String} {c : Char} (h : s.toList.head? = some c) (t : String) :
    (s ++ t).toList.head? = some c := by
  rw [String.toList_append, List.head?_append, h]
  rfl

theorem begins_append {s : String} {p : Char → Bool} (h : s.toList.head?.any p = true)
    (t : String) :
    (s ++ t).toList.head?.any p = true := by
  obtain ⟨c, hfirst, hc⟩ := (Option.any_eq_true _ _).1 h
  rw [head_append hfirst]
  exact hc

theorem head?_intercalate {separator first : String} {rest : List String} {c : Char}
    (h : first.toList.head? = some c) :
    (separator.intercalate (first :: rest)).toList.head? = some c := by
  cases rest with
  | nil => rwa [String.intercalate_singleton]
  | cons next rest =>
    rw [String.intercalate_cons_cons]
    exact head_append (head_append h _) _

/-- What holds of all characters of a separator and of pieces holds of all of the joined text. -/
theorem forall_mem_intercalate {P : Char → Prop} {separator : String}
    (hseparator : ∀ c ∈ separator.toList, P c) {pieces : List String}
    (h : ∀ p ∈ pieces, ∀ c ∈ p.toList, P c) : ∀ c ∈ (separator.intercalate pieces).toList, P c := by
  intro c hc
  rw [String.toList_intercalate] at hc
  induction pieces with
  | nil => cases hc
  | cons first pieces ih =>
    rw [List.forall_mem_cons] at h
    cases pieces with
    | nil =>
      rw [List.map_singleton, List.intercalate_singleton] at hc
      exact h.1 c hc
    | cons second pieces =>
      rw [List.map_cons, List.map_cons, List.intercalate_cons_cons, List.mem_append,
        List.mem_append] at hc
      rcases hc with (hc | hc) | hc
      · exact h.1 c hc
      · exact hseparator c hc
      · exact ih h.2 hc

theorem intercalate_ne_empty {separator : String} {pieces : List String} (hsome : pieces ≠ [])
    (h : ∀ p ∈ pieces, p ≠ "") : separator.intercalate pieces ≠ "" := by
  cases pieces with
  | nil => exact absurd rfl hsome
  | cons first pieces =>
    have hfirst : first ≠ "" := h first List.mem_cons_self
    cases pieces with
    | nil => simpa using hfirst
    | cons second pieces => simp [String.intercalate_cons_cons, hfirst]

/-- Pieces that are each led by the separator are the joined pieces behind one. -/
theorem join_separated (separator : String) {pieces : List String} (hsome : pieces ≠ []) :
    String.join (pieces.map (separator ++ ·)) = separator ++ separator.intercalate pieces := by
  induction pieces with
  | nil => exact absurd rfl hsome
  | cons first pieces ih =>
    cases pieces with
    | nil => simp
    | cons second pieces =>
      rw [List.map_cons, String.join_cons, ih (by simp), String.intercalate_cons_cons]
      simp [String.append_assoc]

end SchemaLoom
