/-
Outcomes.

An outcome is a value or a fault.  The lemmas here take apart outcomes that are known to be
values: of one step after another (`of_bind_eq_ok`), of steps for all members of a list, and of
folds.

Whether there is a value, and what holds of it, is asked in `Holds` without naming the value.
The lemmas on it have the shape of the program, a bind for a bind and a map for a map.
-/
namespace SchemaLoom.Outcome

variable {ε α β : Type}

@[simp] theorem ok_bind (a : α) (next : α → Except ε β) : (Except.ok a >>= next) = next a := rfl

@[simp] theorem error_bind (fault : ε) (next : α → Except ε β) :
    ((Except.error fault : Except ε α) >>= next) = .error fault := rfl

@[simp] theorem pure_eq (a : α) : (pure a : Except ε α) = .ok a := rfl

/-- If two steps come to a value, then the first comes to one and the second goes on from there. -/
theorem of_bind_eq_ok {x : Except ε α} {next : α → Except ε β} {b : β} (h : x >>= next = .ok b) :
    ∃ a, x = .ok a ∧ next a = .ok b := by
  cases x with
  | error fault => cases h
  | ok a => exact ⟨a, rfl, h⟩

/-- A fault of two steps is a fault of one of them. -/
theorem of_bind_eq_error {x : Except ε α} {next : α → Except ε β} {fault : ε}
    (h : x >>= next = .error fault) :
    x = .error fault ∨ ∃ a, x = .ok a ∧ next a = .error fault := by
  cases x with
  | error other =>
    cases h
    exact Or.inl rfl
  | ok a => exact Or.inr ⟨a, rfl, h⟩

/-- What comes to a value with its faults seen as others does so without. -/
theorem of_mapError_eq_ok {ε' : Type} {f : ε → ε'} {x : Except ε α} {a : α}
    (h : x.mapError f = .ok a) : x = .ok a := by
  cases x with
  | error fault => cases h
  | ok b =>
    cases h
    rfl

/-- What is a value with its value seen as another one is that of a value. -/
theorem map_eq_ok_iff {f : α → β} {x : Except ε α} {b : β} :
    x.map f = .ok b ↔ ∃ a, x = .ok a ∧ f a = b := by
  cases x <;> simp [Except.map]

theorem of_map_eq_ok {f : α → β} {x : Except ε α} {b : β} (h : x.map f = .ok b) :
    ∃ a, x = .ok a ∧ f a = b :=
  map_eq_ok_iff.1 h

/-- A fault with the value seen as another one is a fault without. -/
theorem of_map_eq_error {f : α → β} {x : Except ε α} {fault : ε} (h : f <$> x = .error fault) :
    x = .error fault := by
  cases x with
  | error other =>
    cases h
    rfl
  | ok a => cases h

/-- What is seen as a fault is one. -/
theorem of_mapError_eq_error {ε' : Type} {f : ε → ε'} {x : Except ε α} {fault : ε'}
    (h : x.mapError f = .error fault) : ∃ other, x = .error other ∧ f other = fault := by
  cases x with
  | error other =>
    cases h
    exact ⟨other, rfl, rfl⟩
  | ok a => cases h

theorem length_of_mapM_eq_ok {f : α → Except ε β} {as : List α} {bs : List β}
    (h : as.mapM f = .ok bs) : bs.length = as.length := by
  induction as generalizing bs with
  | nil =>
    cases h
    rfl
  | cons a as ih =>
    rw [List.mapM_cons] at h
    obtain ⟨b, _, h⟩ := of_bind_eq_ok h
    obtain ⟨rest, hrest, h⟩ := of_bind_eq_ok h
    cases h
    simp [ih hrest]

/-- Every member of a list of results comes from a member of the list. -/
theorem exists_of_mem_mapM {f : α → Except ε β} {as : List α} {bs : List β}
    (h : as.mapM f = .ok bs) {b : β} (hb : b ∈ bs) : ∃ a ∈ as, f a = .ok b := by
  induction as generalizing bs with
  | nil =>
    cases h
    cases hb
  | cons a as ih =>
    rw [List.mapM_cons] at h
    obtain ⟨first, hfirst, h⟩ := of_bind_eq_ok h
    obtain ⟨rest, hrest, h⟩ := of_bind_eq_ok h
    cases h
    rcases List.mem_cons.1 hb with rfl | hb
    · exact ⟨a, List.mem_cons_self, hfirst⟩
    · obtain ⟨other, hother, hresult⟩ := ih hrest hb
      exact ⟨other, List.mem_cons_of_mem a hother, hresult⟩

/-- Every member of a list has its result among the results. -/
theorem exists_result_of_mem {f : α → Except ε β} {as : List α} {bs : List β}
    (h : as.mapM f = .ok bs) {a : α} (ha : a ∈ as) : ∃ b ∈ bs, f a = .ok b := by
  induction as generalizing bs with
  | nil => cases ha
  | cons first as ih =>
    rw [List.mapM_cons] at h
    obtain ⟨b, hfirst, h⟩ := of_bind_eq_ok h
    obtain ⟨rest, hrest, h⟩ := of_bind_eq_ok h
    cases h
    rcases List.mem_cons.1 ha with rfl | ha
    · exact ⟨b, List.mem_cons_self, hfirst⟩
    · obtain ⟨other, hother, hresult⟩ := ih hrest ha
      exact ⟨other, List.mem_cons_of_mem b hother, hresult⟩

/-- If every member of a list has a result, then so has the list. -/
theorem exists_mapM {f : α → Except ε β} {as : List α} (h : ∀ a ∈ as, ∃ b, f a = .ok b) :
    ∃ bs, as.mapM f = .ok bs := by
  induction as with
  | nil => exact ⟨[], rfl⟩
  | cons a as ih =>
    obtain ⟨b, hb⟩ := h a List.mem_cons_self
    obtain ⟨bs, hbs⟩ := ih fun other hother => h other (List.mem_cons_of_mem a hother)
    refine ⟨b :: bs, ?_⟩
    rw [List.mapM_cons, hb, ok_bind, hbs]
    rfl

/-- A list has results just if each of its members has one. -/
theorem exists_mapM_iff {f : α → Except ε β} {as : List α} :
    (∃ bs, as.mapM f = .ok bs) ↔ ∀ a ∈ as, ∃ b, f a = .ok b := by
  refine ⟨fun ⟨bs, h⟩ a ha => ?_, exists_mapM⟩
  obtain ⟨b, -, hb⟩ := exists_result_of_mem h ha
  exact ⟨b, hb⟩

/-- Results that are made over one by one are made over together. -/
theorem mapM_bind_pure {γ : Type} (f : α → Except ε β) (g : β → γ) (as : List α) :
    (as.mapM fun a => f a >>= fun b => pure (g b)) = (as.mapM f).map (List.map g) := by
  induction as with
  | nil => rfl
  | cons a as ih =>
    rw [List.mapM_cons, List.mapM_cons, ih]
    cases f a with
    | error fault => rfl
    | ok b => cases as.mapM f <;> rfl

/-- If every member of a list has a result or a fault of some kind, and one has a fault, then the
list has a fault of that kind. -/
theorem exists_fault_of_mapM {f : α → Except ε β} {P : ε → Prop} {as : List α}
    (heach : ∀ a ∈ as, (∃ b, f a = .ok b) ∨ ∃ fault, f a = .error fault ∧ P fault)
    (hsome : ∃ a ∈ as, ∃ fault, f a = .error fault) :
    ∃ fault, as.mapM f = .error fault ∧ P fault := by
  induction as with
  | nil =>
    obtain ⟨a, ha, -⟩ := hsome
    cases ha
  | cons a as ih =>
    rw [List.mapM_cons]
    rcases heach a List.mem_cons_self with ⟨b, hb⟩ | ⟨fault, hfault, hkind⟩
    · have hlater : ∃ other ∈ as, ∃ fault, f other = .error fault := by
        obtain ⟨other, hother, fault, hfault⟩ := hsome
        rcases List.mem_cons.1 hother with rfl | hother
        · rw [hb] at hfault
          cases hfault
        · exact ⟨other, hother, fault, hfault⟩
      obtain ⟨fault, hfault, hkind⟩ :=
        ih (fun other hother => heach other (List.mem_cons_of_mem a hother)) hlater
      exact ⟨fault, by rw [hb, ok_bind, hfault, error_bind], hkind⟩
    · exact ⟨fault, by rw [hfault, error_bind], hkind⟩

/-- What is picked from all results is what is picked for each member, one after the other. -/
theorem flatMap_of_mapM_eq_ok {γ : Type} {f : α → Except ε β} {pick : β → List γ} {g : α → List γ}
    {as : List α} (heach : ∀ a ∈ as, ∀ b, f a = .ok b → pick b = g a) {bs : List β}
    (h : as.mapM f = .ok bs) : bs.flatMap pick = as.flatMap g := by
  induction as generalizing bs with
  | nil =>
    cases h
    rfl
  | cons a as ih =>
    rw [List.mapM_cons] at h
    obtain ⟨first, hfirst, h⟩ := of_bind_eq_ok h
    obtain ⟨rest, hrest, h⟩ := of_bind_eq_ok h
    cases h
    rw [List.flatMap_cons, List.flatMap_cons, heach a List.mem_cons_self first hfirst,
      ih (fun other hother => heach other (List.mem_cons_of_mem a hother)) hrest]

/-- What every step of a fold preserves holds at its end. -/
theorem foldlM_invariant {step : β → α → Except ε β} (P : β → Prop) {as : List α}
    (hstep : ∀ a ∈ as, ∀ b b', P b → step b a = .ok b' → P b') {b b' : β} (hb : P b)
    (h : as.foldlM step b = .ok b') : P b' := by
  induction as generalizing b with
  | nil =>
    cases h
    exact hb
  | cons a as ih =>
    rw [List.foldlM_cons] at h
    obtain ⟨next, hnext, h⟩ := of_bind_eq_ok h
    exact ih (fun c hc => hstep c (List.mem_cons_of_mem a hc))
      (hstep a List.mem_cons_self b next hb hnext) h

/-- A fault of a fold is a fault of one of its steps. -/
theorem exists_of_foldlM_eq_error {step : β → α → Except ε β} {as : List α} {b : β} {fault : ε}
    (h : as.foldlM step b = .error fault) : ∃ a ∈ as, ∃ c, step c a = .error fault := by
  induction as generalizing b with
  | nil => cases h
  | cons a as ih =>
    rw [List.foldlM_cons] at h
    rcases of_bind_eq_error h with hfirst | ⟨c, -, h⟩
    · exact ⟨a, List.mem_cons_self, b, hfirst⟩
    · obtain ⟨other, hother, hfault⟩ := ih h
      exact ⟨other, List.mem_cons_of_mem a hother, hfault⟩

/-! ### Whether there is a value -/

theorem exists_pure_iff (a : α) : (∃ b, (pure a : Except ε α) = .ok b) ↔ True :=
  iff_of_true ⟨a, rfl⟩ trivial

theorem exists_map_iff (f : α → β) (x : Except ε α) :
    (∃ b, f <$> x = .ok b) ↔ ∃ a, x = .ok a := by
  cases x <;> simp [Functor.map, Except.map]

theorem exists_mapError_iff {ε' : Type} (f : ε → ε') (x : Except ε α) :
    (∃ a, x.mapError f = .ok a) ↔ ∃ a, x = .ok a := by
  constructor
  · rintro ⟨a, h⟩
    exact ⟨a, of_mapError_eq_ok h⟩
  · rintro ⟨a, rfl⟩
    exact ⟨a, rfl⟩

/-- Two steps have a result if the first has one, and the second has one whatever that is. -/
theorem exists_steps_iff {x : Except ε α} {next : α → Except ε β} {p : Prop}
    (h : ∀ a, (∃ b, next a = .ok b) ↔ p) : (∃ b, x >>= next = .ok b) ↔ (∃ a, x = .ok a) ∧ p := by
  cases x with
  | error fault => simp
  | ok a => simpa using h a

/-- Two steps of which the second always has a result have one just if the first has. -/
theorem exists_bind_iff {x : Except ε α} {next : α → Except ε β}
    (hnext : ∀ a, ∃ b, next a = .ok b) : (∃ b, x >>= next = .ok b) ↔ ∃ a, x = .ok a :=
  (exists_steps_iff fun a => iff_true_intro (hnext a)).trans (and_iff_left trivial)

theorem exists_bind {x : Except ε α} {next : α → Except ε β} (hfirst : ∃ a, x = .ok a)
    (hnext : ∀ a, ∃ b, next a = .ok b) : ∃ b, x >>= next = .ok b :=
  (exists_bind_iff hnext).2 hfirst

/-! ### Values of which something holds -/

/-- The outcome `x` is a value with `p`. -/
def Holds (x : Except ε α) (p : α → Prop) : Prop := ∃ a, x = .ok a ∧ p a

theorem Holds.of_eq_ok {x : Except ε α} {p : α → Prop} (h : Holds x p) {a : α}
    (hvalue : x = .ok a) :
    p a := by
  obtain ⟨b, hother, hb⟩ := h
  rw [hvalue] at hother
  cases hother
  exact hb

instance (x : Except ε α) (p : α → Prop) [DecidablePred p] : Decidable (Holds x p) :=
  match x with
  | .error _ => isFalse fun ⟨_, h, _⟩ => nomatch h
  | .ok a => decidable_of_iff (p a) ⟨fun h => ⟨a, rfl, h⟩, fun ⟨_, rfl, h⟩ => h⟩

end SchemaLoom.Outcome
