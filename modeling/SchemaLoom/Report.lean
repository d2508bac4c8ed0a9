/-
Reports.

A `Report` is an outcome together with the notices that were left on the way to it.  A failure
keeps the notices that came before it.

What a report comes to does not depend on the notices, and so `outcome` commutes with the steps
that reports are put together from.
-/
import SchemaLoom.Notice

namespace SchemaLoom

/-- An outcome and the notices that led to it. -/
structure Report (ε α : Type) where
  outcome : Except ε α
  notices : List Notice := []

namespace Report

variable {ε α β : Type}

/-- The outcome of one report after another; after a failure nothing more happens. -/
def andThen (r : Report ε α) (next : α → Report ε β) : Report ε β :=
  match r.outcome with
  | .error fault => ⟨.error fault, r.notices⟩
  | .ok a => ⟨(next a).outcome, r.notices ++ (next a).notices⟩

instance : Monad (Report ε) where
  pure a := ⟨.ok a, []⟩
  bind := andThen

instance : MonadExcept ε (Report ε) where
  throw fault := ⟨.error fault, []⟩
  tryCatch r handle :=
    match r.outcome with
    | .ok _ => r
    | .error fault => ⟨(handle fault).outcome, r.notices ++ (handle fault).notices⟩

instance : MonadLift (Except ε) (Report ε) where
  monadLift outcome := ⟨outcome, []⟩

/-- A single notice. -/
def tell (n : Notice) : Report ε Unit := ⟨.ok (), [n]⟩

/-- A report with its fault seen as one of another type. -/
def mapError {ε' : Type} (f : ε → ε') (r : Report ε α) : Report ε' α :=
  ⟨r.outcome.mapError f, r.notices⟩

@[simp] theorem outcome_pure (a : α) : (pure a : Report ε α).outcome = .ok a := rfl

@[simp] theorem outcome_lift (x : Except ε α) : (liftM x : Report ε α).outcome = x := rfl

theorem outcome_bind (r : Report ε α) (next : α → Report ε β) :
    (r >>= next).outcome = r.outcome >>= fun a => (next a).outcome := by
  rcases r with ⟨_ | _, _⟩ <;> rfl

theorem outcome_map (f : α → β) (r : Report ε α) : (f <$> r).outcome = f <$> r.outcome := by
  rcases r with ⟨_ | _, _⟩ <;> rfl

theorem outcome_mapError {ε' : Type} (f : ε → ε') (r : Report ε α) :
    (r.mapError f).outcome = r.outcome.mapError f := rfl

instance : LawfulMonad (Report ε) := by
  refine LawfulMonad.mk' (Report ε) ?_ ?_ ?_
  · rintro α ⟨_ | _, _⟩ <;> simp [Functor.map, andThen]
  · intro α β a next
    simp [bind, pure, andThen]
  · rintro α β γ ⟨_ | a, _⟩ f g
    · rfl
    · rcases h : f a with ⟨_ | _, _⟩ <;> simp [bind, andThen, h]

theorem outcome_mapM (f : α → Report ε β) (as : List α) :
    (as.mapM f).outcome = as.mapM fun a => (f a).outcome := by
  induction as with
  | nil => rfl
  | cons a as ih =>
    rw [List.mapM_cons, List.mapM_cons, outcome_bind]
    refine congrArg _ (funext fun b => ?_)
    rw [outcome_bind, ih]
    rfl

end Report

end SchemaLoom
