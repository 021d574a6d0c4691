import Telemetry.InPlace
import Telemetry.Proofs.Except

/-!
What programs that change a state in place give and leave behind, part by part.
-/

namespace Telemetry.InPlace

variable {ε ε' σ τ α β : Type}

@[simp]
theorem on_pure (a : α) (s : σ) : (pure a : InPlace ε σ α).on s = (.ok a, s) :=
  rfl

@[simp]
theorem on_throw (e : ε) (s : σ) : (throw e : InPlace ε σ α).on s = (.error e, s) :=
  rfl

@[simp]
theorem on_get (s : σ) : (get : InPlace ε σ σ).on s = (.ok s, s) :=
  rfl

@[simp]
theorem on_modify (f : σ → σ) (s : σ) : (modify f : InPlace ε σ Unit).on s = (.ok (), f s) :=
  rfl

@[simp]
theorem on_lift (action : StateM σ α) (s : σ) :
    (liftM action : InPlace ε σ α).on s = (.ok (action.run s).1, (action.run s).2) :=
  rfl

@[simp]
theorem on_ofEdit (edit : σ → Except ε α × σ) (s : σ) : (ofEdit edit).on s = edit s :=
  rfl

@[simp]
theorem on_ofExcept (result : Except ε α) (s : σ) : (ofExcept result).on s = (result, s) :=
  rfl

@[simp]
theorem on_onPart (part : σ → τ) (put : τ → σ → σ) (program : InPlace ε τ α) (s : σ) :
    (onPart part put program).on s =
      ((program.on (part s)).1, put (program.on (part s)).2 s) :=
  rfl

@[simp]
theorem on_adapt (f : ε → ε') (program : InPlace ε σ α) (s : σ) :
    (adapt f program).on s = ((program.on s).1.mapError f, (program.on s).2) :=
  rfl

@[simp]
theorem on_bind (program : InPlace ε σ α) (next : α → InPlace ε σ β) (s : σ) :
    (program >>= next).on s =
      match program.on s with
      | (.ok a, t) => (next a).on t
      | (.error e, t) => (.error e, t) := by
  have hstep : (program >>= next).on s =
      StateT.run (ExceptT.bindCont next (program.on s).1) (program.on s).2 := rfl
  rw [hstep]
  cases program.on s with
  | mk result t => cases result <;> rfl

/-- The state that a program leaves where it does not fail. -/
def outcome (program : InPlace ε σ α) (s : σ) : Except ε σ :=
  (program.on s).1.map fun _ => (program.on s).2

theorem outcome_ofEdit (edit : σ → Except ε α × σ) (s : σ) :
    (ofEdit edit).outcome s = (edit s).1.map fun _ => (edit s).2 :=
  rfl

theorem outcome_adapt (f : ε → ε') (program : InPlace ε σ α) (s : σ) :
    (adapt f program).outcome s = (program.outcome s).mapError f := by
  rw [outcome, on_adapt, outcome]
  cases (program.on s).1 <;> rfl

theorem outcome_onPart (part : σ → τ) (put : τ → σ → σ) (program : InPlace ε τ α) (s : σ) :
    (onPart part put program).outcome s = (program.outcome (part s)).map (put · s) := by
  rw [outcome, on_onPart, outcome]
  cases (program.on (part s)).1 <;> rfl

theorem outcome_bind (program : InPlace ε σ α) (next : α → InPlace ε σ β) (s : σ) :
    (program >>= next).outcome s =
      match program.on s with
      | (.ok a, t) => (next a).outcome t
      | (.error e, _) => .error e := by
  rw [outcome, on_bind]
  cases program.on s with
  | mk result t => cases result <;> rfl

/-- Where the first program's result is of no account, the second starts from its outcome. -/
theorem outcome_seq (program : InPlace ε σ α) (next : InPlace ε σ β) (s : σ) :
    (program >>= fun _ => next).outcome s = program.outcome s >>= next.outcome := by
  rw [outcome_bind, outcome]
  cases program.on s with
  | mk result t => cases result <;> rfl

theorem outcome_forM (program : α → InPlace ε σ PUnit) (items : List α) (s : σ) :
    (items.forM program).outcome s = items.foldlM (fun t item => (program item).outcome t) s := by
  induction items generalizing s with
  | nil => rfl
  | cons item rest ih =>
    rw [List.foldlM_cons, ← funext ih]
    exact outcome_seq (program item) (rest.forM program) s

end Telemetry.InPlace
