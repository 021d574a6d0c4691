/-!
Programs that change a state in place. A program that fails leaves the state as far as it had
changed it, so that what a failure leaves behind is something to be proved.
-/

namespace Telemetry

/-- A program that changes a `σ` in place and may fail. -/
abbrev InPlace (ε σ : Type) := ExceptT ε (StateM σ)

namespace InPlace

variable {ε ε' σ τ α β : Type}

/-- What a program gives and the state that it leaves, also where it fails. -/
def on (program : InPlace ε σ α) (s : σ) : Except ε α × σ :=
  program.run.run s

def ofEdit (edit : σ → Except ε α × σ) : InPlace ε σ α :=
  ExceptT.mk edit

def ofExcept (result : Except ε α) : InPlace ε σ α :=
  ofEdit (result, ·)

def adapt (f : ε → ε') (program : InPlace ε σ α) : InPlace ε' σ α :=
  ExceptT.adapt f program

/-- Runs a program on a part of the state, which is put back also where it fails. -/
def onPart (part : σ → τ) (put : τ → σ → σ) (program : InPlace ε τ α) : InPlace ε σ α :=
  ofEdit fun s =>
    let (result, t) := program.on (part s)
    (result, put t s)

end InPlace

end Telemetry
