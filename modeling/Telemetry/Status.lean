import Telemetry.Transaction

/-!
Statuses that calls end with.
-/

namespace Telemetry

inductive StatusCode where
  | invalidArgument
  | notFound
  | resourceExhausted
  | failedPrecondition
  | unimplemented
  | internal
  | unavailable
deriving DecidableEq, Repr

structure Status where
  code : StatusCode
  message : String
deriving DecidableEq, Repr

namespace Status

def ofSetError (e : SetError) : Status :=
  let code : StatusCode :=
    match e with
    | .unsupported => .unimplemented
    | .siblings _ => .failedPrecondition
    | .diff _ => .internal
    | .publish _ => .internal
    | _ => .invalidArgument
  ⟨code, e.message⟩

/-- Requires that a requested target is the own one; no name and `*` mean every target. -/
def requireTarget (requested own : String) : Except Status Unit :=
  if requested.isEmpty ∨ requested = wildcard ∨ requested = own then .ok ()
  else .error ⟨.notFound, s!"no such target {Text.quoted requested}"⟩

end Status

end Telemetry
