import Telemetry.Proofs.Tree.Located

/-!
The errors of trees in the shape of their schemas. A walk, an edit or a merge may fail for its path
or for its value, but it never meets a node of another kind than the schema has there: what it
creates on its way has the right kind, and so has what it leaves behind where it fails.
-/

namespace Telemetry

namespace TreeError

/-- An error that a path or a value is to blame for, and not the tree. -/
def Legitimate : TreeError → Prop
  | kindMismatch _ => False
  | _ => True

abbrev Sound {α : Type} (result : Except TreeError α) : Prop :=
  Good Legitimate (fun _ => True) result

theorem sound_ok {α : Type} (a : α) : Sound (.ok a) :=
  trivial

theorem sound_error {α : Type} {e : TreeError} (h : e.Legitimate) :
    Sound (.error e : Except TreeError α) :=
  h

theorem BlamesValue.legitimate {e : TreeError} (h : e.BlamesValue) : e.Legitimate := by
  cases e with
  | kindMismatch path => exact h
  | _ => trivial

end TreeError

open TreeError (Sound sound_ok sound_error)

namespace SchemaNode

variable {schema : SchemaNode} {full : Path} {depth : Nat} {elem : PathElem}

theorem sound_childFor : Sound (schema.childFor full depth elem) := by
  unfold childFor
  split
  · exact sound_ok _
  · exact sound_error trivial

theorem sound_requireKeys : Sound (schema.requireKeys full elem) := by
  unfold requireKeys
  simp only
  split
  · exact sound_ok _
  · exact sound_error trivial

theorem sound_requireNoKeys : Sound (requireNoKeys full elem) := by
  unfold requireNoKeys
  split
  · exact sound_ok _
  · exact sound_error trivial

theorem sound_requirePassable {isLast : Bool} :
    Sound (schema.requirePassable full depth elem isLast) := by
  unfold requirePassable
  split
  · split
    · exact sound_requireKeys
    · split
      · exact sound_ok _
      · exact sound_error trivial
  · split
    · exact sound_requireNoKeys
    · exact sound_error trivial
  · exact sound_requireNoKeys

theorem sound_locate (schema : SchemaNode) (path : Path) : Sound (schema.locate path) := by
  have h : ∀ elems (schema : SchemaNode) depth, Sound (locateFrom path schema depth elems) := by
    intro elems
    induction elems with
    | nil => exact fun _ _ => sound_ok _
    | cons elem rest ih =>
      intro schema depth
      exact sound_childFor.bind fun child _ _ => sound_requirePassable.bind fun _ _ _ => ih _ _
  exact h path.elems schema 0

theorem sound_stepInto : Sound (schema.stepInto full depth elem) :=
  sound_childFor.bind fun _ _ _ => sound_requirePassable.bind fun _ _ _ => sound_ok _

end SchemaNode

theorem Json.NamesUnknown.legitimate {schema : SchemaNode} {place : String} {json : Json}
    {e : TreeError} (h : json.NamesUnknown schema place e) : e.Legitimate := by
  induction h with
  | here mem notKey unknown => trivial
  | field mem notKey known inner ih => exact ih
  | item mem inner ih => exact ih

namespace Node

theorem PutFaults.legitimate {target : SchemaNode} {path : Path} {value : TypedValue}
    {e : TreeError} (h : PutFaults target path value e) : e.Legitimate := by
  rcases h with hvalue | ⟨json, -, hunknown⟩
  · exact hvalue.legitimate
  · exact hunknown.legitimate

section EditBelow

variable {α : Type} {edit : ChildEdit α} {schema : SchemaNode} {node : Node}

def SoundEdit (edit : ChildEdit α) : Prop :=
  ∀ schema children, IsPlace schema (.container children) → Sound (edit schema children).1

theorem sound_editBelow (hedit : SoundEdit edit) (hplace : IsPlace schema node) (create : Bool)
    (full : Path) (depth : Nat) (elems : List PathElem) :
    Sound (editBelow create full edit schema node depth elems).1 := by
  induction elems generalizing schema node depth with
  | nil =>
    obtain ⟨children, rfl⟩ := hplace.isContainer
    exact (hedit schema children hplace).map fun _ _ => trivial
  | cons elem elems ih =>
    unfold editBelow
    cases hstep : schema.stepInto full depth elem with
    | error e => exact SchemaNode.sound_stepInto.raise hstep
    | ok target =>
      obtain ⟨childSchema, step⟩ := target
      have hleads := SchemaNode.leads_of_stepInto hstep
      rcases enter_cases hplace hleads create full depth with
        ⟨henter, -, -⟩ | ⟨sub, henter, hsub, -⟩
      · simp only [henter]
        exact sound_ok _
      · simp only [henter]
        exact ih hsub (depth + 1)

end EditBelow

section Edits

variable {schema : SchemaNode} {node : Node} {path : Path}

theorem soundEdit_eraseLast (path : Path) (last : PathElem) : SoundEdit (eraseLast path last) := by
  intro schema children hplace
  unfold eraseLast
  cases hchild : schema.childFor path (path.elems.length - 1) last with
  | error e => exact SchemaNode.sound_childFor.raise hchild
  | ok childSchema =>
    have hget := SchemaNode.childFor_eq_ok.mp hchild
    cases childSchema with
    | list keys max schemas =>
      simp only
      split
      · exact sound_ok _
      · cases hrequire : (SchemaNode.list keys max schemas).requireKeys path last with
        | error e => exact SchemaNode.sound_requireKeys.raise hrequire
        | ok =>
          cases hlist : SortedMap.get? children last.name with
          | none => exact sound_ok _
          | some child =>
            obtain ⟨entries, rfl, -⟩ := select?_of_fits_list (hplace.child_fits hlist hget)
            exact sound_ok _
    | _ =>
      simp only
      cases hkeys : SchemaNode.requireNoKeys path last with
      | error e => exact SchemaNode.sound_requireNoKeys.raise hkeys
      | ok => exact sound_ok _

theorem sound_create (hplace : IsPlace schema node) : Sound (node.create schema path).1 := by
  cases hlocate : schema.locate path with
  | error e =>
    unfold create
    rw [hlocate]
    exact (schema.sound_locate path).raise hlocate
  | ok target =>
    obtain ⟨found, hfound⟩ := create_of_locate hplace hlocate
    rw [hfound]
    exact sound_ok _

theorem sound_erase (hplace : IsPlace schema node) : Sound (node.erase schema path).1 := by
  unfold erase
  cases path.elems.getLast? with
  | none => exact sound_ok _
  | some last =>
    exact (sound_editBelow (soundEdit_eraseLast path last) hplace false path 0 _).map
      fun _ _ => trivial

theorem sound_put (hplace : IsPlace schema node) (value : TypedValue) :
    Sound (node.put schema path value).1 := by
  cases hlocate : schema.locate path with
  | error e =>
    unfold put
    rw [hlocate]
    exact (schema.sound_locate path).raise hlocate
  | ok target =>
    exact (putFaults_of_locate hplace hlocate value).mono fun _ h => h.legitimate

end Edits

end Node

end Telemetry
