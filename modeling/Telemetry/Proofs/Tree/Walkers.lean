import Telemetry.Proofs.Tree.Lookup
import Telemetry.Proofs.Tree.Patch
import Telemetry.Proofs.Tree.Reach

/-!
The walks of paths agree. Looking up, creating, deleting and storing check the elements of a path
each in their own way, but in a tree in the shape of a schema they accept the same paths: those
that the schema alone accepts. At any other path the tree stays as it is.
-/

namespace Telemetry

namespace Node

section Unchanged

variable {schema childSchema : SchemaNode} {node sub : Node} {elem : PathElem} {step : Step}

/-- Putting back what stands one step below changes nothing. -/
theorem store_of_next? (hplace : IsPlace schema node)
    (hleads : SchemaNode.Leads schema elem childSchema step) (hnext : node.next? elem = some sub) :
    node.store step sub = node := by
  have hstored := isPlace_store hplace hleads (isPlace_next hplace hleads hnext)
  refine Fits.eq_of_contents hstored hplace ?_
  rw [contents_store_of_next? hplace hleads hnext (Effect.apply_keep _).symm,
    Effect.underAll_keep, Effect.apply_keep]

/-- Where nothing is made on the way, an edit that fails leaves the tree as it is if it leaves the
children as they are. -/
theorem editBelow_of_error {α : Type} {edit : ChildEdit α}
    (hedit : ∀ schema children e, (edit schema children).1 = .error e →
      (edit schema children).2 = children)
    (hplace : IsPlace schema node) {full : Path} {depth : Nat} {elems : List PathElem}
    {e : TreeError} (h : (editBelow false full edit schema node depth elems).1 = .error e) :
    (editBelow false full edit schema node depth elems).2 = node := by
  induction elems generalizing schema node depth with
  | nil =>
    obtain ⟨children, rfl⟩ := hplace.isContainer
    simp only [editBelow] at h ⊢
    cases hresult : (edit schema children).1 with
    | error cause => rw [hedit schema children cause hresult]
    | ok result =>
      rw [hresult] at h
      cases h
  | cons elem rest ih =>
    cases hstep : schema.stepInto full depth elem with
    | error cause => simp [editBelow, hstep]
    | ok target =>
      obtain ⟨childSchema, step⟩ := target
      have hleads := SchemaNode.leads_of_stepInto hstep
      have henter := enter_eq hplace hleads false full depth
      cases hnext : node.next? elem with
      | none =>
        rw [hnext] at henter
        simp [editBelow, hstep, henter] at h
      | some sub =>
        rw [hnext] at henter
        simp only [editBelow, hstep, henter, Option.some_or] at h ⊢
        rw [ih (isPlace_next hplace hleads hnext) h]
        exact store_of_next? hplace hleads hnext

theorem eraseLast_of_error {path : Path} {last : PathElem} {children : List (String × Node)}
    {e : TreeError} (h : (eraseLast path last schema children).1 = .error e) :
    (eraseLast path last schema children).2 = children := by
  unfold eraseLast at h ⊢
  cases hchild : schema.childFor path (path.elems.length - 1) last with
  | error cause => rfl
  | ok childSchema =>
    rw [hchild] at h
    cases childSchema with
    | list keys max schemas =>
      by_cases hkeys : last.keys = []
      · simp [hkeys] at h
      · simp only [List.isEmpty_iff, hkeys, if_false] at h ⊢
        cases hrequire : (SchemaNode.list keys max schemas).requireKeys path last with
        | error cause => rfl
        | ok =>
          simp only [hrequire] at h ⊢
          cases hlist : SortedMap.get? children last.name with
          | none => rfl
          | some child =>
            cases child with
            | list entries => simp [hlist] at h
            | _ => rfl
    | _ =>
      simp only at h ⊢
      cases hnoKeys : SchemaNode.requireNoKeys path last with
      | error cause => rfl
      | ok => simp [hnoKeys] at h

/-- Nothing is deleted at a path that the schema does not accept. -/
theorem erase_of_not_located (hplace : IsPlace schema node) {path : Path}
    (h : ∀ target, schema.locate path ≠ .ok target) : (node.erase schema path).2 = node := by
  have hne : path.elems ≠ [] := by
    intro hnil
    refine h schema ?_
    rw [SchemaNode.locate, hnil]
    rfl
  cases hresult : (node.erase schema path).1 with
  | ok =>
    refine Fits.eq_of_contents (isPlace_erase hplace) hplace ?_
    rw [contents_erase hplace hresult, SchemaNode.erasing_eq_clearing schema hne]
    exact apply_clearing_of_not_located hplace ((erase_eq_ok hplace).mp hresult) h
  | error e =>
    have hlast := List.getLast?_eq_some_getLast hne
    unfold erase at hresult ⊢
    simp only [hlast] at hresult ⊢
    cases hbelow : (editBelow false path (eraseLast path (path.elems.getLast hne)) schema node 0
      path.elems.dropLast).1 with
    | error cause => exact editBelow_of_error (fun _ _ _ => eraseLast_of_error) hplace hbelow
    | ok result =>
      rw [hbelow] at hresult
      cases hresult

end Unchanged

/-- A path is refused by every walk with the same error, or with none where a walk ends early, and
the tree stays as it is. -/
structure RefusedBy (schema : SchemaNode) (node : Node) (path : Path) (e : TreeError) : Prop where
  create : node.create schema path = (.error e, node)
  put : ∀ value, node.put schema path value = (.error e, node)
  erase : (node.erase schema path).2 = node
  locate : ∀ found, node.locate schema path ≠ .ok (some found)

/-- A path is accepted by every walk, and leads to one schema node. -/
structure AcceptedBy (schema : SchemaNode) (node : Node) (path : Path) (target : SchemaNode) :
    Prop where
  create : ∃ found, (node.create schema path).1 = .ok (found, target)
  locate : ∃ found, node.locate schema path = .ok found
  erase : (node.erase schema path).1 = .ok ()
  put : ∀ value e, (node.put schema path value).1 = .error e → PutFaults target path value e

/-- The walks of paths agree with the walk through the schema alone. -/
theorem walks_agree {schema : SchemaNode} {node : Node} (hplace : IsPlace schema node)
    (path : Path) :
    (∀ e, schema.locate path = .error e → node.RefusedBy schema path e) ∧
      ∀ target, schema.locate path = .ok target → node.AcceptedBy schema path target := by
  constructor
  · intro e hlocate
    have hnot : ∀ target, schema.locate path ≠ .ok target := by
      intro target htarget
      rw [hlocate] at htarget
      cases htarget
    refine ⟨?_, ?_, erase_of_not_located hplace hnot, ?_⟩
    · simp [Node.create, hlocate]
    · intro value
      simp [Node.put, hlocate]
    · intro found hfound
      obtain ⟨target, htarget⟩ := exists_locateFrom_of_found hfound
      exact hnot target htarget
  · intro target hlocate
    have hfound := locate_eq_found? hplace (erasable_of_locate hplace hlocate)
    refine ⟨create_of_locate hplace hlocate, ⟨_, hfound⟩, erase_of_locate hplace hlocate, ?_⟩
    intro value e herror
    have hgood := putFaults_of_locate hplace hlocate value
    rw [herror] at hgood
    exact hgood

section Interfaces

open Notification (interfaceFields interfaceMtus)

def leafOfEth0 (name : String) : Path :=
  Path.ofElems [⟨"interface", [("name", "eth0")]⟩, .plain name]

theorem isPlace_interfaceMtus_eth0 : IsPlace (.container (interfaceFields ["name"]))
    (interfaceMtus [([("name", "eth0")], 1500)]) :=
  fits_of_validate (Notification.ordered_interfaceMtus (List.pairwise_singleton _ _))
    (validate_eq_ok.mpr rfl)

theorem locate_mtu : (SchemaNode.container (interfaceFields ["name"])).locate (leafOfEth0 "mtu") =
    .ok (.leafOf (.uint none none)) := by
  rfl

/-- The size of packets of an interface can be reached, and its speed cannot. -/
theorem walks_agree_interfaces :
    IsPlace (.container (interfaceFields ["name"]))
        (interfaceMtus [([("name", "eth0")], 1500)]) ∧
      (interfaceMtus [([("name", "eth0")], 1500)]).AcceptedBy
        (.container (interfaceFields ["name"])) (leafOfEth0 "mtu") (.leafOf (.uint none none)) ∧
      (interfaceMtus [([("name", "eth0")], 1500)]).RefusedBy
        (.container (interfaceFields ["name"])) (leafOfEth0 "speed")
        (.unknownElement "/interface[name=eth0]" "speed") := by
  have hplace := isPlace_interfaceMtus_eth0
  refine ⟨hplace, (walks_agree hplace _).2 _ locate_mtu, (walks_agree hplace _).1 _ ?_⟩
  rfl

end Interfaces

end Node

end Telemetry
