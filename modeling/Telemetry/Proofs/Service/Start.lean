import Telemetry.Proofs.Service.Run
import Telemetry.Proofs.Transaction.WellFormed
import Telemetry.Proofs.Tree.Defaults

/-!
What a collector starts with: an empty cache that is named by the settings and, where there is a
schema, its default root as the tree.
-/

namespace Telemetry.Collector

variable {settings : Settings} {given : Option Schema} {files : String → Option String}
  {isFree : Bool} {now : Int64} {c : Collector}

def siblingsOf (settings : Settings) : Siblings :=
  ⟨settings.set.stateContainer, settings.set.configContainer⟩

theorem start_eq_ok (h : start settings given files isFree now = .ok c) :
    c.service.target = (CacheTarget.fresh settings.server.target).connect ∧
      ∃ schema : Option Schema, c.service.transactor = schema.map (⟨·, siblingsOf settings⟩) ∧
        (schema = none → c.service.tree = none) ∧
        ∀ sc, schema = some sc →
          ∃ root, sc.defaultRoot = .ok root ∧ c.service.tree = some root := by
  obtain ⟨schema, -, h⟩ := bind_eq_ok.mp h
  cases schema with
  | none =>
    cases isFree with
    | false => cases h
    | true =>
      cases h
      exact ⟨rfl, none, rfl, fun _ => rfl, fun _ hsc => by cases hsc⟩
  | some schema =>
    obtain ⟨tree, htree, h⟩ := bind_eq_ok.mp h
    obtain ⟨root, hroot, rfl⟩ := map_eq_ok.mp (mapError_eq_ok.mp htree)
    cases isFree with
    | false => cases h
    | true =>
      cases h
      refine ⟨rfl, some schema, rfl, ?_, ?_⟩
      · intro hnone
        cases hnone
      · rintro sc ⟨⟩
        exact ⟨root, hroot, rfl⟩

theorem cancelled_start (h : start settings given files isFree now = .ok c) :
    c.service.cancelled = false := by
  obtain ⟨schema, -, h⟩ := bind_eq_ok.mp h
  cases schema with
  | none =>
    cases isFree with
    | false => cases h
    | true =>
      cases h
      rfl
  | some schema =>
    obtain ⟨tree, -, h⟩ := bind_eq_ok.mp h
    cases isFree with
    | false => cases h
    | true =>
      cases h
      rfl

/-- With a schema that has a default root a collector starts. -/
theorem start_of_defaultRoot {schema : Schema} {root : Node} (h : schema.defaultRoot = .ok root) :
    start settings (some schema) files true now =
      .ok ⟨(Service.start settings.server.target (some root)
        (some ⟨schema, siblingsOf settings⟩) settings.cache.subscriberBuffer.toNat now).connect,
        settings.cache, .running, 0, true, true⟩ := by
  have htree : (schema.defaultRoot.map some).mapError StartError.schema = .ok (some root) := by
    rw [h]
    rfl
  change ((schema.defaultRoot.map some).mapError StartError.schema >>= fun tree => _) = _
  rw [htree]
  rfl

theorem transactor_of_start (h : start settings given files isFree now = .ok c)
    {t : Transactor} (ht : c.service.transactor = some t) :
    t.siblings = siblingsOf settings ∧
      ∃ root, t.schema.defaultRoot = .ok root ∧ c.service.tree = some root := by
  obtain ⟨-, schema, htransactor, -, htree⟩ := start_eq_ok h
  rw [htransactor] at ht
  obtain ⟨sc, rfl, rfl⟩ := Option.map_eq_some_iff.mp ht
  exact ⟨rfl, htree sc rfl⟩

theorem tree_of_start (h : start settings given files isFree now = .ok c)
    (ht : c.service.transactor = none) : c.service.tree = none := by
  obtain ⟨-, schema, htransactor, htree, -⟩ := start_eq_ok h
  rw [htransactor, Option.map_eq_none_iff] at ht
  exact htree ht

theorem placed_start (h : start settings given files isFree now = .ok c) : c.service.Placed := by
  intro t ht
  obtain ⟨-, root, hroot, htree⟩ := transactor_of_start h ht
  exact ⟨root, htree, (Schema.defaultRoot_spec hroot).1⟩

theorem name_of_start (h : start settings given files isFree now = .ok c) :
    c.service.target.name = settings.server.target := by
  rw [(start_eq_ok h).1]
  rfl

section Interfaces

def interfacesSchema : Schema where
  models := []
  root := .container [("interfaces", .container [("interface", .list ["name"] none
    [("state", .container [("mtu", .leafOf (.uint none none))])])])]

def interfacePath (name : String) : Path :=
  .ofElems [.plain "interfaces", ⟨"interface", [("name", name)]⟩]

def mtuPath (name : String) : Path :=
  .ofElems [.plain "interfaces", ⟨"interface", [("name", name)]⟩, .plain "state", .plain "mtu"]

def setMtus (mtus : List (String × UInt64)) : SetRequest :=
  ⟨none, [], [], mtus.map fun mtu => .of (mtuPath mtu.1) (.uint mtu.2)⟩

def deleteInterface (name : String) : SetRequest :=
  ⟨none, [interfacePath name], [], []⟩

def startedInterfaces : Collector :=
  ⟨(Service.start "target" (some Node.emptyContainer)
    (some ⟨interfacesSchema, Siblings.standard⟩) 1024 0).connect, {}, .running, 0, true, true⟩

theorem defaultRoot_interfaces : interfacesSchema.defaultRoot = .ok Node.emptyContainer := by
  simp [Schema.defaultRoot, interfacesSchema, Node.fillDefaults, Node.fillNode,
    Node.fillChildrenOf, Node.fillChildren, Node.emptyContainer, SortedMap.get?, Node.validate,
    Node.violations, Node.childViolations]

theorem start_interfaces :
    start {} (some interfacesSchema) (fun _ => none) true 0 = .ok startedInterfaces :=
  start_of_defaultRoot defaultRoot_interfaces

theorem keysOrdered_mtuPath (name : String) : Path.KeysOrdered (mtuPath name).elems := by
  have hinterface : Path.KeysOrdered [⟨"interface", [("name", name)]⟩] :=
    Path.keysOrdered_singleton (List.pairwise_singleton _ _)
  have hleaf : Path.KeysOrdered [.plain "state", .plain "mtu"] :=
    (Path.keysOrdered_plain "state").append (Path.keysOrdered_plain "mtu")
  exact (Path.keysOrdered_plain "interfaces").append (hinterface.append hleaf)

theorem keysOrdered_setMtus (mtus : List (String × UInt64)) : (setMtus mtus).KeysOrdered := by
  refine ⟨Path.keysOrdered_nil, ?_, ?_⟩
  · intro update hupdate
    cases hupdate
  · intro update hupdate
    obtain ⟨mtu, -, rfl⟩ := List.mem_map.mp hupdate
    exact keysOrdered_mtuPath mtu.1

end Interfaces

end Telemetry.Collector
