import Telemetry.Proofs.Tree.Defaults
import Telemetry.Proofs.Tree.Walkers

/-!
What mutators leave behind. Storing, creating, deleting and filling in defaults keep the shape that
the schema gives to trees, also where they fail half way. Where they succeed, looking up the path
afterwards finds what they did there, and the leaves elsewhere are those from before.
-/

namespace Telemetry

namespace Node

section Erase

variable {schema : SchemaNode} {node after : Node} {path : Path} {last : PathElem}

/-- An edit that finds something missing on its way leaves the tree as it is. -/
theorem editBelow_of_missing {α : Type} {edit : ChildEdit α} (hplace : IsPlace schema node)
    {full : Path} {depth : Nat} {elems : List PathElem}
    (h : (editBelow false full edit schema node depth elems).1 = .ok none) :
    (editBelow false full edit schema node depth elems).2 = node ∧ node.at? elems = none := by
  induction elems generalizing schema node depth with
  | nil =>
    obtain ⟨children, rfl⟩ := hplace.isContainer
    obtain ⟨result, -, hresult⟩ := map_eq_ok.mp h
    cases hresult
  | cons elem rest ih =>
    cases hstep : schema.stepInto full depth elem with
    | error e => simp [editBelow, hstep] at h
    | ok target =>
      obtain ⟨childSchema, step⟩ := target
      have hleads := SchemaNode.leads_of_stepInto hstep
      have henter := enter_eq hplace hleads false full depth
      cases hnext : node.next? elem with
      | none =>
        rw [hnext] at henter
        simp [editBelow, hstep, henter, at?, hnext]
      | some sub =>
        rw [hnext] at henter
        simp only [editBelow, hstep, henter, Option.some_or] at h ⊢
        obtain ⟨hsame, hmissing⟩ := ih (isPlace_next hplace hleads hnext) h
        refine ⟨?_, by rw [at?, hnext, Option.bind_some, hmissing]⟩
        rw [hsame]
        exact store_of_next? hplace hleads hnext

/-- What the last element names is gone. -/
theorem named?_eraseLast {children : List (String × Node)}
    (hplace : IsPlace schema (.container children))
    (h : (eraseLast path last schema children).1 = .ok ()) :
    (container (eraseLast path last schema children).2).named? last = none := by
  rw [named?_container]
  unfold eraseLast at h ⊢
  cases hchild : schema.childFor path (path.elems.length - 1) last with
  | error e => simp [hchild] at h
  | ok childSchema =>
    rw [hchild] at h
    have hget := SchemaNode.childFor_eq_ok.mp hchild
    cases childSchema with
    | list keys max schemas =>
      by_cases hkeys : last.keys = []
      · simp [hkeys, SortedMap.get?_erase_self]
      · simp only [List.isEmpty_iff, hkeys, if_false] at h ⊢
        cases hrequire : (SchemaNode.list keys max schemas).requireKeys path last with
        | error e => simp [hrequire] at h
        | ok =>
          simp only
          cases hlist : SortedMap.get? children last.name with
          | none => simp [hlist]
          | some child =>
            obtain ⟨entries, rfl, -⟩ := select?_of_fits_list (hplace.child_fits hlist hget)
            simp [SortedMap.get?_insert_self, SortedMap.get?_erase_self]
    | _ =>
      cases hnoKeys : SchemaNode.requireNoKeys path last with
      | error e => simp [hnoKeys] at h
      | ok => simp [SortedMap.get?_erase_self]

/-- A path is accepted as far as a tree reaches that has nothing new in it. -/
theorem Erasable.of_within (hnode : IsPlace schema node) (hafter : IsPlace schema after)
    (hwithin : after.contents.Within node.contents) {elems : List PathElem}
    (h : Erasable schema node elems) : Erasable schema after elems := by
  induction elems generalizing schema node after with
  | nil => trivial
  | cons elem rest ih =>
    obtain ⟨child, hchild, hpassable, hrest⟩ := h
    refine ⟨child, hchild, hpassable, ?_⟩
    intro sub hsub
    cases rest with
    | nil => trivial
    | cons next more =>
      have hleads := SchemaNode.Passes.leads hchild hpassable
      have hbelow : ∀ moves, after.contents ((Step.ofElem child elem).way.moves ++ moves) =
          sub.contents moves := by
        intro moves
        have hall := congrFun (belowAll_contents hafter hleads) moves
        rwa [hsub] at hall
      have hold : ∀ moves, node.contents ((Step.ofElem child elem).way.moves ++ moves) =
          (node.next? elem).bind (contents · moves) :=
        fun moves => congrFun (belowAll_contents hnode hleads) moves
      have hhere := hwithin _ _ (hbelow [])
      rw [hold] at hhere
      obtain ⟨old, hnext, -⟩ := Option.bind_eq_some_iff.mp hhere
      refine ih (isPlace_next hnode hleads hnext) (isPlace_next hafter hleads hsub) ?_
        (hrest old hnext)
      intro moves content hcontent
      have hfound := hwithin _ _ ((hbelow moves).trans hcontent)
      rwa [hold, hnext] at hfound

/-- After a delete nothing is found at its path. -/
theorem locate_erase (hplace : IsPlace schema node) (hne : path.elems ≠ [])
    (h : (node.erase schema path).1 = .ok ()) :
    (node.erase schema path).2.locate schema path = .ok none := by
  have hafter : IsPlace schema (node.erase schema path).2 := isPlace_erase hplace
  have hwithin : (node.erase schema path).2.contents.Within node.contents := by
    rw [contents_erase hplace h, SchemaNode.erasing_eq_clearing schema hne]
    exact (SchemaNode.clears_clearing schema path.elems).within node.contents
  have herasable := Erasable.of_within hplace hafter hwithin ((erase_eq_ok hplace).mp h)
  have hlast := List.getLast?_eq_some_getLast hne
  generalize path.elems.getLast hne = last at hlast
  rw [locate_eq_found? hafter herasable, found?_eq_named? _ hlast]
  unfold erase at h ⊢
  simp only [hlast] at h ⊢
  obtain ⟨found, hfound, -⟩ := map_eq_ok.mp h
  cases found with
  | none =>
    obtain ⟨hsame, hmissing⟩ := editBelow_of_missing hplace hfound
    rw [hsame, hmissing]
    rfl
  | some result =>
    obtain ⟨place, children, hchildren, hresult, hfocused⟩ :=
      focused_of_editBelow (keepsPlaces_eraseLast path last) hplace hfound
    rw [hfocused.at_elems, Option.bind_some, named?_eraseLast hchildren hresult]

end Erase

section Create

variable {schema target : SchemaNode} {node : Node} {path : Path} {last : PathElem}
  {found : Option Node}

/-- What is created is what the last element names, and only a leaf may be missing. -/
theorem named?_createLast {children : List (String × Node)}
    (hplace : IsPlace schema (.container children))
    (h : (createLast path last schema children).1 = .ok (found, target)) :
    (container (createLast path last schema children).2).named? last = found ∧
      (found = none → ∃ leafSchema, target = .leaf leafSchema) := by
  rw [named?_container]
  unfold createLast at h ⊢
  cases hchild : schema.childFor path (path.elems.length - 1) last with
  | error e => simp [hchild] at h
  | ok childSchema =>
    rw [hchild] at h
    have hget := SchemaNode.childFor_eq_ok.mp hchild
    cases childSchema with
    | leaf leafSchema =>
      obtain ⟨_, hnoKeys, hresult⟩ := map_eq_ok.mp h
      obtain ⟨rfl, rfl⟩ := Prod.mk.inj hresult
      refine ⟨?_, fun _ => ⟨leafSchema, rfl⟩⟩
      simp [SchemaNode.requireNoKeys_eq_ok.mp hnoKeys]
    | container schemas =>
      cases hnoKeys : SchemaNode.requireNoKeys path last with
      | error e => simp [hnoKeys] at h
      | ok =>
        simp only [hnoKeys, Except.ok.injEq, Prod.mk.injEq] at h ⊢
        obtain ⟨rfl, rfl⟩ := h
        simp [SchemaNode.requireNoKeys_eq_ok.mp hnoKeys, SortedMap.get?_insert_self]
    | list keys max schemas =>
      by_cases hkeys : last.keys = []
      · simp only [hkeys, List.isEmpty_nil, if_true, Except.ok.injEq, Prod.mk.injEq] at h ⊢
        obtain ⟨rfl, rfl⟩ := h
        simp [SortedMap.get?_insert_self]
      · obtain ⟨entries, hlist, -⟩ :=
          select?_of_fits_list (fits_child_getD hplace hget Fits.emptyList)
        simp only [List.isEmpty_iff, hkeys, if_false, hlist] at h ⊢
        cases hrequire : (SchemaNode.list keys max schemas).requireKeys path last with
        | error e => simp [hrequire] at h
        | ok =>
          simp only [hrequire, Except.ok.injEq, Prod.mk.injEq] at h ⊢
          obtain ⟨rfl, rfl⟩ := h
          simp [SortedMap.get?_insert_self]

/-- After a path has been created it is found to lead to what was created. -/
theorem locate_create (hplace : IsPlace schema node)
    (h : (node.create schema path).1 = .ok (found, target)) :
    (node.create schema path).2.locate schema path = .ok found ∧
      (found = none → ∃ leafSchema, target = .leaf leafSchema) := by
  have hafter : IsPlace schema (node.create schema path).2 := isPlace_create hplace
  have hlocate := locate_of_create hplace h
  rw [locate_eq_found? hafter (erasable_of_locate hafter hlocate)]
  unfold create at h ⊢
  rw [hlocate] at h ⊢
  cases hlast : path.elems.getLast? with
  | none =>
    simp only [hlast, Except.ok.injEq, Prod.mk.injEq] at h ⊢
    obtain ⟨rfl, rfl⟩ := h
    rw [List.getLast?_eq_none_iff.mp hlast]
    exact ⟨rfl, fun hnone => by cases hnone⟩
  | some last =>
    simp only [hlast, requireReached_eq_ok, requireReached_node] at h ⊢
    obtain ⟨place, children, hchildren, hresult, hfocused⟩ :=
      focused_of_editBelow (keepsPlaces_createLast path last) hplace h
    obtain ⟨hnamed, hleaf⟩ := named?_createLast hchildren hresult
    rw [found?_eq_named? _ hlast, hfocused.at_elems, Option.bind_some, hnamed]
    exact ⟨rfl, hleaf⟩

end Create

/-- What a path names is gone with everything below it, and no other leaf is. -/
structure ErasedAt (schema : SchemaNode) (before after : Node) (path : Path) : Prop where
  located : after.locate schema path = .ok none
  leaves : after.leafMap = before.leafMap.remove [] path.elems

/-- What a path names is there unless it names a leaf that was not, and no leaf is another. -/
structure CreatedAt (schema : SchemaNode) (before after : Node) (path : Path)
    (found : Option Node) (target : SchemaNode) : Prop where
  located : after.locate schema path = .ok found
  leaves : after.leafMap = before.leafMap
  missing : found = none →
    (∃ leafSchema, target = .leaf leafSchema) ∧ before.leafMap path.elems = none

/-- A leaf holds a value, and no other leaf is another. -/
structure StoredAt (schema : SchemaNode) (before after : Node) (path : Path)
    (scalar : LeafValue) : Prop where
  located : after.locate schema path = .ok (some (.leaf scalar))
  leaves : after.leafMap = before.leafMap.assign path.elems scalar

section Mutators

variable {schema : SchemaNode} {node : Node} {path : Path}

theorem erasedAt_of_erase (hplace : IsPlace schema node) (hne : path.elems ≠ [])
    (h : (node.erase schema path).1 = .ok ()) :
    ErasedAt schema node (node.erase schema path).2 path := by
  refine ⟨locate_erase hplace hne h, ?_⟩
  rw [leafMap_eq_leafAt? (isPlace_erase hplace), leafMap_eq_leafAt? hplace]
  exact leafAt?_erase_eq_remove hplace h

theorem createdAt_of_create (hplace : IsPlace schema node) {found : Option Node}
    {target : SchemaNode} (h : (node.create schema path).1 = .ok (found, target)) :
    CreatedAt schema node (node.create schema path).2 path found target := by
  have hafter : IsPlace schema (node.create schema path).2 := isPlace_create hplace
  obtain ⟨hlocated, hleaf⟩ := locate_create hplace h
  obtain ⟨-, hleaves, -⟩ := create_spec hplace h
  refine ⟨hlocated, ?_, ?_⟩
  · rw [leafMap_eq_leafAt? hafter, leafMap_eq_leafAt? hplace, hleaves]
  · intro hnone
    refine ⟨hleaf hnone, ?_⟩
    rw [leafMap_eq_leafAt? hplace]
    cases hvalue : node.leafAt? path.elems with
    | none => rfl
    | some value =>
      -- a leaf that was there would have been found
      have hfound := locate_of_leafAt? hafter (locate_of_create hplace h)
        ((congrFun hleaves path.elems).trans hvalue)
      rw [hlocated, hnone] at hfound
      cases hfound

theorem storedAt_of_put (hplace : IsPlace schema node) (hne : path.elems ≠ [])
    {leafSchema : LeafSchema} (hlocate : schema.locate path = .ok (.leaf leafSchema))
    {value : TypedValue} (h : (node.put schema path value).1 = .ok ()) :
    ∃ scalar, LeafValue.ofTyped leafSchema.type value path.text = .ok scalar ∧
      StoredAt schema node (node.put schema path value).2 path scalar := by
  have hafter : IsPlace schema (node.put schema path value).2 := (put_spec path value hplace).1
  obtain ⟨scalar, hscalar⟩ := exists_ofTyped_of_put hplace hne hlocate h
  obtain ⟨-, hleaves⟩ := put_of_locate_leaf hplace hne hlocate hscalar
  have hvalue : (node.put schema path value).2.leafAt? path.elems = some scalar := by
    rw [hleaves]
    exact if_pos rfl
  refine ⟨scalar, hscalar, locate_of_leafAt? hafter hlocate hvalue, ?_⟩
  rw [leafMap_eq_leafAt? hafter, leafMap_eq_leafAt? hplace, hleaves]

/-- Mutators keep the shape that the schema gives to trees, whether they succeed or not, and where
they succeed they change what they address and nothing else. -/
theorem mutators_touch_what_they_address (hordered : schema.Ordered)
    (hinner : ∃ schemas, schema.children? = some schemas) (hplace : IsPlace schema node)
    (path : Path) (value : TypedValue) :
    (IsPlace schema (node.put schema path value).2 ∧ IsPlace schema (node.create schema path).2 ∧
      IsPlace schema (node.erase schema path).2 ∧ IsPlace schema (node.fillDefaults schema).2) ∧
    (path.elems ≠ [] → (node.erase schema path).1 = .ok () →
      ErasedAt schema node (node.erase schema path).2 path) ∧
    (∀ found target, (node.create schema path).1 = .ok (found, target) →
      CreatedAt schema node (node.create schema path).2 path found target) ∧
    ∀ leafSchema, schema.locate path = .ok (.leaf leafSchema) →
      (node.put schema path value).1 = .ok () →
        ∃ scalar, LeafValue.ofTyped leafSchema.type value path.text = .ok scalar ∧
          StoredAt schema node (node.put schema path value).2 path scalar := by
  refine ⟨⟨(put_spec path value hplace).1, isPlace_create hplace, isPlace_erase hplace,
    isPlace_fillDefaults hordered hplace⟩, erasedAt_of_erase hplace,
    fun found target => createdAt_of_create hplace, ?_⟩
  intro leafSchema hlocate
  have hne : path.elems ≠ [] := by
    intro hnil
    rw [SchemaNode.locate, hnil] at hlocate
    cases SchemaNode.locateFrom_nil_eq_ok.mp hlocate
    obtain ⟨schemas, hschemas⟩ := hinner
    cases hschemas
  exact storedAt_of_put hplace hne hlocate

end Mutators

section Interfaces

open Notification (interfaceFields interfaceMtus)

theorem ordered_interfaceFields (names : List String) :
    (SchemaNode.container (interfaceFields names)).Ordered := by
  refine .container (List.pairwise_singleton _ _) ?_
  intro child hchild
  cases List.mem_singleton.mp hchild
  refine .list (List.pairwise_singleton _ _) ?_
  intro leaf hleaf
  cases List.mem_singleton.mp hleaf
  exact .leaf _

/-- The size of packets of an interface can be deleted, created and set. -/
theorem mutators_touch_what_they_address_interfaces :
    let schema := SchemaNode.container (interfaceFields ["name"])
    let node := interfaceMtus [([("name", "eth0")], 1500)]
    let mtu := leafOfEth0 "mtu"
    (schema.Ordered ∧ IsPlace schema node) ∧
      ErasedAt schema node (node.erase schema mtu).2 mtu ∧
      (∃ found, CreatedAt schema node (node.create schema mtu).2 mtu found
        (.leafOf (.uint none none))) ∧
      StoredAt schema node (node.put schema mtu (.uint 9000)).2 mtu (.uint 9000) := by
  intro schema node mtu
  have hordered : schema.Ordered := ordered_interfaceFields ["name"]
  have hplace : IsPlace schema node := isPlace_interfaceMtus_eth0
  have hlocate : schema.locate mtu = .ok (.leafOf (.uint none none)) := locate_mtu
  obtain ⟨-, herased, hcreated, hstored⟩ :=
    mutators_touch_what_they_address hordered ⟨_, rfl⟩ hplace mtu (.uint 9000)
  obtain ⟨found, hfound⟩ := create_of_locate hplace hlocate
  have hput : (node.put schema mtu (.uint 9000)).1 = .ok () :=
    (put_of_locate_leaf hplace (List.cons_ne_nil _ _) hlocate rfl).1
  obtain ⟨scalar, hscalar, hmtu⟩ := hstored _ hlocate hput
  cases hscalar
  exact ⟨⟨hordered, hplace⟩, herased (List.cons_ne_nil _ _) (erase_of_locate hplace hlocate),
    ⟨found, hcreated found _ hfound⟩, hmtu⟩

end Interfaces

end Node

end Telemetry
