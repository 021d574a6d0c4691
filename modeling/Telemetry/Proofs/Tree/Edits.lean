import Telemetry.Proofs.Tree.Focus

/-!
Creation and deletion on leaf maps. Creating what a path names changes no leaf; deleting it
removes the leaves at and below it and no other. Both keep a tree in the shape of its schema,
also where they fail half way.
-/

namespace Telemetry

namespace LeafMap

theorem remove_singleton_nil (m : LeafMap) (last : PathElem) : m.remove [] [last] [] = m [] := by
  simp [remove, Path.covers]

theorem remove_singleton_cons (m : LeafMap) (last elem : PathElem) (rest : List PathElem) :
    m.remove [] [last] (elem :: rest) =
      if last.name = elem.name ∧ (last.keys = [] ∨ last.keys = elem.keys) then none
      else m (elem :: rest) := by
  simp [remove, Path.covers]

end LeafMap

namespace Node

theorem leafAt?_container_cons (children : List (String × Node)) (elem : PathElem)
    (rest : List PathElem) :
    (container children).leafAt? (elem :: rest) =
      (SortedMap.get? children elem.name).bind fun child =>
        (child.select? elem.keys).bind (leafAt? · rest) := by
  rw [leafAt?_cons, next?_container, Option.bind_assoc]

/-- Replacing a child concerns the paths through its name only. -/
theorem leafAt?_insert_cons (children : List (String × Node)) (name : String) (child : Node)
    (elem : PathElem) (rest : List PathElem) :
    (container (SortedMap.insert children name child)).leafAt? (elem :: rest) =
      if elem.name = name then (child.select? elem.keys).bind (leafAt? · rest)
      else (container children).leafAt? (elem :: rest) := by
  rw [leafAt?_container_cons, leafAt?_container_cons, SortedMap.get?_insert]
  by_cases h : elem.name = name <;> simp [h]

/-- Putting back a child, or an empty node where there is none, changes no leaf. -/
theorem leafAt?_insert_getD (children : List (String × Node)) (name : String) (empty : Node)
    (hempty : ∀ keys rest, (empty.select? keys).bind (leafAt? · rest) = none) :
    (container (SortedMap.insert children name
      ((SortedMap.get? children name).getD empty))).leafAt? = (container children).leafAt? := by
  funext elems
  cases elems with
  | nil => rfl
  | cons elem rest =>
    rw [leafAt?_insert_cons]
    by_cases h : elem.name = name
    · rw [if_pos h, leafAt?_container_cons, h]
      cases SortedMap.get? children name with
      | none => simp [hempty]
      | some child => simp
    · rw [if_neg h]

theorem emptyContainer_has_no_leaf (keys : Keys) (rest : List PathElem) :
    (emptyContainer.select? keys).bind (leafAt? · rest) = none := by
  cases keys with
  | nil => exact leafAt?_emptyContainer rest
  | cons pair more => rfl

theorem emptyList_has_no_leaf (keys : Keys) (rest : List PathElem) :
    (emptyList.select? keys).bind (leafAt? · rest) = none := by
  simp [emptyList, SortedMap.get?]

section Erase

variable {path : Path} {last : PathElem} {schema : SchemaNode} {children : List (String × Node)}

theorem keepsPlaces_eraseLast (path : Path) (last : PathElem) :
    KeepsPlaces (eraseLast path last) := by
  intro schema children hplace
  unfold eraseLast
  cases hchild : schema.childFor path (path.elems.length - 1) last with
  | error e => exact hplace
  | ok childSchema =>
    have hget := SchemaNode.childFor_eq_ok.mp hchild
    cases childSchema with
    | leaf leafSchema =>
      cases SchemaNode.requireNoKeys path last with
      | error e => exact hplace
      | ok => exact hplace.erase last.name
    | container schemas =>
      cases SchemaNode.requireNoKeys path last with
      | error e => exact hplace
      | ok => exact hplace.erase last.name
    | list keys max schemas =>
      by_cases hkeys : last.keys = []
      · simpa [hkeys] using hplace.erase last.name
      · cases hrequire : (SchemaNode.list keys max schemas).requireKeys path last with
        | error e => simpa [hkeys, hrequire] using hplace
        | ok =>
          cases hlist : SortedMap.get? children last.name with
          | none => simpa [hkeys, hrequire, hlist] using hplace
          | some child =>
            have hfits := hplace.child_fits hlist hget
            obtain ⟨entries, rfl, _⟩ := select?_of_fits_list hfits
            simpa [hkeys, hrequire, hlist] using hplace.insert hget (hfits.eraseEntry last.keys)

/-- Without a child all paths through its name are gone. -/
private theorem leafAt?_erase (children : List (String × Node)) (hkeys : last.keys = []) :
    (container (SortedMap.erase children last.name)).leafAt? =
      (container children).leafAt?.remove [] [last] := by
  funext elems
  cases elems with
  | nil => exact (LeafMap.remove_singleton_nil _ last).symm
  | cons elem rest =>
    rw [LeafMap.remove_singleton_cons, leafAt?_container_cons, SortedMap.get?_erase,
      leafAt?_container_cons]
    by_cases hname : elem.name = last.name
    · simp [hname, hkeys]
    · simp [hname, Ne.symm hname]

private theorem leafAt?_eraseEntry {entries : List (Keys × Node)}
    (hlist : SortedMap.get? children last.name = some (.list entries)) (hkeys : last.keys ≠ []) :
    (container (SortedMap.insert children last.name
      (.list (SortedMap.erase entries last.keys)))).leafAt? =
      (container children).leafAt?.remove [] [last] := by
  funext elems
  cases elems with
  | nil => exact (LeafMap.remove_singleton_nil _ last).symm
  | cons elem rest =>
    rw [LeafMap.remove_singleton_cons, leafAt?_insert_cons]
    by_cases hname : elem.name = last.name
    · rw [leafAt?_container_cons, hname, hlist]
      by_cases helem : elem.keys = last.keys
      · simp [helem, SortedMap.get?_erase]
      · simp [helem, Ne.symm helem, hkeys, SortedMap.get?_erase]
    · simp [hname, Ne.symm hname]

/-- An entry that is not there has no leaves. -/
private theorem remove_absent (hlist : SortedMap.get? children last.name = none) :
    (container children).leafAt?.remove [] [last] = (container children).leafAt? := by
  funext elems
  cases elems with
  | nil => exact LeafMap.remove_singleton_nil _ last
  | cons elem rest =>
    rw [LeafMap.remove_singleton_cons, leafAt?_container_cons]
    by_cases hname : last.name = elem.name
    · simp [← hname, hlist]
    · simp [hname]

theorem leafAt?_eraseLast (h : (eraseLast path last schema children).1 = .ok ()) :
    (container (eraseLast path last schema children).2).leafAt? =
      (container children).leafAt?.remove [] [last] := by
  unfold eraseLast at h ⊢
  cases hchild : schema.childFor path (path.elems.length - 1) last with
  | error e => simp [hchild] at h
  | ok childSchema =>
    simp only [hchild] at h ⊢
    cases childSchema with
    | leaf leafSchema =>
      cases hkeys : SchemaNode.requireNoKeys path last with
      | error e => simp [hkeys] at h
      | ok => exact leafAt?_erase children (SchemaNode.requireNoKeys_eq_ok.mp hkeys)
    | container schemas =>
      cases hkeys : SchemaNode.requireNoKeys path last with
      | error e => simp [hkeys] at h
      | ok => exact leafAt?_erase children (SchemaNode.requireNoKeys_eq_ok.mp hkeys)
    | list keys max schemas =>
      by_cases hkeys : last.keys = []
      · simpa [hkeys] using leafAt?_erase children hkeys
      · simp only [List.isEmpty_iff, hkeys, if_false] at h ⊢
        cases hrequire : (SchemaNode.list keys max schemas).requireKeys path last with
        | error e => simp [hrequire] at h
        | ok =>
          simp only [hrequire] at h ⊢
          cases hlist : SortedMap.get? children last.name with
          | none => exact (remove_absent hlist).symm
          | some child =>
            cases child with
            | list entries => exact leafAt?_eraseEntry hlist hkeys
            | container grandchildren => simp [hlist] at h
            | leaf value => simp [hlist] at h

end Erase

section EraseAt

variable {schema : SchemaNode} {node : Node} {path : Path}

theorem elems_eq_append_of_getLast? {elems : List PathElem} {last : PathElem}
    (h : elems.getLast? = some last) : elems = elems.dropLast ++ [last] := by
  obtain ⟨parents, rfl⟩ := List.getLast?_eq_some_iff.mp h
  simp

theorem isPlace_erase (hplace : IsPlace schema node) :
    IsPlace schema (node.erase schema path).2 := by
  unfold erase
  cases path.elems.getLast? with
  | none => exact IsPlace.empty schema
  | some last => exact isPlace_editBelow (keepsPlaces_eraseLast path last) hplace _ _ _ _

/-- Deleting removes the leaves at or below what the path names. -/
theorem leafAt?_erase_eq_remove (hplace : IsPlace schema node)
    (h : (node.erase schema path).1 = .ok ()) :
    (node.erase schema path).2.leafAt? = node.leafAt?.remove [] path.elems := by
  unfold erase at h ⊢
  cases hlast : path.elems.getLast? with
  | none =>
    rw [List.getLast?_eq_none_iff.mp hlast]
    funext elems
    simp [LeafMap.remove, Path.covers, leafAt?_emptyContainer]
  | some last =>
    simp only [hlast] at h ⊢
    rw [elems_eq_append_of_getLast? hlast, LeafMap.remove_append_singleton,
      LeafMap.remove_eq_under]
    rw [← elems_eq_append_of_getLast? hlast]
    have hkeeps := keepsPlaces_eraseLast path last
    obtain ⟨found, hfound, -⟩ := map_eq_ok.mp h
    cases found with
    | none =>
      obtain ⟨-, hsame, hnone⟩ := leaves_of_editBelow_eq_none hkeeps hplace hfound
      rw [hsame]
      refine (LeafMap.under_id path.elems.dropLast node.leafAt?).symm.trans ?_
      apply LeafMap.under_congr
      rw [hnone]
      funext elems
      simp [LeafMap.remove]
    | some result =>
      obtain ⟨place, children, -, hresult, hfocused⟩ :=
        focused_of_editBelow hkeeps hplace hfound
      exact hfocused.leaves_eq_under (leafAt?_eraseLast hresult)

end EraseAt

section Create

variable {path : Path} {last : PathElem} {schema : SchemaNode} {children : List (String × Node)}

/-- A child that is there, or an empty one of the kind of its schema. -/
theorem fits_child_getD {name : String} {childSchema : SchemaNode} {empty : Node}
    (hplace : IsPlace schema (.container children))
    (hchild : schema.child? name = some childSchema) (hempty : Fits childSchema empty) :
    Fits childSchema ((SortedMap.get? children name).getD empty) := by
  cases hget : SortedMap.get? children name with
  | none => exact hempty
  | some child => exact hplace.child_fits hget hchild

/-- The entry that is there, or an empty one. -/
theorem fits_entry_getD {keys : List String} {max : Option UInt64}
    {schemas : List (String × SchemaNode)} {entries : List (Keys × Node)}
    (h : Fits (.list keys max schemas) (.list entries)) (key : Keys) :
    Fits (.container schemas) ((SortedMap.get? entries key).getD emptyContainer) := by
  cases hget : SortedMap.get? entries key with
  | none => exact IsPlace.empty (.container schemas)
  | some entry =>
    cases h with
    | list sorted fits => exact fits key entry hget

theorem keepsPlaces_createLast (path : Path) (last : PathElem) :
    KeepsPlaces (createLast path last) := by
  intro schema children hplace
  unfold createLast
  cases hchild : schema.childFor path (path.elems.length - 1) last with
  | error e => exact hplace
  | ok childSchema =>
    have hget := SchemaNode.childFor_eq_ok.mp hchild
    cases childSchema with
    | leaf leafSchema => exact hplace
    | container schemas =>
      cases SchemaNode.requireNoKeys path last with
      | error e => exact hplace
      | ok =>
        have hfits := fits_child_getD hplace hget (IsPlace.empty (.container schemas))
        exact hplace.insert hget hfits
    | list keys max schemas =>
      have hfits := fits_child_getD hplace hget Fits.emptyList
      by_cases hkeys : last.keys = []
      · simpa [hkeys] using hplace.insert hget hfits
      · obtain ⟨entries, hlist, _⟩ := select?_of_fits_list hfits
        rw [hlist] at hfits
        cases hrequire : (SchemaNode.list keys max schemas).requireKeys path last with
        | error e => simpa [hkeys, hrequire, hlist] using hplace.insert hget hfits
        | ok =>
          simpa [hkeys, hrequire, hlist] using
            hplace.insert hget (hfits.insertEntry last.keys (fits_entry_getD hfits last.keys))

/-- Putting back the entry that is there, or an empty one, changes no leaf of a list. -/
private theorem select?_insert_getD (entries : List (Keys × Node)) (key keys : Keys)
    (rest : List PathElem) :
    ((list (SortedMap.insert entries key
      ((SortedMap.get? entries key).getD emptyContainer))).select? keys).bind (leafAt? · rest) =
      ((list entries).select? keys).bind (leafAt? · rest) := by
  rw [select?_list, select?_list, SortedMap.get?_insert]
  by_cases h : keys = key
  · subst h
    cases SortedMap.get? entries keys with
    | none => simp [leafAt?_emptyContainer]
    | some entry => simp
  · simp [h]

private theorem leafAt?_createEntry {entries : List (Keys × Node)}
    (hlist : (SortedMap.get? children last.name).getD emptyList = .list entries) :
    (container (SortedMap.insert children last.name (.list (SortedMap.insert entries last.keys
      ((SortedMap.get? entries last.keys).getD emptyContainer))))).leafAt? =
      (container children).leafAt? := by
  rw [← leafAt?_insert_getD children last.name emptyList emptyList_has_no_leaf, hlist]
  funext elems
  cases elems with
  | nil => rfl
  | cons elem rest => rw [leafAt?_insert_cons, leafAt?_insert_cons, select?_insert_getD]

structure CreatesLast (schema : SchemaNode) (last : PathElem)
    (children after : List (String × Node)) (found : Option Node) (target : SchemaNode) :
    Prop where
  child : schema.child? last.name = some target
  leaves : (container after).leafAt? = (container children).leafAt?
  leads : (∃ schemas, target = .container schemas) ∨ last.keys ≠ [] →
    ∃ step node, SchemaNode.Leads schema last target step ∧ found = some node ∧
      (container after).next? last = some node

private theorem createsLast_leaf {leafSchema : LeafSchema}
    (hchild : schema.child? last.name = some (.leaf leafSchema)) (hkeys : last.keys = [])
    (found : Option Node) :
    CreatesLast schema last children children found (.leaf leafSchema) := by
  refine ⟨hchild, rfl, ?_⟩
  rintro (⟨schemas, hschemas⟩ | hsome)
  · cases hschemas
  · exact absurd hkeys hsome

private theorem createsLast_container {schemas : List (String × SchemaNode)}
    (hplace : IsPlace schema (.container children))
    (hchild : schema.child? last.name = some (.container schemas)) (hkeys : last.keys = []) :
    let child := (SortedMap.get? children last.name).getD emptyContainer
    CreatesLast schema last children (SortedMap.insert children last.name child) (some child)
      (.container schemas) := by
  intro child
  have hfits : Fits (.container schemas) child :=
    fits_child_getD hplace hchild (IsPlace.empty (.container schemas))
  refine ⟨hchild, leafAt?_insert_getD _ _ _ emptyContainer_has_no_leaf, ?_⟩
  intro _
  refine ⟨_, child, .container hchild hkeys, rfl, ?_⟩
  obtain ⟨grandchildren, hgrand⟩ := fits_container hfits
  rw [next?_container, SortedMap.get?_insert_self, hgrand, hkeys]
  rfl

private theorem createsLast_list {keys : List String} {max : Option UInt64}
    {schemas : List (String × SchemaNode)}
    (hchild : schema.child? last.name = some (.list keys max schemas)) (hkeys : last.keys = []) :
    let list := (SortedMap.get? children last.name).getD emptyList
    CreatesLast schema last children (SortedMap.insert children last.name list) (some list)
      (.list keys max schemas) := by
  intro list
  refine ⟨hchild, leafAt?_insert_getD _ _ _ emptyList_has_no_leaf, ?_⟩
  rintro (⟨schemas, hschemas⟩ | hsome)
  · cases hschemas
  · exact absurd hkeys hsome

private theorem createsLast_entry {keys : List String} {max : Option UInt64}
    {schemas : List (String × SchemaNode)} {entries : List (Keys × Node)}
    (hchild : schema.child? last.name = some (.list keys max schemas))
    (hlist : (SortedMap.get? children last.name).getD emptyList = .list entries) :
    let entry := (SortedMap.get? entries last.keys).getD emptyContainer
    CreatesLast schema last children
      (SortedMap.insert children last.name (.list (SortedMap.insert entries last.keys entry)))
      (some entry) (.list keys max schemas) := by
  intro entry
  refine ⟨hchild, leafAt?_createEntry hlist, ?_⟩
  intro _
  refine ⟨_, entry, .entry hchild, rfl, ?_⟩
  rw [next?_container, SortedMap.get?_insert_self]
  exact SortedMap.get?_insert_self _ _ _

theorem createLast_spec (hplace : IsPlace schema (.container children)) {found : Option Node}
    {target : SchemaNode} (h : (createLast path last schema children).1 = .ok (found, target)) :
    CreatesLast schema last children (createLast path last schema children).2 found target := by
  unfold createLast at h ⊢
  cases hfor : schema.childFor path (path.elems.length - 1) last with
  | error e => simp [hfor] at h
  | ok childSchema =>
    have hchild := SchemaNode.childFor_eq_ok.mp hfor
    simp only [hfor] at h ⊢
    cases childSchema with
    | leaf leafSchema =>
      obtain ⟨_, hkeys, hresult⟩ := map_eq_ok.mp h
      obtain ⟨-, rfl⟩ := Prod.mk.inj hresult
      exact createsLast_leaf hchild (SchemaNode.requireNoKeys_eq_ok.mp hkeys) found
    | container schemas =>
      cases hkeys : SchemaNode.requireNoKeys path last with
      | error e => simp [hkeys] at h
      | ok =>
        simp only [hkeys, Except.ok.injEq, Prod.mk.injEq] at h ⊢
        obtain ⟨rfl, rfl⟩ := h
        exact createsLast_container hplace hchild (SchemaNode.requireNoKeys_eq_ok.mp hkeys)
    | list keys max schemas =>
      by_cases hkeys : last.keys = []
      · simp only [hkeys, List.isEmpty_nil, if_true, Except.ok.injEq, Prod.mk.injEq] at h ⊢
        obtain ⟨rfl, rfl⟩ := h
        exact createsLast_list hchild hkeys
      · obtain ⟨entries, hlist, _⟩ :=
          select?_of_fits_list (fits_child_getD hplace hchild Fits.emptyList)
        simp only [List.isEmpty_iff, hkeys, if_false, hlist] at h ⊢
        cases hrequire : (SchemaNode.list keys max schemas).requireKeys path last with
        | error e => simp [hrequire] at h
        | ok =>
          simp only [hrequire, Except.ok.injEq, Prod.mk.injEq] at h ⊢
          obtain ⟨rfl, rfl⟩ := h
          exact createsLast_entry hchild hlist

end Create

section CreateAt

variable {schema : SchemaNode} {node : Node} {path : Path}

theorem requireReached_eq_ok {α : Type} {outcome : Edited (Option α) Node} {result : α} :
    (requireReached path outcome).1 = .ok result ↔ outcome.1 = .ok (some result) := by
  obtain ⟨found, node⟩ := outcome
  rcases found with e | _ | found <;> simp [requireReached]

theorem requireReached_node {α : Type} (path : Path) (outcome : Edited (Option α) Node) :
    (requireReached path outcome).2 = outcome.2 := by
  obtain ⟨found, node⟩ := outcome
  rcases found with e | _ | found <;> rfl

/-- The walk that creating and storing have in common. The last element of an accepted path is
edited below parents that are created where they are absent, and the root, which no element names,
is left to `atRoot`. -/
def mutate {α : Type} (schema : SchemaNode) (root : Node) (path : Path) (atRoot : Edited α Node)
    (edit : PathElem → ChildEdit α) : Edited α Node :=
  match schema.locate path with
  | .error e => (.error e, root)
  | .ok _ =>
    match path.elems.getLast? with
    | none => atRoot
    | some last =>
      requireReached path (editBelow true path (edit last) schema root 0 path.elems.dropLast)

theorem create_eq_mutate (schema : SchemaNode) (node : Node) (path : Path) :
    node.create schema path =
      node.mutate schema path (.ok (some node, schema), node) (createLast path) := rfl

theorem isPlace_mutate {α : Type} {atRoot : Edited α Node} {edit : PathElem → ChildEdit α}
    (hplace : IsPlace schema node) (hroot : IsPlace schema atRoot.2)
    (hedit : ∀ last, KeepsPlaces (edit last)) :
    IsPlace schema (node.mutate schema path atRoot edit).2 := by
  unfold mutate
  cases schema.locate path with
  | error e => exact hplace
  | ok target =>
    cases path.elems.getLast? with
    | none => exact hroot
    | some last =>
      simp only [requireReached_node]
      exact isPlace_editBelow (hedit last) hplace _ _ _ _

theorem isPlace_create (hplace : IsPlace schema node) :
    IsPlace schema (node.create schema path).2 := by
  rw [create_eq_mutate]
  exact isPlace_mutate hplace hplace (keepsPlaces_createLast path)

/-- A path that can be walked through: it ends at a container or at an entry of a list. -/
def EndsAtPlace (path : Path) (target : SchemaNode) : Prop :=
  (∃ children, target = .container children) ∨
    ∃ keys max children last, target = .list keys max children ∧
      path.elems.getLast? = some last ∧ last.keys ≠ []

/-- Creating changes no leaf, and a place that it creates stands at the path then. -/
theorem create_spec (hplace : IsPlace schema node) {found : Option Node} {target : SchemaNode}
    (h : (node.create schema path).1 = .ok (found, target)) :
    schema.descend path.elems = some target ∧
      (node.create schema path).2.leafAt? = node.leafAt? ∧
      (EndsAtPlace path target → ∃ sub, found = some sub ∧ IsPlace target sub ∧
        (node.create schema path).2.at? path.elems = some sub) := by
  unfold create at h ⊢
  cases hlocate : schema.locate path with
  | error e => simp [hlocate] at h
  | ok located =>
    simp only [hlocate] at h ⊢
    cases hlast : path.elems.getLast? with
    | none =>
      simp only [hlast, Except.ok.injEq, Prod.mk.injEq] at h ⊢
      obtain ⟨rfl, rfl⟩ := h
      rw [List.getLast?_eq_none_iff.mp hlast]
      exact ⟨rfl, trivial, fun _ => ⟨node, rfl, hplace, rfl⟩⟩
    | some last =>
      simp only [hlast, requireReached_eq_ok, requireReached_node] at h ⊢
      obtain ⟨place, children, hchildren, hresult, hfocused⟩ :=
        focused_of_editBelow (keepsPlaces_createLast path last) hplace h
      obtain ⟨hchild, hleaves, hfound⟩ := createLast_spec hchildren hresult
      have helems := elems_eq_append_of_getLast? hlast
      refine ⟨?_, ?_, ?_⟩
      · rw [helems, SchemaNode.descend_append, hfocused.descend]
        simp [SchemaNode.descend, hchild]
      · rw [← LeafMap.under_id path.elems.dropLast node.leafAt?]
        exact hfocused.leaves_eq_under hleaves
      · intro hends
        have hkind : (∃ schemas, target = .container schemas) ∨ last.keys ≠ [] := by
          refine hends.imp_right ?_
          rintro ⟨keys, max, schemas, other, -, hother, hkeys⟩
          rw [hlast] at hother
          exact Option.some.inj hother ▸ hkeys
        obtain ⟨step, sub, hleads, hsub, hnext⟩ := hfound hkind
        have hkeeps := keepsPlaces_createLast path last _ _ hchildren
        refine ⟨sub, hsub, isPlace_next hkeeps hleads hnext, ?_⟩
        generalize (editBelow true path (createLast path last) schema node 0
          path.elems.dropLast).2 = after at hfocused ⊢
        rw [helems, at?_append, hfocused.at_elems]
        simp [at?, hnext]

end CreateAt

end Node

end Telemetry
