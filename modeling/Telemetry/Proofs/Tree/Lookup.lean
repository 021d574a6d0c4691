import Telemetry.Proofs.Tree.Clearing

/-!
Looking up nodes. Where the walk beside a tree finds a node, the walk through the schema alone goes
through as well. It fails just where a delete does; else it finds what the elements of the path
lead to.
-/

namespace Telemetry

namespace Node

/-- What an element names where a path ends: without keys a list as a whole. -/
def named? (node : Node) (last : PathElem) : Option Node :=
  node.children?.bind fun children =>
    (SortedMap.get? children last.name).bind fun child =>
      if last.keys = [] then some child else child.select? last.keys

def found? (node : Node) : List PathElem → Option Node
  | [] => some node
  | [last] => node.named? last
  | elem :: rest => (node.next? elem).bind (found? · rest)

theorem named?_container (children : List (String × Node)) (last : PathElem) :
    (container children).named? last = (SortedMap.get? children last.name).bind fun child =>
      if last.keys = [] then some child else child.select? last.keys := rfl

theorem found?_cons (node : Node) (elem : PathElem) {rest : List PathElem} (hne : rest ≠ []) :
    node.found? (elem :: rest) = (node.next? elem).bind (found? · rest) := by
  cases rest with
  | nil => exact absurd rfl hne
  | cons next more => rfl

theorem found?_append_singleton (node : Node) (parents : List PathElem) (last : PathElem) :
    node.found? (parents ++ [last]) = (node.at? parents).bind (named? · last) := by
  induction parents generalizing node with
  | nil => rfl
  | cons elem rest ih =>
    rw [List.cons_append, found?_cons node elem (by simp), at?]
    cases node.next? elem with
    | none => rfl
    | some next => exact ih next

theorem found?_eq_named? (node : Node) {elems : List PathElem} {last : PathElem}
    (h : elems.getLast? = some last) :
    node.found? elems = (node.at? elems.dropLast).bind (named? · last) := by
  conv => lhs; rw [elems_eq_append_of_getLast? h]
  exact found?_append_singleton node elems.dropLast last

section Walk

variable {full : Path} {schema : SchemaNode} {node : Node} {depth : Nat} {elems : List PathElem}

/-- A step on the way to a node is one that the schema accepts. -/
private theorem requirePassable_of_found {elem : PathElem} {rest : List PathElem} {found : Node}
    (h : locateFrom full schema node depth (elem :: rest) = .ok (some found)) :
    ∃ childSchema, schema.child? elem.name = some childSchema ∧
      childSchema.requirePassable full depth elem rest.isEmpty = .ok () ∧
      (rest = [] ∨ ∃ sub,
        locateFrom full childSchema sub (depth + 1) rest = .ok (some found)) := by
  obtain ⟨childSchema, hchild, h⟩ := bind_eq_ok.mp h
  refine ⟨childSchema, SchemaNode.childFor_eq_ok.mp hchild, ?_⟩
  cases node with
  | leaf value => cases h
  | list entries => cases h
  | container children =>
    cases hget : SortedMap.get? children elem.name with
    | none => simp [hget] at h
    | some child =>
      simp only [hget] at h
      cases childSchema with
      | container schemas =>
        obtain ⟨_, hkeys, h⟩ := bind_eq_ok.mp h
        exact ⟨hkeys, Or.inr ⟨child, h⟩⟩
      | leaf leafSchema =>
        simp only at h
        split at h
        · cases h
        · rename_i hends
          obtain ⟨_, hkeys, -⟩ := bind_eq_ok.mp h
          have hnil : rest = [] := by
            simpa [SchemaNode.requireNoKeys_eq_ok.mp hkeys] using hends
          subst hnil
          exact ⟨hkeys, Or.inl rfl⟩
      | list keys max schemas =>
        simp only at h
        by_cases hkeys : elem.keys = []
        · cases rest with
          | cons next more => simp [hkeys] at h
          | nil => exact ⟨by simp [SchemaNode.requirePassable, hkeys], Or.inl rfl⟩
        · simp only [List.isEmpty_iff, hkeys, if_false] at h
          obtain ⟨_, hrequire, h⟩ := bind_eq_ok.mp h
          refine ⟨by simpa [SchemaNode.requirePassable, hkeys] using hrequire, Or.inr ?_⟩
          cases child with
          | container grandchildren => cases h
          | leaf value => cases h
          | list entries =>
            cases hentry : SortedMap.get? entries elem.keys with
            | none => simp [hentry] at h
            | some entry =>
              simp only [hentry] at h
              exact ⟨entry, h⟩

/-- Where a node is found the schema accepts the path. -/
theorem exists_locateFrom_of_found {found : Node}
    (h : locateFrom full schema node depth elems = .ok (some found)) :
    ∃ target, SchemaNode.locateFrom full schema depth elems = .ok target := by
  induction elems generalizing schema node depth with
  | nil => exact ⟨schema, rfl⟩
  | cons elem rest ih =>
    obtain ⟨childSchema, hchild, hpassable, hrest⟩ := requirePassable_of_found h
    have hbelow : ∃ target, SchemaNode.locateFrom full childSchema (depth + 1) rest =
        .ok target := by
      rcases hrest with rfl | ⟨sub, hsub⟩
      · exact ⟨childSchema, rfl⟩
      · exact ih hsub
    obtain ⟨target, htarget⟩ := hbelow
    exact ⟨target, SchemaNode.locateFrom_cons_eq_ok.mpr
      ⟨childSchema, hchild, hpassable, htarget⟩⟩

private theorem locateFrom_last (hplace : IsPlace schema node) {last : PathElem}
    {target : SchemaNode} (hchild : schema.child? last.name = some target)
    (hpassable : target.requirePassable full depth last true = .ok ()) :
    locateFrom full schema node depth [last] = .ok (node.named? last) := by
  obtain ⟨children, rfl⟩ := hplace.isContainer
  rw [locateFrom, SchemaNode.childFor_eq_ok.mpr hchild, named?_container]
  cases hget : SortedMap.get? children last.name with
  | none => simp [bind, Except.bind, hget]
  | some child =>
    simp only [bind, Except.bind, hget]
    cases target with
    | container schemas =>
      have hkeys : SchemaNode.requireNoKeys full last = .ok () := hpassable
      simp [hkeys, SchemaNode.requireNoKeys_eq_ok.mp hkeys, locateFrom]
    | leaf leafSchema =>
      have hkeys : SchemaNode.requireNoKeys full last = .ok () := by
        simpa [SchemaNode.requirePassable] using hpassable
      simp [hkeys, SchemaNode.requireNoKeys_eq_ok.mp hkeys, locateFrom]
    | list keys max schemas =>
      by_cases hkeys : last.keys = []
      · simp [hkeys]
      · have hrequire : (SchemaNode.list keys max schemas).requireKeys full last = .ok () := by
          simpa [SchemaNode.requirePassable, hkeys] using hpassable
        obtain ⟨entries, rfl, -⟩ := select?_of_fits_list (hplace.child_fits hget hchild)
        cases hentry : SortedMap.get? entries last.keys <;>
          simp [hkeys, hrequire, hentry, locateFrom]

private theorem locateFrom_step (hplace : IsPlace schema node) {elem : PathElem}
    {rest : List PathElem} {child : SchemaNode}
    (hchild : schema.child? elem.name = some child)
    (hpassable : child.requirePassable full depth elem false = .ok ()) :
    locateFrom full schema node depth (elem :: rest) =
      match node.next? elem with
      | none => .ok none
      | some sub => locateFrom full child sub (depth + 1) rest := by
  obtain ⟨children, rfl⟩ := hplace.isContainer
  rw [locateFrom, SchemaNode.childFor_eq_ok.mpr hchild, next?_container]
  cases hget : SortedMap.get? children elem.name with
  | none => simp [bind, Except.bind, hget]
  | some found =>
    simp only [bind, Except.bind, hget, Option.bind_some]
    cases child with
    | leaf leafSchema => simp [SchemaNode.requirePassable] at hpassable
    | container schemas =>
      have hkeys : SchemaNode.requireNoKeys full elem = .ok () := hpassable
      obtain ⟨grandchildren, rfl⟩ := fits_container (hplace.child_fits hget hchild)
      simp [hkeys, SchemaNode.requireNoKeys_eq_ok.mp hkeys, select?_container_nil]
    | list keys max schemas =>
      obtain ⟨entries, rfl, -⟩ := select?_of_fits_list (hplace.child_fits hget hchild)
      by_cases hkeys : elem.keys = []
      · simp [SchemaNode.requirePassable, hkeys] at hpassable
      · have hrequire : (SchemaNode.list keys max schemas).requireKeys full elem = .ok () := by
          simpa [SchemaNode.requirePassable, hkeys] using hpassable
        cases hentry : SortedMap.get? entries elem.keys <;> simp [hkeys, hrequire, hentry]

/-- The walk finds what the elements lead to. -/
private theorem locateFrom_eq_found? (full : Path) (depth : Nat) (hplace : IsPlace schema node)
    (h : Erasable schema node elems) :
    locateFrom full schema node depth elems = .ok (node.found? elems) := by
  induction elems generalizing schema node depth with
  | nil => rfl
  | cons elem rest ih =>
    obtain ⟨child, hchild, hpassable, hrest⟩ := h
    have hrequire := (SchemaNode.requirePassable_eq_ok full depth).mpr hpassable
    cases rest with
    | nil => exact locateFrom_last hplace hchild hrequire
    | cons next more =>
      rw [locateFrom_step hplace hchild hrequire,
        found?_cons node elem (List.cons_ne_nil next more)]
      have hleads := SchemaNode.leads_of_requirePassable hchild hrequire
      cases hnext : node.next? elem with
      | none => rfl
      | some sub => exact ih (depth + 1) (isPlace_next hplace hleads hnext) (hrest sub hnext)

theorem locate_eq_found? (hplace : IsPlace schema node) {path : Path}
    (h : Erasable schema node path.elems) :
    node.locate schema path = .ok (node.found? path.elems) :=
  locateFrom_eq_found? path 0 hplace h

/-- A path that the schema accepts is accepted as far as any tree reaches. -/
theorem erasable_of_locate (hplace : IsPlace schema node) {path : Path} {target : SchemaNode}
    (h : schema.locate path = .ok target) : Erasable schema node path.elems :=
  (erase_eq_ok hplace).mp (erase_of_locate hplace h)

end Walk

/-- A leaf is what its path leads to. -/
theorem found?_of_leafAt? {schema : SchemaNode} {node : Node} (h : IsPlace schema node)
    {elems : List PathElem} {value : LeafValue} (hleaf : node.leafAt? elems = some value) :
    node.found? elems = some (.leaf value) := by
  induction elems generalizing schema node with
  | nil =>
    obtain ⟨children, rfl⟩ := h.isContainer
    cases hleaf
  | cons elem rest ih =>
    obtain ⟨children, rfl⟩ := h.isContainer
    rw [leafAt?_cons, next?_container] at hleaf
    obtain ⟨sub, hsub, hleaf⟩ := Option.bind_eq_some_iff.mp hleaf
    obtain ⟨child, hget, hselect⟩ := Option.bind_eq_some_iff.mp hsub
    obtain ⟨childSchema, -, hfits⟩ := h.child hget
    cases rest with
    | cons next more =>
      rw [found?_cons _ elem (List.cons_ne_nil next more), next?_container, hsub]
      cases hfits with
      | leaf schema found =>
        obtain ⟨-, rfl⟩ := (isSingle_leaf found).select?_eq_some.mp hselect
        cases hleaf
      | @container schemas inner sorted known fits =>
        obtain ⟨-, rfl⟩ := (isSingle_container inner).select?_eq_some.mp hselect
        have hinner : IsPlace (.container schemas) (.container inner) :=
          Fits.container sorted known fits
        exact ih hinner hleaf
      | @list keys max schemas entries sorted fits =>
        rw [select?_list] at hselect
        have hentry : IsPlace (.container schemas) sub := fits _ _ hselect
        exact ih hentry hleaf
    | nil =>
      rw [found?, named?_container, hget, Option.bind_some]
      cases hfits with
      | leaf schema found =>
        obtain ⟨hkeys, rfl⟩ := (isSingle_leaf found).select?_eq_some.mp hselect
        cases hleaf
        rw [if_pos hkeys]
      | container sorted known fits =>
        obtain ⟨-, rfl⟩ := (isSingle_container _).select?_eq_some.mp hselect
        cases hleaf
      | list sorted fits =>
        rw [select?_list] at hselect
        obtain ⟨inner, rfl⟩ := fits_container (fits _ _ hselect)
        cases hleaf

theorem locate_of_leafAt? {schema target : SchemaNode} {node : Node} {path : Path}
    (hplace : IsPlace schema node) (hlocate : schema.locate path = .ok target)
    {value : LeafValue} (hleaf : node.leafAt? path.elems = some value) :
    node.locate schema path = .ok (some (.leaf value)) := by
  rw [locate_eq_found? hplace (erasable_of_locate hplace hlocate),
    found?_of_leafAt? hplace hleaf]

end Node

end Telemetry
