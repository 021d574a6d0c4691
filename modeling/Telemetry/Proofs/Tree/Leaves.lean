import Telemetry.Proofs.Path.Identity
import Telemetry.Proofs.Tree.Shape
import Telemetry.Tree.Diff

/-!
The leaves of a tree as a map from their paths. `Node.leafMap` reads the map off the list of
leaves; for trees in the shape of a schema it is what walking down the tree finds, so that
every listed leaf stands at its path and no path is listed twice.
-/

namespace Telemetry

abbrev LeafMap := List PathElem → Option LeafValue

namespace Node

def leafMap (root : Node) : LeafMap := fun elems =>
  (root.leaves.find? fun leaf => leaf.1.elems = elems).map (·.2)

def leafAt? (node : Node) : LeafMap
  | [] =>
    match node with
    | .leaf value => some value
    | _ => none
  | elem :: rest => (node.next? elem).bind (leafAt? · rest)

theorem leafAt?_cons (node : Node) (elem : PathElem) (rest : List PathElem) :
    node.leafAt? (elem :: rest) = (node.next? elem).bind (leafAt? · rest) := rfl

theorem leafAt?_emptyContainer (elems : List PathElem) : emptyContainer.leafAt? elems = none := by
  cases elems <;> rfl

/-- The schema has a leaf wherever a tree in its shape has one. -/
theorem descend_of_leafAt? {schema : SchemaNode} {node : Node} (h : IsPlace schema node)
    {elems : List PathElem} {value : LeafValue} (hleaf : node.leafAt? elems = some value) :
    ∃ leafSchema, schema.descend elems = some (.leaf leafSchema) := by
  induction elems generalizing schema node with
  | nil =>
    obtain ⟨children, rfl⟩ := h.isContainer
    cases hleaf
  | cons elem rest ih =>
    obtain ⟨children, rfl⟩ := h.isContainer
    rw [leafAt?_cons, next?_container] at hleaf
    obtain ⟨sub, hsub, hleaf⟩ := Option.bind_eq_some_iff.mp hleaf
    obtain ⟨child, hget, hselect⟩ := Option.bind_eq_some_iff.mp hsub
    obtain ⟨childSchema, hschema, hfits⟩ := h.child hget
    rw [SchemaNode.descend, hschema, Option.bind_some]
    cases hfits with
    | leaf schema found =>
      obtain ⟨-, rfl⟩ := (isSingle_leaf found).select?_eq_some.mp hselect
      cases rest with
      | nil => exact ⟨schema, rfl⟩
      | cons next more => cases hleaf
    | container sorted known fits =>
      obtain ⟨-, rfl⟩ := (isSingle_container _).select?_eq_some.mp hselect
      exact ih (Fits.container sorted known fits) hleaf
    | list sorted fits =>
      rw [select?_list] at hselect
      exact ih (fits _ _ hselect) hleaf

/-- A leaf listed below children is listed below what one element leads to. -/
private theorem mem_entryLeaves {entries : List (Keys × Node)} {name : String}
    {above : List PathElem} {leaf : Path × LeafValue} :
    leaf ∈ entryLeaves entries name above ↔ ∃ key entry, (key, entry) ∈ entries ∧
      leaf ∈ entry.leavesBelow (above ++ [⟨name, key⟩]) := by
  induction entries with
  | nil => simp [entryLeaves]
  | cons head rest ih =>
    obtain ⟨key, entry⟩ := head
    simp only [entryLeaves, List.mem_append, ih, List.mem_cons, Prod.mk.injEq]
    constructor
    · rintro (h | ⟨k, e, hmem, h⟩)
      · exact ⟨key, entry, Or.inl ⟨rfl, rfl⟩, h⟩
      · exact ⟨k, e, Or.inr hmem, h⟩
    · rintro ⟨k, e, ⟨rfl, rfl⟩ | hmem, h⟩
      · exact Or.inl h
      · exact Or.inr ⟨k, e, hmem, h⟩

private theorem mem_childLeaves {children : List (String × Node)} {above : List PathElem}
    {leaf : Path × LeafValue}
    (hsorted : ∀ name entries, (name, list entries) ∈ children → SortedMap.Sorted entries) :
    leaf ∈ childLeaves children above ↔ ∃ name child key sub, (name, child) ∈ children ∧
      child.select? key = some sub ∧ leaf ∈ sub.leavesBelow (above ++ [⟨name, key⟩]) := by
  induction children with
  | nil => simp [childLeaves]
  | cons head rest ih =>
    obtain ⟨name, child⟩ := head
    have hrest := ih fun n e h => hsorted n e (List.mem_cons_of_mem _ h)
    have hhead : leaf ∈ childLeaves ((name, child) :: rest) above ↔
        (∃ key sub, child.select? key = some sub ∧
          leaf ∈ sub.leavesBelow (above ++ [⟨name, key⟩])) ∨ leaf ∈ childLeaves rest above := by
      cases child with
      | list entries =>
        have hentries := hsorted name entries List.mem_cons_self
        simp only [childLeaves, List.mem_append, mem_entryLeaves, select?,
          SortedMap.mem_iff_get?_eq_some hentries]
      | container children =>
        rw [(isSingle_container children).exists_select?]
        simp only [childLeaves, List.mem_append, PathElem.plain]
      | leaf value =>
        rw [(isSingle_leaf value).exists_select?]
        simp only [childLeaves, List.mem_append, PathElem.plain]
    rw [hhead, hrest]
    constructor
    · rintro (⟨key, sub, hselect, h⟩ | ⟨n, c, key, sub, hmem, hselect, h⟩)
      · exact ⟨name, child, key, sub, List.mem_cons_self, hselect, h⟩
      · exact ⟨n, c, key, sub, List.mem_cons_of_mem _ hmem, hselect, h⟩
    · rintro ⟨n, c, key, sub, hmem, hselect, h⟩
      rcases List.mem_cons.mp hmem with heq | hmem
      · obtain ⟨rfl, rfl⟩ := Prod.mk.inj heq
        exact Or.inl ⟨key, sub, hselect, h⟩
      · exact Or.inr ⟨n, c, key, sub, hmem, hselect, h⟩

mutual

/-- A listed leaf stands at or below the place that the list is made for. -/
theorem length_le_of_mem_leavesBelow (node : Node) (above : List PathElem) :
    ∀ leaf ∈ node.leavesBelow above, above.length ≤ leaf.1.elems.length := by
  intro leaf hleaf
  match node with
  | .leaf value =>
    rw [List.mem_singleton.mp hleaf]
    exact Nat.le_refl _
  | .container children =>
    exact Nat.le_of_lt (length_lt_of_mem_childLeaves children above leaf hleaf)
  | .list entries => cases hleaf

theorem length_lt_of_mem_childLeaves (children : List (String × Node)) (above : List PathElem) :
    ∀ leaf ∈ childLeaves children above, above.length < leaf.1.elems.length := by
  intro leaf hleaf
  match children with
  | [] => cases hleaf
  | (name, .list entries) :: rest =>
    rcases List.mem_append.mp hleaf with hleaf | hleaf
    · exact length_lt_of_mem_entryLeaves entries name above leaf hleaf
    · exact length_lt_of_mem_childLeaves rest above leaf hleaf
  | (name, .leaf value) :: rest =>
    rcases List.mem_append.mp hleaf with hleaf | hleaf
    · have hbelow := length_le_of_mem_leavesBelow (.leaf value) _ leaf hleaf
      rwa [List.length_append] at hbelow
    · exact length_lt_of_mem_childLeaves rest above leaf hleaf
  | (name, .container own) :: rest =>
    rcases List.mem_append.mp hleaf with hleaf | hleaf
    · have hbelow := length_le_of_mem_leavesBelow (.container own) _ leaf hleaf
      rwa [List.length_append] at hbelow
    · exact length_lt_of_mem_childLeaves rest above leaf hleaf

theorem length_lt_of_mem_entryLeaves (entries : List (Keys × Node)) (name : String)
    (above : List PathElem) :
    ∀ leaf ∈ entryLeaves entries name above, above.length < leaf.1.elems.length := by
  intro leaf hleaf
  match entries with
  | [] => cases hleaf
  | (keys, entry) :: rest =>
    rcases List.mem_append.mp hleaf with hleaf | hleaf
    · have hbelow := length_le_of_mem_leavesBelow entry _ leaf hleaf
      rwa [List.length_append] at hbelow
    · exact length_lt_of_mem_entryLeaves rest name above leaf hleaf

end

/-- A container has no leaf itself, whatever is below it. -/
theorem elems_ne_nil_of_mem_leaves {root : Node} (hroot : root.isContainer = true)
    {leaf : Path × LeafValue} (h : leaf ∈ root.leaves) : leaf.1.elems ≠ [] := by
  intro hempty
  cases root with
  | container children =>
    have hlength := length_lt_of_mem_childLeaves children [] leaf h
    rw [hempty] at hlength
    cases hlength
  | _ => cases hroot

/-- What the leaves below a node are: those found by walking down from it. -/
private def ListsLeaves (node : Node) : Prop :=
  ∀ above leaf, leaf ∈ node.leavesBelow above ↔
    ∃ rel, leaf.1 = Path.ofElems (above ++ rel) ∧ node.leafAt? rel = some leaf.2

private theorem listsLeaves_leaf (value : LeafValue) : ListsLeaves (.leaf value) := by
  rintro above ⟨path, v⟩
  simp only [leavesBelow, List.mem_singleton, Prod.mk.injEq]
  constructor
  · rintro ⟨rfl, rfl⟩
    exact ⟨[], by simp, rfl⟩
  · rintro ⟨rel, rfl, h⟩
    cases rel with
    | nil => exact ⟨by simp, (Option.some.inj h).symm⟩
    | cons => simp [leafAt?, next?, children?] at h

private theorem listsLeaves_container {children : List (String × Node)}
    (hchildren : SortedMap.Sorted children)
    (hentries : ∀ name entries, (name, list entries) ∈ children → SortedMap.Sorted entries)
    (hbelow : ∀ name child key sub, SortedMap.get? children name = some child →
      child.select? key = some sub → ListsLeaves sub) :
    ListsLeaves (.container children) := by
  rintro above ⟨path, v⟩
  simp only [leavesBelow]
  rw [mem_childLeaves hentries]
  constructor
  · rintro ⟨name, child, key, sub, hmem, hselect, h⟩
    have hget := SortedMap.get?_eq_some_of_mem hchildren hmem
    obtain ⟨rel, hpath, hleaf⟩ := (hbelow name child key sub hget hselect _ _).mp h
    refine ⟨⟨name, key⟩ :: rel, by simpa using hpath, ?_⟩
    simp [leafAt?_cons, next?, children?, hget, hselect, hleaf]
  · rintro ⟨rel, hpath, hleaf⟩
    cases rel with
    | nil => simp [leafAt?] at hleaf
    | cons elem rel =>
      simp only [leafAt?_cons, next?, children?, Option.bind_some] at hleaf
      obtain ⟨sub, hsub, hleaf⟩ := Option.bind_eq_some_iff.mp hleaf
      obtain ⟨child, hget, hselect⟩ := Option.bind_eq_some_iff.mp hsub
      refine ⟨elem.name, child, elem.keys, sub, SortedMap.mem_of_get?_eq_some hget, hselect, ?_⟩
      exact (hbelow _ child _ sub hget hselect _ _).mpr ⟨rel, by simpa using hpath, hleaf⟩

/-- The induction runs over the shape and speaks of what keys select of a node, since a list
alone lists nothing. -/
private theorem listsLeaves_of_fits {schema : SchemaNode} {node : Node} (h : Fits schema node) :
    ∀ key sub, node.select? key = some sub → ListsLeaves sub := by
  induction h with
  | leaf schema value =>
    intro key sub hselect
    obtain ⟨-, rfl⟩ := (isSingle_leaf value).select?_eq_some.mp hselect
    exact listsLeaves_leaf value
  | container sorted known fits ih =>
    intro key sub hselect
    obtain ⟨-, rfl⟩ := (isSingle_container _).select?_eq_some.mp hselect
    apply listsLeaves_container sorted
    · intro name entries hmem
      have hget := SortedMap.get?_eq_some_of_mem sorted hmem
      obtain ⟨childSchema, hschema⟩ := Option.isSome_iff_exists.mp (known _ _ hget)
      cases fits _ _ _ hget hschema with
      | list sorted fits => exact sorted
    · intro name child key sub hget
      obtain ⟨childSchema, hschema⟩ := Option.isSome_iff_exists.mp (known _ _ hget)
      exact ih name child childSchema hget hschema key sub
  | list sorted fits ih =>
    intro key sub hselect
    obtain ⟨children, hchildren⟩ := fits_container (fits key sub hselect)
    exact ih key sub hselect [] sub (hchildren ▸ select?_container_nil children)

theorem mem_leaves_iff {schema : SchemaNode} {root : Node} (h : IsPlace schema root)
    {leaf : Path × LeafValue} :
    leaf ∈ root.leaves ↔ leaf.1 = Path.ofElems leaf.1.elems ∧
      root.leafAt? leaf.1.elems = some leaf.2 := by
  obtain ⟨children, hchildren⟩ := h.isContainer
  have hlists := listsLeaves_of_fits h [] root (hchildren ▸ select?_container_nil children)
  rw [leaves, hlists]
  constructor
  · rintro ⟨rel, hpath, hleaf⟩
    simp only [List.nil_append] at hpath
    simp [hpath, Path.ofElems, hleaf]
  · rintro ⟨hpath, hleaf⟩
    exact ⟨leaf.1.elems, by simpa using hpath, hleaf⟩

theorem leafMap_eq_leafAt? {schema : SchemaNode} {root : Node} (h : IsPlace schema root) :
    root.leafMap = root.leafAt? := by
  funext elems
  cases hfind : root.leaves.find? fun leaf => leaf.1.elems = elems with
  | none =>
    cases hleaf : root.leafAt? elems with
    | none => simp [leafMap, hfind]
    | some value =>
      have hmem : (Path.ofElems elems, value) ∈ root.leaves :=
        (mem_leaves_iff h).mpr ⟨rfl, hleaf⟩
      have hnot := List.find?_eq_none.mp hfind _ hmem
      simp [Path.ofElems] at hnot
  | some leaf =>
    have helems : leaf.1.elems = elems := by simpa using List.find?_some hfind
    have hleaf := ((mem_leaves_iff h).mp (List.mem_of_find?_eq_some hfind)).2
    rw [helems] at hleaf
    simp [leafMap, hfind, hleaf]

end Node

end Telemetry
