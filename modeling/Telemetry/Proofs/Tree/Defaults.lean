import Telemetry.Proofs.Tree.Conformance

/-!
Filling in defaults. A tree in the shape of its schema keeps that shape, also where a default does
not convert. The default root holds leaves only, and as it is valid these stand where the schema
has leaves; so it is a place of the schema's root, which is a container.
-/

namespace Telemetry

inductive SchemaNode.Ordered : SchemaNode → Prop
  | leaf (schema : LeafSchema) : Ordered (.leaf schema)
  | container {children : List (String × SchemaNode)} (sorted : SortedMap.Sorted children)
      (below : ∀ child ∈ children, Ordered child.2) : Ordered (.container children)
  | list {keys : List String} {max : Option UInt64} {children : List (String × SchemaNode)}
      (sorted : SortedMap.Sorted children) (below : ∀ child ∈ children, Ordered child.2) :
      Ordered (.list keys max children)

namespace Node

section Shape

private def FillsPlaces (schema : SchemaNode) : Prop :=
  ∀ place node, IsPlace schema node → IsPlace schema (fillNode schema place node).2

/-- Entries keep their keys, and each of them is edited or stays as it is. -/
private theorem editEntries_spec (edit : Node → Edited Unit Node) (entries : List (Keys × Node)) :
    SortedMap.keys (editEntries edit entries).2 = SortedMap.keys entries ∧
      ∀ key entry, (key, entry) ∈ (editEntries edit entries).2 →
        ∃ old, (key, old) ∈ entries ∧ (entry = old ∨ entry = (edit old).2) := by
  induction entries with
  | nil => exact ⟨rfl, fun key entry hmem => by cases hmem⟩
  | cons head rest ih =>
    obtain ⟨headKey, first⟩ := head
    unfold editEntries
    cases hedit : edit first with
    | mk result filled =>
      cases result with
      | error e =>
        refine ⟨rfl, ?_⟩
        intro key entry hmem
        rcases List.mem_cons.mp hmem with heq | hmem
        · obtain ⟨rfl, rfl⟩ := Prod.mk.inj heq
          exact ⟨first, List.mem_cons_self, Or.inr (by rw [hedit])⟩
        · exact ⟨entry, List.mem_cons_of_mem _ hmem, Or.inl rfl⟩
      | ok =>
        refine ⟨congrArg (headKey :: ·) ih.1, ?_⟩
        intro key entry hmem
        rcases List.mem_cons.mp hmem with heq | hmem
        · obtain ⟨rfl, rfl⟩ := Prod.mk.inj heq
          exact ⟨first, List.mem_cons_self, Or.inr (by rw [hedit])⟩
        · obtain ⟨old, hold, hentry⟩ := ih.2 key entry hmem
          exact ⟨old, List.mem_cons_of_mem _ hold, hentry⟩

private theorem fits_editEntries {keys : List String} {max : Option UInt64}
    {schemas : List (String × SchemaNode)} {entries : List (Keys × Node)}
    {edit : Node → Edited Unit Node} (h : Fits (.list keys max schemas) (.list entries))
    (hedit : ∀ entry, Fits (.container schemas) entry → Fits (.container schemas) (edit entry).2) :
    Fits (.list keys max schemas) (.list (editEntries edit entries).2) := by
  obtain ⟨hkeys, hentries⟩ := editEntries_spec edit entries
  cases h with
  | list sorted fits =>
    have hsorted : (SortedMap.keys (editEntries edit entries).2).Pairwise
        fun a b => compare a b = .lt := hkeys ▸ List.pairwise_map.mpr sorted
    refine Fits.list (List.pairwise_map.mp hsorted) ?_
    intro key entry hget
    obtain ⟨old, hold, hentry⟩ := hentries key entry (SortedMap.mem_of_get?_eq_some hget)
    have hfits := fits key old (SortedMap.get?_eq_some_of_mem sorted hold)
    rcases hentry with rfl | rfl
    · exact hfits
    · exact hedit old hfits

private theorem isPlace_fillChildren {all : List (String × SchemaNode)} (place : String)
    (schemas : List (String × SchemaNode))
    (hknown : ∀ child ∈ schemas, SortedMap.get? all child.1 = some child.2)
    (hbelow : ∀ child ∈ schemas, FillsPlaces child.2) {children : List (String × Node)}
    (h : IsPlace (.container all) (.container children)) :
    IsPlace (.container all) (.container (fillChildren schemas place children).2) := by
  induction schemas generalizing children with
  | nil => simpa [fillChildren] using h
  | cons head rest ih =>
    obtain ⟨name, schema⟩ := head
    have hchild : (SchemaNode.container all).child? name = some schema :=
      hknown (name, schema) List.mem_cons_self
    have hfills : FillsPlaces schema := hbelow (name, schema) List.mem_cons_self
    have hrest : ∀ {others : List (String × Node)},
        IsPlace (.container all) (.container others) →
          IsPlace (.container all) (.container (fillChildren rest place others).2) :=
      ih (fun child hmem => hknown child (List.mem_cons_of_mem _ hmem))
        (fun child hmem => hbelow child (List.mem_cons_of_mem _ hmem))
    unfold fillChildren
    cases schema with
    | leaf leafSchema =>
      simp only
      split
      · split
        · exact h
        · exact hrest (h.insert hchild (Fits.leaf leafSchema _))
      · exact hrest h
    | container schemas =>
      simp only
      cases hget : SortedMap.get? children name with
      | none => exact hrest h
      | some child =>
        have hfilled := h.insert hchild
          (hfills (place ++ "/" ++ name) child (h.child_fits hget hchild))
        simp only [fillNode] at hfilled
        cases hfill : fillChildrenOf schemas (place ++ "/" ++ name) child with
        | mk result filled =>
          rw [hfill] at hfilled
          simp only [hfill]
          cases result with
          | error e => exact hfilled
          | ok => exact hrest hfilled
    | list keys max schemas =>
      simp only
      cases hget : SortedMap.get? children name with
      | none => exact hrest h
      | some child =>
        have hfits := h.child_fits hget hchild
        obtain ⟨entries, rfl, -⟩ := select?_of_fits_list hfits
        have hedit : ∀ entry, Fits (.container schemas) entry → Fits (.container schemas)
            (fillChildrenOf schemas (place ++ "/" ++ name) entry).2 := by
          intro entry hentry
          have hfilled := hfills (place ++ "/" ++ name) entry hentry
          rwa [fillNode] at hfilled
        have hfilled := h.insert hchild (fits_editEntries hfits hedit)
        cases hfill : editEntries (fillChildrenOf schemas (place ++ "/" ++ name)) entries with
        | mk result filled =>
          rw [hfill] at hfilled
          simp only [hfill]
          cases result with
          | error e => exact hfilled
          | ok => exact hrest hfilled

private theorem fillsPlaces_of_ordered {schema : SchemaNode} (h : schema.Ordered) :
    FillsPlaces schema := by
  have hchildren : ∀ {schemas : List (String × SchemaNode)}, SortedMap.Sorted schemas →
      (∀ child ∈ schemas, FillsPlaces child.2) → ∀ place node, IsPlace (.container schemas) node →
        IsPlace (.container schemas) (fillChildrenOf schemas place node).2 := by
    intro schemas hsorted hbelow place node hplace
    obtain ⟨children, rfl⟩ := hplace.isContainer
    rw [fillChildrenOf]
    refine isPlace_fillChildren place schemas ?_ hbelow hplace
    intro child hmem
    exact SortedMap.get?_eq_some_of_mem hsorted hmem
  induction h with
  | leaf schema =>
    intro place node hplace
    exact hplace
  | container sorted below ih => exact hchildren sorted ih
  | list sorted below ih => exact hchildren sorted ih

/-- Filling in defaults keeps the shape of a tree. -/
theorem isPlace_fillDefaults {schema : SchemaNode} {node : Node} (h : schema.Ordered)
    (hplace : IsPlace schema node) : IsPlace schema (node.fillDefaults schema).2 :=
  fillsPlaces_of_ordered h "" node hplace

end Shape

def HoldsLeaves (children : List (String × Node)) : Prop :=
  SortedMap.Sorted children ∧ ∀ name child, SortedMap.get? children name = some child →
    ∃ value, child = .leaf value ∧ value.IsFinite

theorem holdsLeaves_nil : HoldsLeaves [] :=
  ⟨SortedMap.sorted_nil, fun _ _ h => by cases h⟩

theorem HoldsLeaves.insert {children : List (String × Node)} (h : HoldsLeaves children)
    (name : String) {value : LeafValue} (hvalue : value.IsFinite) :
    HoldsLeaves (SortedMap.insert children name (.leaf value)) := by
  refine ⟨h.1.insert name _, ?_⟩
  intro other child hget
  rw [SortedMap.get?_insert] at hget
  by_cases hname : other = name
  · simp only [hname, if_true, Option.some.injEq] at hget
    exact ⟨value, hget.symm, hvalue⟩
  · simp only [hname, if_false] at hget
    exact h.2 other child hget

/-- The leaves stand right at the root. -/
theorem HoldsLeaves.leafAt? {children : List (String × Node)} (h : HoldsLeaves children)
    {elems : List PathElem} {value : LeafValue}
    (hvalue : (container children).leafAt? elems = some value) :
    ∃ name, elems = [PathElem.plain name] ∧ value.IsFinite := by
  cases elems with
  | nil => cases hvalue
  | cons elem rest =>
    rw [leafAt?_container_cons] at hvalue
    obtain ⟨child, hget, hvalue⟩ := Option.bind_eq_some_iff.mp hvalue
    obtain ⟨sub, hselect, hvalue⟩ := Option.bind_eq_some_iff.mp hvalue
    obtain ⟨held, rfl, hheld⟩ := h.2 elem.name child hget
    obtain ⟨name, keys⟩ := elem
    cases keys with
    | cons pair more => cases hselect
    | nil =>
      cases hselect
      cases rest with
      | cons next more => cases hvalue
      | nil =>
        cases hvalue
        exact ⟨name, rfl, hheld⟩

theorem HoldsLeaves.wellFormed {children : List (String × Node)} (h : HoldsLeaves children) :
    (container children).leafAt?.WellFormed := by
  intro elems value hvalue
  obtain ⟨name, rfl, hfinite⟩ := h.leafAt? hvalue
  exact ⟨Path.keysOrdered_plain _, hfinite⟩

/-- Defaults are filled in where nothing stands, and below a leaf there is nothing to fill. -/
theorem holdsLeaves_fillChildren (schemas : List (String × SchemaNode)) (place : String)
    {children : List (String × Node)} (h : HoldsLeaves children)
    (hok : (fillChildren schemas place children).1 = .ok ()) :
    HoldsLeaves (fillChildren schemas place children).2 := by
  induction schemas generalizing children with
  | nil => simpa [fillChildren] using h
  | cons head rest ih =>
    obtain ⟨name, schema⟩ := head
    unfold fillChildren at hok ⊢
    cases hget : SortedMap.get? children name with
    | none =>
      cases schema with
      | container schemas =>
        simp only [hget] at hok ⊢
        exact ih h hok
      | list keys max schemas =>
        simp only [hget] at hok ⊢
        exact ih h hok
      | leaf leafSchema =>
        simp only [hget] at hok ⊢
        cases hdefault : leafSchema.default with
        | none =>
          simp only [hdefault] at hok ⊢
          exact ih h hok
        | some default =>
          simp only [hdefault] at hok ⊢
          cases hvalue : LeafValue.ofJson leafSchema.type default (place ++ "/" ++ name) with
          | error e => simp [hvalue] at hok
          | ok value =>
            simp only [hvalue] at hok ⊢
            exact ih (h.insert name (LeafValue.isFinite_of_ofJson hvalue)) hok
    | some child =>
      obtain ⟨value, rfl, -⟩ := h.2 name child hget
      cases schema with
      | container schemas => simp [hget, fillChildrenOf] at hok
      | list keys max schemas =>
        simp only [hget] at hok ⊢
        exact ih h hok
      | leaf leafSchema =>
        cases hdefault : leafSchema.default with
        | none =>
          simp only [hdefault, hget] at hok ⊢
          exact ih h hok
        | some default =>
          simp only [hdefault, hget] at hok ⊢
          exact ih h hok

/-- What is filled in below an empty node. -/
private theorem holdsLeaves_fillNode {schema : SchemaNode} {filled : Node}
    (h : fillNode schema "" emptyContainer = (.ok (), filled)) :
    ∃ children, filled = .container children ∧ HoldsLeaves children := by
  cases schema with
  | leaf leafSchema =>
    simp only [fillNode, Prod.mk.injEq, true_and] at h
    exact ⟨[], h.symm, holdsLeaves_nil⟩
  | container schemas =>
    simp only [fillNode, emptyContainer, fillChildrenOf, Prod.mk.injEq] at h
    exact ⟨_, h.2.symm, holdsLeaves_fillChildren schemas "" holdsLeaves_nil h.1⟩
  | list keys max schemas =>
    simp only [fillNode, emptyContainer, fillChildrenOf, Prod.mk.injEq] at h
    exact ⟨_, h.2.symm, holdsLeaves_fillChildren schemas "" holdsLeaves_nil h.1⟩

theorem HoldsLeaves.ordered {children : List (String × Node)} (h : HoldsLeaves children) :
    (container children).Ordered := by
  refine .container h.1 ?_
  intro name child hmem
  obtain ⟨value, rfl, -⟩ := h.2 name child (SortedMap.get?_eq_some_of_mem h.1 hmem)
  exact .leaf value

/-- Leaves that are valid below a container fit it. -/
theorem isPlace_of_validate {schema : SchemaNode} {children : List (String × Node)}
    (h : HoldsLeaves children) (hvalid : validate schema (.container children) = .ok ()) :
    IsPlace schema (.container children) := by
  obtain ⟨⟨schemas, rfl⟩, -⟩ := violations_container (validate_eq_ok.mp hvalid)
  exact fits_of_validate h.ordered hvalid

end Node

namespace Schema

/-- The default root is what defaults make of an empty tree, and has been checked. -/
theorem defaultRoot_eq_ok {schema : Schema} {root : Node} :
    schema.defaultRoot = .ok root ↔
      Node.fillDefaults schema.root Node.emptyContainer = (.ok (), root) ∧
        Node.validate schema.root root = .ok () := by
  unfold defaultRoot
  cases Node.fillDefaults schema.root Node.emptyContainer with
  | mk result filled =>
    cases result with
    | error e => simp
    | ok =>
      simp only [Prod.mk.injEq, true_and]
      constructor
      · intro h
        cases hvalid : Node.validate schema.root filled with
        | error e => simp [hvalid] at h
        | ok =>
          simp only [hvalid, Except.ok.injEq] at h
          exact ⟨h, h ▸ hvalid⟩
      · rintro ⟨rfl, hvalid⟩
        rw [hvalid]

/-- The default root is a place of the schema's root that holds finite leaves only. -/
theorem defaultRoot_spec {schema : Schema} {root : Node} (h : schema.defaultRoot = .ok root) :
    Node.IsPlace schema.root root ∧ ∃ children, root = .container children ∧
      Node.HoldsLeaves children := by
  obtain ⟨hfill, hvalid⟩ := defaultRoot_eq_ok.mp h
  obtain ⟨children, rfl, hleaves⟩ := Node.holdsLeaves_fillNode hfill
  exact ⟨Node.isPlace_of_validate hleaves hvalid, children, rfl, hleaves⟩

end Schema

end Telemetry
