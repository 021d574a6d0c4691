import Telemetry.Proofs.SortedMap
import Telemetry.Tree.Edit

/-!
The shape that a schema gives to trees: nodes of the kinds of their schema nodes, children and
entries in order, entries being containers. A path element leads from a node to the node one
step below it; where a tree has the shape of a schema these steps stay within the schema.
-/

namespace Telemetry

namespace SchemaNode

def fields (schema : SchemaNode) : List (String × SchemaNode) :=
  schema.children?.getD []

theorem child?_eq_get?_fields (schema : SchemaNode) (name : String) :
    schema.child? name = SortedMap.get? schema.fields name := by
  cases schema <;> rfl

def descend (schema : SchemaNode) : List PathElem → Option SchemaNode
  | [] => some schema
  | elem :: rest => (schema.child? elem.name).bind (descend · rest)

theorem descend_plain {schema child : SchemaNode} {name : String}
    (hchild : schema.child? name = some child) (elems : List PathElem) :
    schema.descend (PathElem.plain name :: elems) = child.descend elems := by
  rw [descend, PathElem.plain, hchild, Option.bind_some]

theorem descend_append (schema : SchemaNode) (elems rest : List PathElem) :
    schema.descend (elems ++ rest) = (schema.descend elems).bind (descend · rest) := by
  induction elems generalizing schema with
  | nil => rfl
  | cons elem elems ih =>
    rw [List.cons_append, descend, descend]
    cases schema.child? elem.name with
    | none => rfl
    | some child => exact ih child

end SchemaNode

namespace Node

/-- What the keys of an element select of the node that its name leads to: an entry of a list,
any other node itself if there are no keys. -/
def select? : Node → Keys → Option Node
  | .list entries, keys => SortedMap.get? entries keys
  | node, [] => some node
  | _, _ :: _ => none

def next? (node : Node) (elem : PathElem) : Option Node :=
  node.children?.bind fun children =>
    (SortedMap.get? children elem.name).bind (·.select? elem.keys)

/-- A node has the kind that its schema node has, and so has everything below it. -/
inductive Fits : SchemaNode → Node → Prop
  | leaf (schema : LeafSchema) (value : LeafValue) : Fits (.leaf schema) (.leaf value)
  | container {schemas : List (String × SchemaNode)} {children : List (String × Node)}
      (sorted : SortedMap.Sorted children)
      (known : ∀ name child, SortedMap.get? children name = some child →
        (SortedMap.get? schemas name).isSome)
      (fits : ∀ name child schema, SortedMap.get? children name = some child →
        SortedMap.get? schemas name = some schema → Fits schema child) :
      Fits (.container schemas) (.container children)
  | list {keys : List String} {max : Option UInt64} {schemas : List (String × SchemaNode)}
      {entries : List (Keys × Node)} (sorted : SortedMap.Sorted entries)
      (fits : ∀ key entry, SortedMap.get? entries key = some entry →
        Fits (.container schemas) entry) :
      Fits (.list keys max schemas) (.list entries)

/-- A node is a container, or an entry of a list, with the children of a schema node. -/
def IsPlace (schema : SchemaNode) (node : Node) : Prop :=
  Fits (.container schema.fields) node

@[simp]
theorem select?_list (entries : List (Keys × Node)) (keys : Keys) :
    (list entries).select? keys = SortedMap.get? entries keys := by
  cases keys <;> rfl

theorem select?_container_nil (children : List (String × Node)) :
    (container children).select? [] = some (container children) := rfl

theorem select?_container_of_ne {keys : Keys} (h : keys ≠ []) (children : List (String × Node)) :
    (container children).select? keys = none := by
  cases keys with
  | nil => exact absurd rfl h
  | cons pair rest => rfl

def IsSingle (node : Node) : Prop :=
  ∀ key, node.select? key = if key = [] then some node else none

theorem isSingle_container (children : List (String × Node)) : IsSingle (.container children) := by
  intro key
  cases key <;> rfl

theorem isSingle_leaf (value : LeafValue) : IsSingle (.leaf value) := by
  intro key
  cases key <;> rfl

theorem IsSingle.select?_eq_some {node sub : Node} (h : IsSingle node) {key : Keys} :
    node.select? key = some sub ↔ key = [] ∧ sub = node := by
  rw [h key]
  by_cases hkey : key = [] <;> simp [hkey, eq_comm]

theorem IsSingle.exists_select? {node : Node} (h : IsSingle node) {P : Keys → Node → Prop} :
    (∃ key sub, node.select? key = some sub ∧ P key sub) ↔ P [] node := by
  constructor
  · rintro ⟨key, sub, hselect, hsub⟩
    obtain ⟨rfl, rfl⟩ := h.select?_eq_some.mp hselect
    exact hsub
  · intro hnode
    exact ⟨[], node, h.select?_eq_some.mpr ⟨rfl, rfl⟩, hnode⟩

theorem next?_container (children : List (String × Node)) (elem : PathElem) :
    (container children).next? elem =
      (SortedMap.get? children elem.name).bind (·.select? elem.keys) := rfl

theorem select?_of_fits_list {keys : List String} {max : Option UInt64}
    {schemas : List (String × SchemaNode)} {node : Node} (h : Fits (.list keys max schemas) node) :
    ∃ entries, node = .list entries ∧ SortedMap.Sorted entries ∧
      ∀ key entry, SortedMap.get? entries key = some entry → Fits (.container schemas) entry := by
  cases h with
  | list sorted fits => exact ⟨_, rfl, sorted, fits⟩

theorem fits_container {schemas : List (String × SchemaNode)} {node : Node}
    (h : Fits (.container schemas) node) : ∃ children, node = .container children := by
  cases h with
  | container sorted known fits => exact ⟨_, rfl⟩

theorem fits_leaf {schema : LeafSchema} {node : Node} (h : Fits (.leaf schema) node) :
    ∃ value, node = .leaf value := by
  cases h with
  | leaf value => exact ⟨_, rfl⟩

namespace IsPlace

variable {schema : SchemaNode} {node : Node} {children : List (String × Node)}

theorem isContainer (h : IsPlace schema node) : ∃ children, node = .container children :=
  fits_container h

theorem sorted (h : IsPlace schema (.container children)) : SortedMap.Sorted children := by
  cases h with
  | container sorted known fits => exact sorted

/-- Every child is one that the schema has, and fits it. -/
theorem child (h : IsPlace schema (.container children)) {name : String} {child : Node}
    (hget : SortedMap.get? children name = some child) :
    ∃ childSchema, schema.child? name = some childSchema ∧ Fits childSchema child := by
  cases h with
  | container sorted known fits =>
    obtain ⟨childSchema, hschema⟩ := Option.isSome_iff_exists.mp (known name child hget)
    exact ⟨childSchema, by rw [schema.child?_eq_get?_fields, hschema],
      fits name child childSchema hget hschema⟩

theorem child_fits (h : IsPlace schema (.container children)) {name : String} {child : Node}
    {childSchema : SchemaNode} (hget : SortedMap.get? children name = some child)
    (hschema : schema.child? name = some childSchema) : Fits childSchema child := by
  obtain ⟨other, hother, hfits⟩ := h.child hget
  rw [hschema] at hother
  exact Option.some.inj hother ▸ hfits

theorem empty (schema : SchemaNode) : IsPlace schema emptyContainer := by
  refine Fits.container SortedMap.sorted_nil ?_ ?_
  · intro name child h
    simp [SortedMap.get?] at h
  · intro name child schema h
    simp [SortedMap.get?] at h

/-- A fitting child may be put in place of any other. -/
theorem insert (h : IsPlace schema (.container children)) {name : String} {child : Node}
    {childSchema : SchemaNode} (hschema : schema.child? name = some childSchema)
    (hfits : Fits childSchema child) :
    IsPlace schema (.container (SortedMap.insert children name child)) := by
  rw [schema.child?_eq_get?_fields] at hschema
  cases h with
  | container sorted known fits =>
    refine Fits.container (sorted.insert name child) ?_ ?_
    · intro other node hget
      rw [SortedMap.get?_insert] at hget
      by_cases hname : other = name
      · simp [hname, hschema]
      · simp only [hname, if_false] at hget
        exact known other node hget
    · intro other node otherSchema hget hother
      rw [SortedMap.get?_insert] at hget
      by_cases hname : other = name
      · subst hname
        simp only [if_true, Option.some.injEq] at hget
        rw [hschema] at hother
        exact Option.some.inj hother ▸ hget ▸ hfits
      · simp only [hname, if_false] at hget
        exact fits other node otherSchema hget hother

theorem erase (h : IsPlace schema (.container children)) (name : String) :
    IsPlace schema (.container (SortedMap.erase children name)) := by
  cases h with
  | container sorted known fits =>
    refine Fits.container (sorted.erase name) ?_ ?_
    · intro other node hget
      rw [SortedMap.get?_erase] at hget
      by_cases hname : other = name
      · simp [hname] at hget
      · simp only [hname, if_false] at hget
        exact known other node hget
    · intro other node otherSchema hget hother
      rw [SortedMap.get?_erase] at hget
      by_cases hname : other = name
      · simp [hname] at hget
      · simp only [hname, if_false] at hget
        exact fits other node otherSchema hget hother

end IsPlace

namespace Fits

variable {keys : List String} {max : Option UInt64} {schemas : List (String × SchemaNode)}
  {entries : List (Keys × Node)}

theorem emptyList : Fits (.list keys max schemas) Node.emptyList := by
  refine Fits.list SortedMap.sorted_nil ?_
  intro key entry h
  simp [SortedMap.get?] at h

theorem insertEntry (h : Fits (.list keys max schemas) (.list entries)) (key : Keys)
    {entry : Node} (hentry : Fits (.container schemas) entry) :
    Fits (.list keys max schemas) (.list (SortedMap.insert entries key entry)) := by
  cases h with
  | list sorted fits =>
    refine Fits.list (sorted.insert key entry) ?_
    intro other node hget
    rw [SortedMap.get?_insert] at hget
    by_cases hkey : other = key
    · simp only [hkey, if_true, Option.some.injEq] at hget
      exact hget ▸ hentry
    · simp only [hkey, if_false] at hget
      exact fits other node hget

theorem eraseEntry (h : Fits (.list keys max schemas) (.list entries)) (key : Keys) :
    Fits (.list keys max schemas) (.list (SortedMap.erase entries key)) := by
  cases h with
  | list sorted fits =>
    refine Fits.list (sorted.erase key) ?_
    intro other node hget
    rw [SortedMap.get?_erase] at hget
    by_cases hkey : other = key
    · simp [hkey] at hget
    · simp only [hkey, if_false] at hget
      exact fits other node hget

end Fits

end Node

end Telemetry
