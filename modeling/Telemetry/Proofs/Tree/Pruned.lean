import Telemetry.Proofs.Tree.Patch

/-!
Trees without what holds no leaf. Containers, lists and entries without any leaf at or below them
do not show in what is published; leaving them out, trees of one shape with equal leaves are equal.
-/

namespace Telemetry

namespace Node

mutual

def hasLeaf : Node → Bool
  | .container children => childHasLeaf children
  | .list entries => entryHasLeaf entries
  | .leaf _ => true

def childHasLeaf : List (String × Node) → Bool
  | [] => false
  | (_, child) :: rest => child.hasLeaf || childHasLeaf rest

def entryHasLeaf : List (Keys × Node) → Bool
  | [] => false
  | (_, entry) :: rest => entry.hasLeaf || entryHasLeaf rest

end

mutual

/-- A tree without the nodes below its root that hold no leaf. -/
def pruned : Node → Node
  | .container children => .container (prunedChildren children)
  | .list entries => .list (prunedEntries entries)
  | .leaf value => .leaf value

def prunedChildren : List (String × Node) → List (String × Node)
  | [] => []
  | (name, child) :: rest =>
    if child.hasLeaf then (name, child.pruned) :: prunedChildren rest else prunedChildren rest

def prunedEntries : List (Keys × Node) → List (Keys × Node)
  | [] => []
  | (key, entry) :: rest =>
    if entry.hasLeaf then (key, entry.pruned) :: prunedEntries rest else prunedEntries rest

end

theorem childHasLeaf_eq_true {children : List (String × Node)} :
    childHasLeaf children = true ↔ ∃ entry ∈ children, entry.2.hasLeaf = true := by
  induction children with
  | nil => simp [childHasLeaf]
  | cons entry rest ih => simp [childHasLeaf, ih]

theorem entryHasLeaf_eq_true {entries : List (Keys × Node)} :
    entryHasLeaf entries = true ↔ ∃ entry ∈ entries, entry.2.hasLeaf = true := by
  induction entries with
  | nil => simp [entryHasLeaf]
  | cons entry rest ih => simp [entryHasLeaf, ih]

theorem prunedChildren_eq (children : List (String × Node)) : prunedChildren children =
    (children.filter fun entry => entry.2.hasLeaf).map fun entry => (entry.1, entry.2.pruned) := by
  induction children with
  | nil => rfl
  | cons entry rest ih =>
    rw [prunedChildren, List.filter_cons, ih]
    split <;> rfl

theorem prunedEntries_eq (entries : List (Keys × Node)) : prunedEntries entries =
    (entries.filter fun entry => entry.2.hasLeaf).map fun entry => (entry.1, entry.2.pruned) := by
  induction entries with
  | nil => rfl
  | cons entry rest ih =>
    rw [prunedEntries, List.filter_cons, ih]
    split <;> rfl

theorem equalChildren_of_forall₂ {a b : List (String × Node)}
    (h : List.Forall₂ (fun x y => x.1 = y.1 ∧ x.2.equal y.2 = true) a b) :
    equalChildren a b = true := by
  induction h with
  | nil => rfl
  | cons hfirst _ ih => simp [equalChildren, hfirst.1, hfirst.2, ih]

theorem equalEntries_of_forall₂ {a b : List (Keys × Node)}
    (h : List.Forall₂ (fun x y => x.1 = y.1 ∧ x.2.equal y.2 = true) a b) :
    equalEntries a b = true := by
  induction h with
  | nil => rfl
  | cons hfirst _ ih => simp [equalEntries, hfirst.1, hfirst.2, ih]

def leafBelow? (node : Node) (keys : Keys) (rest : List PathElem) : Option LeafValue :=
  (node.select? keys).bind (leafAt? · rest)

theorem leafBelow?_container {children : List (String × Node)} {name : String} {child : Node}
    (hget : SortedMap.get? children name = some child) (keys : Keys) (rest : List PathElem) :
    (container children).leafBelow? [] (⟨name, keys⟩ :: rest) = child.leafBelow? keys rest := by
  simp [leafBelow?, select?_container_nil, leafAt?_cons, next?_container, hget]

theorem leafBelow?_container_eq_some {children : List (String × Node)} {keys : Keys}
    {elems : List PathElem} {value : LeafValue}
    (h : (container children).leafBelow? keys elems = some value) : keys = [] ∧
    ∃ name child below rest, elems = ⟨name, below⟩ :: rest ∧
      SortedMap.get? children name = some child ∧ child.leafBelow? below rest = some value := by
  obtain ⟨sub, hselect, hleaf⟩ := Option.bind_eq_some_iff.mp h
  obtain ⟨rfl, rfl⟩ := (isSingle_container children).select?_eq_some.mp hselect
  cases elems with
  | nil => cases hleaf
  | cons elem rest =>
    rw [leafAt?_cons, next?_container, Option.bind_assoc] at hleaf
    obtain ⟨child, hget, hbelow⟩ := Option.bind_eq_some_iff.mp hleaf
    exact ⟨rfl, elem.name, child, elem.keys, rest, rfl, hget, hbelow⟩

/-- An entry stands where its list leads to. -/
theorem leafBelow?_list {schemas : List (String × SchemaNode)} {entries : List (Keys × Node)}
    (hfits : ∀ key entry, SortedMap.get? entries key = some entry →
      Fits (.container schemas) entry) (keys : Keys) (rest : List PathElem) :
    (list entries).leafBelow? keys rest =
      (SortedMap.get? entries keys).bind (·.leafBelow? [] rest) := by
  rw [leafBelow?, select?_list]
  cases hget : SortedMap.get? entries keys with
  | none => rfl
  | some entry =>
    obtain ⟨children, rfl⟩ := fits_container (hfits keys entry hget)
    rfl

/-- There is a leaf at or below a node exactly if one is found there. -/
theorem Fits.hasLeaf_iff {schema : SchemaNode} {node : Node} (h : Fits schema node) :
    node.hasLeaf = true ↔ ∃ keys rest value, node.leafBelow? keys rest = some value := by
  induction h with
  | leaf schema value =>
    exact ⟨fun _ => ⟨[], [], value, rfl⟩, fun _ => rfl⟩
  | @container schemas children sorted known fits ih =>
    rw [hasLeaf, childHasLeaf_eq_true]
    constructor
    · rintro ⟨⟨name, child⟩, hmem, hleaf⟩
      have hget := SortedMap.get?_eq_some_of_mem sorted hmem
      obtain ⟨childSchema, hschema⟩ := Option.isSome_iff_exists.mp (known name child hget)
      obtain ⟨key, rest, value, hfound⟩ := (ih name child childSchema hget hschema).mp hleaf
      exact ⟨[], ⟨name, key⟩ :: rest, value, (leafBelow?_container hget key rest).trans hfound⟩
    · rintro ⟨key, elems, value, hfound⟩
      obtain ⟨-, name, child, below, rest, -, hget, hbelow⟩ := leafBelow?_container_eq_some hfound
      obtain ⟨childSchema, hschema⟩ := Option.isSome_iff_exists.mp (known name child hget)
      exact ⟨_, SortedMap.mem_of_get?_eq_some hget,
        (ih name child childSchema hget hschema).mpr ⟨below, rest, value, hbelow⟩⟩
  | @list keys max schemas entries sorted fits ih =>
    rw [hasLeaf, entryHasLeaf_eq_true]
    constructor
    · rintro ⟨⟨key, entry⟩, hmem, hleaf⟩
      have hget := SortedMap.get?_eq_some_of_mem sorted hmem
      obtain ⟨none, rest, value, hfound⟩ := (ih key entry hget).mp hleaf
      obtain ⟨children, rfl⟩ := fits_container (fits key entry hget)
      obtain ⟨rfl, -⟩ := leafBelow?_container_eq_some hfound
      exact ⟨key, rest, value, by rw [leafBelow?_list fits, hget, Option.bind_some, hfound]⟩
    · rintro ⟨key, rest, value, hfound⟩
      rw [leafBelow?_list fits] at hfound
      obtain ⟨entry, hget, hbelow⟩ := Option.bind_eq_some_iff.mp hfound
      exact ⟨_, SortedMap.mem_of_get?_eq_some hget,
        (ih key entry hget).mpr ⟨[], rest, value, hbelow⟩⟩

/-- No keys lead further from an entry. -/
theorem Fits.entry_hasLeaf_iff {schemas : List (String × SchemaNode)} {entry : Node}
    (h : Fits (.container schemas) entry) :
    entry.hasLeaf = true ↔ ∃ rest value, entry.leafBelow? [] rest = some value := by
  rw [h.hasLeaf_iff]
  constructor
  · rintro ⟨keys, rest, value, hfound⟩
    obtain ⟨children, rfl⟩ := fits_container h
    obtain ⟨rfl, -⟩ := leafBelow?_container_eq_some hfound
    exact ⟨rest, value, hfound⟩
  · rintro ⟨rest, value, hfound⟩
    exact ⟨[], rest, value, hfound⟩

section Equal

def SameBelow (a b : Node) : Prop :=
  ∀ keys, LeafMap.Same (a.leafBelow? keys) (b.leafBelow? keys)

/-- What is left of two nodes that may be there is equal if each has a leaf where the other has. -/
private theorem rel_pruned {x y : Option Node}
    (h : ∀ a, x = some a → a.hasLeaf = true →
      ∃ b, y = some b ∧ b.hasLeaf = true ∧ a.pruned.equal b.pruned = true)
    (hback : ∀ b, y = some b → b.hasLeaf = true → ∃ a, x = some a ∧ a.hasLeaf = true) :
    Option.Rel (fun a b => a.equal b = true) ((x.filter hasLeaf).map pruned)
      ((y.filter hasLeaf).map pruned) := by
  have hleft : ∀ z : Option Node, (∀ a, z = some a → ¬ a.hasLeaf = true) →
      z.filter hasLeaf = none := by
    intro z hz
    cases z with
    | none => rfl
    | some a => rw [Option.filter_some, if_neg (hz a rfl)]
  by_cases hsome : ∃ a, x = some a ∧ a.hasLeaf = true
  · obtain ⟨a, rfl, ha⟩ := hsome
    obtain ⟨b, rfl, hb, hequal⟩ := h a rfl ha
    rw [Option.filter_some, if_pos ha, Option.filter_some, if_pos hb]
    exact .some hequal
  · rw [hleft x fun a ha hleaf => hsome ⟨a, ha, hleaf⟩,
      hleft y fun b hb hleaf => hsome (hback b hb hleaf)]
    exact .none

/-- What is left of two maps is equal key by key if each has a leaf where the other has. -/
private theorem forall₂_pruned {κ : Type} [Ord κ] [Std.LawfulEqOrd κ] [Std.TransOrd κ]
    {m n : List (κ × Node)} (hm : SortedMap.Sorted m) (hn : SortedMap.Sorted n)
    (h : ∀ k a, SortedMap.get? m k = some a → a.hasLeaf = true →
      ∃ b, SortedMap.get? n k = some b ∧ b.hasLeaf = true ∧ a.pruned.equal b.pruned = true)
    (hback : ∀ k b, SortedMap.get? n k = some b → b.hasLeaf = true →
      ∃ a, SortedMap.get? m k = some a ∧ a.hasLeaf = true) :
    List.Forall₂ (fun x y => x.1 = y.1 ∧ x.2.equal y.2 = true)
      ((m.filter fun entry => entry.2.hasLeaf).map fun entry => (entry.1, entry.2.pruned))
      ((n.filter fun entry => entry.2.hasLeaf).map fun entry => (entry.1, entry.2.pruned)) := by
  refine SortedMap.forall₂_of_get? (R := fun a b => a.equal b = true)
    ((hm.filter _).map_values fun _ => pruned) ((hn.filter _).map_values fun _ => pruned) ?_
  intro k
  rw [SortedMap.get?_map _ fun _ => pruned, SortedMap.get?_map _ fun _ => pruned,
    SortedMap.get?_filter hm, SortedMap.get?_filter hn]
  exact rel_pruned (h k) (hback k)

theorem SameBelow.isSome_eq {a b : Node} (h : SameBelow a b) (keys : Keys)
    (rest : List PathElem) :
    (a.leafBelow? keys rest).isSome = (b.leafBelow? keys rest).isSome := by
  generalize hx : a.leafBelow? keys rest = x
  generalize hy : b.leafBelow? keys rest = y
  have hrel := h keys rest
  rw [hx, hy] at hrel
  cases hrel <;> rfl

section Children

variable {children others : List (String × Node)} {name : String} {child other : Node}

/-- Where a child holds a leaf the other container has a child that holds one. -/
theorem exists_child_of_isSome_eq
    (h : ∀ rest, ((container children).leafBelow? [] rest).isSome =
      ((container others).leafBelow? [] rest).isSome)
    (hget : SortedMap.get? children name = some child) {keys : Keys} {rest : List PathElem}
    {value : LeafValue} (hfound : child.leafBelow? keys rest = some value) :
    ∃ other found, SortedMap.get? others name = some other ∧
      other.leafBelow? keys rest = some found := by
  have hsome := h (⟨name, keys⟩ :: rest)
  rw [leafBelow?_container hget, hfound] at hsome
  obtain ⟨found, hother⟩ := Option.isSome_iff_exists.mp hsome.symm
  obtain ⟨-, _, other, below, more, hpath, hgetOther, hbelow⟩ :=
    leafBelow?_container_eq_some hother
  cases hpath
  exact ⟨other, found, hgetOther, hbelow⟩

theorem SameBelow.of_child (h : SameBelow (container children) (container others))
    (hget : SortedMap.get? children name = some child)
    (hother : SortedMap.get? others name = some other) : SameBelow child other := by
  intro keys rest
  have hrel := h [] (⟨name, keys⟩ :: rest)
  rwa [leafBelow?_container hget, leafBelow?_container hother] at hrel

end Children

section Entries

variable {schemas : List (String × SchemaNode)} {entries others : List (Keys × Node)}
  {key : Keys} {entry : Node} {children otherChildren : List (String × Node)}

/-- Where an entry holds a leaf the other list has an entry that holds one. -/
theorem exists_entry_of_isSome_eq
    (hfits : ∀ key entry, SortedMap.get? entries key = some entry →
      Fits (.container schemas) entry)
    (hothers : ∀ key entry, SortedMap.get? others key = some entry →
      Fits (.container schemas) entry)
    (h : ∀ keys rest, ((list entries).leafBelow? keys rest).isSome =
      ((list others).leafBelow? keys rest).isSome)
    (hget : SortedMap.get? entries key = some entry) {rest : List PathElem} {value : LeafValue}
    (hfound : entry.leafBelow? [] rest = some value) :
    ∃ other found, SortedMap.get? others key = some other ∧
      other.leafBelow? [] rest = some found := by
  have hsome := h key rest
  rw [leafBelow?_list hfits, leafBelow?_list hothers, hget, Option.bind_some, hfound] at hsome
  obtain ⟨found, hother⟩ := Option.isSome_iff_exists.mp hsome.symm
  obtain ⟨other, hgetOther, hbelow⟩ := Option.bind_eq_some_iff.mp hother
  exact ⟨other, found, hgetOther, hbelow⟩

theorem SameBelow.of_entry (h : SameBelow (list entries) (list others))
    (hget : SortedMap.get? entries key = some (container children))
    (hother : SortedMap.get? others key = some (container otherChildren)) :
    SameBelow (container children) (container otherChildren) := by
  intro keys rest
  cases keys with
  | nil =>
    have hrel := h key rest
    simpa [leafBelow?, hget, hother, select?_container_nil] using hrel
  | cons pair keys => exact .none

end Entries

/-- Trees of one shape that have equal leaves are equal without what holds no leaf. -/
theorem Fits.equal_pruned {schema : SchemaNode} {a b : Node} (ha : Fits schema a)
    (hb : Fits schema b) (hsame : SameBelow a b) : a.pruned.equal b.pruned = true := by
  induction ha generalizing b with
  | leaf leafSchema value =>
    obtain ⟨other, rfl⟩ := fits_leaf hb
    have hvalue := hsame [] []
    cases hvalue with
    | some hequal => exact hequal
  | @container schemas children sorted known fits ih =>
    obtain ⟨others, rfl⟩ := fits_container hb
    have hplace : IsPlace (.container schemas) (.container others) := hb
    rw [pruned, pruned, equal, prunedChildren_eq, prunedChildren_eq]
    refine equalChildren_of_forall₂ (forall₂_pruned sorted hplace.sorted ?_ ?_)
    · intro name child hget hleaf
      obtain ⟨childSchema, hschema⟩ := Option.isSome_iff_exists.mp (known name child hget)
      have hfits := fits name child childSchema hget hschema
      obtain ⟨keys, rest, value, hfound⟩ := hfits.hasLeaf_iff.mp hleaf
      obtain ⟨other, found, hother, hfoundOther⟩ :=
        exists_child_of_isSome_eq (hsame.isSome_eq []) hget hfound
      have hfitsOther := hplace.child_fits hother hschema
      exact ⟨other, hother, hfitsOther.hasLeaf_iff.mpr ⟨keys, rest, found, hfoundOther⟩,
        ih name child childSchema hget hschema hfitsOther (hsame.of_child hget hother)⟩
    · intro name other hother hleaf
      obtain ⟨childSchema, hschema, hfitsOther⟩ := hplace.child hother
      obtain ⟨keys, rest, value, hfound⟩ := hfitsOther.hasLeaf_iff.mp hleaf
      obtain ⟨child, found, hget, hfoundChild⟩ := exists_child_of_isSome_eq
        (fun rest => (hsame.isSome_eq [] rest).symm) hother hfound
      exact ⟨child, hget, (fits name child childSchema hget hschema).hasLeaf_iff.mpr
        ⟨keys, rest, found, hfoundChild⟩⟩
  | @list keys max schemas entries sorted fits ih =>
    obtain ⟨others, rfl, hothers, hfits⟩ := select?_of_fits_list hb
    rw [pruned, pruned, equal, prunedEntries_eq, prunedEntries_eq]
    refine equalEntries_of_forall₂ (forall₂_pruned sorted hothers ?_ ?_)
    · intro key entry hget hleaf
      obtain ⟨rest, value, hfound⟩ := (fits key entry hget).entry_hasLeaf_iff.mp hleaf
      obtain ⟨other, found, hother, hfoundOther⟩ :=
        exists_entry_of_isSome_eq fits hfits hsame.isSome_eq hget hfound
      have hfitsOther := hfits key other hother
      obtain ⟨children, rfl⟩ := fits_container (fits key entry hget)
      obtain ⟨otherChildren, rfl⟩ := fits_container hfitsOther
      exact ⟨_, hother, hfitsOther.entry_hasLeaf_iff.mpr ⟨rest, found, hfoundOther⟩,
        ih key _ hget hfitsOther (hsame.of_entry hget hother)⟩
    · intro key other hother hleaf
      obtain ⟨rest, value, hfound⟩ := (hfits key other hother).entry_hasLeaf_iff.mp hleaf
      obtain ⟨entry, found, hget, hfoundEntry⟩ := exists_entry_of_isSome_eq hfits fits
        (fun keys rest => (hsame.isSome_eq keys rest).symm) hother hfound
      exact ⟨entry, hget, (fits key entry hget).entry_hasLeaf_iff.mpr ⟨rest, found, hfoundEntry⟩⟩

/-- Trees in the shape of one schema that have the same leaves are equal without what holds no
leaf. -/
theorem beq_pruned_of_sameLeaves {schema : SchemaNode} {a b : Node} (ha : IsPlace schema a)
    (hb : IsPlace schema b) (h : SameLeaves a b) : (a.pruned == b.pruned) = true := by
  rw [SameLeaves, leafMap_eq_leafAt? ha, leafMap_eq_leafAt? hb] at h
  refine Fits.equal_pruned ha hb ?_
  obtain ⟨children, rfl⟩ := ha.isContainer
  obtain ⟨others, rfl⟩ := hb.isContainer
  intro keys
  cases keys with
  | nil => exact h
  | cons pair keys => exact fun _ => .none

end Equal

end Node

end Telemetry
