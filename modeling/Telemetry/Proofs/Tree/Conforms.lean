import Telemetry.Proofs.Tree.Conformance
import Telemetry.Proofs.Tree.Contents

/-!
What it means for a tree to conform to a schema, stated without the check: all children are known,
nodes have the kinds of their schema nodes, lists are no longer than they may be and their entries
are containers with the keys of the list, and leaves have values that their types allow. A tree
conforms exactly when checking it finds no violation.
-/

namespace Telemetry

namespace LeafType

/-- The values that a type allows. A double is compared numerically with its bounds. -/
inductive Allows : LeafType → LeafValue → Prop
  | string {min max : Option UInt64} {s : String}
      (atLeast : ∀ bound ∈ min, bound.toNat ≤ s.length)
      (atMost : ∀ bound ∈ max, s.length ≤ bound.toNat) : Allows (.string min max) (.string s)
  | enumeration {values : List String} {s : String} (listed : s ∈ values) :
      Allows (.enumeration values) (.string s)
  | bool (b : Bool) : Allows .bool (.bool b)
  | int {min max : Option Int64} {i : Int64} (atLeast : ∀ bound ∈ min, bound ≤ i)
      (atMost : ∀ bound ∈ max, i ≤ bound) : Allows (.int min max) (.int i)
  | uint {min max : Option UInt64} {u : UInt64} (atLeast : ∀ bound ∈ min, bound ≤ u)
      (atMost : ∀ bound ∈ max, u ≤ bound) : Allows (.uint min max) (.uint u)
  | double {min max : Option Binary64} {d : Binary64}
      (atLeast : ∀ bound ∈ min, d.less bound = false)
      (atMost : ∀ bound ∈ max, bound.less d = false) : Allows (.double min max) (.double d)
  | bytes (b : List UInt8) : Allows .bytes (.bytes b)

theorem breaksBound_eq_false {α : Type} {breaks : α → Bool} {bound : Option α} :
    breaksBound breaks bound = false ↔ ∀ b ∈ bound, breaks b = false := by
  cases bound <;> simp [breaksBound]

private theorem ite_eq_nil_iff {α : Type} {low high : Bool} {a : α} :
    (if (low || high) = true then [a] else []) = [] ↔ low = false ∧ high = false := by
  cases low <;> cases high <;> simp

private theorem allows_of_violations {type : LeafType} {value : LeafValue} {place : String}
    (h : type.violations value place = []) : type.Allows value := by
  cases type <;> cases value <;> simp only [violations, List.cons_ne_nil] at h
  case string.string min max s =>
    rw [ite_eq_nil_iff, breaksBound_eq_false, breaksBound_eq_false] at h
    exact .string (fun bound hbound => by simpa using h.1 bound hbound)
      (fun bound hbound => by simpa using h.2 bound hbound)
  case enumeration.string values s =>
    exact .enumeration (by simpa using h)
  case bool.bool b => exact .bool b
  case bytes.bytes b => exact .bytes b
  case int.int min max i =>
    rw [ite_eq_nil_iff, breaksBound_eq_false, breaksBound_eq_false] at h
    exact .int (fun bound hbound => by simpa using h.1 bound hbound)
      (fun bound hbound => by simpa using h.2 bound hbound)
  case uint.uint min max u =>
    rw [ite_eq_nil_iff, breaksBound_eq_false, breaksBound_eq_false] at h
    exact .uint (fun bound hbound => by simpa using h.1 bound hbound)
      (fun bound hbound => by simpa using h.2 bound hbound)
  case double.double min max d =>
    rw [ite_eq_nil_iff, breaksBound_eq_false, breaksBound_eq_false] at h
    exact .double h.1 h.2

private theorem violations_of_allows {type : LeafType} {value : LeafValue}
    (h : type.Allows value) (place : String) : type.violations value place = [] := by
  cases h with
  | string atLeast atMost =>
    rw [violations, ite_eq_nil_iff, breaksBound_eq_false, breaksBound_eq_false]
    exact ⟨fun bound hbound => by simpa using atLeast bound hbound,
      fun bound hbound => by simpa using atMost bound hbound⟩
  | enumeration listed =>
    rw [violations, if_pos (List.contains_iff_mem.mpr listed)]
  | bool b => rfl
  | int atLeast atMost =>
    rw [violations, ite_eq_nil_iff, breaksBound_eq_false, breaksBound_eq_false]
    exact ⟨fun bound hbound => by simpa using atLeast bound hbound,
      fun bound hbound => by simpa using atMost bound hbound⟩
  | uint atLeast atMost =>
    rw [violations, ite_eq_nil_iff, breaksBound_eq_false, breaksBound_eq_false]
    exact ⟨fun bound hbound => by simpa using atLeast bound hbound,
      fun bound hbound => by simpa using atMost bound hbound⟩
  | double atLeast atMost =>
    rw [violations, ite_eq_nil_iff, breaksBound_eq_false, breaksBound_eq_false]
    exact ⟨atLeast, atMost⟩
  | bytes b => rfl

theorem violations_eq_nil_iff {type : LeafType} {value : LeafValue} {place : String} :
    type.violations value place = [] ↔ type.Allows value :=
  ⟨allows_of_violations, fun h => violations_of_allows h place⟩

end LeafType

namespace Node

/-- A tree conforms to a schema. -/
inductive Conforms : SchemaNode → Node → Prop
  | leaf {schema : LeafSchema} {value : LeafValue} (allowed : schema.type.Allows value) :
      Conforms (.leaf schema) (.leaf value)
  | container {schemas : List (String × SchemaNode)} {children : List (String × Node)}
      (known : ∀ name child, (name, child) ∈ children → (SortedMap.get? schemas name).isSome)
      (below : ∀ name child schema, (name, child) ∈ children →
        SortedMap.get? schemas name = some schema → Conforms schema child) :
      Conforms (.container schemas) (.container children)
  | list {keys : List String} {max : Option UInt64} {schemas : List (String × SchemaNode)}
      {entries : List (Keys × Node)} (size : ∀ bound ∈ max, entries.length ≤ bound.toNat)
      (keyed : ∀ key entry, (key, entry) ∈ entries →
        key.length = keys.length ∧ ∀ name ∈ keys, (SortedMap.get? key name).isSome)
      (below : ∀ key entry, (key, entry) ∈ entries → Conforms (.container schemas) entry) :
      Conforms (.list keys max schemas) (.list entries)

/-- A container conforms if each child is known and conforms to its namesake. -/
theorem conforms_container_iff {schemas : List (String × SchemaNode)}
    {children : List (String × Node)} :
    Conforms (.container schemas) (.container children) ↔ ∀ entry ∈ children,
      ∃ childSchema, SortedMap.get? schemas entry.1 = some childSchema ∧
        Conforms childSchema entry.2 := by
  constructor
  · rintro (_ | ⟨known, below⟩) ⟨name, child⟩ hmem
    obtain ⟨childSchema, hget⟩ := Option.isSome_iff_exists.mp (known name child hmem)
    exact ⟨childSchema, hget, below name child childSchema hmem hget⟩
  · intro h
    refine .container ?_ ?_
    · intro name child hmem
      obtain ⟨childSchema, hget, -⟩ := h (name, child) hmem
      exact Option.isSome_iff_exists.mpr ⟨childSchema, hget⟩
    · intro name child childSchema hmem hget
      obtain ⟨found, hfound, hconforms⟩ := h (name, child) hmem
      cases hget.symm.trans hfound
      exact hconforms

/-- A tree conforms if it has nothing that one that conforms has not. -/
theorem Conforms.of_within {schema : SchemaNode} {node other : Node}
    (hother : Conforms schema other) (hfits : Fits schema node) (hotherFits : Fits schema other)
    (h : node.contents.Within other.contents) : Conforms schema node := by
  induction hother generalizing node with
  | @leaf leafSchema value allowed =>
    obtain ⟨found, rfl⟩ := fits_leaf hfits
    have hvalue : some (Content.leaf value) = some (Content.leaf found) := h [] _ rfl
    cases hvalue
    exact .leaf allowed
  | @container schemas others known below ih =>
    obtain ⟨children, rfl⟩ := fits_container hfits
    have hplace : IsPlace (.container schemas) (.container children) := hfits
    have hotherPlace : IsPlace (.container schemas) (.container others) := hotherFits
    refine conforms_container_iff.mpr ?_
    intro entry hentry
    have hget := SortedMap.get?_eq_some_of_mem hplace.sorted hentry
    obtain ⟨found, hfound, hwithin⟩ := exists_move?_of_within (.child entry.1) h hget
    obtain ⟨childSchema, hchild, hchildFits⟩ := hplace.child hget
    have hmem := SortedMap.mem_of_get?_eq_some hfound
    exact ⟨childSchema, hchild, ih entry.1 found childSchema hmem hchild hchildFits
      (hotherPlace.child_fits hfound hchild) hwithin⟩
  | @list keys max schemas others size keyed below ih =>
    obtain ⟨entries, rfl, hsorted, hentries⟩ := select?_of_fits_list hfits
    obtain ⟨_, hsame, -, hotherEntries⟩ := select?_of_fits_list hotherFits
    cases hsame
    have hfound : ∀ key entry, SortedMap.get? entries key = some entry →
        ∃ found, SortedMap.get? others key = some found ∧
          entry.contents.Within found.contents :=
      fun key entry hget => exists_move?_of_within (.entry key) h hget
    have hlength : entries.length ≤ others.length := by
      refine SortedMap.length_le hsorted ?_
      intro key entry hget
      obtain ⟨found, hfound, -⟩ := hfound key entry hget
      exact ⟨found, hfound⟩
    refine .list ?_ ?_ ?_
    · intro bound hbound
      exact Nat.le_trans hlength (size bound hbound)
    · intro key entry hmem
      obtain ⟨found, hget, -⟩ := hfound key entry (SortedMap.get?_eq_some_of_mem hsorted hmem)
      exact keyed key found (SortedMap.mem_of_get?_eq_some hget)
    · intro key entry hmem
      have hentry := SortedMap.get?_eq_some_of_mem hsorted hmem
      obtain ⟨found, hget, hwithin⟩ := hfound key entry hentry
      exact ih key found (SortedMap.mem_of_get?_eq_some hget) (hentries key entry hentry)
        (hotherEntries key found hget) hwithin

variable {schema : SchemaNode} {place : String}

private theorem size_violations_eq_nil_iff {max : Option UInt64} {count : Nat} :
    (if breaksBound (UInt64.toNat · < count) max then
      max.toList.map (Violation.tooManyEntries (placeText place) count ·) else []) = [] ↔
      ∀ bound ∈ max, count ≤ bound.toNat := by
  cases max with
  | none => simp [breaksBound]
  | some bound => simp [breaksBound]

mutual

/-- Checking finds nothing wrong exactly where a node conforms. -/
theorem violations_eq_nil_iff (node : Node) (schema : SchemaNode) (place : String) :
    node.violations schema place = [] ↔ Conforms schema node := by
  cases node with
  | leaf value =>
    constructor
    · intro h
      obtain ⟨leafSchema, rfl, hvalue⟩ := violations_leaf h
      exact .leaf (LeafType.violations_eq_nil_iff.mp hvalue)
    · rintro ⟨allowed⟩
      simpa [violations] using LeafType.violations_eq_nil_iff.mpr allowed
  | container children =>
    constructor
    · intro h
      obtain ⟨⟨schemas, rfl⟩, hchildren⟩ := violations_container h
      rw [childViolations_eq_nil_iff] at hchildren
      exact conforms_container_iff.mpr hchildren
    · rintro (_ | ⟨known, below⟩)
      rw [violations, childViolations_eq_nil_iff]
      exact conforms_container_iff.mp (.container known below)
  | list entries =>
    constructor
    · intro h
      cases schema with
      | container schemas => simp [violations] at h
      | leaf leafSchema => simp [violations] at h
      | list keys max schemas =>
        rw [violations, List.append_eq_nil_iff, size_violations_eq_nil_iff,
          entryViolations_eq_nil_iff] at h
        exact .list h.1 (fun key entry hmem => (h.2 (key, entry) hmem).1)
          (fun key entry hmem => (h.2 (key, entry) hmem).2)
    · rintro (_ | _ | ⟨size, keyed, below⟩)
      rw [violations, List.append_eq_nil_iff, size_violations_eq_nil_iff,
        entryViolations_eq_nil_iff]
      exact ⟨size, fun entry hmem => ⟨keyed _ _ hmem, below _ _ hmem⟩⟩

theorem childViolations_eq_nil_iff (children : List (String × Node)) (schema : SchemaNode)
    (place : String) :
    childViolations children schema place = [] ↔ ∀ entry ∈ children,
      ∃ childSchema, schema.child? entry.1 = some childSchema ∧ Conforms childSchema entry.2 := by
  cases children with
  | nil => simp [childViolations]
  | cons head rest =>
    obtain ⟨name, child⟩ := head
    rw [List.forall_mem_cons, ← childViolations_eq_nil_iff rest schema place]
    cases hchild : schema.child? name with
    | none => simp [childViolations, hchild]
    | some childSchema =>
      simp [childViolations, hchild, violations_eq_nil_iff child]

theorem entryViolations_eq_nil_iff (entries : List (Keys × Node)) (keys : List String)
    (max : Option UInt64) (schemas : List (String × SchemaNode)) (place : String) :
    entryViolations entries (.list keys max schemas) keys place = [] ↔ ∀ entry ∈ entries,
      (entry.1.length = keys.length ∧ ∀ name ∈ keys, (SortedMap.get? entry.1 name).isSome) ∧
        Conforms (.container schemas) entry.2 := by
  cases entries with
  | nil => simp [entryViolations]
  | cons head rest =>
    obtain ⟨key, entry⟩ := head
    rw [List.forall_mem_cons, ← entryViolations_eq_nil_iff rest keys max schemas place]
    have hkeys : (if key.length = keys.length ∧ keys.all (SortedMap.contains key ·) = true
        then [] else [Violation.entryKeys (place ++ keysText key) keys]) = [] ↔
        key.length = keys.length ∧ ∀ name ∈ keys, (SortedMap.get? key name).isSome := by
      simp [SortedMap.contains, Option.isSome_iff_ne_none]
    cases entry with
    | container children =>
      have hchildren := childViolations_eq_nil_iff children (.list keys max schemas)
        (place ++ keysText key)
      rw [entryViolations, List.append_eq_nil_iff, List.append_eq_nil_iff, hkeys, hchildren,
        conforms_container_iff]
      rfl
    | list inner =>
      have hnot : ¬ Conforms (.container schemas) (.list inner) := nofun
      simp [entryViolations, hnot]
    | leaf value =>
      have hnot : ¬ Conforms (.container schemas) (.leaf value) := nofun
      simp [entryViolations, hnot]

end

/-- The trees that pass the check are those that conform. -/
theorem validate_eq_ok_iff_conforms {schema : SchemaNode} {root : Node} :
    validate schema root = .ok () ↔ Conforms schema root := by
  rw [validate_eq_ok, violations_eq_nil_iff]

end Node

end Telemetry
