import Telemetry.Proofs.Tree.Denotation
import Telemetry.Proofs.Tree.Leaves

/-!
The difference of two trees read off their leaf maps. A leaf is deleted if there is none at its
path any more, and updated if it is new there or its value is not equal to the one before.
Values that are finite are equal to themselves, so nothing is updated that has not changed.
-/

namespace Telemetry

namespace Binary64

theorem isNaN_eq_false_of_isFinite {x : Binary64} (h : x.isFinite = true) : x.isNaN = false := by
  have hexponent : x.magnitude >>> 52 < 2047 := of_decide_eq_true h
  refine decide_eq_false ?_
  omega

theorem beq_self_of_isFinite {x : Binary64} (h : x.isFinite = true) : (x == x) = true := by
  change x.equal x = true
  simp [equal, isNaN_eq_false_of_isFinite h]

theorem beq_trans {x y z : Binary64} (hxy : (x == y) = true) (hyz : (y == z) = true) :
    (x == z) = true := by
  change x.equal y = true at hxy
  change y.equal z = true at hyz
  change x.equal z = true
  simp only [equal, Bool.and_eq_true, beq_iff_eq] at hxy hyz ⊢
  exact ⟨⟨hxy.1.1, hyz.1.2⟩, hxy.2.trans hyz.2⟩

end Binary64

namespace LeafValue

theorem beq_self_of_isFinite {v : LeafValue} (h : v.IsFinite) : (v == v) = true := by
  change v.equal v = true
  cases v with
  | double d => exact Binary64.beq_self_of_isFinite h
  | _ => simp [equal]

theorem beq_trans {u v w : LeafValue} (huv : (u == v) = true) (hvw : (v == w) = true) :
    (u == w) = true := by
  change u.equal v = true at huv
  change v.equal w = true at hvw
  change u.equal w = true
  cases u <;> cases v <;> cases w <;> simp only [equal, Bool.false_eq_true] at huv hvw ⊢
  case double.double.double => exact Binary64.beq_trans huv hvw
  all_goals
    simp only [beq_iff_eq] at huv hvw ⊢
    exact huv.trans hvw

end LeafValue

namespace LeafMap

def Lost (before after : LeafMap) (elems : List PathElem) : Prop :=
  (∃ value, before elems = some value) ∧ after elems = none

/-- A leaf is new, or its value is not equal to the one before. -/
def Gained (before after : LeafMap) (elems : List PathElem) (value : LeafValue) : Prop :=
  after elems = some value ∧ ∀ old, before elems = some old → (old == value) = false

def Kept (before after : LeafMap) (elems : List PathElem) : Prop :=
  ∃ old value, before elems = some old ∧ after elems = some value ∧ (old == value) = true

theorem gained_or_kept (before : LeafMap) {after : LeafMap} {elems : List PathElem}
    {value : LeafValue} (h : after elems = some value) :
    Gained before after elems value ∨
      ∃ old, before elems = some old ∧ (old == value) = true := by
  cases hbefore : before elems with
  | none =>
    refine Or.inl ⟨h, ?_⟩
    intro old hold
    rw [hbefore] at hold
    cases hold
  | some old =>
    cases hequal : old == value with
    | true => exact Or.inr ⟨old, rfl, hequal⟩
    | false =>
      refine Or.inl ⟨h, ?_⟩
      intro other hother
      rw [hbefore] at hother
      cases hother
      exact hequal

end LeafMap

namespace Node

variable {schema : SchemaNode} {root : Node}

/-- A root has no leaf itself. -/
theorem elems_ne_nil_of_leafAt? (hplace : IsPlace schema root) {elems : List PathElem}
    {value : LeafValue} (h : root.leafAt? elems = some value) : elems ≠ [] := by
  rintro rfl
  obtain ⟨children, rfl⟩ := hplace.isContainer
  cases h

theorem sorted_leavesByText (root : Node) : SortedMap.Sorted root.leavesByText :=
  SortedMap.sorted_ofList _

/-- Different leaves have different texts, so none is lost in the map by texts. -/
theorem get?_leavesByText (hplace : IsPlace schema root) {text : String}
    {leaf : Path × LeafValue} :
    SortedMap.get? root.leavesByText text = some leaf ↔
      leaf ∈ root.leaves ∧ leaf.1.text = text := by
  have hlisted : ∀ other, (text, other) ∈ root.leaves.map (fun leaf => (leaf.1.text, leaf)) ↔
      other ∈ root.leaves ∧ other.1.text = text := by
    intro other
    simp only [List.mem_map, Prod.mk.injEq]
    constructor
    · rintro ⟨found, hfound, htext, rfl⟩
      exact ⟨hfound, htext⟩
    · rintro ⟨hfound, htext⟩
      exact ⟨other, hfound, htext, rfl⟩
  constructor
  · intro h
    exact (hlisted leaf).mp (SortedMap.mem_of_get?_ofList h)
  · intro h
    refine SortedMap.get?_ofList_eq_some ((hlisted leaf).mpr h) ?_
    intro other hother
    obtain ⟨hmem, htext⟩ := (hlisted other).mp hother
    obtain ⟨hpath, hvalue⟩ := (mem_leaves_iff hplace).mp h.1
    obtain ⟨hotherPath, hotherValue⟩ := (mem_leaves_iff hplace).mp hmem
    have helems : other.1.elems = leaf.1.elems :=
      Path.elems_eq_of_text_eq (elems_ne_nil_of_leafAt? hplace hotherValue)
        (elems_ne_nil_of_leafAt? hplace hvalue) (htext.trans h.2.symm)
    rw [helems, hvalue] at hotherValue
    exact Prod.ext (by rw [hpath, hotherPath, helems]) (Option.some.inj hotherValue).symm

theorem get?_leavesByText_ofElems (hplace : IsPlace schema root) {elems : List PathElem}
    (helems : elems ≠ []) : SortedMap.get? root.leavesByText (Path.ofElems elems).text =
      (root.leafAt? elems).map fun value => (Path.ofElems elems, value) := by
  cases hvalue : root.leafAt? elems with
  | some value =>
    exact (get?_leavesByText hplace).mpr ⟨(mem_leaves_iff hplace).mpr ⟨rfl, hvalue⟩, rfl⟩
  | none =>
    cases hget : SortedMap.get? root.leavesByText (Path.ofElems elems).text with
    | none => rfl
    | some leaf =>
      obtain ⟨hmem, htext⟩ := (get?_leavesByText hplace).mp hget
      obtain ⟨hpath, hleaf⟩ := (mem_leaves_iff hplace).mp hmem
      have hsame : leaf.1.elems = elems :=
        Path.elems_eq_of_text_eq (elems_ne_nil_of_leafAt? hplace hleaf) helems htext
      rw [hsame, hvalue] at hleaf
      cases hleaf

end Node

namespace Notification

variable {schema : SchemaNode} {old new : Node} {difference : Notification}

theorem exists_ofDiff (hold : Node.IsPlace schema old) (hnew : Node.IsPlace schema new) :
    ∃ difference, ofDiff old new = .ok difference := by
  obtain ⟨children, rfl⟩ := hold.isContainer
  obtain ⟨others, rfl⟩ := hnew.isContainer
  exact ⟨_, rfl⟩

theorem mem_deletes_ofDiff (hold : Node.IsPlace schema old) (hnew : Node.IsPlace schema new)
    (h : ofDiff old new = .ok difference) {path : Path} :
    path ∈ difference.deletes ↔ ∃ elems, path = Path.ofElems elems ∧
      LeafMap.Lost old.leafAt? new.leafAt? elems := by
  unfold ofDiff at h
  split at h
  · cases h
    simp only [List.mem_map, List.mem_filter, SortedMap.contains]
    constructor
    · rintro ⟨⟨text, leaf⟩, ⟨hmem, hgone⟩, rfl⟩
      rw [SortedMap.mem_iff_get?_eq_some (Node.sorted_leavesByText old)] at hmem
      obtain ⟨hleaf, rfl⟩ := (Node.get?_leavesByText hold).mp hmem
      obtain ⟨hpath, hvalue⟩ := (Node.mem_leaves_iff hold).mp hleaf
      refine ⟨leaf.1.elems, hpath, ⟨leaf.2, hvalue⟩, ?_⟩
      simp only at hgone
      rw [hpath, Node.get?_leavesByText_ofElems hnew
        (Node.elems_ne_nil_of_leafAt? hold hvalue)] at hgone
      simpa using hgone
    · rintro ⟨elems, rfl, ⟨value, hvalue⟩, hgone⟩
      have helems := Node.elems_ne_nil_of_leafAt? hold hvalue
      refine ⟨((Path.ofElems elems).text, Path.ofElems elems, value), ⟨?_, ?_⟩, rfl⟩
      · refine SortedMap.mem_of_get?_eq_some ((Node.get?_leavesByText hold).mpr ⟨?_, rfl⟩)
        exact (Node.mem_leaves_iff hold).mpr ⟨rfl, hvalue⟩
      · rw [Node.get?_leavesByText_ofElems hnew helems, hgone]
        rfl
  · cases h

theorem mem_updates_ofDiff (hold : Node.IsPlace schema old) (hnew : Node.IsPlace schema new)
    (h : ofDiff old new = .ok difference) {update : Update} :
    update ∈ difference.updates ↔ ∃ elems value,
      update = Update.of (Path.ofElems elems) value.toTyped ∧
        LeafMap.Gained old.leafAt? new.leafAt? elems value := by
  unfold ofDiff at h
  split at h
  · cases h
    simp only [List.mem_map, List.mem_filter]
    constructor
    · rintro ⟨⟨text, leaf⟩, ⟨hmem, hchanged⟩, rfl⟩
      rw [SortedMap.mem_iff_get?_eq_some (Node.sorted_leavesByText new)] at hmem
      obtain ⟨hleaf, rfl⟩ := (Node.get?_leavesByText hnew).mp hmem
      obtain ⟨hpath, hvalue⟩ := (Node.mem_leaves_iff hnew).mp hleaf
      refine ⟨leaf.1.elems, leaf.2, by rw [← hpath], hvalue, ?_⟩
      intro before hbefore
      simp only at hchanged
      rw [hpath, Node.get?_leavesByText_ofElems hold
        (Node.elems_ne_nil_of_leafAt? hnew hvalue), hbefore] at hchanged
      simpa using hchanged
    · rintro ⟨elems, value, rfl, hvalue, hchanged⟩
      have helems := Node.elems_ne_nil_of_leafAt? hnew hvalue
      refine ⟨((Path.ofElems elems).text, Path.ofElems elems, value), ⟨?_, ?_⟩, rfl⟩
      · refine SortedMap.mem_of_get?_eq_some ((Node.get?_leavesByText hnew).mpr ⟨?_, rfl⟩)
        exact (Node.mem_leaves_iff hnew).mpr ⟨rfl, hvalue⟩
      · simp only
        rw [Node.get?_leavesByText_ofElems hold helems]
        cases hbefore : old.leafAt? elems with
        | none => rfl
        | some before => simpa using hchanged before hbefore
  · cases h

end Notification

end Telemetry
