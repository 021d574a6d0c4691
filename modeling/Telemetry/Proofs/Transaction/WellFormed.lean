import Telemetry.Proofs.Transaction.Refinement

/-!
What requests write is well-formed: finite values at paths with ordered keys. So trees hold
well-formed leaves only, as long as the paths of the requests that are run have ordered keys; and
they hold finite leaves only, whatever the paths.
-/

namespace Telemetry

def LeafEdit.WellFormed : LeafEdit → Prop
  | .remove _ => True
  | .write leaves => leaves.WellFormed

namespace LeafMap

def All (P : List PathElem → LeafValue → Prop) (m : LeafMap) : Prop :=
  ∀ elems value, m elems = some value → P elems value

variable {P : List PathElem → LeafValue → Prop} {m : LeafMap} {base : List PathElem}

theorem All.remove (h : m.All P) (base path : List PathElem) : (m.remove base path).All P := by
  intro elems value hvalue
  unfold LeafMap.remove at hvalue
  split at hvalue
  · cases hvalue
  · exact h elems value hvalue

theorem All.assignAll (h : m.All P) {leaves : Assignments}
    (hleaves : ∀ leaf ∈ leaves, P leaf.1 leaf.2) : (m.assignAll leaves).All P := by
  induction leaves generalizing m with
  | nil => exact h
  | cons leaf leaves ih =>
    rw [assignAll_cons]
    refine ih ?_ fun other hother => hleaves other (List.mem_cons_of_mem _ hother)
    intro elems value hvalue
    unfold assign at hvalue
    split at hvalue
    · rename_i hsame
      cases hvalue
      exact hsame ▸ hleaves leaf List.mem_cons_self
    · exact h elems value hvalue

/-- What edits write decides about the leaves after them. -/
theorem All.editAll (h : m.All P) {edits : List LeafEdit}
    (hedits : ∀ leaves, .write leaves ∈ edits → ∀ leaf ∈ leaves, P (base ++ leaf.1) leaf.2) :
    (m.editAll base edits).All P := by
  induction edits generalizing m with
  | nil => exact h
  | cons e edits ih =>
    refine ih (m := edit base m e) ?_ fun leaves hleaves =>
      hedits leaves (List.mem_cons_of_mem _ hleaves)
    cases e with
    | remove path => exact h.remove base path
    | write leaves =>
      refine h.assignAll ?_
      intro leaf hleaf
      obtain ⟨inner, hinner, rfl⟩ := List.mem_map.mp hleaf
      exact hedits leaves List.mem_cons_self inner hinner

end LeafMap

namespace SetRequest

structure KeysOrdered (req : SetRequest) : Prop where
  base : Path.KeysOrdered req.baseElems
  replaces : ∀ update ∈ req.replaces, Path.KeysOrdered (pathOf update).elems
  updates : ∀ update ∈ req.updates, Path.KeysOrdered (pathOf update).elems

variable {req : SetRequest} {place : SchemaNode}

private theorem leaves_of_mem_updateEdits {update : Update} {edits : List LeafEdit}
    (h : updateEdits? place update = some edits) {leaves : Assignments}
    (hmem : .write leaves ∈ edits) :
    (valueOf update).leaves? place (pathOf update).elems = some leaves := by
  obtain ⟨written, hwritten, rfl⟩ := Option.map_eq_some_iff.mp h
  cases List.mem_singleton.mp hmem
  exact hwritten

/-- What the edits of a request write is what one of its values denotes. -/
theorem exists_of_write_mem {edits : List LeafEdit} (h : req.leafEdits? place = some edits)
    {leaves : Assignments} (hmem : .write leaves ∈ edits) :
    ∃ update ∈ req.replaces ++ req.updates,
      (valueOf update).leaves? place (pathOf update).elems = some leaves := by
  obtain ⟨replaces, hreplaces, h⟩ := Option.bind_eq_some_iff.mp h
  obtain ⟨updates, hupdates, rfl⟩ := Option.map_eq_some_iff.mp h
  simp only [List.flatten_append, List.mem_append] at hmem
  rcases hmem with (hmem | hmem) | hmem
  · obtain ⟨done, hdone, hmem⟩ := List.mem_flatten.mp hmem
    obtain ⟨path, -, rfl⟩ := List.mem_map.mp hdone
    cases List.mem_singleton.mp hmem
  · obtain ⟨done, hmemDone, hmem⟩ := List.mem_flatten.mp hmem
    obtain ⟨update, hupdate, hdone⟩ := exists_of_mem_mapM hreplaces hmemDone
    refine ⟨update, List.mem_append_left _ hupdate, ?_⟩
    obtain ⟨written, hwritten, rfl⟩ := Option.map_eq_some_iff.mp hdone
    rcases List.mem_cons.mp hmem with hremove | hmem
    · cases hremove
    · exact leaves_of_mem_updateEdits hwritten hmem
  · obtain ⟨done, hmemDone, hmem⟩ := List.mem_flatten.mp hmem
    obtain ⟨update, hupdate, hdone⟩ := exists_of_mem_mapM hupdates hmemDone
    exact ⟨update, List.mem_append_right _ hupdate, leaves_of_mem_updateEdits hdone hmem⟩

theorem wellFormed_leafEdits {edits : List LeafEdit} (h : req.KeysOrdered)
    (hedits : req.leafEdits? place = some edits) : ∀ e ∈ edits, e.WellFormed := by
  intro e he
  cases e with
  | remove path => trivial
  | write leaves =>
    obtain ⟨update, hupdate, hleaves⟩ := exists_of_write_mem hedits he
    refine TypedValue.wellFormed_leaves ?_ hleaves
    rcases List.mem_append.mp hupdate with hreplace | hupdate
    · exact h.replaces update hreplace
    · exact h.updates update hupdate

/-- A request leaves well-formed leaves. -/
theorem wellFormed_run {schema : SchemaNode} {root after : Node}
    (hreq : req.KeysOrdered) (hplace : Node.IsPlace schema root)
    (hleaves : root.leafAt?.WellFormed) (h : req.run schema root = .ok after) :
    after.leafAt?.WellFormed := by
  obtain ⟨-, place, edits, -, hedits, hafter⟩ := run_spec hplace h
  rw [hafter]
  refine LeafMap.All.editAll hleaves ?_
  intro leaves hmem leaf hleaf
  obtain ⟨hkeys, hfinite⟩ := wellFormed_leafEdits hreq hedits _ hmem leaf hleaf
  exact ⟨hreq.base.append hkeys, hfinite⟩

/-- A request leaves finite leaves, at whatever paths it writes. -/
theorem isFinite_run {schema : SchemaNode} {root after : Node}
    (hplace : Node.IsPlace schema root)
    (hleaves : ∀ elems value, root.leafAt? elems = some value → value.IsFinite)
    (h : req.run schema root = .ok after) :
    ∀ elems value, after.leafAt? elems = some value → value.IsFinite := by
  obtain ⟨-, place, edits, -, hedits, hafter⟩ := run_spec hplace h
  rw [hafter]
  refine LeafMap.All.editAll hleaves ?_
  intro leaves hmem leaf hleaf
  obtain ⟨update, -, hwritten⟩ := exists_of_write_mem hedits hmem
  exact TypedValue.isFinite_of_leaves hwritten leaf hleaf

end SetRequest

end Telemetry
