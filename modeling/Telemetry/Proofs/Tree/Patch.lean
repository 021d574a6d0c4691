import Mathlib.Data.List.Nodup
import Mathlib.Data.Set.List
import Telemetry.Proofs.Tree.Conformance
import Telemetry.Transaction

/-!
The difference of two trees as a patch. Deleting its paths and then storing its updates turns the
leaves of the first tree into those of the second, and nothing of it can be left out. No path of
the patch lies at or below another one, so each delete and each update changes one leaf only and
what any part of the patch does can be read off its paths.
-/

namespace Telemetry

theorem Path.ofElems_injective : Function.Injective Path.ofElems :=
  fun _ _ h => congrArg Path.elems h

theorem LeafValue.toTyped_injective : Function.Injective LeafValue.toTyped := by
  intro v w h
  cases v <;> cases w <;> cases h <;> rfl

namespace LeafMap

def without (m : LeafMap) (paths : List (List PathElem)) : LeafMap := fun elems =>
  if paths.contains elems then none else m elems

def Same (m n : LeafMap) : Prop :=
  ∀ elems, Option.Rel (fun v w => (v == w) = true) (m elems) (n elems)

/-- What is lost and what is gained from one map to another. -/
structure Differ (before after : LeafMap) (lost : List (List PathElem)) (gained : Assignments) :
    Prop where
  mem_lost : ∀ elems, elems ∈ lost ↔ Lost before after elems
  mem_gained : ∀ elems value, (elems, value) ∈ gained ↔ Gained before after elems value

theorem without_of_mem (m : LeafMap) {paths : List (List PathElem)} {elems : List PathElem}
    (h : elems ∈ paths) : m.without paths elems = none :=
  if_pos (List.contains_iff_mem.mpr h)

theorem without_of_not_mem (m : LeafMap) {paths : List (List PathElem)} {elems : List PathElem}
    (h : elems ∉ paths) : m.without paths elems = m elems :=
  if_neg (mt List.contains_iff_mem.mp h)

theorem eq_some_of_without {m : LeafMap} {paths : List (List PathElem)} {elems : List PathElem}
    {value : LeafValue} (h : m.without paths elems = some value) : m elems = some value := by
  by_cases hmem : elems ∈ paths
  · rw [without_of_mem m hmem] at h
    cases h
  · rwa [without_of_not_mem m hmem] at h

theorem without_nil (m : LeafMap) : m.without [] = m := by
  funext elems
  simp [without]

theorem without_cons (m : LeafMap) (path : List PathElem) (paths : List (List PathElem)) :
    m.without (path :: paths) = (m.without [path]).without paths := by
  funext elems
  by_cases h : elems = path <;> simp [without, h]

/-- A path that a patch does not name keeps what it has. -/
theorem patched_of_not_mem (m : LeafMap) {deleted : List (List PathElem)} {written : Assignments}
    {elems : List PathElem} (hdeleted : elems ∉ deleted)
    (hwritten : ∀ leaf ∈ written, leaf.1 ≠ elems) :
    (m.without deleted).assignAll written elems = m elems := by
  rw [assignAll_of_not_mem _ hwritten, without_of_not_mem m hdeleted]

namespace Differ

variable {before after : LeafMap} {lost : List (List PathElem)} {gained : Assignments}

theorem not_mem_lost (h : Differ before after lost gained) {elems : List PathElem}
    {value : LeafValue} (hafter : after elems = some value) : elems ∉ lost := by
  intro hlost
  have hgone := ((h.mem_lost elems).mp hlost).2
  rw [hafter] at hgone
  cases hgone

theorem value_unique (h : Differ before after lost gained) {elems : List PathElem}
    {value other : LeafValue} (hvalue : after elems = some value)
    (hother : (elems, other) ∈ gained) : other = value := by
  have hafter := ((h.mem_gained elems other).mp hother).1
  rw [hvalue] at hafter
  exact (Option.some.inj hafter).symm

/-- Where nothing is lost or gained the maps are the same. -/
theorem rel_of_not_mem (h : Differ before after lost gained) {elems : List PathElem}
    (hlost : elems ∉ lost) (hgained : ∀ leaf ∈ gained, leaf.1 ≠ elems) :
    Option.Rel (fun v w => (v == w) = true) (before elems) (after elems) := by
  cases hafter : after elems with
  | some value =>
    rcases gained_or_kept before hafter with hnew | ⟨old, hold, hequal⟩
    · exact absurd rfl (hgained (elems, value) ((h.mem_gained elems value).mpr hnew))
    · rw [hold]
      exact .some hequal
  | none =>
    cases hbefore : before elems with
    | none => exact .none
    | some value => exact absurd ((h.mem_lost elems).mpr ⟨⟨value, hbefore⟩, hafter⟩) hlost

/-- Where something is lost or gained the maps are not the same. -/
theorem not_rel (h : Differ before after lost gained) {elems : List PathElem}
    (hchanged : elems ∈ lost ∨ ∃ value, (elems, value) ∈ gained) :
    ¬ Option.Rel (fun v w => (v == w) = true) (before elems) (after elems) := by
  rcases hchanged with hlost | ⟨value, hgained⟩
  · obtain ⟨⟨value, hbefore⟩, hafter⟩ := (h.mem_lost elems).mp hlost
    rw [hbefore, hafter]
    rintro ⟨⟩
  · obtain ⟨hafter, hdiffers⟩ := (h.mem_gained elems value).mp hgained
    rw [hafter]
    cases hbefore : before elems with
    | none => rintro ⟨⟩
    | some old =>
      rintro ⟨hequal⟩
      rw [hdiffers old hbefore] at hequal
      cases hequal

/-- Taking away what is lost and writing what is gained gives the second map. -/
theorem same (h : Differ before after lost gained)
    (hfinite : ∀ elems value, after elems = some value → value.IsFinite) :
    Same ((before.without lost).assignAll gained) after := by
  intro elems
  by_cases hgained : ∃ value, (elems, value) ∈ gained
  · obtain ⟨value, hmem⟩ := hgained
    have hafter := ((h.mem_gained elems value).mp hmem).1
    rw [assignAll_of_mem _ hmem fun _ hother => h.value_unique hafter hother, hafter]
    exact .some (LeafValue.beq_self_of_isFinite (hfinite elems value hafter))
  · have hwritten : ∀ leaf ∈ gained, leaf.1 ≠ elems := by
      rintro ⟨path, value⟩ hleaf rfl
      exact hgained ⟨value, hleaf⟩
    by_cases hlost : elems ∈ lost
    · have hafter := ((h.mem_lost elems).mp hlost).2
      rw [assignAll_of_not_mem _ hwritten, without_of_mem before hlost, hafter]
      exact .none
    · rw [patched_of_not_mem before hlost hwritten]
      exact h.rel_of_not_mem hlost hwritten

theorem same_iff (h : Differ before after lost gained) :
    lost = [] ∧ gained = [] ↔ Same before after := by
  constructor
  · rintro ⟨rfl, rfl⟩ elems
    refine h.rel_of_not_mem List.not_mem_nil ?_
    intro leaf hleaf
    cases hleaf
  · intro hsame
    refine ⟨List.eq_nil_iff_forall_not_mem.mpr ?_, List.eq_nil_iff_forall_not_mem.mpr ?_⟩
    · exact fun elems hlost => h.not_rel (.inl hlost) (hsame elems)
    · exact fun leaf hgained => h.not_rel (.inr ⟨leaf.2, hgained⟩) (hsame leaf.1)

/-- A part of a patch that leaves out some path does not give the second map. -/
theorem not_same_of_not_mem (h : Differ before after lost gained)
    {deleted : List (List PathElem)} {written : Assignments} {elems : List PathElem}
    (hchanged : elems ∈ lost ∨ ∃ value, (elems, value) ∈ gained) (hdeleted : elems ∉ deleted)
    (hwritten : ∀ leaf ∈ written, leaf.1 ≠ elems) :
    ¬ Same ((before.without deleted).assignAll written) after := by
  intro hsame
  have hrel := hsame elems
  rw [patched_of_not_mem before hdeleted hwritten] at hrel
  exact h.not_rel hchanged hrel

/-- No path is both lost and gained. -/
theorem ne_of_mem (h : Differ before after lost gained) {elems : List PathElem}
    (hlost : elems ∈ lost) {leaf : List PathElem × LeafValue} (hgained : leaf ∈ gained) :
    leaf.1 ≠ elems := by
  rintro rfl
  exact h.not_mem_lost ((h.mem_gained leaf.1 leaf.2).mp hgained).1 hlost

end Differ

/-- Where all leaves are admitted, deleting one path takes away one leaf. -/
theorem remove_of_admits {m : LeafMap} {schema : SchemaNode}
    (hm : ∀ elems value, m elems = some value → schema.Admits elems value)
    {path : List PathElem} {old : LeafValue} (hpath : schema.Admits path old) :
    m.remove [] path = m.without [path] := by
  funext elems
  simp only [remove, List.nil_prefix, List.length_nil, List.drop_zero, true_and]
  by_cases helems : elems = path
  · subst helems
    rw [if_pos (Path.covers_self elems), without_of_mem m List.mem_cons_self]
  · rw [without_of_not_mem m (by simpa using helems)]
    split
    · rename_i hcovers
      cases hvalue : m elems with
      | none => rfl
      | some value => exact absurd ((hm elems value hvalue).eq_of_covers hpath hcovers) helems
    · rfl

end LeafMap

def Edited.settled {σ : Type} (outcome : Edited Unit σ) : Except TreeError σ :=
  outcome.1.map fun _ => outcome.2

namespace Node

open SetRequest (pathOf valueOf)

/-- Two trees have leaves at the same paths, with equal values. -/
def SameLeaves (a b : Node) : Prop :=
  a.leafMap.Same b.leafMap

def HasFiniteLeaves (root : Node) : Prop :=
  ∀ leaf ∈ root.leaves, leaf.2.IsFinite

def eraseAll (schema : SchemaNode) (root : Node) (paths : List Path) : Except TreeError Node :=
  paths.foldlM (fun node path => (node.erase schema path).settled) root

def putAll (schema : SchemaNode) (root : Node) (updates : List Update) : Except TreeError Node :=
  updates.foldlM (fun node u => (node.put schema (pathOf u) (valueOf u)).settled) root

def patch (schema : SchemaNode) (root : Node) (deletes : List Path) (updates : List Update) :
    Except TreeError Node := do
  let erased ← root.eraseAll schema deletes
  erased.putAll schema updates

section Steps

variable {schema : SchemaNode} {node : Node}

theorem eraseAll_spec {paths : List (List PathElem)} (hplace : IsPlace schema node)
    (hleaves : ∀ elems value, node.leafAt? elems = some value → schema.Admits elems value)
    (hpaths : ∀ path ∈ paths, ∃ old, schema.Admits path old) :
    ∃ after, node.eraseAll schema (paths.map Path.ofElems) = .ok after ∧
      IsPlace schema after ∧ after.leafAt? = node.leafAt?.without paths := by
  induction paths generalizing node with
  | nil => exact ⟨node, rfl, hplace, (LeafMap.without_nil _).symm⟩
  | cons path paths ih =>
    obtain ⟨old, hold⟩ := hpaths path List.mem_cons_self
    obtain ⟨leafSchema, hlocate, -⟩ := hold.2
    have hok : (node.erase schema (Path.ofElems path)).1 = .ok () := erase_of_locate hplace hlocate
    have herased :
        (node.erase schema (Path.ofElems path)).2.leafAt? = node.leafAt?.without [path] :=
      (leafAt?_erase_eq_remove hplace hok).trans (LeafMap.remove_of_admits hleaves hold)
    have hrest : ∀ elems value,
        (node.erase schema (Path.ofElems path)).2.leafAt? elems = some value →
          schema.Admits elems value := by
      intro elems value hvalue
      rw [herased] at hvalue
      exact hleaves elems value (LeafMap.eq_some_of_without hvalue)
    obtain ⟨after, hrun, hafter, hwithout⟩ := ih (isPlace_erase hplace) hrest
      fun other hother => hpaths other (List.mem_cons_of_mem _ hother)
    refine ⟨after, ?_, hafter, ?_⟩
    · rw [eraseAll, List.map_cons, List.foldlM_cons, Edited.settled, hok]
      exact hrun
    · rw [hwithout, herased, ← LeafMap.without_cons]

def updateOf (leaf : List PathElem × LeafValue) : Update :=
  Update.of (Path.ofElems leaf.1) leaf.2.toTyped

theorem updateOf_injective : Function.Injective updateOf := by
  rintro ⟨elems, value⟩ ⟨other, found⟩ h
  simp only [updateOf, Update.of, Update.mk.injEq, Option.some.injEq, and_true] at h
  rw [Path.ofElems_injective h.1, LeafValue.toTyped_injective h.2]

theorem putAll_spec {leaves : Assignments} (hplace : IsPlace schema node)
    (hleaves : ∀ leaf ∈ leaves, schema.Takes leaf) :
    ∃ after, node.putAll schema (leaves.map updateOf) = .ok after ∧
      IsPlace schema after ∧ after.leafAt? = node.leafAt?.assignAll leaves := by
  induction leaves generalizing node with
  | nil => exact ⟨node, rfl, hplace, rfl⟩
  | cons leaf leaves ih =>
    obtain ⟨hne, leafSchema, hlocate, hvalue⟩ := hleaves leaf List.mem_cons_self
    obtain ⟨hok, hput⟩ := put_of_locate_leaf hplace hne hlocate hvalue
    have hkept := (put_spec (Path.ofElems leaf.1) leaf.2.toTyped hplace).1
    obtain ⟨after, hrun, hafter, hassigned⟩ := ih hkept
      fun other hother => hleaves other (List.mem_cons_of_mem _ hother)
    refine ⟨after, ?_, hafter, ?_⟩
    · rw [putAll, List.map_cons, List.foldlM_cons, Edited.settled]
      change (Except.map _ (node.put schema (Path.ofElems leaf.1) leaf.2.toTyped).1 >>= _) = _
      rw [hok]
      exact hrun
    · rw [hassigned, hput]
      rfl

theorem patch_spec {paths : List (List PathElem)} {leaves : Assignments}
    (hplace : IsPlace schema node)
    (hnode : ∀ elems value, node.leafAt? elems = some value → schema.Admits elems value)
    (hpaths : ∀ path ∈ paths, ∃ old, schema.Admits path old)
    (hleaves : ∀ leaf ∈ leaves, schema.Admits leaf.1 leaf.2 ∧ leaf.2.IsFinite) :
    ∃ after, node.patch schema (paths.map Path.ofElems) (leaves.map updateOf) = .ok after ∧
      IsPlace schema after ∧ after.leafAt? = (node.leafAt?.without paths).assignAll leaves := by
  obtain ⟨erased, herase, herased, hwithout⟩ := eraseAll_spec hplace hnode hpaths
  obtain ⟨after, hput, hafter, hassigned⟩ := putAll_spec herased
    fun leaf hleaf => (hleaves leaf hleaf).1.takes (hleaves leaf hleaf).2
  refine ⟨after, ?_, hafter, by rw [hassigned, hwithout]⟩
  rw [patch, herase]
  exact hput

end Steps

theorem text_of_mem_leavesByText {root : Node} {text : String} {leaf : Path × LeafValue}
    (h : (text, leaf) ∈ root.leavesByText) : leaf.1.text = text := by
  have hget := SortedMap.get?_eq_some_of_mem (sorted_leavesByText root) h
  obtain ⟨found, -, hfound⟩ := List.mem_map.mp (SortedMap.mem_of_get?_ofList hget)
  cases hfound
  rfl

/-- Leaves by text are in increasing order of the texts of their paths. -/
theorem leavesByText_increase (root : Node) :
    root.leavesByText.Pairwise fun a b => a.2.1.text < b.2.1.text := by
  refine (sorted_leavesByText root).imp_of_mem ?_
  rintro ⟨text, leaf⟩ ⟨otherText, other⟩ hleaf hother hlt
  rw [text_of_mem_leavesByText hleaf, text_of_mem_leavesByText hother]
  exact compareOfLessAndEq_eq_lt.mp hlt

end Node

namespace Notification

open SetRequest (pathOf)

/-- A notification deletes and updates what turns the leaves of one tree into those of another, no
more and each path once. -/
structure IsMinimalPatch (schema : SchemaNode) (a b : Node) (n : Notification) : Prop where
  yields : ∃ patched, a.patch schema n.deletes n.updates = .ok patched ∧ patched.SameLeaves b
  needs_delete : ∀ before path after, n.deletes = before ++ path :: after →
    ∃ patched, a.patch schema (before ++ after) n.updates = .ok patched ∧ ¬ patched.SameLeaves b
  needs_update : ∀ before update after, n.updates = before ++ update :: after →
    ∃ patched, a.patch schema n.deletes (before ++ after) = .ok patched ∧ ¬ patched.SameLeaves b
  deletes_increase : n.deletes.Pairwise fun p q => p.text < q.text
  updates_increase : n.updates.Pairwise fun u v => (pathOf u).text < (pathOf v).text
  disjoint : ∀ update ∈ n.updates, pathOf update ∉ n.deletes
  isEmpty_iff : n.isEmpty = true ↔ a.SameLeaves b

section Difference

variable {a b : Node} {difference : Notification}

theorem deletes_increase_of_ofDiff (h : ofDiff a b = .ok difference) :
    difference.deletes.Pairwise fun p q => p.text < q.text := by
  unfold ofDiff at h
  split at h
  · cases h
    exact List.pairwise_map.mpr ((Node.leavesByText_increase a).filter _)
  · cases h

theorem updates_increase_of_ofDiff (h : ofDiff a b = .ok difference) :
    difference.updates.Pairwise fun u v => (pathOf u).text < (pathOf v).text := by
  unfold ofDiff at h
  split at h
  · cases h
    exact List.pairwise_map.mpr ((Node.leavesByText_increase b).filter _)
  · cases h

theorem nodup_of_increase {α : Type} {l : List α} {text : α → String}
    (h : l.Pairwise fun x y => text x < text y) : l.Nodup := by
  refine h.imp ?_
  rintro x _ hlt rfl
  exact String.lt_irrefl (text x) hlt

/-- A difference lists what is lost and what is gained. -/
theorem exists_differ {schema : SchemaNode} (ha : Node.IsPlace schema a)
    (hb : Node.IsPlace schema b) (h : ofDiff a b = .ok difference) :
    ∃ lost gained, difference.deletes = lost.map Path.ofElems ∧
      difference.updates = gained.map Node.updateOf ∧
      LeafMap.Differ a.leafAt? b.leafAt? lost gained := by
  have hdeletes : difference.deletes ∈ Set.range (List.map Path.ofElems) := by
    rw [Set.range_list_map]
    intro path hpath
    obtain ⟨elems, rfl, -⟩ := (mem_deletes_ofDiff ha hb h).mp hpath
    exact ⟨elems, rfl⟩
  have hupdates : difference.updates ∈ Set.range (List.map Node.updateOf) := by
    rw [Set.range_list_map]
    intro update hupdate
    obtain ⟨elems, value, rfl, -⟩ := (mem_updates_ofDiff ha hb h).mp hupdate
    exact ⟨(elems, value), rfl⟩
  obtain ⟨lost, hlost⟩ := hdeletes
  obtain ⟨gained, hgained⟩ := hupdates
  refine ⟨lost, gained, hlost.symm, hgained.symm, ?_, ?_⟩
  · intro elems
    rw [← List.mem_map_of_injective Path.ofElems_injective, hlost, mem_deletes_ofDiff ha hb h]
    constructor
    · rintro ⟨other, hother, hlost⟩
      exact Path.ofElems_injective hother ▸ hlost
    · exact fun hlost => ⟨elems, rfl, hlost⟩
  · intro elems value
    rw [← List.mem_map_of_injective Node.updateOf_injective, hgained, mem_updates_ofDiff ha hb h]
    constructor
    · rintro ⟨other, found, hother, hgained⟩
      have hsame : Node.updateOf (elems, value) = Node.updateOf (other, found) := hother
      cases Node.updateOf_injective hsame
      exact hgained
    · exact fun hgained => ⟨elems, value, rfl, hgained⟩

/-- A difference lists nothing exactly if both trees have the same leaves. -/
theorem isEmpty_ofDiff_iff {schema : SchemaNode} (ha : Node.IsPlace schema a)
    (hb : Node.IsPlace schema b) (h : ofDiff a b = .ok difference) :
    difference.isEmpty = true ↔ a.SameLeaves b := by
  obtain ⟨lost, gained, hdeletes, hupdates, hdiffer⟩ := exists_differ ha hb h
  rw [Node.SameLeaves, Node.leafMap_eq_leafAt? ha, Node.leafMap_eq_leafAt? hb, ← hdiffer.same_iff,
    isEmpty, hdeletes, hupdates]
  simp

end Difference

/-- Two trees whose leaves a schema admits, with what is lost and gained from the first to the
second. -/
private structure Compared (schema : SchemaNode) (a b : Node) (lost : List (List PathElem))
    (gained : Assignments) : Prop where
  old_place : Node.IsPlace schema a
  new_place : Node.IsPlace schema b
  old_admits : ∀ elems value, a.leafAt? elems = some value → schema.Admits elems value
  new_admits : ∀ elems value, b.leafAt? elems = some value → schema.Admits elems value
  new_finite : ∀ elems value, b.leafAt? elems = some value → value.IsFinite
  differ : LeafMap.Differ a.leafAt? b.leafAt? lost gained

namespace Compared

variable {schema : SchemaNode} {a b : Node} {lost deleted : List (List PathElem)}
  {gained written : Assignments}

/-- Any part of the difference can be run, and does to the leaves what it says. -/
private theorem exists_patched (h : Compared schema a b lost gained) (hdeleted : deleted ⊆ lost)
    (hwritten : written ⊆ gained) :
    ∃ patched, a.patch schema (deleted.map Path.ofElems) (written.map Node.updateOf) =
        .ok patched ∧
      patched.leafMap = (a.leafAt?.without deleted).assignAll written := by
  have hpaths : ∀ path ∈ deleted, ∃ old, schema.Admits path old := by
    intro path hpath
    obtain ⟨old, hvalue⟩ := ((h.differ.mem_lost path).mp (hdeleted hpath)).1
    exact ⟨old, h.old_admits path old hvalue⟩
  have hleaves : ∀ leaf ∈ written, schema.Admits leaf.1 leaf.2 ∧ leaf.2.IsFinite := by
    intro leaf hleaf
    have hvalue := ((h.differ.mem_gained leaf.1 leaf.2).mp (hwritten hleaf)).1
    exact ⟨h.new_admits _ _ hvalue, h.new_finite _ _ hvalue⟩
  obtain ⟨patched, hpatch, hplace, hmap⟩ :=
    Node.patch_spec h.old_place h.old_admits hpaths hleaves
  exact ⟨patched, hpatch, (Node.leafMap_eq_leafAt? hplace).trans hmap⟩

private theorem yields (h : Compared schema a b lost gained) :
    ∃ patched, a.patch schema (lost.map Path.ofElems) (gained.map Node.updateOf) = .ok patched ∧
      patched.SameLeaves b := by
  obtain ⟨patched, hpatch, hmap⟩ :=
    h.exists_patched (List.Subset.refl lost) (List.Subset.refl gained)
  refine ⟨patched, hpatch, ?_⟩
  rw [Node.SameLeaves, hmap, Node.leafMap_eq_leafAt? h.new_place]
  exact h.differ.same h.new_finite

/-- A part that leaves out a path yields other leaves. -/
private theorem exists_patched_not_same (h : Compared schema a b lost gained)
    (hdeleted : deleted ⊆ lost) (hwritten : written ⊆ gained) {elems : List PathElem}
    (hchanged : elems ∈ lost ∨ ∃ value, (elems, value) ∈ gained) (hnot : elems ∉ deleted)
    (hother : ∀ leaf ∈ written, leaf.1 ≠ elems) :
    ∃ patched, a.patch schema (deleted.map Path.ofElems) (written.map Node.updateOf) =
        .ok patched ∧
      ¬ patched.SameLeaves b := by
  obtain ⟨patched, hpatch, hmap⟩ := h.exists_patched hdeleted hwritten
  refine ⟨patched, hpatch, ?_⟩
  rw [Node.SameLeaves, hmap, Node.leafMap_eq_leafAt? h.new_place]
  exact h.differ.not_same_of_not_mem hchanged hnot hother

private theorem needs_delete (h : Compared schema a b lost gained) (hnodup : lost.Nodup)
    {before after : List Path} {path : Path}
    (hsplit : lost.map Path.ofElems = before ++ path :: after) :
    ∃ patched, a.patch schema (before ++ after) (gained.map Node.updateOf) = .ok patched ∧
      ¬ patched.SameLeaves b := by
  obtain ⟨first, rest, rfl, rfl, hrest⟩ := List.map_eq_append_iff.mp hsplit
  obtain ⟨elems, later, rfl, rfl, rfl⟩ := List.map_eq_cons_iff.mp hrest
  have hmem : elems ∈ first ++ elems :: later := by simp
  have hnot : elems ∉ first ++ later := (List.nodup_cons.mp (List.nodup_middle.mp hnodup)).1
  rw [← List.map_append]
  exact h.exists_patched_not_same (by simp) (List.Subset.refl gained) (.inl hmem) hnot
    fun leaf hleaf => h.differ.ne_of_mem hmem hleaf

private theorem needs_update (h : Compared schema a b lost gained) (hnodup : gained.Nodup)
    {before after : List Update} {update : Update}
    (hsplit : gained.map Node.updateOf = before ++ update :: after) :
    ∃ patched, a.patch schema (lost.map Path.ofElems) (before ++ after) = .ok patched ∧
      ¬ patched.SameLeaves b := by
  obtain ⟨first, rest, rfl, rfl, hrest⟩ := List.map_eq_append_iff.mp hsplit
  obtain ⟨⟨elems, value⟩, later, rfl, rfl, rfl⟩ := List.map_eq_cons_iff.mp hrest
  have hmem : (elems, value) ∈ first ++ (elems, value) :: later := by simp
  have hsubset : first ++ later ⊆ first ++ (elems, value) :: later := by simp
  have hnot : (elems, value) ∉ first ++ later :=
    (List.nodup_cons.mp (List.nodup_middle.mp hnodup)).1
  rw [← List.map_append]
  refine h.exists_patched_not_same (List.Subset.refl lost) hsubset (.inr ⟨value, hmem⟩) ?_ ?_
  · exact fun hlost => h.differ.ne_of_mem hlost hmem rfl
  · -- another update of the path would carry the same value
    rintro ⟨path, other⟩ hleaf rfl
    have hvalue := ((h.differ.mem_gained path value).mp hmem).1
    exact hnot (h.differ.value_unique hvalue (hsubset hleaf) ▸ hleaf)

end Compared

/-- The difference of two valid trees is a minimal patch. -/
theorem isMinimalPatch_ofDiff {schemas : List (String × SchemaNode)} {a b : Node}
    (hkeyed : (SchemaNode.container schemas).Keyed) (ha : a.Ordered) (hb : b.Ordered)
    (hold : Node.validate (.container schemas) a = .ok ())
    (hnew : Node.validate (.container schemas) b = .ok ()) (hfinite : b.HasFiniteLeaves) :
    ∃ difference, ofDiff a b = .ok difference ∧
      IsMinimalPatch (.container schemas) a b difference := by
  have haPlace : Node.IsPlace (.container schemas) a := Node.fits_of_validate ha hold
  have hbPlace : Node.IsPlace (.container schemas) b := Node.fits_of_validate hb hnew
  obtain ⟨difference, hdifference⟩ := exists_ofDiff haPlace hbPlace
  obtain ⟨lost, gained, hdeletes, hupdates, hdiffer⟩ := exists_differ haPlace hbPlace hdifference
  have hcompared : Compared (.container schemas) a b lost gained := {
    old_place := haPlace
    new_place := hbPlace
    old_admits := fun _ _ => Node.admits_of_leafAt? hkeyed hold
    new_admits := fun _ _ => Node.admits_of_leafAt? hkeyed hnew
    new_finite := fun elems value hleaf =>
      hfinite (Path.ofElems elems, value) ((Node.mem_leaves_iff hbPlace).mpr ⟨rfl, hleaf⟩)
    differ := hdiffer }
  have hdeletesIncrease := deletes_increase_of_ofDiff hdifference
  have hupdatesIncrease := updates_increase_of_ofDiff hdifference
  have hlost : lost.Nodup := .of_map _ (hdeletes ▸ nodup_of_increase hdeletesIncrease)
  have hgained : gained.Nodup := .of_map _ (hupdates ▸ nodup_of_increase hupdatesIncrease)
  refine ⟨difference, hdifference, ?_, ?_, ?_, hdeletesIncrease, hupdatesIncrease, ?_, ?_⟩
  · rw [hdeletes, hupdates]
    exact hcompared.yields
  · rw [hdeletes, hupdates]
    exact fun _ _ _ hsplit => hcompared.needs_delete hlost hsplit
  · rw [hdeletes, hupdates]
    exact fun _ _ _ hsplit => hcompared.needs_update hgained hsplit
  · rw [hdeletes, hupdates]
    intro update hupdate hdelete
    obtain ⟨leaf, hleaf, rfl⟩ := List.mem_map.mp hupdate
    have hlostLeaf := (List.mem_map_of_injective Path.ofElems_injective).mp hdelete
    exact hdiffer.ne_of_mem hlostLeaf hleaf rfl
  · rw [Node.SameLeaves, Node.leafMap_eq_leafAt? haPlace, Node.leafMap_eq_leafAt? hbPlace,
      ← hdiffer.same_iff, isEmpty, hdeletes, hupdates]
    simp

section Interfaces

def interfaceFields (names : List String) : List (String × SchemaNode) :=
  [("interface", .list names none [("mtu", .leafOf (.uint none none))])]

def interfaceMtus (mtus : List (Keys × UInt64)) : Node :=
  .container [("interface",
    .list (mtus.map fun mtu => (mtu.1, .container [("mtu", .leaf (.uint mtu.2))])))]

theorem ordered_interfaceMtus {mtus : List (Keys × UInt64)}
    (h : SortedMap.Sorted mtus) : (interfaceMtus mtus).Ordered := by
  have hsingle : ∀ {name : String} {child : Node}, child.Ordered →
      (Node.container [(name, child)]).Ordered := by
    intro name child hchild
    refine .container (List.pairwise_singleton _ _) ?_
    intro other found hmem
    cases List.mem_singleton.mp hmem
    exact hchild
  refine hsingle (.list (List.pairwise_map.mpr h) ?_)
  intro key entry hmem
  obtain ⟨mtu, -, hentry⟩ := List.mem_map.mp hmem
  cases hentry
  exact hsingle (.leaf _)

private theorem hasFiniteLeaves_interfaceMtus (mtus : List (Keys × UInt64)) :
    (interfaceMtus mtus).HasFiniteLeaves := by
  intro leaf hleaf
  rw [interfaceMtus, Node.leaves, Node.leavesBelow, Node.childLeaves, Node.childLeaves,
    List.append_nil] at hleaf
  induction mtus with
  | nil => cases hleaf
  | cons mtu rest ih =>
    rcases List.mem_append.mp hleaf with hleaf | hleaf
    · cases List.mem_singleton.mp hleaf
      trivial
    · exact ih hleaf

private theorem keyed_interfaceFields :
    (SchemaNode.container (interfaceFields ["name"])).Keyed :=
  @SchemaNode.keyed_of_check _ "" rfl

/-- One interface is gone, one has another size and one is new. -/
theorem isMinimalPatch_ofDiff_interfaces :
    ∃ difference,
      ofDiff (interfaceMtus [([("name", "eth0")], 1500), ([("name", "eth1")], 1500)])
        (interfaceMtus [([("name", "eth1")], 9000), ([("name", "eth2")], 1500)]) =
          .ok difference ∧
      IsMinimalPatch (.container (interfaceFields ["name"]))
        (interfaceMtus [([("name", "eth0")], 1500), ([("name", "eth1")], 1500)])
        (interfaceMtus [([("name", "eth1")], 9000), ([("name", "eth2")], 1500)]) difference :=
  isMinimalPatch_ofDiff keyed_interfaceFields
    (ordered_interfaceMtus (List.pairwise_pair.mpr rfl))
    (ordered_interfaceMtus (List.pairwise_pair.mpr rfl))
    (Node.validate_eq_ok.mpr rfl) (Node.validate_eq_ok.mpr rfl) (hasFiniteLeaves_interfaceMtus _)

/-- What is excluded of schemas. An interface without a key cannot be addressed: the difference to
the tree without interfaces names the leaf below it, and that path cannot be deleted. A tree that
is a leaf has no difference even to itself. -/
theorem isMinimalPatch_fails_unaddressed :
    (Node.validate (.container (interfaceFields [])) (interfaceMtus [([], 1500)]) = .ok () ∧
      Node.validate (.container (interfaceFields [])) Node.emptyContainer = .ok () ∧
      (interfaceMtus [([], 1500)]).Ordered ∧ Node.emptyContainer.Ordered ∧
      (interfaceMtus [([], 1500)]).HasFiniteLeaves ∧ Node.emptyContainer.HasFiniteLeaves ∧
      ¬ ∃ difference, ofDiff (interfaceMtus [([], 1500)]) Node.emptyContainer = .ok difference ∧
        IsMinimalPatch (.container (interfaceFields [])) (interfaceMtus [([], 1500)])
          Node.emptyContainer difference) ∧
    Node.validate (.leafOf .bool) (.leaf (.bool true)) = .ok () ∧
      ¬ ∃ difference, ofDiff (.leaf (.bool true)) (.leaf (.bool true)) = .ok difference := by
  refine ⟨⟨Node.validate_eq_ok.mpr rfl, Node.validate_eq_ok.mpr rfl,
    ordered_interfaceMtus (List.pairwise_singleton _ _), .container SortedMap.sorted_nil ?_,
    hasFiniteLeaves_interfaceMtus _, ?_, ?_⟩, Node.validate_eq_ok.mpr rfl, ?_⟩
  · intro name child hmem
    cases hmem
  · intro leaf hleaf
    cases hleaf
  · rintro ⟨difference, hdifference, hpatch⟩
    cases hdifference
    obtain ⟨patched, hyields, -⟩ := hpatch.yields
    cases hyields
  · rintro ⟨difference, hdifference⟩
    cases hdifference

end Interfaces

end Notification

end Telemetry
