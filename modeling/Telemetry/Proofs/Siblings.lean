import Telemetry.Proofs.Except
import Telemetry.Proofs.Path.Identity
import Telemetry.Siblings

/-!
State leaves and their siblings. A leaf below the state container has two copies in the cache,
its own path and the path with the container renamed. Where the two containers have different
names no copy belongs to two leaves.
-/

namespace Telemetry.Siblings

variable {s : Siblings}

/-- The paths that a leaf is published at: its own and that of its sibling. -/
def copies (s : Siblings) (elems : List PathElem) : List (List PathElem) :=
  elems :: (s.renameParent elems).toList

/-- A leaf whose parent is the state container. -/
def IsState (s : Siblings) (elems : List PathElem) : Prop :=
  ∃ above parent last, elems = above ++ [parent, last] ∧ parent.name = s.state

theorem renameParent_append (s : Siblings) (above : List PathElem) (parent last : PathElem) :
    s.renameParent (above ++ [parent, last]) =
      if parent.name = s.state then some (above ++ [{ parent with name := s.config }, last])
      else none := by
  induction above with
  | nil => rfl
  | cons elem above ih =>
    have hstep : s.renameParent (elem :: (above ++ [parent, last])) =
        (s.renameParent (above ++ [parent, last])).map (elem :: ·) := by
      cases above with
      | nil => rfl
      | cons next above => cases above <;> rfl
    rw [List.cons_append, hstep, ih]
    by_cases h : parent.name = s.state <;> simp [h]

/-- Only paths of two elements have a parent at all. -/
theorem exists_append_of_length {elems : List PathElem} (h : 2 ≤ elems.length) :
    ∃ above parent last, elems = above ++ [parent, last] := by
  induction elems with
  | nil => simp at h
  | cons elem rest ih =>
    by_cases hrest : 2 ≤ rest.length
    · obtain ⟨above, parent, last, rfl⟩ := ih hrest
      exact ⟨elem :: above, parent, last, rfl⟩
    · match rest with
      | [] => simp at h
      | [last] => exact ⟨[], elem, last, rfl⟩
      | _ :: _ :: _ => simp at hrest

private theorem length_of_renameParent {elems sibling : List PathElem}
    (h : s.renameParent elems = some sibling) : 2 ≤ elems.length := by
  match elems with
  | [] => cases h
  | [_] => cases h
  | _ :: _ :: _ => simp

theorem renameParent_eq_some {elems sibling : List PathElem} :
    s.renameParent elems = some sibling ↔ ∃ above parent last,
      elems = above ++ [parent, last] ∧ parent.name = s.state ∧
        sibling = above ++ [{ parent with name := s.config }, last] := by
  constructor
  · intro h
    obtain ⟨above, parent, last, rfl⟩ := exists_append_of_length (length_of_renameParent h)
    rw [renameParent_append] at h
    by_cases hname : parent.name = s.state
    · simp only [hname, if_true, Option.some.injEq] at h
      exact ⟨above, parent, last, rfl, hname, h.symm⟩
    · simp [hname] at h
  · rintro ⟨above, parent, last, rfl, hname, rfl⟩
    rw [renameParent_append, if_pos hname]

theorem isState_iff {elems : List PathElem} :
    s.IsState elems ↔ ∃ sibling, s.renameParent elems = some sibling := by
  constructor
  · rintro ⟨above, parent, last, rfl, hname⟩
    exact ⟨_, renameParent_eq_some.mpr ⟨above, parent, last, rfl, hname, rfl⟩⟩
  · rintro ⟨sibling, h⟩
    obtain ⟨above, parent, last, rfl, hname, -⟩ := renameParent_eq_some.mp h
    exact ⟨above, parent, last, rfl, hname⟩

theorem mem_copies {elems copy : List PathElem} :
    copy ∈ s.copies elems ↔ copy = elems ∨ s.renameParent elems = some copy := by
  simp [copies]

theorem mem_copies_append {above : List PathElem} {parent last : PathElem}
    (hname : parent.name = s.state) {copy : List PathElem} :
    copy ∈ s.copies (above ++ [parent, last]) ↔
      copy = above ++ [parent, last] ∨
        copy = above ++ [{ parent with name := s.config }, last] := by
  rw [mem_copies, renameParent_append, if_pos hname, Option.some.injEq, @eq_comm _ _ copy]

/-- A copy tells its leaf. -/
theorem eq_of_mem_copies (hnames : s.state ≠ s.config) {elems other copy : List PathElem}
    (helems : s.IsState elems) (hother : s.IsState other) (h : copy ∈ s.copies elems)
    (hcopy : copy ∈ s.copies other) : elems = other := by
  obtain ⟨above, parent, last, rfl, hname⟩ := helems
  obtain ⟨above', parent', last', rfl, hname'⟩ := hother
  rw [mem_copies_append hname] at h
  rw [mem_copies_append hname'] at hcopy
  have hsplit : ∀ {xs ys : List PathElem} {p q x y : PathElem},
      xs ++ [p, x] = ys ++ [q, y] → xs = ys ∧ p = q ∧ x = y := by
    intro xs ys p q x y heq
    obtain ⟨habove, hlast⟩ := List.append_inj' heq rfl
    simp only [List.cons.injEq, and_true] at hlast
    exact ⟨habove, hlast⟩
  rcases h with rfl | rfl <;> rcases hcopy with h | h
  · exact h
  · obtain ⟨-, rfl, -⟩ := hsplit h
    exact absurd hname.symm hnames
  · obtain ⟨-, rfl, -⟩ := hsplit h
    exact absurd hname'.symm hnames
  · obtain ⟨rfl, hparent, rfl⟩ := hsplit h
    have hkeys : parent.keys = parent'.keys := (PathElem.mk.inj hparent).2
    have hsame : parent = parent' :=
      congr (congrArg PathElem.mk (hname.trans hname'.symm)) hkeys
    rw [hsame]

/-- A copy that is a state leaf itself is the leaf's own path. -/
theorem eq_of_isState_of_mem_copies {elems copy : List PathElem} (hstate : s.IsState copy)
    (h : copy ∈ s.copies elems) : copy = elems := by
  rcases mem_copies.mp h with rfl | h
  · rfl
  · obtain ⟨above, parent, last, rfl, hname, rfl⟩ := renameParent_eq_some.mp h
    obtain ⟨above', parent', last', hsame, hname'⟩ := hstate
    obtain ⟨-, htail⟩ := List.append_inj' hsame rfl
    obtain ⟨hparent, -⟩ := List.cons.inj htail
    rw [← hparent] at hname'
    have hconfig : s.config = parent.name := hname'.trans hname.symm
    rw [hconfig]

theorem two_le_length_of_mem_copies {elems copy : List PathElem} (helems : s.IsState elems)
    (h : copy ∈ s.copies elems) : 2 ≤ copy.length := by
  obtain ⟨above, parent, last, rfl, hname⟩ := helems
  rcases (mem_copies_append hname).mp h with rfl | rfl <;> simp

theorem ne_nil_of_mem_copies {elems copy : List PathElem} (helems : s.IsState elems)
    (h : copy ∈ s.copies elems) : copy ≠ [] :=
  List.ne_nil_of_length_pos (Nat.lt_of_lt_of_le Nat.two_pos (two_le_length_of_mem_copies helems h))

/-- What holds of the elements of a path, and of an element when it is renamed, holds of the
elements of the copies. -/
theorem forall_mem_of_mem_copies {P : PathElem → Prop}
    (hrename : ∀ elem, P elem → P { elem with name := s.config }) {elems copy : List PathElem}
    (h : ∀ elem ∈ elems, P elem) (hcopy : copy ∈ s.copies elems) : ∀ elem ∈ copy, P elem := by
  rcases mem_copies.mp hcopy with rfl | hcopy
  · exact h
  · obtain ⟨above, parent, last, rfl, -, rfl⟩ := renameParent_eq_some.mp hcopy
    intro elem helem
    simp only [List.mem_append, List.mem_cons, List.not_mem_nil, or_false] at helem
    rcases helem with helem | rfl | rfl
    · exact h elem (by simp [helem])
    · exact hrename parent (h parent (by simp))
    · exact h elem (by simp)

section Extend

theorem siblingOf_eq_ok {notState : String → String → SiblingError} {path sibling : Path} :
    s.siblingOf notState path = .ok sibling ↔
      ∃ elems, s.renameParent path.elems = some elems ∧ sibling = { path with elems := elems } := by
  unfold siblingOf
  by_cases hlength : path.elems.length < 2
  · rw [if_pos hlength]
    constructor
    · intro h
      cases h
    · rintro ⟨elems, helems, -⟩
      have := length_of_renameParent helems
      omega
  · rw [if_neg hlength]
    cases s.renameParent path.elems with
    | none => simp
    | some elems => simp [eq_comm]

/-- Paths and their siblings are the copies of the paths. -/
theorem mem_siblings_append {notState : String → String → SiblingError} {paths siblings : List Path}
    (h : paths.mapM (s.siblingOf notState) = .ok siblings) {path : Path} :
    path ∈ siblings ++ paths ↔
      ∃ own ∈ paths, ∃ copy ∈ s.copies own.elems, path = { own with elems := copy } := by
  rw [List.mem_append, mem_of_mapM_eq_ok h]
  constructor
  · rintro (⟨own, hown, hsibling⟩ | hown)
    · obtain ⟨copy, hcopy, rfl⟩ := siblingOf_eq_ok.mp hsibling
      exact ⟨own, hown, copy, mem_copies.mpr (Or.inr hcopy), rfl⟩
    · exact ⟨path, hown, path.elems, mem_copies.mpr (Or.inl rfl), rfl⟩
  · rintro ⟨own, hown, copy, hcopy, rfl⟩
    rcases mem_copies.mp hcopy with rfl | hcopy
    · exact Or.inr hown
    · exact Or.inl ⟨own, hown, siblingOf_eq_ok.mpr ⟨copy, hcopy, rfl⟩⟩

/-- Only state leaves have siblings. -/
theorem isState_of_mapM {notState : String → String → SiblingError} {paths siblings : List Path}
    (h : paths.mapM (s.siblingOf notState) = .ok siblings) {path : Path} (hpath : path ∈ paths) :
    s.IsState path.elems := by
  obtain ⟨sibling, hsibling⟩ := exists_of_mapM_eq_ok h hpath
  obtain ⟨elems, helems, -⟩ := siblingOf_eq_ok.mp hsibling
  exact isState_iff.mpr ⟨elems, helems⟩

theorem siblingUpdate_of_eq_ok {path : Path} {value : TypedValue} {update : Update} :
    s.siblingUpdate (Update.of path value) = .ok update ↔ ∃ elems,
      s.renameParent path.elems = some elems ∧
        update = Update.of { path with elems := elems } value := by
  simp only [siblingUpdate, map_eq_ok, Update.of, Option.getD_some, siblingOf_eq_ok]
  constructor
  · rintro ⟨sibling, ⟨elems, helems, rfl⟩, rfl⟩
    exact ⟨elems, helems, rfl⟩
  · rintro ⟨elems, helems, rfl⟩
    exact ⟨_, ⟨elems, helems, rfl⟩, rfl⟩

theorem extend_eq_ok {n extended : Notification} (h : s.extend n = .ok extended) :
    ∃ deletes updates, n.deletes.mapM (s.siblingOf .nonStateDelete) = .ok deletes ∧
      n.updates.mapM s.siblingUpdate = .ok updates ∧
      extended = { n with deletes := deletes ++ n.deletes, updates := n.updates ++ updates } := by
  obtain ⟨deletes, hdeletes, h⟩ := bind_eq_ok.mp h
  obtain ⟨updates, hupdates, h⟩ := bind_eq_ok.mp h
  exact ⟨deletes, updates, hdeletes, hupdates, (Except.ok.inj h).symm⟩

variable {n extended : Notification}

/-- What is deleted is deleted at all its copies. -/
theorem mem_deletes_extend (h : s.extend n = .ok extended) {path : Path} :
    path ∈ extended.deletes ↔
      ∃ own ∈ n.deletes, ∃ copy ∈ s.copies own.elems, path = { own with elems := copy } := by
  obtain ⟨deletes, updates, hdeletes, -, rfl⟩ := extend_eq_ok h
  exact mem_siblings_append hdeletes

/-- What is updated is updated at all its copies. -/
theorem mem_updates_extend (h : s.extend n = .ok extended)
    (hpaths : ∀ own ∈ n.updates, ∃ path value, own = Update.of path value) {update : Update} :
    update ∈ extended.updates ↔ ∃ path value, Update.of path value ∈ n.updates ∧
      ∃ copy ∈ s.copies path.elems, update = Update.of { path with elems := copy } value := by
  obtain ⟨deletes, updates, -, hupdates, rfl⟩ := extend_eq_ok h
  rw [List.mem_append, mem_of_mapM_eq_ok hupdates]
  constructor
  · rintro (hown | ⟨own, hown, hsibling⟩)
    · obtain ⟨path, value, rfl⟩ := hpaths update hown
      exact ⟨path, value, hown, path.elems, mem_copies.mpr (Or.inl rfl), rfl⟩
    · obtain ⟨path, value, rfl⟩ := hpaths own hown
      obtain ⟨copy, hcopy, rfl⟩ := siblingUpdate_of_eq_ok.mp hsibling
      exact ⟨path, value, hown, copy, mem_copies.mpr (Or.inr hcopy), rfl⟩
  · rintro ⟨path, value, hown, copy, hcopy, rfl⟩
    rcases mem_copies.mp hcopy with rfl | hcopy
    · exact Or.inl hown
    · exact Or.inr ⟨_, hown, siblingUpdate_of_eq_ok.mpr ⟨copy, hcopy, rfl⟩⟩

/-- Only state leaves can be extended. -/
theorem isState_of_mem_deletes (h : s.extend n = .ok extended) {own : Path}
    (hown : own ∈ n.deletes) : s.IsState own.elems := by
  obtain ⟨deletes, updates, hdeletes, -, -⟩ := extend_eq_ok h
  exact isState_of_mapM hdeletes hown

theorem isState_of_mem_updates (h : s.extend n = .ok extended) {path : Path} {value : TypedValue}
    (hown : Update.of path value ∈ n.updates) : s.IsState path.elems := by
  obtain ⟨deletes, updates, -, hupdates, -⟩ := extend_eq_ok h
  obtain ⟨sibling, hsibling⟩ := exists_of_mapM_eq_ok hupdates hown
  obtain ⟨copy, hcopy, -⟩ := siblingUpdate_of_eq_ok.mp hsibling
  exact isState_iff.mpr ⟨copy, hcopy⟩

end Extend

end Telemetry.Siblings
