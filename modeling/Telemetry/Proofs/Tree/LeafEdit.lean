import Telemetry.Proofs.Tree.Leaves

/-!
Edits of leaf maps. Removing a path takes away the leaves at or below what it names; writing
assigns values leaf by leaf, a later assignment winning. Both are stated relative to a base.
`LeafMap.under` does an edit in the part of a map below some elements, and edits relative to
these elements are exactly what it does.
-/

namespace Telemetry

abbrev Assignments := List (List PathElem × LeafValue)

/-- Whether a leaf lies at or below what a path names. The empty path names everything, and a
last element without keys names every entry of a list. -/
def Path.covers : List PathElem → List PathElem → Bool
  | [], _ => true
  | _ :: _, [] => false
  | [last], elem :: _ => last.name == elem.name && (last.keys == [] || last.keys == elem.keys)
  | parent :: path, elem :: rest => parent == elem && covers path rest

theorem Path.covers_cons_append (parent last : PathElem) (parents : List PathElem)
    (elem : PathElem) (rest : List PathElem) :
    Path.covers (parent :: (parents ++ [last])) (elem :: rest) =
      (parent == elem && Path.covers (parents ++ [last]) rest) := by
  cases parents <;> rfl

/-- Only the last element of a path is read loosely. -/
theorem Path.covers_append_singleton (parents : List PathElem) (last : PathElem)
    (elems : List PathElem) :
    Path.covers (parents ++ [last]) elems =
      decide (parents <+: elems ∧ Path.covers [last] (elems.drop parents.length)) := by
  induction parents generalizing elems with
  | nil => simp
  | cons parent parents ih =>
    cases elems with
    | nil => simp [Path.covers]
    | cons elem rest =>
      rw [List.cons_append, Path.covers_cons_append, ih, Bool.eq_iff_iff]
      simp [and_assoc]

theorem Path.covers_self (path : List PathElem) : Path.covers path path = true := by
  induction path with
  | nil => rfl
  | cons elem rest ih =>
    cases rest with
    | nil => simp [Path.covers]
    | cons next more => simp [Path.covers, ih]

/-- A change of a leaf map; its paths are relative to a base. -/
inductive LeafEdit where
  | remove (path : List PathElem)
  | write (leaves : Assignments)

def Assignments.nest (elems : List PathElem) (leaves : Assignments) : Assignments :=
  leaves.map fun leaf => (elems ++ leaf.1, leaf.2)

theorem Assignments.nest_nil (leaves : Assignments) : leaves.nest [] = leaves := by
  simp [Assignments.nest]

theorem Assignments.nest_nest (leaves : Assignments) (above elems : List PathElem) :
    (leaves.nest elems).nest above = leaves.nest (above ++ elems) := by
  simp [Assignments.nest]

theorem Assignments.nest_append (first second : Assignments) (elems : List PathElem) :
    nest elems (first ++ second) = first.nest elems ++ second.nest elems :=
  List.map_append

namespace LeafMap

def remove (m : LeafMap) (base path : List PathElem) : LeafMap := fun elems =>
  if base <+: elems ∧ Path.covers path (elems.drop base.length) then none else m elems

def assign (m : LeafMap) (elems : List PathElem) (value : LeafValue) : LeafMap := fun other =>
  if other = elems then some value else m other

def assignAll (m : LeafMap) (leaves : Assignments) : LeafMap :=
  leaves.foldl (fun m leaf => m.assign leaf.1 leaf.2) m

def edit (base : List PathElem) (m : LeafMap) : LeafEdit → LeafMap
  | .remove path => m.remove base path
  | .write leaves => m.assignAll (leaves.nest base)

def editAll (m : LeafMap) (base : List PathElem) (edits : List LeafEdit) : LeafMap :=
  edits.foldl (edit base) m

def below (m : LeafMap) (elem : PathElem) : LeafMap := fun rest => m (elem :: rest)

def under (change : LeafMap → LeafMap) : List PathElem → LeafMap → LeafMap
  | [], m => change m
  | elem :: rest, m => fun
    | [] => m []
    | other :: more =>
      if other = elem then under change rest (m.below elem) more else m (other :: more)

theorem under_nil (change : LeafMap → LeafMap) (m : LeafMap) : under change [] m = change m := rfl

theorem under_cons_nil (change : LeafMap → LeafMap) (elem : PathElem) (base : List PathElem)
    (m : LeafMap) : under change (elem :: base) m [] = m [] := rfl

theorem under_cons_self (change : LeafMap → LeafMap) (elem : PathElem) (base : List PathElem)
    (m : LeafMap) (rest : List PathElem) :
    under change (elem :: base) m (elem :: rest) = under change base (m.below elem) rest := by
  simp [under]

theorem under_cons_of_ne (change : LeafMap → LeafMap) {elem other : PathElem}
    (base : List PathElem) (m : LeafMap) (rest : List PathElem) (h : other ≠ elem) :
    under change (elem :: base) m (other :: rest) = m (other :: rest) := by
  simp [under, h]

/-- Two changes below the same elements, one after the other. -/
theorem under_under (f g : LeafMap → LeafMap) (base : List PathElem) (m : LeafMap) :
    under g base (under f base m) = under (fun m => g (f m)) base m := by
  induction base generalizing m with
  | nil => rfl
  | cons elem base ih =>
    funext elems
    cases elems with
    | nil => rfl
    | cons other rest =>
      by_cases h : other = elem
      · subst h
        rw [under_cons_self, under_cons_self, ← ih]
        congr 2
        funext more
        exact under_cons_self f other base m more
      · rw [under_cons_of_ne _ _ _ _ h, under_cons_of_ne _ _ _ _ h, under_cons_of_ne _ _ _ _ h]

/-- What a change below some elements does depends on the part below them only. -/
theorem under_congr {f g : LeafMap → LeafMap} {base : List PathElem} {m : LeafMap}
    (h : f (fun rest => m (base ++ rest)) = g (fun rest => m (base ++ rest))) :
    under f base m = under g base m := by
  induction base generalizing m with
  | nil => exact h
  | cons elem base ih =>
    funext elems
    cases elems with
    | nil => rfl
    | cons other rest =>
      by_cases hother : other = elem
      · subst hother
        rw [under_cons_self, under_cons_self]
        exact congrFun (ih (m := m.below other) h) rest
      · rw [under_cons_of_ne _ _ _ _ hother, under_cons_of_ne _ _ _ _ hother]

theorem under_id (base : List PathElem) (m : LeafMap) : under (fun m => m) base m = m := by
  induction base generalizing m with
  | nil => rfl
  | cons elem base ih =>
    funext elems
    cases elems with
    | nil => rfl
    | cons other rest =>
      by_cases h : other = elem
      · subst h
        rw [under_cons_self, ih]
        rfl
      · rw [under_cons_of_ne _ _ _ _ h]

theorem remove_cons (m : LeafMap) (elem : PathElem) (base path : List PathElem) :
    m.remove (elem :: base) path = under (fun m => m.remove base path) [elem] m := by
  funext elems
  cases elems with
  | nil => simp [remove, under_cons_nil]
  | cons other rest =>
    by_cases h : other = elem
    · subst h
      rw [under_cons_self, under_nil]
      simp [remove, below]
    · rw [under_cons_of_ne _ _ _ _ h]
      simp [remove, Ne.symm h]

theorem remove_eq_under (m : LeafMap) (base path : List PathElem) :
    m.remove base path = under (fun m => m.remove [] path) base m := by
  induction base generalizing m with
  | nil => rfl
  | cons elem base ih =>
    rw [remove_cons]
    funext elems
    cases elems with
    | nil => rfl
    | cons other rest =>
      by_cases h : other = elem
      · subst h
        rw [under_cons_self, under_cons_self, under_nil, ih]
      · rw [under_cons_of_ne _ _ _ _ h, under_cons_of_ne _ _ _ _ h]

/-- A removal may name its place in the base or in the path. -/
theorem remove_append_singleton (m : LeafMap) (parents : List PathElem) (last : PathElem) :
    m.remove [] (parents ++ [last]) = m.remove parents [last] := by
  funext elems
  simp [remove, Path.covers_append_singleton]

theorem assignAll_cons (m : LeafMap) (leaf : List PathElem × LeafValue) (leaves : Assignments) :
    m.assignAll (leaf :: leaves) = (m.assign leaf.1 leaf.2).assignAll leaves := rfl

theorem assignAll_append (m : LeafMap) (first second : Assignments) :
    m.assignAll (first ++ second) = (m.assignAll first).assignAll second :=
  List.foldl_append

theorem assignAll_of_not_mem (m : LeafMap) {leaves : Assignments} {elems : List PathElem}
    (h : ∀ leaf ∈ leaves, leaf.1 ≠ elems) : m.assignAll leaves elems = m elems := by
  induction leaves generalizing m with
  | nil => rfl
  | cons leaf leaves ih =>
    rw [assignAll_cons, ih _ fun other hother => h other (List.mem_cons_of_mem _ hother)]
    exact if_neg (Ne.symm (h leaf List.mem_cons_self))

/-- What is written at a path with one value only is there. -/
theorem assignAll_of_mem (m : LeafMap) {leaves : Assignments} {elems : List PathElem}
    {value : LeafValue} (h : (elems, value) ∈ leaves)
    (hunique : ∀ other, (elems, other) ∈ leaves → other = value) :
    m.assignAll leaves elems = some value := by
  induction leaves generalizing m with
  | nil => cases h
  | cons leaf leaves ih =>
    rw [assignAll_cons]
    by_cases hlater : (elems, value) ∈ leaves
    · exact ih _ hlater fun other hother => hunique other (List.mem_cons_of_mem _ hother)
    · rcases List.mem_cons.mp h with rfl | hmem
      · rw [assignAll_of_not_mem]
        · exact if_pos rfl
        · rintro ⟨path, other⟩ hother rfl
          exact hlater (hunique other (List.mem_cons_of_mem _ hother) ▸ hother)
      · exact absurd hmem hlater

theorem assign_eq_under (m : LeafMap) (base elems : List PathElem) (value : LeafValue) :
    m.assign (base ++ elems) value = under (fun m => m.assign elems value) base m := by
  induction base generalizing m with
  | nil => rfl
  | cons elem base ih =>
    funext other
    cases other with
    | nil => simp [assign, under_cons_nil]
    | cons first rest =>
      by_cases h : first = elem
      · subst h
        rw [under_cons_self, ← ih]
        simp [assign, below]
      · rw [under_cons_of_ne _ _ _ _ h]
        simp [assign, h]

theorem assignAll_eq_under (m : LeafMap) (base : List PathElem) (leaves : Assignments) :
    m.assignAll (leaves.nest base) = under (fun m => m.assignAll leaves) base m := by
  induction leaves generalizing m with
  | nil => exact (under_id base m).symm
  | cons leaf leaves ih =>
    change (m.assign (base ++ leaf.1) leaf.2).assignAll (Assignments.nest base leaves) = _
    rw [ih, assign_eq_under, under_under]
    rfl

theorem edit_eq_under (m : LeafMap) (base : List PathElem) (e : LeafEdit) :
    edit base m e = under (edit [] · e) base m := by
  cases e with
  | remove path => exact remove_eq_under m base path
  | write leaves =>
    simp only [edit, Assignments.nest_nil]
    exact assignAll_eq_under m base leaves

/-- Edits relative to a base change the part of the map below it, by the same edits without a
base. -/
theorem editAll_eq_under (m : LeafMap) (base : List PathElem) (edits : List LeafEdit) :
    m.editAll base edits = under (·.editAll [] edits) base m := by
  induction edits generalizing m with
  | nil => exact (under_id base m).symm
  | cons e edits ih =>
    change (edit base m e).editAll base edits = _
    rw [ih, edit_eq_under, under_under]
    rfl

end LeafMap

end Telemetry
