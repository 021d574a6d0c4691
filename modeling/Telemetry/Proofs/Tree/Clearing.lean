import Telemetry.Proofs.Tree.PathEffects

/-!
The effect of deletes. A delete clears what stands at its path and nothing else. It goes through
where the path is accepted as far as the tree reaches: below the first node that is missing the
rest of the path is not looked at.
-/

namespace Telemetry

namespace Effect

def Clears (e : Effect) : Prop :=
  ∀ moves fixed, e moves = some fixed → fixed = none

variable {e f : Effect}

theorem clears_keep : keep.Clears := by
  intro moves fixed h
  cases h

theorem clears_clear : clear.Clears := by
  intro moves fixed h
  exact (Option.some.inj h).symm

theorem Clears.under (h : e.Clears) (move : Move) : (under move e).Clears := by
  intro moves fixed hfixed
  cases moves with
  | nil => cases hfixed
  | cons other rest =>
    by_cases hmove : other = move
    · simp only [Effect.under, hmove, if_true] at hfixed
      exact h rest fixed hfixed
    · simp [Effect.under, hmove] at hfixed

theorem Clears.underAll (h : e.Clears) (moves : List Move) : (underAll moves e).Clears := by
  induction moves with
  | nil => exact h
  | cons move rest ih => exact ih.under move

/-- Where nothing is, nothing is taken away. -/
theorem Clears.apply_nothing (h : e.Clears) : e.apply (fun _ => none) = fun _ => none := by
  funext moves
  unfold apply
  cases hfixed : e moves with
  | none => rfl
  | some fixed => exact h moves fixed hfixed

theorem Clears.andThen (he : e.Clears) (hf : f.Clears) : (e.andThen f).Clears := by
  intro moves fixed hfixed
  cases hlater : f moves with
  | none =>
    rw [Effect.andThen, hlater] at hfixed
    exact he moves fixed hfixed
  | some later =>
    rw [Effect.andThen, hlater] at hfixed
    exact hf moves fixed (hlater.trans hfixed)

theorem Clears.within (h : e.Clears) (c : Contents) : (e.apply c).Within c := by
  intro moves content hcontent
  unfold apply at hcontent
  cases hfixed : e moves with
  | none =>
    rw [hfixed] at hcontent
    exact hcontent
  | some fixed =>
    rw [hfixed, h moves fixed hfixed] at hcontent
    cases hcontent

/-- Where nothing stands below some moves, nothing is taken away there. -/
theorem Clears.apply_underAll (h : e.Clears) {c : Contents} {moves : List Move}
    (hnothing : c.belowAll moves = fun _ => none) : (Effect.underAll moves e).apply c = c := by
  rw [Effect.apply_underAll_congr (f := .keep), Effect.underAll_keep, Effect.apply_keep]
  rw [hnothing, h.apply_nothing, Effect.apply_keep]

end Effect

namespace SchemaNode

def clearing : SchemaNode → List PathElem → Effect
  | _, [] => .clear
  | schema, elem :: rest =>
    match schema.child? elem.name with
    | none => .keep
    | some (.list keys max children) =>
      .under (.child elem.name)
        (if elem.keys = [] then .clear
        else .under (.entry elem.keys) (clearing (.list keys max children) rest))
    | some child => .under (.child elem.name) (clearing child rest)

theorem clears_clearing (schema : SchemaNode) (elems : List PathElem) :
    (schema.clearing elems).Clears := by
  induction elems generalizing schema with
  | nil => exact Effect.clears_clear
  | cons elem rest ih =>
    unfold clearing
    split
    · exact Effect.clears_keep
    · refine Effect.Clears.under ?_ _
      split
      · exact Effect.clears_clear
      · exact (ih _).under _
    · exact (ih _).under _

def erasing (schema : SchemaNode) (elems : List PathElem) : Effect :=
  if elems = [] then .emptying else schema.clearing elems

theorem erasing_eq_clearing {elems : List PathElem} (schema : SchemaNode) (h : elems ≠ []) :
    schema.erasing elems = schema.clearing elems := by
  rw [erasing, if_neg h]

/-- The place itself stays. -/
theorem erasing_here (schema : SchemaNode) (elems : List PathElem) :
    schema.erasing elems [] = none := by
  cases elems with
  | nil => rfl
  | cons elem rest =>
    rw [erasing_eq_clearing schema (List.cons_ne_nil elem rest)]
    rw [clearing]
    cases schema.child? elem.name with
    | none => rfl
    | some child => cases child <;> rfl

theorem clearing_step {schema child : SchemaNode} {elem : PathElem} {full : Path} {depth : Nat}
    {step : Step} (hstep : schema.stepInto full depth elem = .ok (child, step))
    (rest : List PathElem) :
    schema.clearing (elem :: rest) = .underAll step.way.moves (child.clearing rest) := by
  obtain ⟨hchild, hpassable, rfl⟩ := (stepInto_eq_ok full depth).mp hstep
  rw [clearing, hchild]
  cases child with
  | leaf leafSchema => cases hpassable
  | container children => rfl
  | list keys max children =>
    have hkeys := keys_ne_nil_of_passable hpassable
    simp only [hkeys, if_false]
    rfl

end SchemaNode

namespace Node

open SchemaNode (Leads)

section Below

variable {schema childSchema : SchemaNode} {node old sub : Node} {elem : PathElem} {step : Step}
  {effect : Effect}

/-- What stands one step below a place. -/
theorem belowAll_contents (hplace : IsPlace schema node)
    (hleads : Leads schema elem childSchema step) :
    node.contents.belowAll step.way.moves =
      fun rest => (node.next? elem).bind (contents · rest) := by
  obtain ⟨children, rfl⟩ := hplace.isContainer
  funext rest
  rw [next?_container]
  cases hleads with
  | container hchild noKeys =>
    show (SortedMap.get? children elem.name).bind (contents · rest) = _
    cases hget : SortedMap.get? children elem.name with
    | none => rfl
    | some child =>
      obtain ⟨grandchildren, rfl⟩ := fits_container (hplace.child_fits hget hchild)
      rw [noKeys]
      rfl
  | entry hchild =>
    show (SortedMap.get? children elem.name).bind (contents · (.entry elem.keys :: rest)) = _
    cases hget : SortedMap.get? children elem.name with
    | none => rfl
    | some child =>
      obtain ⟨entries, rfl, -⟩ := select?_of_fits_list (hplace.child_fits hget hchild)
      rw [Option.bind_some, Option.bind_some, select?_list]
      rfl

/-- A step to what is there makes nothing. -/
theorem apply_intoAll_of_next? (hplace : IsPlace schema node)
    (hleads : Leads schema elem childSchema step) (hnext : node.next? elem = some old)
    (h : effect.apply old.contents = old.contents) :
    (effect.intoAll step.way).apply node.contents = node.contents := by
  obtain ⟨children, rfl⟩ := hplace.isContainer
  rw [next?_container] at hnext
  obtain ⟨child, hget, hselect⟩ := Option.bind_eq_some_iff.mp hnext
  have hbelow : (container children).contents.below (.child elem.name) = child.contents :=
    below_contents hget
  cases hleads with
  | container hchild noKeys =>
    obtain ⟨grandchildren, rfl⟩ := fits_container (hplace.child_fits hget hchild)
    rw [noKeys] at hselect
    cases hselect
    refine (Effect.apply_under_congr (f := .keep) ?_).trans ?_
    · rw [hbelow, Effect.apply_andThen, Effect.apply_here _ rfl]
      exact h
    · rw [Effect.under_keep, Effect.apply_keep]
  | entry hchild =>
    obtain ⟨entries, rfl, -, hentries⟩ := select?_of_fits_list (hplace.child_fits hget hchild)
    rw [select?_list] at hselect
    obtain ⟨inner, rfl⟩ := fits_container (hentries elem.keys old hselect)
    have hentry : (list entries).contents.below (.entry elem.keys) =
        (container inner).contents := below_contents hselect
    refine (Effect.apply_under_congr (f := .under (.entry elem.keys) .keep) ?_).trans ?_
    · rw [hbelow, Effect.apply_andThen, Effect.apply_here _ rfl]
      refine Effect.apply_under_congr ?_
      rw [hentry, Effect.apply_andThen, Effect.apply_here _ rfl]
      exact h
    · rw [Effect.under_keep, Effect.under_keep, Effect.apply_keep]

/-- What is put in place of what is there. -/
theorem contents_store_of_next? (hplace : IsPlace schema node)
    (hleads : Leads schema elem childSchema step) (hnext : node.next? elem = some old)
    (h : sub.contents = effect.apply old.contents) :
    (node.store step sub).contents = (effect.underAll step.way.moves).apply node.contents := by
  have hstore : (node.store step sub).contents =
      (effect.intoAll step.way).apply node.contents :=
    contents_store hplace hleads (by rw [hnext]; exact h)
  rw [hstore, ← Effect.made_andThen_underAll, Effect.apply_andThen,
    apply_intoAll_of_next? hplace hleads hnext rfl]

theorem apply_underAll_of_absent (hplace : IsPlace schema node)
    (hleads : Leads schema elem childSchema step) (hnext : node.next? elem = none)
    (h : effect.Clears) :
    (Effect.underAll step.way.moves effect).apply node.contents = node.contents := by
  have hnothing : node.contents.belowAll step.way.moves = fun _ => none := by
    rw [belowAll_contents hplace hleads, hnext]
    rfl
  exact h.apply_underAll hnothing

end Below

section Erase

variable {schema : SchemaNode} {node : Node} {path : Path} {last : PathElem}

private theorem contents_eraseLast {children : List (String × Node)}
    (hplace : IsPlace schema (.container children))
    (h : (eraseLast path last schema children).1 = .ok ()) :
    (container (eraseLast path last schema children).2).contents =
      (schema.clearing [last]).apply (container children).contents := by
  unfold eraseLast at h ⊢
  cases hchild : schema.child? last.name with
  | none => simp [SchemaNode.childFor, hchild] at h
  | some childSchema =>
    rw [SchemaNode.childFor_eq_ok.mpr hchild] at h ⊢
    rw [SchemaNode.clearing, hchild]
    cases childSchema with
    | leaf leafSchema =>
      cases hkeys : SchemaNode.requireNoKeys path last with
      | error e => simp [hkeys] at h
      | ok => exact contents_erase_child children last.name
    | container schemas =>
      cases hkeys : SchemaNode.requireNoKeys path last with
      | error e => simp [hkeys] at h
      | ok => exact contents_erase_child children last.name
    | list keys max schemas =>
      by_cases hkeys : last.keys = []
      · simp only [hkeys, List.isEmpty_nil, if_true]
        exact contents_erase_child children last.name
      · simp only [List.isEmpty_iff, hkeys, if_false] at h ⊢
        cases hrequire : (SchemaNode.list keys max schemas).requireKeys path last with
        | error e => simp [hrequire] at h
        | ok =>
          simp only
          cases hget : SortedMap.get? children last.name with
          | none =>
            have hnothing : (container children).move? (.child last.name) = none := hget
            have hclears := Effect.clears_clear.under (.entry last.keys)
            have hkeep : (Effect.under (.child last.name) (.under (.entry last.keys) .clear)).apply
                (container children).contents =
                (Effect.under (.child last.name) .keep).apply (container children).contents := by
              refine Effect.apply_under_congr ?_
              rw [below_contents_of_none hnothing, hclears.apply_nothing, Effect.apply_keep]
            rw [Effect.under_keep] at hkeep
            exact hkeep.symm
          | some child =>
            obtain ⟨entries, rfl, -⟩ := select?_of_fits_list (hplace.child_fits hget hchild)
            have hlist : (container children).move? (.child last.name) = some (list entries) := hget
            refine contents_insert_child ?_
            rw [below_contents hlist]
            exact contents_erase_entry entries last.keys

/-- A delete that goes through has cleared what stands at its path. -/
private theorem contents_editBelow_eraseLast (hplace : IsPlace schema node) {depth : Nat}
    {parents : List PathElem} {found : Option Unit}
    (h : (editBelow false path (eraseLast path last) schema node depth parents).1 = .ok found) :
    (editBelow false path (eraseLast path last) schema node depth parents).2.contents =
      (schema.clearing (parents ++ [last])).apply node.contents := by
  induction parents generalizing schema node depth with
  | nil =>
    obtain ⟨children, rfl⟩ := hplace.isContainer
    obtain ⟨result, hresult, -⟩ := map_eq_ok.mp h
    exact contents_eraseLast hplace hresult
  | cons elem rest ih =>
    cases hstep : schema.stepInto path depth elem with
    | error e => simp [editBelow, hstep] at h
    | ok target =>
      obtain ⟨childSchema, step⟩ := target
      have hleads := SchemaNode.leads_of_stepInto hstep
      rw [List.cons_append, SchemaNode.clearing_step hstep]
      have henter := enter_eq hplace hleads false path depth
      cases hnext : node.next? elem with
      | none =>
        rw [hnext] at henter
        simp only [editBelow, hstep, henter]
        exact (apply_underAll_of_absent hplace hleads hnext
          (SchemaNode.clears_clearing _ _)).symm
      | some sub =>
        rw [hnext] at henter
        simp only [editBelow, hstep, henter, Option.some_or] at h ⊢
        exact contents_store_of_next? hplace hleads hnext
          (ih (isPlace_next hplace hleads hnext) h)

theorem contents_erase (hplace : IsPlace schema node) (h : (node.erase schema path).1 = .ok ()) :
    (node.erase schema path).2.contents = (schema.erasing path.elems).apply node.contents := by
  unfold erase at h ⊢
  cases hlast : path.elems.getLast? with
  | none =>
    obtain ⟨children, rfl⟩ := hplace.isContainer
    rw [List.getLast?_eq_none_iff.mp hlast]
    funext moves
    cases moves with
    | nil => rfl
    | cons move rest =>
      rw [contents, move?_emptyContainer]
      rfl
  | some last =>
    simp only [hlast] at h ⊢
    have helems := elems_eq_append_of_getLast? hlast
    obtain ⟨found, hfound, -⟩ := map_eq_ok.mp h
    rw [SchemaNode.erasing_eq_clearing schema (by rw [helems]; simp)]
    conv => rhs; rw [helems]
    exact contents_editBelow_eraseLast hplace hfound

end Erase

section Erasable

/-- Whether a path can be deleted: it has to be accepted as far as the tree reaches. -/
def Erasable : SchemaNode → Node → List PathElem → Prop
  | _, _, [] => True
  | schema, node, elem :: rest =>
    ∃ child, schema.child? elem.name = some child ∧ child.passable elem rest.isEmpty = true ∧
      ∀ sub, node.next? elem = some sub → Erasable child sub rest

variable {schema : SchemaNode} {node : Node} {path : Path} {last : PathElem}

private theorem eraseLast_eq_ok (path : Path) {children : List (String × Node)}
    (hplace : IsPlace schema (.container children)) :
    (eraseLast path last schema children).1 = .ok () ↔
      Erasable schema (.container children) [last] := by
  have hend : Erasable schema (.container children) [last] ↔
      ∃ child, schema.child? last.name = some child ∧ child.passable last true = true := by
    constructor
    · intro h
      obtain ⟨child, hchild, hpassable, -⟩ := h
      exact ⟨child, hchild, hpassable⟩
    · intro h
      obtain ⟨child, hchild, hpassable⟩ := h
      exact ⟨child, hchild, hpassable, fun _ _ => trivial⟩
  have hnoKeys : SchemaNode.requireNoKeys path last = .ok () ↔ last.keys = [] :=
    SchemaNode.requireNoKeys_eq_ok
  rw [hend]
  unfold eraseLast
  cases hchild : schema.child? last.name with
  | none => simp [SchemaNode.childFor, hchild]
  | some childSchema =>
    rw [SchemaNode.childFor_eq_ok.mpr hchild]
    simp only [Option.some.injEq, exists_eq_left']
    cases childSchema with
    | leaf leafSchema =>
      rw [SchemaNode.passable_leaf, ← hnoKeys]
      cases SchemaNode.requireNoKeys path last <;> simp
    | container schemas =>
      rw [SchemaNode.passable_container, ← hnoKeys]
      cases SchemaNode.requireNoKeys path last <;> simp
    | list keys max schemas =>
      by_cases hkeys : last.keys = []
      · simp [hkeys, SchemaNode.passable_list hkeys]
      · rw [SchemaNode.passable_entry hkeys path]
        cases hget : SortedMap.get? children last.name with
        | none =>
          cases (SchemaNode.list keys max schemas).requireKeys path last <;> simp [hkeys]
        | some child =>
          obtain ⟨entries, rfl, -⟩ := select?_of_fits_list (hplace.child_fits hget hchild)
          cases (SchemaNode.list keys max schemas).requireKeys path last <;> simp [hkeys]

private theorem editBelow_eraseLast_eq_ok (path : Path) (hplace : IsPlace schema node) (depth : Nat)
    (parents : List PathElem) :
    (∃ found, (editBelow false path (eraseLast path last) schema node depth parents).1 =
      .ok found) ↔ Erasable schema node (parents ++ [last]) := by
  induction parents generalizing schema node depth with
  | nil =>
    obtain ⟨children, rfl⟩ := hplace.isContainer
    rw [List.nil_append, ← eraseLast_eq_ok path hplace]
    simp only [editBelow]
    cases (eraseLast path last schema children).1 <;> simp [Except.map]
  | cons elem rest ih =>
    have hrest : (rest ++ [last]).isEmpty = false := by simp
    rw [List.cons_append, Erasable, hrest]
    cases hstep : schema.stepInto path depth elem with
    | error e =>
      simp only [editBelow, hstep]
      constructor
      · intro h
        obtain ⟨found, hfound⟩ := h
        cases hfound
      · intro h
        obtain ⟨child, hchild, hpassable, -⟩ := h
        have hok := (SchemaNode.stepInto_eq_ok path depth).mpr
          ⟨hchild, hpassable, rfl⟩
        rw [hstep] at hok
        cases hok
    | ok target =>
      obtain ⟨childSchema, step⟩ := target
      obtain ⟨hchild, hpassable, -⟩ := (SchemaNode.stepInto_eq_ok path depth).mp hstep
      have hleads := SchemaNode.leads_of_stepInto hstep
      have henter := enter_eq hplace hleads false path depth
      simp only [hchild, Option.some.injEq, exists_eq_left', hpassable, true_and]
      cases hnext : node.next? elem with
      | none =>
        rw [hnext] at henter
        simp [editBelow, hstep, henter]
      | some sub =>
        rw [hnext] at henter
        simp only [editBelow, hstep, henter, Option.some_or, Option.some.injEq, forall_eq']
        exact ih (isPlace_next hplace hleads hnext) (depth + 1)

theorem erase_eq_ok (hplace : IsPlace schema node) :
    (node.erase schema path).1 = .ok () ↔ Erasable schema node path.elems := by
  unfold erase
  cases hlast : path.elems.getLast? with
  | none =>
    rw [List.getLast?_eq_none_iff.mp hlast]
    exact ⟨fun _ => trivial, fun _ => rfl⟩
  | some last =>
    conv => rhs; rw [elems_eq_append_of_getLast? hlast]
    rw [← editBelow_eraseLast_eq_ok path hplace 0]
    simp only [map_eq_ok, and_true]

end Erasable

end Node

end Telemetry
