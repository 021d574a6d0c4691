import Telemetry.Proofs.Tree.MergeEffects
import Telemetry.Proofs.Tree.Located

/-!
The effects of edits at paths. Creating what a path names and storing a value there fix the
containers, lists and entries on the way to it, so whether they go through and what they do is
decided by the schema, the path and the value alone. Deleting clears what stands at the path; it
goes through where the path is accepted as far as the tree reaches.
-/

namespace Telemetry

namespace SchemaNode

def passable (child : SchemaNode) (elem : PathElem) (isLast : Bool) : Bool :=
  (child.requirePassable Path.root 0 elem isLast).toOption.isSome

private theorem requirePassable_congr {child : SchemaNode} {full other : Path}
    {depth otherDepth : Nat} {elem : PathElem} {isLast : Bool}
    (h : child.requirePassable full depth elem isLast = .ok ()) :
    child.requirePassable other otherDepth elem isLast = .ok () := by
  cases child with
  | container children => exact requireNoKeys_eq_ok.mpr (requireNoKeys_eq_ok.mp h)
  | leaf leafSchema =>
    cases isLast with
    | false => cases h
    | true => exact requireNoKeys_eq_ok.mpr (requireNoKeys_eq_ok.mp h)
  | list keys max children =>
    by_cases hkeys : elem.keys = []
    · cases isLast with
      | false => simp [requirePassable, hkeys] at h
      | true => simp [requirePassable, hkeys]
    · have hrequire : (list keys max children).requireKeys full elem = .ok () := by
        simpa [requirePassable, hkeys] using h
      have hother : (list keys max children).requireKeys other elem = .ok () :=
        requireKeys_eq_ok.mpr (requireKeys_eq_ok.mp hrequire)
      simpa [requirePassable, hkeys] using hother

/-- Only messages depend on the path and on where in it the element stands. -/
theorem requirePassable_eq_ok {child : SchemaNode} (full : Path) (depth : Nat) {elem : PathElem}
    {isLast : Bool} :
    child.requirePassable full depth elem isLast = .ok () ↔ child.passable elem isLast = true := by
  unfold passable
  constructor
  · intro h
    rw [requirePassable_congr h]
    rfl
  · intro h
    obtain ⟨_, h⟩ := Option.isSome_iff_exists.mp h
    exact requirePassable_congr (toOption_eq_some.mp h)

theorem passable_leaf {leafSchema : LeafSchema} {elem : PathElem} :
    (leaf leafSchema).passable elem true = true ↔ elem.keys = [] := by
  rw [← requirePassable_eq_ok Path.root 0]
  exact requireNoKeys_eq_ok

theorem passable_container {children : List (String × SchemaNode)} {elem : PathElem}
    {isLast : Bool} : (container children).passable elem isLast = true ↔ elem.keys = [] := by
  rw [← requirePassable_eq_ok Path.root 0]
  exact requireNoKeys_eq_ok

theorem passable_list {keys : List String} {max : Option UInt64}
    {children : List (String × SchemaNode)} {elem : PathElem} (h : elem.keys = []) :
    (list keys max children).passable elem true = true := by
  simp [passable, requirePassable, h, Except.toOption]

theorem passable_entry {keys : List String} {max : Option UInt64}
    {children : List (String × SchemaNode)} {elem : PathElem} {isLast : Bool}
    (h : elem.keys ≠ []) (full : Path) :
    (list keys max children).passable elem isLast = true ↔
      (list keys max children).requireKeys full elem = .ok () := by
  rw [← requirePassable_eq_ok full 0]
  simp [requirePassable, h]

/-- A path goes on below entries of a list only. -/
theorem keys_ne_nil_of_passable {keys : List String} {max : Option UInt64}
    {children : List (String × SchemaNode)} {elem : PathElem}
    (h : (list keys max children).passable elem false = true) : elem.keys ≠ [] := by
  intro hkeys
  simp [passable, requirePassable, hkeys, Except.toOption] at h

theorem stepInto_eq_ok {schema child : SchemaNode} (full : Path) (depth : Nat) {elem : PathElem}
    {step : Step} :
    schema.stepInto full depth elem = .ok (child, step) ↔
      schema.child? elem.name = some child ∧ child.passable elem false = true ∧
        step = Step.ofElem child elem := by
  constructor
  · intro h
    obtain ⟨found, hfound, h⟩ := bind_eq_ok.mp h
    obtain ⟨_, hpassable, h⟩ := bind_eq_ok.mp h
    cases h
    exact ⟨childFor_eq_ok.mp hfound, (requirePassable_eq_ok _ _).mp hpassable, rfl⟩
  · rintro ⟨hchild, hpassable, rfl⟩
    exact stepInto_of_requirePassable hchild ((requirePassable_eq_ok _ _).mpr hpassable)

end SchemaNode

def Step.way : Step → Way
  | .child name => [(.child name, .container)]
  | .entry name keys => [(.child name, .list), (.entry keys, .container)]

/-- What is done where a path ends: at a leaf, at a list as a whole, or at a container or an entry,
which knows its keys. -/
structure Ending where
  leaf : LeafSchema → Option Effect
  list : SchemaNode → Option Effect
  place : SchemaNode → Option Keys → Option Effect

namespace Ending

def creating : Ending where
  leaf _ := some .keep
  list _ := some .keep
  place _ _ := some .keep

def putting (value : TypedValue) : Ending where
  leaf leafSchema :=
    (LeafValue.ofTyped? leafSchema.type value).map fun scalar => .const (.leaf scalar)
  list schema := value.json?.bind (·.listEffect? schema)
  place schema entry := value.json?.bind (·.placeEffect? schema entry)

def atChild? (ending : Ending) (elem : PathElem)
    (below : SchemaNode → Option Keys → Option Effect) : SchemaNode → Option Effect
  | .leaf leafSchema => (ending.leaf leafSchema).map (.under (.child elem.name))
  | .container children =>
    (below (.container children) none).map (.intoAll (Step.child elem.name).way)
  | .list keys max children =>
    if elem.keys = [] then
      (ending.list (.list keys max children)).map (.into (.child elem.name) .list)
    else
      (below (.list keys max children) (some elem.keys)).map
        (.intoAll (Step.entry elem.name elem.keys).way)

/-- The effect of a path on a place, everything on the way being made. It is none if the path is
not accepted, or if its ending does not go through. -/
def along? (ending : Ending) : SchemaNode → Option Keys → List PathElem → Option Effect
  | schema, entry, [] => ending.place schema entry
  | schema, _, elem :: rest =>
    (schema.child? elem.name).bind fun child =>
      if child.passable elem rest.isEmpty then
        ending.atChild? elem (fun child entry => along? ending child entry rest) child
      else none

variable {ending : Ending} {schema child : SchemaNode} {elem : PathElem} {rest : List PathElem}

theorem along?_cons (hchild : schema.child? elem.name = some child)
    (hpassable : child.passable elem rest.isEmpty = true) (entry : Option Keys) :
    ending.along? schema entry (elem :: rest) =
      ending.atChild? elem (fun child entry => ending.along? child entry rest) child := by
  rw [along?, hchild, Option.bind_some, if_pos hpassable]

theorem along?_cons_eq_none (h : ∀ child, schema.child? elem.name = some child →
    child.passable elem rest.isEmpty = false) (entry : Option Keys) :
    ending.along? schema entry (elem :: rest) = none := by
  rw [along?]
  cases hchild : schema.child? elem.name with
  | none => rfl
  | some child => simp [h child hchild]

/-- One step of a path that goes on. -/
theorem along?_step {full : Path} {depth : Nat} {step : Step}
    (hstep : schema.stepInto full depth elem = .ok (child, step)) (hrest : rest ≠ [])
    (entry : Option Keys) :
    ending.along? schema entry (elem :: rest) =
      (ending.along? child none rest).map (.intoAll step.way) := by
  obtain ⟨hchild, hpassable, rfl⟩ := (SchemaNode.stepInto_eq_ok _ _).mp hstep
  have hempty : rest.isEmpty = false := by simpa using hrest
  obtain ⟨next, more, rfl⟩ := List.exists_cons_of_ne_nil hrest
  rw [along?_cons hchild (hempty ▸ hpassable)]
  cases child with
  | leaf leafSchema => cases hpassable
  | container children => rfl
  | list keys max children =>
    have hkeys := SchemaNode.keys_ne_nil_of_passable hpassable
    simp only [atChild?, hkeys, if_false, Step.ofElem]
    rfl

theorem along?_eq_none_of_stepInto {full : Path} {depth : Nat} {e : TreeError}
    (hstep : schema.stepInto full depth elem = .error e) (hrest : rest ≠ [])
    (entry : Option Keys) : ending.along? schema entry (elem :: rest) = none := by
  refine along?_cons_eq_none ?_ entry
  intro child hchild
  have hempty : rest.isEmpty = false := by simpa using hrest
  rw [hempty]
  cases hpassable : child.passable elem false with
  | false => rfl
  | true =>
    have hok := (SchemaNode.stepInto_eq_ok full depth).mpr
      ⟨hchild, hpassable, rfl⟩
    rw [hstep] at hok
    cases hok

/-- What is done along a path leaves the place that it starts from alone, if what is done at its
end does. -/
theorem along?_here (hending : ∀ place entry effect, ending.place place entry = some effect →
    effect [] = none) {entry : Option Keys} {elems : List PathElem} {effect : Effect}
    (h : ending.along? schema entry elems = some effect) : effect [] = none := by
  cases elems with
  | nil => exact hending schema entry effect h
  | cons elem rest =>
    obtain ⟨child, hchild, h⟩ := Option.bind_eq_some_iff.mp h
    split at h
    · cases child with
      | leaf leafSchema =>
        obtain ⟨_, -, rfl⟩ := Option.map_eq_some_iff.mp h
        rfl
      | container children =>
        obtain ⟨_, -, rfl⟩ := Option.map_eq_some_iff.mp h
        rfl
      | list keys max children =>
        simp only [atChild?] at h
        split at h
        · obtain ⟨_, -, rfl⟩ := Option.map_eq_some_iff.mp h
          rfl
        · obtain ⟨_, -, rfl⟩ := Option.map_eq_some_iff.mp h
          rfl
    · cases h

theorem creating_along?_here {entry : Option Keys} {elems : List PathElem} {effect : Effect}
    (h : creating.along? schema entry elems = some effect) : effect [] = none := by
  refine along?_here ?_ h
  intro place entry effect h
  cases h
  rfl

theorem putting_along?_here {value : TypedValue} {entry : Option Keys} {elems : List PathElem}
    {effect : Effect} (h : (putting value).along? schema entry elems = some effect) :
    effect [] = none := by
  refine along?_here ?_ h
  intro place entry effect h
  obtain ⟨json, -, h⟩ := Option.bind_eq_some_iff.mp h
  exact Json.placeEffect?_here h

/-- An effect along a path is one along an accepted path. -/
theorem exists_locate_of_along? {entry : Option Keys} {elems : List PathElem} {effect : Effect}
    (h : ending.along? schema entry elems = some effect) (full : Path) (depth : Nat) :
    ∃ target, SchemaNode.locateFrom full schema depth elems = .ok target := by
  induction elems generalizing schema entry effect depth with
  | nil => exact ⟨schema, rfl⟩
  | cons elem rest ih =>
    cases hchild : schema.child? elem.name with
    | none => simp [along?, hchild] at h
    | some child =>
      cases hpassable : child.passable elem rest.isEmpty with
      | false => simp [along?, hchild, hpassable] at h
      | true =>
        have hpass := (SchemaNode.requirePassable_eq_ok full depth).mpr hpassable
        rw [along?_cons hchild hpassable] at h
        suffices hbelow :
            ∃ target, SchemaNode.locateFrom full child (depth + 1) rest = .ok target by
          obtain ⟨target, htarget⟩ := hbelow
          exact ⟨target, SchemaNode.locateFrom_cons_eq_ok.mpr ⟨child, hchild, hpass, htarget⟩⟩
        cases child with
        | leaf leafSchema =>
          cases rest with
          | nil => exact ⟨_, rfl⟩
          | cons next more => cases hpassable
        | container children =>
          obtain ⟨inner, hinner, -⟩ := Option.map_eq_some_iff.mp h
          exact ih hinner (depth + 1)
        | list keys max children =>
          cases rest with
          | nil => exact ⟨_, rfl⟩
          | cons next more =>
            have hkeys := SchemaNode.keys_ne_nil_of_passable hpassable
            simp only [atChild?, hkeys, if_false] at h
            obtain ⟨inner, hinner, -⟩ := Option.map_eq_some_iff.mp h
            exact ih hinner (depth + 1)

end Ending

namespace Node

open SchemaNode (Leads)

section Made

variable {schema childSchema : SchemaNode} {node sub : Node} {elem : PathElem} {step : Step}
  {effect : Effect}

/-- What is put one step below a place, made from what is there or from an empty place. -/
theorem contents_store (hplace : IsPlace schema node) (hleads : Leads schema elem childSchema step)
    (h : sub.contents = effect.apply ((node.next? elem).getD emptyContainer).contents) :
    (node.store step sub).contents = (effect.intoAll step.way).apply node.contents := by
  obtain ⟨children, rfl⟩ := hplace.isContainer
  rw [next?_container] at h
  cases hleads with
  | container hchild noKeys =>
    refine contents_insert_container hplace hchild ?_
    rw [h, noKeys]
    cases hget : SortedMap.get? children elem.name with
    | none => rfl
    | some child =>
      obtain ⟨grandchildren, rfl⟩ := fits_container (hplace.child_fits hget hchild)
      rfl
  | entry hchild =>
    obtain ⟨entries, hlist, hfits, hselect, hstore⟩ := fits_storedEntries hplace hchild
    rw [hselect] at h
    rw [hstore]
    refine contents_insert_list hplace hchild ?_
    rw [hlist]
    exact contents_insert_into hfits h

end Made

section Below

variable {α : Type} {ending : Ending} {edit : ChildEdit α} {path : Path} {last : PathElem}

def DoesLast (ending : Ending) (edit : ChildEdit α) (last : PathElem) : Prop :=
  ∀ schema children, IsPlace schema (.container children) →
    Does (ending.along? schema none [last]) (container children).contents
      (edit schema children).1 (container (edit schema children).2).contents

/-- With everything on the way being made it has the effect of the whole path. -/
theorem editBelow_does (path : Path) (hedit : DoesLast ending edit last) {schema : SchemaNode}
    {node : Node} (hplace : IsPlace schema node) (entry : Option Keys) (depth : Nat)
    (parents : List PathElem) :
    Does (ending.along? schema entry (parents ++ [last])) node.contents
      (requireReached path (editBelow true path edit schema node depth parents)).1
      (editBelow true path edit schema node depth parents).2.contents := by
  induction parents generalizing schema node entry depth with
  | nil =>
    obtain ⟨children, rfl⟩ := hplace.isContainer
    have hdoes := hedit schema children hplace
    simp only [editBelow]
    cases hresult : (edit schema children).1 with
    | error e =>
      rw [hresult] at hdoes
      exact hdoes
    | ok result =>
      rw [hresult] at hdoes
      exact hdoes
  | cons elem rest ih =>
    have hrest : rest ++ [last] ≠ [] := by simp
    cases hstep : schema.stepInto path depth elem with
    | error e =>
      rw [List.cons_append, Ending.along?_eq_none_of_stepInto hstep hrest]
      simp only [editBelow, hstep]
      exact Does.error e
    | ok target =>
      obtain ⟨childSchema, step⟩ := target
      have hleads := SchemaNode.leads_of_stepInto hstep
      have hmade : IsPlace childSchema ((node.next? elem).getD emptyContainer) := by
        cases hnext : node.next? elem with
        | none => exact IsPlace.empty childSchema
        | some sub => exact isPlace_next hplace hleads hnext
      have henter : node.enter true path depth step =
          .ok (some ((node.next? elem).getD emptyContainer)) := by
        rw [enter_eq hplace hleads]
        cases node.next? elem <;> rfl
      have hbelow := ih hmade none (depth + 1)
      rw [List.cons_append, Ending.along?_step hstep hrest]
      simp only [editBelow, hstep, henter]
      generalize editBelow true path edit childSchema ((node.next? elem).getD emptyContainer)
        (depth + 1) rest = outcome at hbelow ⊢
      obtain ⟨result, after⟩ := outcome
      have hresult : (requireReached path (result, node.store step after)).1 =
          (requireReached path (result, after)).1 := by
        rcases result with e | _ | found <;> rfl
      rw [hresult]
      exact hbelow.map fun effect hafter => contents_store hplace hleads hafter

end Below

section Create

variable {path : Path} {last : PathElem}

private theorem along?_last {ending : Ending} {schema child : SchemaNode}
    (hchild : schema.child? last.name = some child) :
    ending.along? schema none [last] = if child.passable last true then
      ending.atChild? last ending.place child else none := by
  rw [Ending.along?, hchild]
  rfl

theorem requireNoKeys_of_keys (path : Path) {elem : PathElem} (h : elem.keys ≠ []) :
    SchemaNode.requireNoKeys path elem = .error (.unexpectedKeys path.text) := by
  simp [SchemaNode.requireNoKeys, h]

theorem doesLast_createLast (path : Path) (last : PathElem) :
    DoesLast .creating (createLast path last) last := by
  intro schema children hplace
  unfold createLast
  cases hchild : schema.child? last.name with
  | none =>
    rw [Ending.along?, hchild]
    simp only [SchemaNode.childFor, hchild]
    exact Does.error _
  | some childSchema =>
    rw [along?_last hchild, SchemaNode.childFor_eq_ok.mpr hchild]
    cases childSchema with
    | leaf leafSchema =>
      by_cases hkeys : last.keys = []
      · rw [if_pos (SchemaNode.passable_leaf.mpr hkeys)]
        simp only [SchemaNode.requireNoKeys_eq_ok.mpr hkeys]
        refine ⟨⟨_, rfl⟩, ?_⟩
        rw [Effect.under_keep, Effect.apply_keep]
      · rw [if_neg (mt SchemaNode.passable_leaf.mp hkeys)]
        simp only [requireNoKeys_of_keys path hkeys]
        exact Does.error _
    | container schemas =>
      by_cases hkeys : last.keys = []
      · rw [if_pos (SchemaNode.passable_container.mpr hkeys)]
        simp only [SchemaNode.requireNoKeys_eq_ok.mpr hkeys]
        exact ⟨⟨_, rfl⟩, contents_insert_container hplace hchild rfl⟩
      · rw [if_neg (mt SchemaNode.passable_container.mp hkeys)]
        simp only [requireNoKeys_of_keys path hkeys]
        exact Does.error _
    | list keys max schemas =>
      by_cases hkeys : last.keys = []
      · rw [if_pos (SchemaNode.passable_list hkeys)]
        simp only [hkeys, List.isEmpty_nil, if_true, Ending.atChild?]
        exact ⟨⟨_, rfl⟩, contents_insert_list hplace hchild rfl⟩
      · have hempty : Fits (.list keys max schemas) emptyList := Fits.emptyList
        have hlist := fits_child_getD hplace hchild hempty
        obtain ⟨entries, hentries, -⟩ := select?_of_fits_list hlist
        have hpassable : (SchemaNode.list keys max schemas).passable last true = true ↔ _ :=
          SchemaNode.passable_entry hkeys path
        simp only [List.isEmpty_iff, hkeys, if_false, hentries, Ending.atChild?]
        cases hrequire : (SchemaNode.list keys max schemas).requireKeys path last with
        | error e =>
          rw [if_neg (by simp [hpassable, hrequire])]
          exact Does.error e
        | ok =>
          rw [if_pos (hpassable.mpr hrequire)]
          refine ⟨⟨_, rfl⟩, contents_insert_list hplace hchild ?_⟩
          rw [hentries]
          exact contents_insert_into (hentries ▸ hlist) rfl

theorem doesLast_putLast (path : Path) (last : PathElem) (value : TypedValue) :
    DoesLast (.putting value) (putLast path last value) last := by
  intro schema children hplace
  unfold putLast
  cases hchild : schema.child? last.name with
  | none =>
    rw [Ending.along?, hchild]
    simp only [SchemaNode.childFor, hchild]
    exact Does.error _
  | some childSchema =>
    rw [along?_last hchild, SchemaNode.childFor_eq_ok.mpr hchild]
    cases childSchema with
    | leaf leafSchema =>
      by_cases hkeys : last.keys = []
      · rw [if_pos (SchemaNode.passable_leaf.mpr hkeys)]
        simp only [SchemaNode.requireNoKeys_eq_ok.mpr hkeys, Ending.atChild?, Ending.putting]
        rw [← LeafValue.toOption_ofTyped _ _ path.text]
        cases LeafValue.ofTyped leafSchema.type value path.text with
        | error e => exact Does.error e
        | ok scalar => exact ⟨⟨_, rfl⟩, contents_insert_child rfl⟩
      · rw [if_neg (mt SchemaNode.passable_leaf.mp hkeys)]
        simp only [requireNoKeys_of_keys path hkeys]
        exact Does.error _
    | container schemas =>
      by_cases hkeys : last.keys = []
      · have hold := fits_child_getD hplace hchild (IsPlace.empty (.container schemas))
        rw [if_pos (SchemaNode.passable_container.mpr hkeys)]
        simp only [SchemaNode.requireNoKeys_eq_ok.mpr hkeys, Ending.atChild?, Ending.putting]
        rw [← TypedValue.toOption_ofTyped _ path.text]
        cases Json.ofTyped value path.text with
        | error e => exact Does.error e
        | ok json =>
          exact ((objectMerge_mergeObject json (.container schemas) path.text none _).does hold).map
            fun effect hafter => contents_insert_container hplace hchild hafter
      · rw [if_neg (mt SchemaNode.passable_container.mp hkeys)]
        simp only [requireNoKeys_of_keys path hkeys]
        exact Does.error _
    | list keys max schemas =>
      have hempty : Fits (.list keys max schemas) emptyList := Fits.emptyList
      have hold := fits_child_getD hplace hchild hempty
      obtain ⟨entries, hentries, -⟩ := select?_of_fits_list hold
      rw [hentries] at hold
      by_cases hkeys : last.keys = []
      · rw [if_pos (SchemaNode.passable_list hkeys)]
        simp only [hkeys, List.isEmpty_nil, if_true, Ending.atChild?, Ending.putting, hentries]
        rw [← TypedValue.toOption_ofTyped _ path.text]
        cases Json.ofTyped value path.text with
        | error e => exact Does.error e
        | ok json =>
          refine ((listMerge_mergeList json _ _ _ path.text _).does hold).map ?_
          intro effect hafter
          refine contents_insert_list hplace hchild ?_
          rw [hentries]
          exact hafter
      · have hpassable : (SchemaNode.list keys max schemas).passable last true = true ↔ _ :=
          SchemaNode.passable_entry hkeys path
        simp only [List.isEmpty_iff, hkeys, if_false, hentries, Ending.atChild?, Ending.putting]
        cases hrequire : (SchemaNode.list keys max schemas).requireKeys path last with
        | error e =>
          rw [if_neg (by simp [hpassable, hrequire])]
          exact Does.error e
        | ok =>
          rw [if_pos (hpassable.mpr hrequire), ← TypedValue.toOption_ofTyped _ path.text]
          cases Json.ofTyped value path.text with
          | error e => exact Does.error e
          | ok json =>
            refine ((objectMerge_mergeObject json (.list keys max schemas) path.text
              (some last.keys) _).does (fits_entry_getD hold last.keys)).map ?_
            intro effect hafter
            refine contents_insert_list hplace hchild ?_
            rw [hentries]
            exact contents_insert_into hold hafter

end Create

section Write

variable {schema : SchemaNode} {node : Node}

private theorem along?_eq_none_of_locate {ending : Ending} {path : Path} {e : TreeError}
    (h : schema.locate path = .error e) : ending.along? schema none path.elems = none := by
  cases heffect : ending.along? schema none path.elems with
  | none => rfl
  | some effect =>
    obtain ⟨target, htarget⟩ := Ending.exists_locate_of_along? heffect path 0
    rw [SchemaNode.locate, htarget] at h
    cases h

/-- A mutator does what is decided by the schema and the path, as its edits of the root and of the
last element do. -/
theorem mutate_does {α : Type} {ending : Ending} {atRoot : Edited α Node}
    {edit : PathElem → ChildEdit α} (hplace : IsPlace schema node) (path : Path)
    (hroot : Does (ending.along? schema none []) node.contents atRoot.1 atRoot.2.contents)
    (hedit : ∀ last, DoesLast ending (edit last) last) :
    Does (ending.along? schema none path.elems) node.contents
      (node.mutate schema path atRoot edit).1 (node.mutate schema path atRoot edit).2.contents := by
  unfold mutate
  cases hlocate : schema.locate path with
  | error e =>
    rw [along?_eq_none_of_locate hlocate]
    exact Does.error e
  | ok located =>
    cases hlast : path.elems.getLast? with
    | none => rwa [List.getLast?_eq_none_iff.mp hlast]
    | some last =>
      simp only [requireReached_node]
      have hdoes := editBelow_does path (hedit last) hplace none 0 path.elems.dropLast
      rwa [← elems_eq_append_of_getLast? hlast] at hdoes

theorem putRoot_does (hplace : IsPlace schema node) (path : Path) (value : TypedValue) :
    Does ((Ending.putting value).along? schema none []) node.contents
      (putRoot schema node path value).1 (putRoot schema node path value).2.contents := by
  simp only [putRoot, Ending.along?, Ending.putting]
  rw [← TypedValue.toOption_ofTyped _ path.text]
  cases Json.ofTyped value path.text with
  | error e => exact Does.error e
  | ok json => exact (objectMerge_mergeObject json schema "" none node).does hplace

/-- Whether creation goes through, and what it does, is decided by the schema and the path. -/
theorem create_does (hplace : IsPlace schema node) (path : Path) :
    Does (Ending.creating.along? schema none path.elems) node.contents
      (node.create schema path).1 (node.create schema path).2.contents := by
  rw [create_eq_mutate]
  exact mutate_does hplace path (Does.keep _ _) (doesLast_createLast path)

/-- Whether storing a value goes through, and what it does, is decided by the schema, the path and
the value. -/
theorem put_does (hplace : IsPlace schema node) (path : Path) (value : TypedValue) :
    Does ((Ending.putting value).along? schema none path.elems) node.contents
      (node.put schema path value).1 (node.put schema path value).2.contents := by
  rw [put_eq_mutate]
  exact mutate_does hplace path (putRoot_does hplace path value) (doesLast_putLast path · value)

end Write

end Node

end Telemetry
