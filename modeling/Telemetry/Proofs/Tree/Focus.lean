import Telemetry.Proofs.Except
import Telemetry.Proofs.Tree.LeafEdit
import Telemetry.Transaction

/-!
Edits at a place below the root. Every step down from a place of a schema leads to a place
again, and putting something back there changes nothing beside it; so an edit of the children
of a deep place is an edit of the part of the leaf map below that place.
-/

namespace Telemetry

namespace SchemaNode

theorem childFor_eq_ok {schema child : SchemaNode} {full : Path} {depth : Nat}
    {elem : PathElem} :
    schema.childFor full depth elem = .ok child ↔ schema.child? elem.name = some child := by
  unfold childFor
  split <;> simp [*]

theorem requireNoKeys_eq_ok {full : Path} {elem : PathElem} :
    requireNoKeys full elem = .ok () ↔ elem.keys = [] := by
  unfold requireNoKeys
  split <;> simp_all

/-- An element leads through a container if it has no keys, and into an entry of a list. -/
inductive Leads (schema : SchemaNode) (elem : PathElem) : SchemaNode → Step → Prop
  | container {children : List (String × SchemaNode)}
      (child : schema.child? elem.name = some (.container children)) (noKeys : elem.keys = []) :
      Leads schema elem (.container children) (.child elem.name)
  | entry {keys : List String} {max : Option UInt64} {children : List (String × SchemaNode)}
      (child : schema.child? elem.name = some (.list keys max children)) :
      Leads schema elem (.list keys max children) (.entry elem.name elem.keys)

theorem leads_of_requirePassable {schema child : SchemaNode} {full : Path} {depth : Nat}
    {elem : PathElem} (hchild : schema.child? elem.name = some child)
    (h : child.requirePassable full depth elem false = .ok ()) :
    Leads schema elem child (Step.ofElem child elem) := by
  cases child with
  | leaf leafSchema => simp [requirePassable] at h
  | container children => exact .container hchild (requireNoKeys_eq_ok.mp h)
  | list keys max children => exact .entry hchild

theorem leads_of_stepInto {schema childSchema : SchemaNode} {full : Path} {depth : Nat}
    {elem : PathElem} {step : Step}
    (h : schema.stepInto full depth elem = .ok (childSchema, step)) :
    Leads schema elem childSchema step := by
  obtain ⟨child, hchild, h⟩ := bind_eq_ok.mp h
  obtain ⟨_, hpassable, h⟩ := bind_eq_ok.mp h
  simp only [Except.ok.injEq, Prod.mk.injEq] at h
  obtain ⟨rfl, rfl⟩ := h
  exact leads_of_requirePassable (childFor_eq_ok.mp hchild) hpassable

end SchemaNode

namespace Node

open SchemaNode (Leads)

def at? (node : Node) : List PathElem → Option Node
  | [] => some node
  | elem :: rest => (node.next? elem).bind (at? · rest)

theorem at?_append (node : Node) (elems rest : List PathElem) :
    node.at? (elems ++ rest) = (node.at? elems).bind (at? · rest) := by
  induction elems generalizing node with
  | nil => rfl
  | cons elem elems ih =>
    rw [List.cons_append, at?, at?]
    cases node.next? elem with
    | none => rfl
    | some next => exact ih next

section Step

variable {schema childSchema : SchemaNode} {elem : PathElem} {step : Step} {node sub : Node}

theorem isPlace_next (hplace : IsPlace schema node) (hleads : Leads schema elem childSchema step)
    (hnext : node.next? elem = some sub) : IsPlace childSchema sub := by
  obtain ⟨children, rfl⟩ := hplace.isContainer
  rw [next?_container] at hnext
  obtain ⟨child, hget, hselect⟩ := Option.bind_eq_some_iff.mp hnext
  cases hleads with
  | container hchild noKeys =>
    have hfits := hplace.child_fits hget hchild
    obtain ⟨grandchildren, rfl⟩ := fits_container hfits
    rw [noKeys] at hselect
    exact Option.some.inj hselect ▸ hfits
  | entry hchild =>
    obtain ⟨entries, rfl, _, hentries⟩ := select?_of_fits_list (hplace.child_fits hget hchild)
    exact hentries elem.keys sub hselect

/-- Entering finds what stands at the element, and makes an empty place of what is absent if
it may. -/
theorem enter_eq (hplace : IsPlace schema node) (hleads : Leads schema elem childSchema step)
    (create : Bool) (full : Path) (depth : Nat) :
    node.enter create full depth step =
      .ok ((node.next? elem).or (if create then some emptyContainer else none)) := by
  obtain ⟨children, rfl⟩ := hplace.isContainer
  rw [next?_container]
  cases hleads with
  | container hchild noKeys =>
    cases hget : SortedMap.get? children elem.name with
    | none => simp [enter, hget]
    | some child =>
      obtain ⟨grandchildren, rfl⟩ := fits_container (hplace.child_fits hget hchild)
      simp [enter, hget, noKeys, select?_container_nil]
  | entry hchild =>
    cases hget : SortedMap.get? children elem.name with
    | none => simp [enter, hget]
    | some child =>
      obtain ⟨entries, rfl, _⟩ := select?_of_fits_list (hplace.child_fits hget hchild)
      cases hentry : SortedMap.get? entries elem.keys with
      | none => simp [enter, hget, hentry]
      | some entry => simp [enter, hget, hentry]

theorem below?_eq (hplace : IsPlace schema node) (hleads : Leads schema elem childSchema step) :
    node.below? step = node.next? elem := by
  obtain ⟨children, rfl⟩ := hplace.isContainer
  rw [next?_container]
  cases hleads with
  | container hchild noKeys =>
    cases hget : SortedMap.get? children elem.name with
    | none => simp [below?, hget]
    | some child =>
      obtain ⟨grandchildren, rfl⟩ := fits_container (hplace.child_fits hget hchild)
      simp [below?, hget, noKeys, select?_container_nil]
  | entry hchild =>
    cases hget : SortedMap.get? children elem.name with
    | none => simp [below?, hget]
    | some child =>
      obtain ⟨entries, rfl, _⟩ := select?_of_fits_list (hplace.child_fits hget hchild)
      simp [below?, hget]

/-- The list that an entry is put into. -/
theorem fits_storedEntries {children : List (String × Node)} {name : String}
    {keys : List String} {max : Option UInt64} {schemas : List (String × SchemaNode)}
    (hplace : IsPlace schema (.container children))
    (hchild : schema.child? name = some (.list keys max schemas)) :
    ∃ entries, (SortedMap.get? children name).getD emptyList = .list entries ∧
      Fits (.list keys max schemas) (.list entries) ∧
      (∀ key, (SortedMap.get? children name).bind (·.select? key) =
        SortedMap.get? entries key) ∧
      ∀ key sub, (container children).store (.entry name key) sub =
        .container (SortedMap.insert children name (.list (SortedMap.insert entries key sub))) := by
  cases hget : SortedMap.get? children name with
  | none => exact ⟨[], rfl, Fits.emptyList, fun _ => rfl, fun key sub => by simp [store, hget]⟩
  | some child =>
    have hfits := hplace.child_fits hget hchild
    obtain ⟨entries, rfl, _⟩ := select?_of_fits_list hfits
    exact ⟨entries, rfl, hfits, fun _ => rfl, fun key sub => by simp [store, hget]⟩

theorem isPlace_store (hplace : IsPlace schema node)
    (hleads : Leads schema elem childSchema step) (hsub : IsPlace childSchema sub) :
    IsPlace schema (node.store step sub) := by
  obtain ⟨children, rfl⟩ := hplace.isContainer
  cases hleads with
  | container hchild noKeys => exact hplace.insert hchild hsub
  | entry hchild =>
    obtain ⟨entries, _, hentries, _, hstore⟩ := fits_storedEntries hplace hchild
    rw [hstore]
    exact hplace.insert hchild (hentries.insertEntry elem.keys hsub)

/-- A child that is a container is reached without keys only. -/
private theorem next?_eq_none_of_keys {children : List (String × Node)}
    {schemas : List (String × SchemaNode)} (hplace : IsPlace schema (.container children))
    (hchild : schema.child? elem.name = some (.container schemas)) (hkeys : elem.keys ≠ []) :
    (container children).next? elem = none := by
  rw [next?_container]
  cases hget : SortedMap.get? children elem.name with
  | none => rfl
  | some child =>
    obtain ⟨grandchildren, rfl⟩ := fits_container (hplace.child_fits hget hchild)
    exact select?_container_of_ne hkeys grandchildren

/-- What is put one step below a place stands there, and nothing changes beside it. -/
theorem next?_store (hplace : IsPlace schema node)
    (hleads : Leads schema elem childSchema step) (hsub : IsPlace childSchema sub)
    (other : PathElem) :
    (node.store step sub).next? other = if other = elem then some sub else node.next? other := by
  obtain ⟨children, rfl⟩ := hplace.isContainer
  obtain ⟨name, keys⟩ := elem
  obtain ⟨otherName, otherKeys⟩ := other
  cases hleads with
  | container hchild noKeys =>
    obtain ⟨subChildren, rfl⟩ := hsub.isContainer
    simp only at hchild noKeys
    subst noKeys
    rw [store, next?_container, SortedMap.get?_insert]
    by_cases hname : otherName = name
    · subst hname
      by_cases hkeys : otherKeys = []
      · simp [hkeys, select?_container_nil]
      · rw [next?_eq_none_of_keys hplace hchild hkeys]
        simp [hkeys, select?_container_of_ne hkeys]
    · simp [hname, next?_container]
  | entry hchild =>
    obtain ⟨entries, _, _, hselect, hstore⟩ := fits_storedEntries hplace hchild
    rw [hstore, next?_container, next?_container, SortedMap.get?_insert]
    by_cases hname : otherName = name
    · subst hname
      simp [hselect, SortedMap.get?_insert]
    · simp [hname]

theorem leafAt?_store (hplace : IsPlace schema node)
    (hleads : Leads schema elem childSchema step) (hsub : IsPlace childSchema sub) :
    (node.store step sub).leafAt? = LeafMap.under (fun _ => sub.leafAt?) [elem] node.leafAt? := by
  obtain ⟨children, hchildren⟩ := hplace.isContainer
  obtain ⟨stored, hstored⟩ := (isPlace_store hplace hleads hsub).isContainer
  funext elems
  cases elems with
  | nil => rw [LeafMap.under_cons_nil, hstored, hchildren]; rfl
  | cons other rest =>
    rw [leafAt?_cons, next?_store hplace hleads hsub]
    by_cases h : other = elem
    · subst h
      simp [LeafMap.under_cons_self, LeafMap.under_nil]
    · simp [h, LeafMap.under_cons_of_ne, leafAt?_cons]

/-- Entering a step finds a place with the leaves that are below it, or nothing and no leaves. -/
theorem enter_cases (hplace : IsPlace schema node)
    (hleads : Leads schema elem childSchema step) (create : Bool) (full : Path) (depth : Nat) :
    (node.enter create full depth step = .ok none ∧ create = false ∧
      node.leafAt?.below elem = fun _ => none) ∨
    ∃ sub, node.enter create full depth step = .ok (some sub) ∧ IsPlace childSchema sub ∧
      node.leafAt?.below elem = sub.leafAt? := by
  rw [enter_eq hplace hleads]
  cases hnext : node.next? elem with
  | some sub =>
    refine Or.inr ⟨sub, rfl, isPlace_next hplace hleads hnext, ?_⟩
    funext rest
    simp [LeafMap.below, leafAt?_cons, hnext]
  | none =>
    cases create with
    | false =>
      refine Or.inl ⟨rfl, rfl, ?_⟩
      funext rest
      simp [LeafMap.below, leafAt?_cons, hnext]
    | true =>
      refine Or.inr ⟨emptyContainer, rfl, IsPlace.empty childSchema, ?_⟩
      funext rest
      simp [LeafMap.below, leafAt?_cons, hnext, leafAt?_emptyContainer]

end Step

/-- How a node changed when only the place that some elements lead to did. A place that is not
there counts as an empty one before. -/
structure Focused (schema : SchemaNode) (elems : List PathElem) (before after : Node)
    (place : SchemaNode) (old new : Node) : Prop where
  descend : schema.descend elems = some place
  leaves_old : (fun rest => before.leafAt? (elems ++ rest)) = old.leafAt?
  leaves_new : after.leafAt? = LeafMap.under (fun _ => new.leafAt?) elems before.leafAt?
  at_elems : after.at? elems = some new

namespace Focused

theorem here (schema : SchemaNode) (old new : Node) : Focused schema [] old new schema old new :=
  ⟨rfl, rfl, rfl, rfl⟩

/-- The change seen from one step above. -/
theorem step {schema childSchema place : SchemaNode} {elem : PathElem} {elems : List PathElem}
    {step : Step} {node sub subAfter old new : Node} (hplace : IsPlace schema node)
    (hleads : Leads schema elem childSchema step)
    (hbelow : node.leafAt?.below elem = sub.leafAt?) (hafter : IsPlace childSchema subAfter)
    (h : Focused childSchema elems sub subAfter place old new) :
    Focused schema (elem :: elems) node (node.store step subAfter) place old new := by
  have hchild : schema.child? elem.name = some childSchema := by
    cases hleads with
    | container child noKeys => exact child
    | entry child => exact child
  refine ⟨by simp [SchemaNode.descend, hchild, h.descend], ?_, ?_, ?_⟩
  · rw [← h.leaves_old, ← hbelow]
    rfl
  · rw [leafAt?_store hplace hleads hafter]
    funext other
    cases other with
    | nil => rfl
    | cons first rest =>
      by_cases hfirst : first = elem
      · subst hfirst
        rw [LeafMap.under_cons_self, LeafMap.under_cons_self, LeafMap.under_nil, hbelow,
          h.leaves_new]
      · rw [LeafMap.under_cons_of_ne _ _ _ _ hfirst, LeafMap.under_cons_of_ne _ _ _ _ hfirst]
  · rw [at?, next?_store hplace hleads hafter]
    simpa using h.at_elems

/-- What an edit does to the leaves of the place, it does below the elements that lead there. -/
theorem leaves_eq_under {schema place : SchemaNode} {elems : List PathElem}
    {before after old new : Node} (h : Focused schema elems before after place old new)
    {change : LeafMap → LeafMap} (hchange : new.leafAt? = change old.leafAt?) :
    after.leafAt? = LeafMap.under change elems before.leafAt? := by
  rw [h.leaves_new]
  apply LeafMap.under_congr
  rw [h.leaves_old, hchange]

end Focused

/-- An edit of children keeps places in the shape of their schemas, also where it fails. -/
def KeepsPlaces {α : Type} (edit : ChildEdit α) : Prop :=
  ∀ schema children, IsPlace schema (.container children) →
    IsPlace schema (.container (edit schema children).2)

section EditBelow

variable {α : Type} {edit : ChildEdit α} {schema : SchemaNode} {node : Node}

theorem isPlace_editBelow (hedit : KeepsPlaces edit) (hplace : IsPlace schema node)
    (create : Bool) (full : Path) (depth : Nat) (elems : List PathElem) :
    IsPlace schema (editBelow create full edit schema node depth elems).2 := by
  induction elems generalizing schema node depth with
  | nil =>
    obtain ⟨children, rfl⟩ := hplace.isContainer
    exact hedit schema children hplace
  | cons elem elems ih =>
    cases hstep : schema.stepInto full depth elem with
    | error e => simpa [editBelow, hstep] using hplace
    | ok target =>
      obtain ⟨childSchema, step⟩ := target
      have hleads := SchemaNode.leads_of_stepInto hstep
      rcases enter_cases hplace hleads create full depth with
        ⟨henter, _, _⟩ | ⟨sub, henter, hsub, _⟩
      · simpa [editBelow, hstep, henter] using hplace
      · simpa [editBelow, hstep, henter] using
          isPlace_store hplace hleads (ih hsub (depth + 1))

/-- An edit that ran has run at the place that the elements lead to. -/
theorem focused_of_editBelow (hedit : KeepsPlaces edit) (hplace : IsPlace schema node)
    {create : Bool} {full : Path} {depth : Nat} {elems : List PathElem} {result : α}
    (h : (editBelow create full edit schema node depth elems).1 = .ok (some result)) :
    ∃ place children, IsPlace place (.container children) ∧
      (edit place children).1 = .ok result ∧
      Focused schema elems node (editBelow create full edit schema node depth elems).2 place
        (.container children) (.container (edit place children).2) := by
  induction elems generalizing schema node depth with
  | nil =>
    obtain ⟨children, rfl⟩ := hplace.isContainer
    obtain ⟨r, hr, hresult⟩ := map_eq_ok.mp h
    rw [Option.some.inj hresult] at hr
    exact ⟨schema, children, hplace, hr, Focused.here _ _ _⟩
  | cons elem elems ih =>
    cases hstep : schema.stepInto full depth elem with
    | error e => simp [editBelow, hstep] at h
    | ok target =>
      obtain ⟨childSchema, step⟩ := target
      have hleads := SchemaNode.leads_of_stepInto hstep
      rcases enter_cases hplace hleads create full depth with
        ⟨henter, _, _⟩ | ⟨sub, henter, hsub, hbelow⟩
      · simp [editBelow, hstep, henter] at h
      · simp only [editBelow, hstep, henter] at h ⊢
        obtain ⟨place, children, hchildren, hresult, hfocused⟩ := ih hsub h
        exact ⟨place, children, hchildren, hresult, hfocused.step hplace hleads hbelow
          (isPlace_editBelow hedit hsub create full (depth + 1) elems)⟩

/-- An edit that found no place has changed no leaf, and there was none below the place. -/
theorem leaves_of_editBelow_eq_none (hedit : KeepsPlaces edit) (hplace : IsPlace schema node)
    {create : Bool} {full : Path} {depth : Nat} {elems : List PathElem}
    (h : (editBelow create full edit schema node depth elems).1 = .ok none) :
    create = false ∧
      (editBelow create full edit schema node depth elems).2.leafAt? = node.leafAt? ∧
      (fun rest => node.leafAt? (elems ++ rest)) = fun _ => none := by
  induction elems generalizing schema node depth with
  | nil =>
    obtain ⟨children, rfl⟩ := hplace.isContainer
    obtain ⟨r, _, hresult⟩ := map_eq_ok.mp h
    cases hresult
  | cons elem elems ih =>
    cases hstep : schema.stepInto full depth elem with
    | error e => simp [editBelow, hstep] at h
    | ok target =>
      obtain ⟨childSchema, step⟩ := target
      have hleads := SchemaNode.leads_of_stepInto hstep
      rcases enter_cases hplace hleads create full depth with
        ⟨henter, hcreate, hbelow⟩ | ⟨sub, henter, hsub, hbelow⟩
      · simp only [editBelow, hstep, henter]
        refine ⟨hcreate, trivial, ?_⟩
        funext rest
        exact congrFun hbelow (elems ++ rest)
      · simp only [editBelow, hstep, henter] at h ⊢
        obtain ⟨hcreate, hsame, hnone⟩ := ih hsub h
        have hafter := isPlace_editBelow hedit hsub create full (depth + 1) elems
        refine ⟨hcreate, ?_, ?_⟩
        · rw [leafAt?_store hplace hleads hafter, hsame, ← hbelow]
          exact (LeafMap.under_congr rfl).trans (LeafMap.under_id [elem] node.leafAt?)
        · rw [← hnone, ← hbelow]
          rfl

end EditBelow

section ReplaceAt

variable {schema childSchema place : SchemaNode} {node sub new : Node}

/-- What has places at or below it is not a leaf. -/
private theorem leads_of_next? (hplace : IsPlace schema node) {elem : PathElem}
    {rest : List PathElem} {next : Node} (hchild : schema.child? elem.name = some childSchema)
    (hnext : node.next? elem = some next) (hat : next.at? rest = some sub)
    (hsub : IsPlace place sub) : Leads schema elem childSchema (Step.ofElem childSchema elem) := by
  obtain ⟨children, rfl⟩ := hplace.isContainer
  rw [next?_container] at hnext
  obtain ⟨child, hget, hselect⟩ := Option.bind_eq_some_iff.mp hnext
  have hfits := hplace.child_fits hget hchild
  cases childSchema with
  | list keys max schemas => exact .entry hchild
  | container schemas =>
    refine .container hchild ?_
    obtain ⟨grandchildren, rfl⟩ := fits_container hfits
    cases hkeys : elem.keys with
    | nil => rfl
    | cons pair more =>
      rw [hkeys] at hselect
      cases hselect
  | leaf leafSchema =>
    obtain ⟨value, rfl⟩ := fits_leaf hfits
    cases hkeys : elem.keys with
    | cons pair more => simp [hkeys, select?] at hselect
    | nil =>
      rw [hkeys] at hselect
      cases hselect
      cases rest with
      | cons first more => simp [at?, next?, children?] at hat
      | nil =>
        cases hat
        obtain ⟨grandchildren, hcontainer⟩ := hsub.isContainer
        cases hcontainer

theorem focused_replaceAt (hplace : IsPlace schema node) {elems : List PathElem}
    (hdescend : schema.descend elems = some place) (hat : node.at? elems = some sub)
    (hsub : IsPlace place sub) (hnew : IsPlace place new) :
    IsPlace schema (node.replaceAt new (schema.stepsTo elems)) ∧
      Focused schema elems node (node.replaceAt new (schema.stepsTo elems)) place sub new := by
  induction elems generalizing schema node with
  | nil =>
    cases hdescend
    cases hat
    exact ⟨hnew, Focused.here _ _ _⟩
  | cons elem rest ih =>
    obtain ⟨childSchema, hchild, hrest⟩ := Option.bind_eq_some_iff.mp hdescend
    obtain ⟨next, hnext, hbelow⟩ := Option.bind_eq_some_iff.mp hat
    have hleads := leads_of_next? hplace hchild hnext hbelow hsub
    obtain ⟨hafter, hfocused⟩ := ih (isPlace_next hplace hleads hnext) hrest hbelow
    have hsteps : node.replaceAt new (schema.stepsTo (elem :: rest)) =
        node.store (Step.ofElem childSchema elem)
          (next.replaceAt new (childSchema.stepsTo rest)) := by
      rw [SchemaNode.stepsTo, hchild]
      simp only
      rw [replaceAt, below?_eq hplace hleads, hnext]
    rw [hsteps]
    refine ⟨isPlace_store hplace hleads hafter, ?_⟩
    refine hfocused.step hplace hleads ?_ hafter
    funext more
    simp [LeafMap.below, leafAt?_cons, hnext]

end ReplaceAt

end Node

end Telemetry
