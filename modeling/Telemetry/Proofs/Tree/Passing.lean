import Telemetry.Proofs.Tree.Clearing

/-!
Paths that can be gone on with. They lead through places to a place, and what an edit does at the
whole of a longer path it does below the place that the first part leads to.
-/

namespace Telemetry

namespace Contents

theorem belowAll_append (c : Contents) (moves rest : List Move) :
    c.belowAll (moves ++ rest) = (c.belowAll moves).belowAll rest := by
  funext more
  exact congrArg c (List.append_assoc moves rest more)

end Contents

namespace Effect

theorem intoAll_append (way rest : Way) (e : Effect) :
    intoAll (way ++ rest) e = intoAll way (intoAll rest e) :=
  List.foldr_append

theorem underAll_append (moves rest : List Move) (e : Effect) :
    underAll (moves ++ rest) e = underAll moves (underAll rest e) :=
  List.foldr_append

end Effect

namespace Way

theorem moves_append (way rest : Way) : moves (way ++ rest) = way.moves ++ rest.moves :=
  List.map_append

end Way

namespace SchemaNode

inductive Passes : SchemaNode → List PathElem → SchemaNode → Prop
  | here (schema : SchemaNode) : Passes schema [] schema
  | step {schema child place : SchemaNode} {elem : PathElem} {rest : List PathElem}
      (child_eq : schema.child? elem.name = some child)
      (passable : child.passable elem false = true) (below : Passes child rest place) :
      Passes schema (elem :: rest) place

def wayTo (schema : SchemaNode) (elems : List PathElem) : Way :=
  (schema.stepsTo elems).flatMap Step.way

def entryKeys (place : SchemaNode) (elems : List PathElem) : Option Keys :=
  match place with
  | .list _ _ _ => elems.getLast?.map (·.keys)
  | _ => none

section Passable

variable {schema child place : SchemaNode} {elem : PathElem} {elems rest : List PathElem}

theorem passable_of_passable (h : child.passable elem false = true) (isLast : Bool) :
    child.passable elem isLast = true := by
  cases child with
  | leaf leafSchema => cases h
  | container children => exact passable_container.mpr (passable_container.mp h)
  | list keys max children =>
    have hkeys := keys_ne_nil_of_passable h
    exact (passable_entry hkeys Path.root).mpr ((passable_entry hkeys Path.root).mp h)

theorem wayTo_cons (hchild : schema.child? elem.name = some child) :
    schema.wayTo (elem :: rest) = (Step.ofElem child elem).way ++ child.wayTo rest := by
  rw [wayTo, stepsTo, hchild]
  rfl

theorem wayTo_ne_nil (h : Passes schema elems place) (hne : elems ≠ []) :
    schema.wayTo elems ≠ [] := by
  cases h with
  | here => exact absurd rfl hne
  | step hchild hpassable hbelow =>
    rw [wayTo_cons hchild]
    unfold Step.ofElem
    split <;> simp [Step.way]

/-- An accepted path to a container or to an entry can be gone on with. -/
theorem passes_of_locateFrom {full path : Path} {depth : Nat}
    (h : locateFrom full schema depth path.elems = .ok place)
    (hends : Node.EndsAtPlace path place) : Passes schema path.elems place := by
  obtain ⟨origin, elems, target⟩ := path
  simp only at h
  induction elems generalizing schema depth with
  | nil =>
    rw [← locateFrom_nil_eq_ok.mp h]
    exact .here schema
  | cons elem rest ih =>
    obtain ⟨child, hchild, hpassable, hrest⟩ := locateFrom_cons_eq_ok.mp h
    have hpassable := (requirePassable_eq_ok full depth).mp hpassable
    cases rest with
    | cons next more =>
      refine .step hchild hpassable (ih hrest ?_)
      simpa [Node.EndsAtPlace] using hends
    | nil =>
      have hplace : child = place := locateFrom_nil_eq_ok.mp hrest
      subst hplace
      refine .step hchild ?_ (.here child)
      rcases hends with ⟨children, rfl⟩ | ⟨keys, max, children, last, rfl, hlast, hkeys⟩
      · exact passable_container.mpr (passable_container.mp hpassable)
      · cases hlast
        exact (passable_entry hkeys full).mpr ((passable_entry hkeys full).mp hpassable)

/-- What stands above the end of an accepted path can be gone on with. -/
theorem exists_passes_of_locateFrom {full : Path} {depth : Nat} {parents : List PathElem}
    {last : PathElem} {target : SchemaNode}
    (h : locateFrom full schema depth (parents ++ [last]) = .ok target) :
    ∃ place, Passes schema parents place ∧ place.child? last.name = some target := by
  induction parents generalizing schema depth with
  | nil =>
    obtain ⟨child, hchild, -, hrest⟩ := locateFrom_cons_eq_ok.mp h
    cases locateFrom_nil_eq_ok.mp hrest
    exact ⟨schema, .here schema, hchild⟩
  | cons elem more ih =>
    obtain ⟨child, hchild, hpassable, hrest⟩ := locateFrom_cons_eq_ok.mp h
    obtain ⟨place, hbelow, hlast⟩ := ih hrest
    have hmore : (more ++ [last]).isEmpty = false := by simp
    have hpassable := (requirePassable_eq_ok full depth).mp hpassable
    exact ⟨place, .step hchild (hmore ▸ hpassable) hbelow, hlast⟩

namespace Passes

theorem descend (h : Passes schema elems place) : schema.descend elems = some place := by
  induction h with
  | here => rfl
  | step hchild hpassable hbelow ih => rw [SchemaNode.descend, hchild, Option.bind_some, ih]

/-- One more element. -/
theorem concat (h : Passes schema elems place) (hchild : place.child? elem.name = some child)
    (hpassable : child.passable elem false = true) : Passes schema (elems ++ [elem]) child := by
  induction h with
  | here => exact .step hchild hpassable (.here child)
  | step hnext hbetween hbelow ih => exact .step hnext hbetween (ih hchild)

theorem stepInto (hchild : schema.child? elem.name = some child)
    (hpassable : child.passable elem false = true) (full : Path) (depth : Nat) :
    schema.stepInto full depth elem = .ok (child, Step.ofElem child elem) :=
  (stepInto_eq_ok full depth).mpr ⟨hchild, hpassable, rfl⟩

theorem leads (hchild : schema.child? elem.name = some child)
    (hpassable : child.passable elem false = true) :
    Leads schema elem child (Step.ofElem child elem) :=
  leads_of_stepInto (stepInto hchild hpassable Path.root 0)

private theorem along?_step (ending : Ending) (hchild : schema.child? elem.name = some child)
    (hpassable : child.passable elem false = true) (entry : Option Keys) :
    ending.along? schema entry (elem :: rest) =
      (ending.along? child (child.entryKeys [elem]) rest).map
        (.intoAll (Step.ofElem child elem).way) := by
  rw [Ending.along?_cons hchild (passable_of_passable hpassable _)]
  cases child with
  | leaf leafSchema => cases hpassable
  | container children => rfl
  | list keys max children =>
    have hkeys := keys_ne_nil_of_passable hpassable
    simp only [Ending.atChild?, hkeys, if_false]
    rfl

/-- What is done at a longer path is done below the place on the way to it. -/
theorem along?_append (h : Passes schema elems place) (ending : Ending) (hne : elems ≠ [])
    (entry : Option Keys) (rest : List PathElem) :
    ending.along? schema entry (elems ++ rest) =
      (ending.along? place (place.entryKeys elems) rest).map (.intoAll (schema.wayTo elems)) := by
  induction h generalizing entry with
  | here => exact absurd rfl hne
  | @step schema child place elem more hchild hpassable hbelow ih =>
    rw [List.cons_append, along?_step ending hchild hpassable, wayTo_cons hchild]
    cases more with
    | nil =>
      cases hbelow
      rw [show child.wayTo [] = [] from rfl, List.append_nil, List.nil_append]
    | cons next others =>
      have hlast : place.entryKeys (elem :: next :: others) = place.entryKeys (next :: others) := by
        simp [entryKeys]
      rw [ih (List.cons_ne_nil next others), Option.map_map, hlast]
      congr 1
      funext effect
      exact (Effect.intoAll_append _ _ effect).symm

/-- Creating such a path makes everything on the way. -/
theorem creating_along? (h : Passes schema elems place) (entry : Option Keys) :
    Ending.creating.along? schema entry elems = some (.intoAll (schema.wayTo elems) .keep) := by
  by_cases hne : elems = []
  · subst hne
    cases h
    rfl
  · have happend := h.along?_append .creating hne entry []
    rw [List.append_nil] at happend
    rw [happend]
    rfl

/-- What a delete takes away it takes away below the place. -/
theorem clearing_append (h : Passes schema elems place) (rest : List PathElem) :
    schema.clearing (elems ++ rest) =
      .underAll (schema.wayTo elems).moves (place.clearing rest) := by
  induction h with
  | here => rfl
  | step hchild hpassable hbelow ih =>
    rw [List.cons_append, clearing_step (stepInto hchild hpassable Path.root 0), ih,
      wayTo_cons hchild, Way.moves_append, Effect.underAll_append]

end Passes

end Passable

end SchemaNode

namespace Node

open SchemaNode (Passes)

section Passing

variable {schema place : SchemaNode} {node sub old : Node} {elems : List PathElem}
  {effect : Effect}

theorem isPlace_at? (hplace : IsPlace schema node) (h : Passes schema elems place)
    (hat : node.at? elems = some sub) : IsPlace place sub := by
  induction h generalizing node with
  | here =>
    cases hat
    exact hplace
  | step hchild hpassable hbelow ih =>
    obtain ⟨next, hnext, hat⟩ := Option.bind_eq_some_iff.mp hat
    exact ih (isPlace_next hplace (Passes.leads hchild hpassable) hnext) hat

/-- What stands at the end of a path. -/
theorem belowAll_wayTo (hplace : IsPlace schema node) (h : Passes schema elems place) :
    node.contents.belowAll (schema.wayTo elems).moves =
      fun rest => (node.at? elems).bind (contents · rest) := by
  induction h generalizing node with
  | here => rfl
  | @step schema child place elem more hchild hpassable hbelow ih =>
    have hleads := Passes.leads hchild hpassable
    rw [SchemaNode.wayTo_cons hchild, Way.moves_append, Contents.belowAll_append,
      belowAll_contents hplace hleads]
    show Contents.belowAll (fun rest => (node.next? elem).bind (contents · rest)) _ =
      fun rest => ((node.next? elem).bind (at? · more)).bind (contents · rest)
    cases hnext : node.next? elem with
    | none => rfl
    | some next => exact ih (isPlace_next hplace hleads hnext)

/-- A way to what is there is made already. -/
theorem apply_made_of_at? (hplace : IsPlace schema node) (h : Passes schema elems place)
    (hat : node.at? elems = some sub) :
    (Effect.intoAll (schema.wayTo elems) .keep).apply node.contents = node.contents := by
  induction h generalizing node with
  | here => rfl
  | step hchild hpassable hbelow ih =>
    have hleads := Passes.leads hchild hpassable
    obtain ⟨next, hnext, hat⟩ := Option.bind_eq_some_iff.mp hat
    rw [SchemaNode.wayTo_cons hchild, Effect.intoAll_append]
    exact apply_intoAll_of_next? hplace hleads hnext (ih (isPlace_next hplace hleads hnext) hat)

/-- Making a step leaves what is there as it is. -/
private theorem adds_intoAll {childSchema : SchemaNode} {elem : PathElem} {step : Step}
    (hplace : IsPlace schema node) (hleads : SchemaNode.Leads schema elem childSchema step)
    (h : effect.Adds (node.contents.belowAll step.way.moves)) :
    (effect.intoAll step.way).Adds node.contents := by
  obtain ⟨children, rfl⟩ := hplace.isContainer
  cases hleads with
  | container hchild noKeys =>
    refine Effect.Adds.under ?_
    cases hget : SortedMap.get? children elem.name with
    | none => exact Effect.Adds.of_nothing _ (below_contents_of_none hget)
    | some child =>
      obtain ⟨grandchildren, rfl⟩ := fits_container (hplace.child_fits hget hchild)
      have hbelow : (container children).contents.below (.child elem.name) =
          (container grandchildren).contents := below_contents hget
      refine (Effect.Adds.here ?_).andThen h
      rw [hbelow]
      rfl
  | entry hchild =>
    refine Effect.Adds.under ?_
    cases hget : SortedMap.get? children elem.name with
    | none => exact Effect.Adds.of_nothing _ (below_contents_of_none hget)
    | some child =>
      obtain ⟨entries, rfl, -, hentries⟩ := select?_of_fits_list (hplace.child_fits hget hchild)
      have hbelow : (container children).contents.below (.child elem.name) =
          (list entries).contents := below_contents hget
      rw [hbelow]
      refine (Effect.Adds.here rfl).andThen (Effect.Adds.under ?_)
      cases hentry : SortedMap.get? entries elem.keys with
      | none => exact Effect.Adds.of_nothing _ (below_contents_of_none hentry)
      | some entry =>
        obtain ⟨inner, rfl⟩ := fits_container (hentries elem.keys entry hentry)
        have hinner : (list entries).contents.below (.entry elem.keys) =
            (container inner).contents := below_contents hentry
        refine (Effect.Adds.here ?_).andThen ?_
        · rw [hinner]
          rfl
        · have hall : (container children).contents.belowAll
              (Step.entry elem.name elem.keys).way.moves =
                ((container children).contents.below (.child elem.name)).below
                  (.entry elem.keys) := rfl
          rwa [hall, hbelow] at h

/-- Making a way leaves what is there as it is. -/
theorem adds_made (hplace : IsPlace schema node) (h : Passes schema elems place) :
    (Effect.intoAll (schema.wayTo elems) .keep).Adds node.contents := by
  induction h generalizing node with
  | here => exact Effect.Adds.keep _
  | @step schema child place elem rest hchild hpassable hbelow ih =>
    have hleads := Passes.leads hchild hpassable
    rw [SchemaNode.wayTo_cons hchild, Effect.intoAll_append]
    refine adds_intoAll hplace hleads ?_
    rw [belowAll_contents hplace hleads]
    cases hnext : node.next? elem with
    | none => exact Effect.Adds.of_nothing _ rfl
    | some next => exact ih (isPlace_next hplace hleads hnext)

/-- An edit of the place that a path leads to, seen from above. -/
theorem contents_replaceAt (hplace : IsPlace schema node) (h : Passes schema elems place)
    (hat : node.at? elems = some old) (hsub : sub.contents = effect.apply old.contents) :
    (node.replaceAt sub (schema.stepsTo elems)).contents =
      (Effect.underAll (schema.wayTo elems).moves effect).apply node.contents := by
  induction h generalizing node with
  | here =>
    cases hat
    exact hsub
  | step hchild hpassable hbelow ih =>
    have hleads := Passes.leads hchild hpassable
    obtain ⟨next, hnext, hat⟩ := Option.bind_eq_some_iff.mp hat
    rw [SchemaNode.wayTo_cons hchild, Way.moves_append, Effect.underAll_append,
      SchemaNode.stepsTo, hchild]
    simp only [replaceAt, below?_eq hplace hleads, hnext]
    exact contents_store_of_next? hplace hleads hnext
      (ih (isPlace_next hplace hleads hnext) hat)

/-- A delete at a longer path goes through where it does below the place, or where there is no
such place. -/
theorem erasable_append (h : Passes schema elems place) (rest : List PathElem) :
    Erasable schema node (elems ++ rest) ↔
      ∀ sub, node.at? elems = some sub → Erasable place sub rest := by
  induction h generalizing node with
  | here => simp [at?]
  | @step schema child place elem more hchild hpassable hbelow ih =>
    have hpass := SchemaNode.passable_of_passable hpassable (more ++ rest).isEmpty
    rw [List.cons_append, Erasable]
    simp only [hchild, Option.some.injEq, exists_eq_left', hpass, true_and, at?]
    cases node.next? elem with
    | none => simp
    | some next => simpa using ih

/-- Creating a path that can be gone on with goes through, and leads to a place. -/
theorem create_of_passes (path : Path) (hplace : IsPlace schema node)
    (h : Passes schema path.elems place) :
    (∃ target, (node.create schema path).1 = .ok target) ∧
      (node.create schema path).2.contents =
        (Effect.intoAll (schema.wayTo path.elems) .keep).apply node.contents := by
  have hdoes := create_does hplace path
  rw [h.creating_along? none] at hdoes
  exact hdoes

end Passing

end Node

end Telemetry
