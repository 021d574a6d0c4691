import Telemetry.Proofs.Transaction.Refinement
import Telemetry.Proofs.Tree.Passing

/-!
The effects of requests. Replaces and updates go through or not whatever the tree holds, and what
they do is decided by the schema and the request. Only a delete looks at the tree: it is refused
where its path is not accepted and the tree reaches that far. So a request that ran once runs
again and changes nothing, unless such a delete is refused the second time.
-/

namespace Telemetry

namespace Effect

def inOrder (effects : List Effect) : Effect := effects.foldr andThen keep

theorem inOrder_cons (effect : Effect) (effects : List Effect) :
    inOrder (effect :: effects) = effect.andThen (inOrder effects) := rfl

theorem inOrder_append (first second : List Effect) :
    inOrder (first ++ second) = (inOrder first).andThen (inOrder second) := by
  induction first with
  | nil => exact (keep_andThen _).symm
  | cons effect rest ih => rw [List.cons_append, inOrder_cons, inOrder_cons, ih, andThen_assoc]

theorem inOrder_here {effects : List Effect} (h : ∀ effect ∈ effects, effect [] = none) :
    inOrder effects [] = none := by
  induction effects with
  | nil => rfl
  | cons effect rest ih =>
    refine andThen_here_eq_none (h effect List.mem_cons_self) (ih ?_)
    intro other hother
    exact h other (List.mem_cons_of_mem effect hother)

theorem clears_inOrder {effects : List Effect} (h : ∀ effect ∈ effects, effect.Clears) :
    (inOrder effects).Clears := by
  induction effects with
  | nil => exact clears_keep
  | cons effect rest ih =>
    refine (h effect List.mem_cons_self).andThen (ih ?_)
    intro other hother
    exact h other (List.mem_cons_of_mem effect hother)

/-- Effects that each change nothing change nothing in a row. -/
theorem apply_inOrder_eq_self {effects : List Effect} {c : Contents}
    (h : ∀ effect ∈ effects, effect.apply c = c) : (inOrder effects).apply c = c := by
  induction effects with
  | nil => rfl
  | cons effect rest ih =>
    have hrest := ih fun other hother => h other (List.mem_cons_of_mem effect hother)
    rw [inOrder_cons, apply_andThen, h effect List.mem_cons_self, hrest]

end Effect

namespace SetRequest

def updateEffect? (place : SchemaNode) (update : Update) : Option Effect :=
  (Ending.creating.along? place none (pathOf update).elems).bind fun creation =>
    ((Ending.putting (valueOf update)).along? place none (pathOf update).elems).map creation.andThen

def replaceEffect? (place : SchemaNode) (update : Update) : Option Effect :=
  (updateEffect? place update).map (place.erasing (pathOf update).elems).andThen

def deleteEffects (req : SetRequest) (place : SchemaNode) : List Effect :=
  req.deletes.map fun path => place.erasing path.elems

def effectBelow? (req : SetRequest) (place : SchemaNode) : Option Effect :=
  (req.replaces.mapM (replaceEffect? place)).bind fun replaces =>
    (req.updates.mapM (updateEffect? place)).map fun updates =>
      .inOrder (req.deleteEffects place ++ replaces ++ updates)

section Here

variable {place : SchemaNode} {effect : Effect}

theorem updateEffect?_here {update : Update} (h : updateEffect? place update = some effect) :
    effect [] = none := by
  obtain ⟨creation, hcreation, h⟩ := Option.bind_eq_some_iff.mp h
  obtain ⟨put, hput, rfl⟩ := Option.map_eq_some_iff.mp h
  exact Effect.andThen_here_eq_none (Ending.creating_along?_here hcreation)
    (Ending.putting_along?_here hput)

theorem replaceEffect?_here {update : Update} (h : replaceEffect? place update = some effect) :
    effect [] = none := by
  obtain ⟨written, hwritten, rfl⟩ := Option.map_eq_some_iff.mp h
  exact Effect.andThen_here_eq_none (place.erasing_here _) (updateEffect?_here hwritten)

end Here

/-- An operation goes through exactly if it has an effect, and has that effect then. -/
def Performs {ε : Type} (schema : SchemaNode) (effect? : Option Effect) (node : Node)
    (result : Except ε Node) : Prop :=
  match effect? with
  | none => ∃ e, result = .error e
  | some effect => ∃ after, result = .ok after ∧ Node.IsPlace schema after ∧
      after.contents = effect.apply node.contents

section Operations

variable {schema : SchemaNode} {node after : Node} {ε : Type}

theorem Performs.effect_eq_some {effect? : Option Effect} {result : Except ε Node}
    (h : Performs schema effect? node result) (hresult : result = .ok after) :
    ∃ effect, effect? = some effect ∧ Node.IsPlace schema after ∧
      after.contents = effect.apply node.contents := by
  cases effect? with
  | none =>
    obtain ⟨e, he⟩ := h
    rw [hresult] at he
    cases he
  | some effect =>
    obtain ⟨other, hother, hplace, hcontents⟩ := h
    rw [hresult] at hother
    cases hother
    exact ⟨effect, rfl, hplace, hcontents⟩

theorem Performs.mapError {δ : Type} {effect? : Option Effect} {result : Except ε Node}
    (h : Performs schema effect? node result) (f : ε → δ) :
    Performs schema effect? node (result.mapError f) := by
  cases effect? with
  | none =>
    obtain ⟨e, rfl⟩ := h
    exact ⟨f e, rfl⟩
  | some effect =>
    obtain ⟨after, rfl, h⟩ := h
    exact ⟨after, rfl, h⟩

theorem write_performs (hplace : Node.IsPlace schema node) (update : Update) :
    Performs schema (updateEffect? schema update) node (write schema node update) := by
  have hcreated : Node.IsPlace schema (node.create schema (pathOf update)).2 :=
    Node.isPlace_create hplace
  have hcreation := Node.create_does hplace (pathOf update)
  rw [write_eq, updateEffect?]
  cases hcreate : node.create schema (pathOf update) with
  | mk found created =>
    rw [hcreate] at hcreated hcreation
    cases found with
    | error e =>
      rw [hcreation.effect_eq_none]
      exact ⟨e, rfl⟩
    | ok target =>
      obtain ⟨creation, heffect, hbetween⟩ := hcreation.effect_eq_some
      rw [heffect, Option.bind_some]
      have hkept := (Node.put_spec (pathOf update) (valueOf update) hcreated).1
      have hput := Does.andThen hbetween (Node.put_does hcreated (pathOf update) (valueOf update))
      simp only at hkept hput ⊢
      cases hwrite : created.put schema (pathOf update) (valueOf update) with
      | mk result written =>
        rw [hwrite] at hkept hput
        cases result with
        | error e =>
          rw [hput.effect_eq_none]
          exact ⟨e, rfl⟩
        | ok =>
          obtain ⟨effect, heffect, hafter⟩ := hput.effect_eq_some
          rw [heffect]
          exact ⟨written, rfl, hkept, hafter⟩

theorem runUpdate_performs (hplace : Node.IsPlace schema node) (update : Update) :
    Performs schema (updateEffect? schema update) node (runUpdate schema node update) := by
  rw [runUpdate_eq]
  exact (write_performs hplace update).mapError _

/-- What can be written can be deleted first. -/
private theorem erase_of_updateEffect? (hplace : Node.IsPlace schema node) {update : Update}
    {effect : Effect} (h : updateEffect? schema update = some effect) :
    (node.erase schema (pathOf update)).1 = .ok () := by
  obtain ⟨creation, hcreation, -⟩ := Option.bind_eq_some_iff.mp h
  obtain ⟨target, htarget⟩ := Ending.exists_locate_of_along? hcreation (pathOf update) 0
  exact Node.erase_of_locate hplace htarget

theorem runReplace_performs (hplace : Node.IsPlace schema node) (update : Update) :
    Performs schema (replaceEffect? schema update) node (runReplace schema node update) := by
  have hkept : Node.IsPlace schema (node.erase schema (pathOf update)).2 :=
    Node.isPlace_erase hplace
  have hwrite := (write_performs hkept update).mapError (SetError.replace (pathOf update).text)
  rw [runReplace_eq, replaceEffect?]
  cases heffect : updateEffect? schema update with
  | none =>
    rw [heffect] at hwrite
    obtain ⟨cause, hcause⟩ := hwrite
    cases herase : node.erase schema (pathOf update) with
    | mk result erased =>
      rw [herase] at hcause
      cases result with
      | error e => exact ⟨_, rfl⟩
      | ok => exact ⟨cause, hcause⟩
  | some effect =>
    have herased := erase_of_updateEffect? hplace heffect
    have hcleared := Node.contents_erase hplace herased
    rw [heffect] at hwrite
    obtain ⟨after, hafter, hafterPlace, hcontents⟩ := hwrite
    cases herase : node.erase schema (pathOf update) with
    | mk result erased =>
      rw [herase] at herased hcleared hafter hcontents
      cases herased
      refine ⟨after, hafter, hafterPlace, ?_⟩
      rw [hcontents, hcleared, Effect.apply_andThen]

/-- Operations in a row go through if each has an effect. -/
private theorem foldlM_performs {α : Type} {run : Node → α → Except ε Node}
    {effect? : α → Option Effect}
    (hrun : ∀ node op, Node.IsPlace schema node →
      Performs schema (effect? op) node (run node op))
    (hplace : Node.IsPlace schema node) (ops : List α) :
    Performs schema ((ops.mapM effect?).map .inOrder) node (ops.foldlM run node) := by
  induction ops generalizing node with
  | nil => exact ⟨node, rfl, hplace, rfl⟩
  | cons op rest ih =>
    have hop := hrun node op hplace
    rw [List.mapM_cons, List.foldlM_cons]
    cases heffect : effect? op with
    | none =>
      rw [heffect] at hop
      obtain ⟨e, he⟩ := hop
      rw [he]
      exact ⟨e, rfl⟩
    | some effect =>
      rw [heffect] at hop
      obtain ⟨between, hbetween, hbetweenPlace, hfirst⟩ := hop
      have hrest := ih hbetweenPlace
      rw [hbetween]
      cases heffects : rest.mapM effect? with
      | none =>
        rw [heffects] at hrest
        exact hrest
      | some effects =>
        rw [heffects] at hrest
        obtain ⟨after, hafter, hafterPlace, hcontents⟩ := hrest
        refine ⟨after, hafter, hafterPlace, ?_⟩
        rw [hcontents, hfirst, ← Effect.apply_andThen]
        rfl

theorem runDelete_effect {path : Path} (hplace : Node.IsPlace schema node)
    (h : runDelete schema node path = .ok after) :
    Node.IsPlace schema after ∧
      after.contents = (schema.erasing path.elems).apply node.contents := by
  have hkept : Node.IsPlace schema (node.erase schema path).2 := Node.isPlace_erase hplace
  have hcleared := @Node.contents_erase schema node path hplace
  rw [runDelete_eq] at h
  cases herase : node.erase schema path with
  | mk result erased =>
    rw [herase] at h hkept hcleared
    cases result with
    | error e => cases h
    | ok =>
      cases h
      exact ⟨hkept, hcleared rfl⟩

theorem runDelete_eq_ok {path : Path} (hplace : Node.IsPlace schema node) :
    (∃ after, runDelete schema node path = .ok after) ↔
      Node.Erasable schema node path.elems := by
  rw [← Node.erase_eq_ok hplace]
  rw [runDelete_eq]
  cases node.erase schema path with
  | mk result erased => cases result <;> simp

/-- Why a delete was refused: no path below the place like it is accepted. -/
def RefusesDelete (place : SchemaNode) (paths : List Path) (e : SetError) : Prop :=
  ∃ path cause, path ∈ paths ∧ e = .delete path.text cause ∧
    ∀ target, place.locate path ≠ .ok target

theorem refusesDelete_of_runDelete {path : Path} {e : SetError}
    (hplace : Node.IsPlace schema node) (h : runDelete schema node path = .error e) :
    RefusesDelete schema [path] e := by
  rw [runDelete_eq] at h
  cases herase : node.erase schema path with
  | mk result erased =>
    rw [herase] at h
    cases result with
    | ok => cases h
    | error cause =>
      cases h
      refine ⟨path, cause, List.mem_singleton_self path, rfl, ?_⟩
      intro target htarget
      have hok := Node.erase_of_locate hplace htarget
      rw [herase] at hok
      cases hok

theorem deletes_effect (hplace : Node.IsPlace schema node) {paths : List Path}
    (h : paths.foldlM (runDelete schema) node = .ok after) :
    Node.IsPlace schema after ∧
      after.contents = (Effect.inOrder (paths.map fun path => schema.erasing path.elems)).apply
        node.contents := by
  induction paths generalizing node with
  | nil =>
    cases h
    exact ⟨hplace, rfl⟩
  | cons path rest ih =>
    rw [List.foldlM_cons] at h
    obtain ⟨between, hfirst, hrest⟩ := bind_eq_ok.mp h
    obtain ⟨hbetween, hcontents⟩ := runDelete_effect hplace hfirst
    obtain ⟨hafter, hall⟩ := ih hbetween hrest
    refine ⟨hafter, ?_⟩
    rw [hall, hcontents, List.map_cons, Effect.inOrder_cons, Effect.apply_andThen]

theorem refusesDelete_of_deletes (hplace : Node.IsPlace schema node) {paths : List Path}
    {e : SetError} (h : paths.foldlM (runDelete schema) node = .error e) :
    RefusesDelete schema paths e := by
  induction paths generalizing node with
  | nil => cases h
  | cons path rest ih =>
    rw [List.foldlM_cons] at h
    cases hfirst : runDelete schema node path with
    | error first =>
      rw [hfirst] at h
      cases h
      obtain ⟨other, cause, hmem, he, hrefused⟩ := refusesDelete_of_runDelete hplace hfirst
      rw [List.mem_singleton.mp hmem] at he hrefused
      exact ⟨path, cause, List.mem_cons_self, he, hrefused⟩
    | ok between =>
      rw [hfirst] at h
      obtain ⟨other, cause, hmem, he⟩ := ih (runDelete_effect hplace hfirst).1 h
      exact ⟨other, cause, List.mem_cons_of_mem path hmem, he⟩

variable {req : SetRequest}

/-- A request that runs below a place has its effect there. -/
theorem runBelow_effect (hplace : Node.IsPlace schema node)
    (h : req.runBelow schema node = .ok after) :
    ∃ effect, req.effectBelow? schema = some effect ∧ Node.IsPlace schema after ∧
      after.contents = effect.apply node.contents := by
  obtain ⟨deleted, replaced, hdelete, hreplace, hupdate⟩ := runBelow_eq_ok.mp h
  obtain ⟨hdeleted, hdeletes⟩ := deletes_effect hplace hdelete
  obtain ⟨first, hfirst, hreplaced, hreplaces⟩ :=
    (foldlM_performs (fun _ op h => runReplace_performs h op) hdeleted
      req.replaces).effect_eq_some hreplace
  obtain ⟨second, hsecond, hafter, hupdates⟩ :=
    (foldlM_performs (fun _ op h => runUpdate_performs h op) hreplaced
      req.updates).effect_eq_some hupdate
  obtain ⟨replaces, hreplaceEffects, rfl⟩ := Option.map_eq_some_iff.mp hfirst
  obtain ⟨updates, hupdateEffects, rfl⟩ := Option.map_eq_some_iff.mp hsecond
  refine ⟨_, by rw [effectBelow?, hreplaceEffects, hupdateEffects]; rfl, hafter, ?_⟩
  show _ = (Effect.inOrder (req.deleteEffects schema ++ replaces ++ updates)).apply node.contents
  rw [hupdates, hreplaces, hdeletes, Effect.inOrder_append, Effect.inOrder_append,
    Effect.apply_andThen, Effect.apply_andThen]
  rfl

/-- A request with an effect below a place runs there if its deletes do. -/
theorem runBelow_of_deletes {effect : Effect} {deleted : Node} (hplace : Node.IsPlace schema node)
    (heffect : req.effectBelow? schema = some effect)
    (hdelete : req.deletes.foldlM (runDelete schema) node = .ok deleted) :
    ∃ after, req.runBelow schema node = .ok after := by
  obtain ⟨replaces, hreplaceEffects, heffect⟩ := Option.bind_eq_some_iff.mp heffect
  obtain ⟨updates, hupdateEffects, -⟩ := Option.map_eq_some_iff.mp heffect
  have hdeleted := (deletes_effect hplace hdelete).1
  have hreplaces := foldlM_performs (fun _ op h => runReplace_performs h op) hdeleted req.replaces
  rw [hreplaceEffects] at hreplaces
  obtain ⟨replaced, hreplace, hreplaced, -⟩ := hreplaces
  have hupdates := foldlM_performs (fun _ op h => runUpdate_performs h op) hreplaced req.updates
  rw [hupdateEffects] at hupdates
  obtain ⟨updated, hupdate, -⟩ := hupdates
  exact ⟨updated, runBelow_eq_ok.mpr ⟨deleted, replaced, hdelete, hreplace, hupdate⟩⟩

/-- It fails there only where a delete is refused. -/
theorem deletes_of_runBelow_error {e : SetError} {effect : Effect}
    (hplace : Node.IsPlace schema node) (heffect : req.effectBelow? schema = some effect)
    (h : req.runBelow schema node = .error e) :
    req.deletes.foldlM (runDelete schema) node = .error e := by
  cases hdelete : req.deletes.foldlM (runDelete schema) node with
  | error cause =>
    rw [runBelow_eq, hdelete] at h
    cases h
    rfl
  | ok deleted =>
    obtain ⟨after, hafter⟩ := runBelow_of_deletes hplace heffect hdelete
    rw [h] at hafter
    cases hafter

end Operations

def basePath (req : SetRequest) : Path := (req.base.getD Path.root).bare

def RunsAt (req : SetRequest) (schema place : SchemaNode) : Prop :=
  schema.locate req.basePath = .ok place ∧ Node.EndsAtPlace req.basePath place

def effectAt? (req : SetRequest) (schema place : SchemaNode) : Option Effect :=
  (req.effectBelow? place).map (.intoAll (schema.wayTo req.baseElems))

section Run

variable {req : SetRequest} {schema place : SchemaNode} {root after : Node}

theorem RunsAt.passes (h : req.RunsAt schema place) :
    SchemaNode.Passes schema req.baseElems place :=
  SchemaNode.passes_of_locateFrom h.1 h.2

/-- The base is created and the operations are run at it. -/
theorem run_eq_map_runBelow (hplace : Node.IsPlace schema root) (h : req.RunsAt schema place) :
    ∃ sub, (root.create schema req.basePath).2.at? req.baseElems = some sub ∧
      Node.IsPlace place sub ∧
      req.run schema root = (req.runBelow place sub).map fun node =>
        (root.create schema req.basePath).2.replaceAt node (schema.stepsTo req.baseElems) := by
  have hpasses : SchemaNode.Passes schema req.basePath.elems place := h.passes
  obtain ⟨⟨⟨found, target⟩, hok⟩, -⟩ := Node.create_of_passes req.basePath hplace hpasses
  obtain ⟨hdescend, -, hfound⟩ := Node.create_spec hplace hok
  have htarget : target = place := by
    have hsame := SchemaNode.descend_of_locateFrom h.1
    exact Option.some.inj (hdescend.symm.trans hsame)
  subst htarget
  obtain ⟨sub, rfl, hsub, hat⟩ := hfound h.2
  refine ⟨sub, hat, hsub, ?_⟩
  rw [run_eq]
  cases hcreate : root.create schema req.basePath with
  | mk result created =>
    rw [hcreate] at hok
    simp only at hok
    subst hok
    have hstarts : startsAt req.basePath target = true := startsAt_eq_true.mpr h.2
    unfold basePath at hcreate hstarts
    simp only [hcreate, hstarts]
    rfl

/-- A request runs at places only. -/
theorem runsAt_of_run (hplace : Node.IsPlace schema root) (h : req.run schema root = .ok after) :
    ∃ place, req.RunsAt schema place := by
  rw [run_eq] at h
  have hdoes := Node.create_does hplace req.basePath
  have hspec := @Node.create_spec schema root req.basePath hplace
  unfold basePath at hdoes hspec
  simp only at h
  cases hcreate : root.create schema (req.base.getD Path.root).bare with
  | mk result created =>
    rw [hcreate] at h hdoes hspec
    cases result with
    | error e => cases h
    | ok target =>
      obtain ⟨found, place⟩ := target
      obtain ⟨effect, heffect, -⟩ := hdoes.effect_eq_some
      obtain ⟨located, hlocated⟩ := Ending.exists_locate_of_along? heffect req.basePath 0
      have hdescend := (hspec rfl).1
      have hsame : located = place :=
        Option.some.inj ((SchemaNode.descend_of_locateFrom hlocated).symm.trans hdescend)
      obtain ⟨hends, -⟩ := endsAtPlace_of_eq_ok h
      exact ⟨place, hsame ▸ hlocated, hends⟩

/-- A request that runs has its effect. -/
theorem run_effect (hplace : Node.IsPlace schema root) (hat : req.RunsAt schema place)
    (h : req.run schema root = .ok after) :
    ∃ effect, req.effectAt? schema place = some effect ∧ Node.IsPlace schema after ∧
      after.contents = effect.apply root.contents := by
  obtain ⟨sub, hsub, hsubPlace, hrun⟩ := run_eq_map_runBelow hplace hat
  obtain ⟨-, hcreated⟩ := Node.create_of_passes req.basePath hplace hat.passes
  have hcreatedPlace : Node.IsPlace schema (root.create schema req.basePath).2 :=
    Node.isPlace_create hplace
  obtain ⟨new, hnew, rfl⟩ := map_eq_ok.mp (hrun.symm.trans h)
  obtain ⟨effect, heffect, hnewPlace, hcontents⟩ := runBelow_effect hsubPlace hnew
  have hdescend := SchemaNode.descend_of_locateFrom hat.1
  refine ⟨_, by rw [effectAt?, heffect]; rfl, ?_, ?_⟩
  · exact (Node.focused_replaceAt hcreatedPlace hdescend hsub hsubPlace hnewPlace).1
  · rw [Node.contents_replaceAt hcreatedPlace hat.passes hsub hcontents, hcreated,
      ← Effect.apply_andThen]
    exact congrArg (Effect.apply · root.contents) (Effect.made_andThen_underAll _ effect)

/-- A request with an effect fails only where a delete is refused. -/
theorem refusesDelete_of_run {effect : Effect} {e : SetError} (hplace : Node.IsPlace schema root)
    (hat : req.RunsAt schema place) (heffect : req.effectAt? schema place = some effect)
    (h : req.run schema root = .error e) : RefusesDelete place req.deletes e := by
  obtain ⟨sub, -, hsubPlace, hrun⟩ := run_eq_map_runBelow hplace hat
  obtain ⟨below, hbelow, -⟩ := Option.map_eq_some_iff.mp heffect
  rw [h] at hrun
  cases hresult : req.runBelow place sub with
  | ok new =>
    rw [hresult] at hrun
    cases hrun
  | error cause =>
    rw [hresult] at hrun
    cases hrun
    exact refusesDelete_of_deletes hsubPlace (deletes_of_runBelow_error hsubPlace hbelow hresult)

/-- A request that ran changes nothing when it runs again, if it does. -/
theorem run_again (hplace : Node.IsPlace schema root) (hat : req.RunsAt schema place)
    (h : req.run schema root = .ok after) :
    req.run schema after = .ok after ∨
      ∃ e, req.run schema after = .error e ∧ RefusesDelete place req.deletes e := by
  obtain ⟨effect, heffect, hafter, hcontents⟩ := run_effect hplace hat h
  cases hagain : req.run schema after with
  | error e => exact Or.inr ⟨e, rfl, refusesDelete_of_run hafter hat heffect hagain⟩
  | ok again =>
    obtain ⟨other, hother, hagainPlace, hsame⟩ := run_effect hafter hat hagain
    cases Option.some.inj (heffect.symm.trans hother)
    rw [hcontents, Effect.apply_apply, ← hcontents] at hsame
    exact Or.inl (congrArg Except.ok (hagainPlace.eq_of_contents hafter hsame))

end Run

end SetRequest

end Telemetry
