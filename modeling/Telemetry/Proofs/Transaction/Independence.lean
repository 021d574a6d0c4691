import Telemetry.Proofs.Transaction.Effects
import Telemetry.Proofs.Tree.Reach

/-!
Requests that keep off each other's paths. A request takes place at and below the paths of its
operations, and it makes the way to these and to its base. So two requests do the same in either
order if no path of one stands at or above a path or the base of the other. Deletes of paths that
are not accepted are left out: where they go through they do nothing.
-/

namespace Telemetry

namespace Effect

theorem touches_inOrder {effects : List Effect} {targets ends : List (List Move)}
    (h : ∀ effect ∈ effects, effect.Touches targets ends) :
    (inOrder effects).Touches targets ends := by
  induction effects with
  | nil => exact touches_keep _ _
  | cons effect rest ih =>
    refine (h effect List.mem_cons_self).andThen (ih ?_)
    intro other hother
    exact h other (List.mem_cons_of_mem effect hother)

end Effect

def SchemaNode.Accepts (schema : SchemaNode) (path : List PathElem) : Prop :=
  ∃ target, schema.locate (.ofElems path) = .ok target

namespace SetRequest

def pathsBelow (req : SetRequest) : List (List PathElem) :=
  req.deletes.map (·.elems) ++ (req.replaces ++ req.updates).map fun update => (pathOf update).elems

def paths (req : SetRequest) : List (List PathElem) :=
  req.pathsBelow.map (req.baseElems ++ ·)

/-- At or below the path of an operation that is accepted. -/
def TakesPlaceAt (req : SetRequest) (schema : SchemaNode) (moves : List Move) : Prop :=
  ∃ path ∈ req.paths, schema.Accepts path ∧ schema.movesTo path <+: moves

/-- On the way to the base or to the path of an operation that is accepted, or at its end. -/
def MakesWayAt (req : SetRequest) (schema : SchemaNode) (moves : List Move) : Prop :=
  ∃ goal ∈ req.baseElems :: req.paths, schema.Accepts goal ∧ moves <+: schema.movesTo goal

/-- No operation of a request is at or above an operation or the base of another. -/
def KeepsOff (req other : SetRequest) (schema : SchemaNode) : Prop :=
  ∀ path ∈ req.paths, ¬ schema.AtOrAbove path other.baseElems ∧
    ∀ otherPath ∈ other.paths, ¬ schema.AtOrAbove path otherPath

def Independent (req other : SetRequest) (schema : SchemaNode) : Prop :=
  req.KeepsOff other schema ∧ other.KeepsOff req schema

def acceptedAt (req : SetRequest) (place : SchemaNode) : SetRequest :=
  { req with deletes := req.deletes.filter fun path => (place.locate path).toOption.isSome }

section Accepted

variable {schema place : SchemaNode} {node after root : Node} {req : SetRequest}

/-- A delete of a path that is not accepted does nothing where it goes through. -/
theorem runDelete_of_not_located {path : Path} (hplace : Node.IsPlace schema node)
    (h : runDelete schema node path = .ok after) (hnot : ∀ target, schema.locate path ≠ .ok target) :
    after = node := by
  obtain ⟨hafter, hcontents⟩ := runDelete_effect hplace h
  have herasable := (runDelete_eq_ok hplace).mp ⟨after, h⟩
  have hne : path.elems ≠ [] := by
    intro hnil
    refine hnot schema ?_
    rw [SchemaNode.locate, hnil]
    rfl
  rw [SchemaNode.erasing_eq_clearing schema hne,
    Node.apply_clearing_of_not_located hplace herasable hnot] at hcontents
  exact hafter.eq_of_contents hplace hcontents

theorem deletes_acceptedAt (hplace : Node.IsPlace schema node) {paths : List Path}
    (h : paths.foldlM (runDelete schema) node = .ok after) :
    (paths.filter fun path => (schema.locate path).toOption.isSome).foldlM (runDelete schema)
      node = .ok after := by
  induction paths generalizing node with
  | nil => exact h
  | cons path rest ih =>
    rw [List.foldlM_cons] at h
    obtain ⟨between, hfirst, hrest⟩ := bind_eq_ok.mp h
    have hbetween := (runDelete_effect hplace hfirst).1
    rw [List.filter_cons]
    cases hlocate : schema.locate path with
    | ok target =>
      have haccepted : (Except.ok target : Except TreeError SchemaNode).toOption.isSome = true := rfl
      rw [if_pos haccepted, List.foldlM_cons]
      exact bind_eq_ok.mpr ⟨between, hfirst, ih hbetween hrest⟩
    | error e =>
      have hnot : ∀ target, schema.locate path ≠ .ok target := by
        intro target htarget
        rw [hlocate] at htarget
        cases htarget
      rw [if_neg (by simp [Except.toOption]), ← runDelete_of_not_located hplace hfirst hnot]
      exact ih hbetween hrest

/-- Only the accepted part of a request counts. -/
theorem run_acceptedAt (hplace : Node.IsPlace schema root) (hat : req.RunsAt schema place)
    (h : req.run schema root = .ok after) :
    (req.acceptedAt place).run schema root = .ok after := by
  have hat' : (req.acceptedAt place).RunsAt schema place := hat
  obtain ⟨sub, hsub, hsubPlace, hrun⟩ := run_eq_map_runBelow hplace hat
  obtain ⟨sub', hsub', -, hrun'⟩ := run_eq_map_runBelow hplace hat'
  have hsame : sub' = sub := Option.some.inj (hsub'.symm.trans hsub)
  subst hsame
  obtain ⟨new, hnew, rfl⟩ := map_eq_ok.mp (hrun.symm.trans h)
  obtain ⟨deleted, replaced, hdelete, hreplace, hupdate⟩ := runBelow_eq_ok.mp hnew
  have hbelow : (req.acceptedAt place).runBelow place sub' = .ok new :=
    runBelow_eq_ok.mpr
      ⟨deleted, replaced, deletes_acceptedAt hsubPlace hdelete, hreplace, hupdate⟩
  rw [hrun', hbelow]
  rfl

end Accepted

section Touches

variable {schema place : SchemaNode} {req : SetRequest} {effect : Effect} {update : Update}
  {targets ends : List (List Move)}

theorem touches_updateEffect? (h : updateEffect? place update = some effect)
    (htarget : place.movesTo (pathOf update).elems ∈ targets)
    (hgoal : place.movesTo (pathOf update).elems ∈ ends) : effect.Touches targets ends := by
  obtain ⟨creation, hcreation, h⟩ := Option.bind_eq_some_iff.mp h
  obtain ⟨put, hput, rfl⟩ := Option.map_eq_some_iff.mp h
  exact ((Ending.creating.touches_along? hcreation).of_mem htarget hgoal).andThen
    (((Ending.putting (valueOf update)).touches_along? hput).of_mem htarget hgoal)

theorem touches_replaceEffect? (h : replaceEffect? place update = some effect)
    (htarget : place.movesTo (pathOf update).elems ∈ targets)
    (hgoal : place.movesTo (pathOf update).elems ∈ ends) : effect.Touches targets ends := by
  obtain ⟨written, hwritten, rfl⟩ := Option.map_eq_some_iff.mp h
  have herased := (place.touches_erasing (pathOf update).elems _).of_mem htarget hgoal
  exact herased.andThen (touches_updateEffect? hwritten htarget hgoal)

/-- Each operation takes place at and below its path. -/
theorem touches_effectBelow? (h : req.effectBelow? place = some effect) :
    effect.Touches (req.pathsBelow.map place.movesTo) ([] :: req.pathsBelow.map place.movesTo) := by
  obtain ⟨replaces, hreplaces, h⟩ := Option.bind_eq_some_iff.mp h
  obtain ⟨updates, hupdates, rfl⟩ := Option.map_eq_some_iff.mp h
  have hpath : ∀ {path : List PathElem}, path ∈ req.pathsBelow →
      place.movesTo path ∈ req.pathsBelow.map place.movesTo := List.mem_map_of_mem
  refine Effect.touches_inOrder ?_
  intro e he
  rw [List.mem_append, List.mem_append] at he
  rcases he with (he | he) | he
  · obtain ⟨path, hmem, rfl⟩ := List.mem_map.mp he
    have hbelow : path.elems ∈ req.pathsBelow :=
      List.mem_append_left _ (List.mem_map_of_mem hmem)
    exact (place.touches_erasing path.elems _).of_mem (hpath hbelow)
      (List.mem_cons_of_mem _ (hpath hbelow))
  · obtain ⟨update, hmem, hupdate⟩ := exists_of_mem_mapM hreplaces he
    have hbelow : (pathOf update).elems ∈ req.pathsBelow :=
      List.mem_append_right _ (List.mem_map_of_mem (List.mem_append_left _ hmem))
    exact touches_replaceEffect? hupdate (hpath hbelow) (List.mem_cons_of_mem _ (hpath hbelow))
  · obtain ⟨update, hmem, hupdate⟩ := exists_of_mem_mapM hupdates he
    have hbelow : (pathOf update).elems ∈ req.pathsBelow :=
      List.mem_append_right _ (List.mem_map_of_mem (List.mem_append_right _ hmem))
    exact touches_updateEffect? hupdate (hpath hbelow) (List.mem_cons_of_mem _ (hpath hbelow))

/-- A request takes place at and below the paths of its operations, and makes the way to its
base. -/
theorem touches_effectAt? (hat : req.RunsAt schema place)
    (h : req.effectAt? schema place = some effect) :
    effect.Touches (req.paths.map schema.movesTo)
      (schema.movesTo req.baseElems :: req.paths.map schema.movesTo) := by
  obtain ⟨below, hbelow, rfl⟩ := Option.map_eq_some_iff.mp h
  have hpasses := hat.passes
  have hlead : ∀ path, schema.movesTo (req.baseElems ++ path) =
      (schema.wayTo req.baseElems).moves ++ place.movesTo path :=
    SchemaNode.movesTo_append hpasses
  have hbase : schema.movesTo req.baseElems = (schema.wayTo req.baseElems).moves ++ [] := by
    have hnil := hlead []
    rw [List.append_nil] at hnil
    exact hnil
  have hpaths : req.paths.map schema.movesTo =
      (req.pathsBelow.map place.movesTo).map ((schema.wayTo req.baseElems).moves ++ ·) := by
    rw [paths, List.map_map, List.map_map]
    exact List.map_congr_left fun path _ => hlead path
  rw [hpaths, hbase]
  exact (touches_effectBelow? hbelow).intoAll (List.cons_ne_nil _ _)
    fun _ hstep => SchemaNode.isInner_of_mem_wayTo hstep

end Touches

section Commute

variable {schema place place' : SchemaNode} {req other : SetRequest} {effect : Effect}
  {before first second first' second' : Node}

/-- Every operation of a request with an effect has an accepted path, once the deletes do. -/
theorem exists_locate_of_mem_paths (hat : req.RunsAt schema place)
    (h : (req.acceptedAt place).effectAt? schema place = some effect) {path : List PathElem}
    (hpath : path ∈ (req.acceptedAt place).paths) :
    ∃ target, SchemaNode.locateFrom Path.root schema 0 path = .ok target := by
  have hpasses := hat.passes
  obtain ⟨below, hbelow, rfl⟩ := List.mem_map.mp hpath
  suffices haccepted : ∃ full target, SchemaNode.locateFrom full place 0 below = .ok target by
    obtain ⟨full, target, htarget⟩ := haccepted
    exact ⟨target, hpasses.locateFrom_append htarget Path.root 0⟩
  have hwritten : ∀ {update : Update} {e : Effect}, updateEffect? place update = some e →
      ∃ target, SchemaNode.locateFrom Path.root place 0 (pathOf update).elems = .ok target := by
    intro update e hupdate
    obtain ⟨creation, hcreation, -⟩ := Option.bind_eq_some_iff.mp hupdate
    exact Ending.exists_locate_of_along? hcreation Path.root 0
  obtain ⟨inner, hinner, -⟩ := Option.map_eq_some_iff.mp h
  obtain ⟨replaces, hreplaces, hinner⟩ := Option.bind_eq_some_iff.mp hinner
  obtain ⟨updates, hupdates, -⟩ := Option.map_eq_some_iff.mp hinner
  rcases List.mem_append.mp hbelow with hdelete | hwrite
  · obtain ⟨deleted, hmem, rfl⟩ := List.mem_map.mp hdelete
    obtain ⟨target, htarget⟩ := Option.isSome_iff_exists.mp (List.mem_filter.mp hmem).2
    exact ⟨deleted, target, toOption_eq_some.mp htarget⟩
  · obtain ⟨update, hmem, rfl⟩ := List.mem_map.mp hwrite
    rcases List.mem_append.mp hmem with hmem | hmem
    · obtain ⟨e, -, he⟩ := exists_of_mapM_eq_some hreplaces hmem
      obtain ⟨written, hupdate, -⟩ := Option.map_eq_some_iff.mp he
      exact ⟨Path.root, hwritten hupdate⟩
    · obtain ⟨e, -, he⟩ := exists_of_mapM_eq_some hupdates hmem
      exact ⟨Path.root, hwritten he⟩

theorem paths_acceptedAt_subset (req : SetRequest) (place : SchemaNode) :
    (req.acceptedAt place).paths ⊆ req.paths := by
  refine List.map_subset _ (List.append_subset.mpr ⟨?_, List.subset_append_right _ _⟩)
  exact List.Subset.trans (List.map_subset _ List.filter_sublist.subset)
    (List.subset_append_left _ _)

/-- What a request that runs changes is at or below the path of an operation that is accepted, or
it is made on the way to such a path or to the base. -/
theorem contents_of_run (hplace : Node.IsPlace schema before)
    (h : req.run schema before = .ok first) {moves : List Move}
    (hchanged : first.contents moves ≠ before.contents moves) :
    req.TakesPlaceAt schema moves ∨ before.contents moves = none ∧
      (∃ content, first.contents moves = some content ∧ content.IsInner) ∧
        req.MakesWayAt schema moves := by
  obtain ⟨place, hat⟩ := runsAt_of_run hplace h
  have haccepted : (req.acceptedAt place).RunsAt schema place := hat
  obtain ⟨effect, heffect, hfirstPlace, hcontents⟩ :=
    run_effect hplace haccepted (run_acceptedAt hplace hat h)
  have hpaths : ∀ path ∈ (req.acceptedAt place).paths, path ∈ req.paths ∧ schema.Accepts path := by
    intro path hpath
    obtain ⟨target, htarget⟩ := exists_locate_of_mem_paths hat heffect hpath
    exact ⟨paths_acceptedAt_subset req place hpath, target,
      SchemaNode.locateFrom_congr htarget _ _⟩
  rcases Node.contents_of_touches hplace hfirstPlace hcontents
    (touches_effectAt? haccepted heffect) hchanged with
    ⟨target, htarget, hleads⟩ | ⟨hnone, hmade, goal, hgoal, hleads⟩
  · obtain ⟨path, hpath, rfl⟩ := List.mem_map.mp htarget
    obtain ⟨hmem, haccepts⟩ := hpaths path hpath
    exact Or.inl ⟨path, hmem, haccepts, hleads⟩
  · refine Or.inr ⟨hnone, hmade, ?_⟩
    rcases List.mem_cons.mp hgoal with rfl | hgoal
    · exact ⟨req.baseElems, List.mem_cons_self,
        ⟨place, SchemaNode.locateFrom_congr hat.1 _ _⟩, hleads⟩
    · obtain ⟨path, hpath, rfl⟩ := List.mem_map.mp hgoal
      obtain ⟨hmem, haccepts⟩ := hpaths path hpath
      exact ⟨path, List.mem_cons_of_mem _ hmem, haccepts, hleads⟩

theorem KeepsOff.acceptedAt (h : req.KeepsOff other schema) (place place' : SchemaNode) :
    (req.acceptedAt place).KeepsOff (other.acceptedAt place') schema := by
  intro path hpath
  obtain ⟨hbase, hpaths⟩ := h path (paths_acceptedAt_subset req place hpath)
  exact ⟨hbase, fun otherPath hmem =>
    hpaths otherPath (paths_acceptedAt_subset other place' hmem)⟩

/-- What an operation of one request leads to is not on the way that the other one takes. -/
theorem KeepsOff.not_leads (h : req.KeepsOff other schema) (hat : req.RunsAt schema place)
    (hat' : other.RunsAt schema place') {effect' : Effect}
    (heffect : (req.acceptedAt place).effectAt? schema place = some effect)
    (heffect' : (other.acceptedAt place').effectAt? schema place' = some effect') :
    ∀ target ∈ (req.acceptedAt place).paths.map schema.movesTo,
      ∀ goal ∈ schema.movesTo other.baseElems :: (other.acceptedAt place').paths.map schema.movesTo,
        ¬ target <+: goal := by
  intro target htarget goal hgoal hleads
  obtain ⟨path, hpath, rfl⟩ := List.mem_map.mp htarget
  obtain ⟨found, hfound⟩ := exists_locate_of_mem_paths hat heffect hpath
  obtain ⟨hbase, hpaths⟩ := h.acceptedAt place place' path hpath
  rcases List.mem_cons.mp hgoal with rfl | hgoal
  · exact hbase (SchemaNode.atOrAbove_of_prefix hfound hat'.1 hleads)
  · obtain ⟨otherPath, hother, rfl⟩ := List.mem_map.mp hgoal
    obtain ⟨found', hfound'⟩ := exists_locate_of_mem_paths hat' heffect' hother
    exact hpaths otherPath hother (SchemaNode.atOrAbove_of_prefix hfound hfound' hleads)

/-- Independent requests leave the same tree in either order. -/
theorem run_comm (hplace : Node.IsPlace schema before) (h : req.Independent other schema)
    (hfirst : req.run schema before = .ok first) (hsecond : other.run schema first = .ok second)
    (hfirst' : other.run schema before = .ok first')
    (hsecond' : req.run schema first' = .ok second') : second = second' := by
  obtain ⟨place, hat⟩ := runsAt_of_run hplace hfirst
  obtain ⟨place', hat'⟩ := runsAt_of_run hplace hfirst'
  have haccepted : (req.acceptedAt place).RunsAt schema place := hat
  have haccepted' : (other.acceptedAt place').RunsAt schema place' := hat'
  obtain ⟨e, he, hfirstPlace, hfirstContents⟩ :=
    run_effect hplace haccepted (run_acceptedAt hplace hat hfirst)
  obtain ⟨f, hf, hfirstPlace', hfirstContents'⟩ :=
    run_effect hplace haccepted' (run_acceptedAt hplace hat' hfirst')
  obtain ⟨f', hf', hsecondPlace, hsecondContents⟩ :=
    run_effect hfirstPlace haccepted' (run_acceptedAt hfirstPlace hat' hsecond)
  obtain ⟨e', he', hsecondPlace', hsecondContents'⟩ :=
    run_effect hfirstPlace' haccepted (run_acceptedAt hfirstPlace' hat hsecond')
  cases Option.some.inj (he.symm.trans he')
  cases Option.some.inj (hf.symm.trans hf')
  refine hsecondPlace.eq_of_contents hsecondPlace' ?_
  rw [hsecondContents, hsecondContents', hfirstContents, hfirstContents']
  exact Node.apply_comm_of_touches hfirstPlace hfirstPlace' hfirstContents hfirstContents'
    (touches_effectAt? haccepted he) (touches_effectAt? haccepted' hf)
    (List.subset_cons_self _ _) (List.subset_cons_self _ _)
    (h.1.not_leads hat hat' he hf) (h.2.not_leads hat' hat hf he)

end Commute

end SetRequest

end Telemetry
