import Telemetry.Proofs.Transaction.Raised
import Telemetry.Proofs.Tree.Conforms

/-!
Requests with the elements of their base written out in every path. They do the same, but do not
make the place that the base leads to. So the one tree is the other with that place created, and
the two go through alike, except that a delete of a path that is not accepted is refused at a
place that is made and goes through where there is no such place.
-/

namespace Telemetry

namespace SetRequest

def fromRoot (req : SetRequest) (path : Path) : Path :=
  { path with elems := req.baseElems ++ path.elems }

def spellOut (req : SetRequest) (update : Update) : Update :=
  { update with path := some (req.fromRoot (pathOf update)) }

/-- The same request with the elements of its base in every path. -/
def spelledOut (req : SetRequest) : SetRequest where
  base := req.base.map fun base => { base with elems := [] }
  deletes := req.deletes.map req.fromRoot
  replaces := req.replaces.map req.spellOut
  updates := req.updates.map req.spellOut

/-- If an update writes an object to the very entry that the base leads to, its key fields agree
with the keys there. -/
def AgreesAt (req : SetRequest) (place : SchemaNode) (update : Update) : Prop :=
  (pathOf update).elems = [] → ∀ keys, place.entryKeys req.baseElems = some keys →
    ∀ json, (valueOf update).json? = some json → json.AgreesWith place keys

section Effects

variable {req : SetRequest} {schema place : SchemaNode} {update : Update}

private theorem putting_place_of_agreesAt (h : req.AgreesAt place update)
    (hnil : (pathOf update).elems = []) :
    (Ending.putting (valueOf update)).place place (place.entryKeys req.baseElems) =
      (Ending.putting (valueOf update)).place place none := by
  cases hkeys : place.entryKeys req.baseElems with
  | none => rfl
  | some keys =>
    simp only [Ending.putting]
    cases hjson : (valueOf update).json? with
    | none => rfl
    | some json => exact Json.placeEffect?_of_agrees (h hnil keys hkeys json hjson)

theorem updateEffect?_spellOut (hpasses : SchemaNode.Passes schema req.baseElems place)
    (hne : req.baseElems ≠ []) (h : req.AgreesAt place update) :
    updateEffect? schema (req.spellOut update) =
      (updateEffect? place update).map (.intoAll (schema.wayTo req.baseElems)) := by
  have hcreating := Ending.along?_raised .creating hpasses hne (pathOf update).elems
    fun _ => rfl
  have hputting := Ending.along?_raised (.putting (valueOf update)) hpasses hne
    (pathOf update).elems (putting_place_of_agreesAt h)
  unfold updateEffect?
  change ((Ending.creating.along? schema none (req.baseElems ++ (pathOf update).elems)).bind
    fun creation => ((Ending.putting (valueOf update)).along? schema none
      (req.baseElems ++ (pathOf update).elems)).map creation.andThen) = _
  rw [hcreating, hputting]
  cases hcreation : Ending.creating.along? place none (pathOf update).elems with
  | none => rfl
  | some creation =>
    have hhere := Ending.creating_along?_here hcreation
    simp only [Option.map_some, Option.bind_some, Option.map_map]
    congr 1
    funext effect
    exact (Effect.intoAll_andThen _ hhere effect).symm

theorem replaceEffect?_spellOut (hpasses : SchemaNode.Passes schema req.baseElems place)
    (hne : req.baseElems ≠ []) (h : req.AgreesAt place update) :
    replaceEffect? schema (req.spellOut update) =
      (replaceEffect? place update).map (.intoAll (schema.wayTo req.baseElems)) := by
  have hclearing := SchemaNode.raised_clearing hpasses hne (pathOf update).elems
  have herasing : schema.erasing (req.baseElems ++ (pathOf update).elems) =
      schema.clearing (req.baseElems ++ (pathOf update).elems) :=
    SchemaNode.erasing_eq_clearing schema (by simp [hne])
  unfold replaceEffect?
  change (updateEffect? schema (req.spellOut update)).map
    (schema.erasing (req.baseElems ++ (pathOf update).elems)).andThen = _
  rw [updateEffect?_spellOut hpasses hne h, herasing, Option.map_map, Option.map_map]
  congr 1
  funext effect
  show (schema.clearing (req.baseElems ++ (pathOf update).elems)).andThen
      (.intoAll (schema.wayTo req.baseElems) effect) =
    .intoAll (schema.wayTo req.baseElems) ((place.erasing (pathOf update).elems).andThen effect)
  rw [← Effect.made_andThen_intoAll, ← Effect.andThen_assoc, hclearing.made,
    Effect.intoAll_andThen _ hclearing.here]

/-- What goes through from the root agrees with the keys of the base. -/
theorem agreesAt_of_updateEffect? {effect : Effect}
    (hpasses : SchemaNode.Passes schema req.baseElems place) (hne : req.baseElems ≠ [])
    (h : updateEffect? schema (req.spellOut update) = some effect) : req.AgreesAt place update := by
  intro hnil keys hkeys json hjson
  obtain ⟨creation, -, h⟩ := Option.bind_eq_some_iff.mp h
  obtain ⟨put, hput, -⟩ := Option.map_eq_some_iff.mp h
  change (Ending.putting (valueOf update)).along? schema none
    (req.baseElems ++ (pathOf update).elems) = some put at hput
  rw [hpasses.along?_append _ hne, hnil, hkeys] at hput
  obtain ⟨below, hbelow, -⟩ := Option.map_eq_some_iff.mp hput
  obtain ⟨other, hother, heffect⟩ := Option.bind_eq_some_iff.mp hbelow
  cases Option.some.inj (hjson.symm.trans hother)
  exact Json.agreesWith_of_placeEffect? heffect

def KeysAgree (req : SetRequest) (place : SchemaNode) : Prop :=
  ∀ update ∈ req.replaces ++ req.updates, req.AgreesAt place update

theorem effectBelow?_eq_some {effect : Effect} :
    req.effectBelow? place = some effect ↔
      ∃ replaces updates, req.replaces.mapM (replaceEffect? place) = some replaces ∧
        req.updates.mapM (updateEffect? place) = some updates ∧
        effect = (Effect.inOrder (req.deleteEffects place)).andThen
          (.inOrder (replaces ++ updates)) := by
  constructor
  · intro h
    obtain ⟨replaces, hreplaces, h⟩ := Option.bind_eq_some_iff.mp h
    obtain ⟨updates, hupdates, rfl⟩ := Option.map_eq_some_iff.mp h
    refine ⟨replaces, updates, hreplaces, hupdates, ?_⟩
    show Effect.inOrder (req.deleteEffects place ++ replaces ++ updates) = _
    rw [List.append_assoc, Effect.inOrder_append]
  · intro h
    obtain ⟨replaces, updates, hreplaces, hupdates, rfl⟩ := h
    rw [effectBelow?, hreplaces, hupdates, ← Effect.inOrder_append, ← List.append_assoc]
    rfl

/-- From the root the writes have the effects that they have below the base, raised to there. -/
theorem effectBelow?_spelledOut_eq_some {effect : Effect}
    (hpasses : SchemaNode.Passes schema req.baseElems place) (hne : req.baseElems ≠ [])
    (hagree : req.KeysAgree place) :
    req.spelledOut.effectBelow? schema = some effect ↔
      ∃ replaces updates, req.replaces.mapM (replaceEffect? place) = some replaces ∧
        req.updates.mapM (updateEffect? place) = some updates ∧
        effect = (Effect.inOrder (req.spelledOut.deleteEffects schema)).andThen
          (.inOrder ((replaces ++ updates).map (.intoAll (schema.wayTo req.baseElems)))) := by
  have hreplaces : req.spelledOut.replaces.mapM (replaceEffect? schema) = _ :=
    mapM_map_of_eq fun update hupdate =>
      replaceEffect?_spellOut hpasses hne (hagree update (List.mem_append_left _ hupdate))
  have hupdates : req.spelledOut.updates.mapM (updateEffect? schema) = _ :=
    mapM_map_of_eq fun update hupdate =>
      updateEffect?_spellOut hpasses hne (hagree update (List.mem_append_right _ hupdate))
  rw [effectBelow?_eq_some, hreplaces, hupdates]
  simp only [Option.map_eq_some_iff]
  constructor
  · intro h
    obtain ⟨_, _, ⟨replaces, hreplaces, rfl⟩, ⟨updates, hupdates, rfl⟩, rfl⟩ := h
    exact ⟨replaces, updates, hreplaces, hupdates, by rw [List.map_append]⟩
  · intro h
    obtain ⟨replaces, updates, hreplaces, hupdates, rfl⟩ := h
    exact ⟨_, _, ⟨replaces, hreplaces, rfl⟩, ⟨updates, hupdates, rfl⟩, by rw [List.map_append]⟩

theorem deleteEffects_spelledOut (req : SetRequest) (schema : SchemaNode)
    (hne : req.baseElems ≠ []) : req.spelledOut.deleteEffects schema =
      req.deletes.map fun path => schema.clearing (req.baseElems ++ path.elems) := by
  show (req.deletes.map req.fromRoot).map (fun path => schema.erasing path.elems) = _
  rw [List.map_map]
  refine List.map_congr_left ?_
  intro path _
  exact SchemaNode.erasing_eq_clearing schema (by simp [fromRoot, hne])

private theorem mem_writes_here {replaces updates : List Effect}
    (hreplaces : req.replaces.mapM (replaceEffect? place) = some replaces)
    (hupdates : req.updates.mapM (updateEffect? place) = some updates) :
    ∀ effect ∈ replaces ++ updates, effect [] = none := by
  intro effect heffect
  rcases List.mem_append.mp heffect with heffect | heffect
  · obtain ⟨update, -, hupdate⟩ := exists_of_mem_mapM hreplaces heffect
    exact replaceEffect?_here hupdate
  · obtain ⟨update, -, hupdate⟩ := exists_of_mem_mapM hupdates heffect
    exact updateEffect?_here hupdate

private theorem raised_of_writes (hpasses : SchemaNode.Passes schema req.baseElems place)
    (hne : req.baseElems ≠ []) {writes : List Effect}
    (hhere : ∀ effect ∈ writes, effect [] = none) :
    Effect.Raised (schema.wayTo req.baseElems)
      ((Effect.inOrder (req.spelledOut.deleteEffects schema)).andThen
        (.inOrder (writes.map (.intoAll (schema.wayTo req.baseElems)))))
      ((Effect.inOrder (req.deleteEffects place)).andThen (.inOrder writes)) := by
  rw [deleteEffects_spelledOut req schema hne]
  refine (Effect.Raised.inOrder ?_).andThen ?_
  · intro path _
    exact SchemaNode.raised_clearing hpasses hne path.elems
  · have hwrites : Effect.Raised (schema.wayTo req.baseElems)
        (.inOrder (writes.map (.intoAll (schema.wayTo req.baseElems))))
        (.inOrder (writes.map id)) :=
      Effect.Raised.inOrder fun effect heffect => Effect.Raised.intoAll _ (hhere effect heffect)
    rwa [List.map_id] at hwrites

/-- The effect below the base, and the one from the root that it is raised to. -/
theorem exists_raised {effect : Effect} (hpasses : SchemaNode.Passes schema req.baseElems place)
    (hne : req.baseElems ≠ []) (hagree : req.KeysAgree place)
    (h : req.effectBelow? place = some effect) :
    ∃ raised, req.spelledOut.effectBelow? schema = some raised ∧
      Effect.Raised (schema.wayTo req.baseElems) raised effect := by
  obtain ⟨replaces, updates, hreplaces, hupdates, rfl⟩ := effectBelow?_eq_some.mp h
  have hraised := raised_of_writes hpasses hne (mem_writes_here hreplaces hupdates)
  exact ⟨_, (effectBelow?_spelledOut_eq_some hpasses hne hagree).mpr
    ⟨replaces, updates, hreplaces, hupdates, rfl⟩, hraised⟩

/-- The other way round, and a request that writes leaves the place made from the root too. -/
theorem exists_lowered {raised : Effect} (hpasses : SchemaNode.Passes schema req.baseElems place)
    (hne : req.baseElems ≠ []) (hagree : req.KeysAgree place)
    (h : req.spelledOut.effectBelow? schema = some raised) :
    ∃ effect, req.effectBelow? place = some effect ∧
      Effect.Raised (schema.wayTo req.baseElems) raised effect := by
  obtain ⟨replaces, updates, hreplaces, hupdates, rfl⟩ :=
    (effectBelow?_spelledOut_eq_some hpasses hne hagree).mp h
  exact ⟨_, effectBelow?_eq_some.mpr ⟨replaces, updates, hreplaces, hupdates, rfl⟩,
    raised_of_writes hpasses hne (mem_writes_here hreplaces hupdates)⟩

/-- What goes through from the root agrees with the keys of the base. -/
theorem keysAgree_of_effectBelow? {raised : Effect}
    (hpasses : SchemaNode.Passes schema req.baseElems place) (hne : req.baseElems ≠ [])
    (h : req.spelledOut.effectBelow? schema = some raised) : req.KeysAgree place := by
  obtain ⟨replaces, updates, hreplaces, hupdates, -⟩ := effectBelow?_eq_some.mp h
  intro update hupdate
  rcases List.mem_append.mp hupdate with hupdate | hupdate
  · have hmem : req.spellOut update ∈ req.spelledOut.replaces := List.mem_map_of_mem hupdate
    obtain ⟨effect, -, heffect⟩ := exists_of_mapM_eq_some hreplaces hmem
    obtain ⟨written, hwritten, -⟩ := Option.map_eq_some_iff.mp heffect
    exact agreesAt_of_updateEffect? hpasses hne hwritten
  · have hmem : req.spellOut update ∈ req.spelledOut.updates := List.mem_map_of_mem hupdate
    obtain ⟨effect, -, heffect⟩ := exists_of_mapM_eq_some hupdates hmem
    exact agreesAt_of_updateEffect? hpasses hne heffect

/-- A request that writes makes the place that its base leads to from the root too. -/
theorem made_of_writes {raised : Effect}
    (hpasses : SchemaNode.Passes schema req.baseElems place) (hne : req.baseElems ≠ [])
    (hagree : req.KeysAgree place) (h : req.spelledOut.effectBelow? schema = some raised)
    {update : Update} (hupdate : update ∈ req.replaces ++ req.updates) :
    raised.andThen (.intoAll (schema.wayTo req.baseElems) .keep) = raised := by
  obtain ⟨replaces, updates, hreplaces, hupdates, rfl⟩ :=
    (effectBelow?_spelledOut_eq_some hpasses hne hagree).mp h
  have hhere := mem_writes_here hreplaces hupdates
  have hwrites : replaces ++ updates ≠ [] := by
    rcases List.mem_append.mp hupdate with hupdate | hupdate
    · obtain ⟨effect, heffect, -⟩ := exists_of_mapM_eq_some hreplaces hupdate
      exact List.ne_nil_of_mem (List.mem_append_left _ heffect)
    · obtain ⟨effect, heffect, -⟩ := exists_of_mapM_eq_some hupdates hupdate
      exact List.ne_nil_of_mem (List.mem_append_right _ heffect)
  rw [Effect.inOrder_map_intoAll _ hwrites hhere, Effect.andThen_assoc,
    (Effect.Raised.intoAll _ (Effect.inOrder_here hhere)).made]

end Effects

section Deletes

variable {schema place : SchemaNode} {elems : List PathElem} {node sub : Node}

structure MadeAt (schema : SchemaNode) (node : Node) (elems : List PathElem) (place : SchemaNode)
    (sub : Node) : Prop where
  above : Node.IsPlace schema node
  isPlace : Node.IsPlace place sub
  contents : sub.contents =
    ((Effect.intoAll (schema.wayTo elems) .keep).apply node.contents).belowAll
      (schema.wayTo elems).moves

theorem MadeAt.eq_of_at? {found : Node} (h : MadeAt schema node elems place sub)
    (hpasses : SchemaNode.Passes schema elems place) (hat : node.at? elems = some found) :
    found = sub := by
  have hfound := Node.isPlace_at? h.above hpasses hat
  refine hfound.eq_of_contents h.isPlace ?_
  rw [h.contents, Node.apply_made_of_at? h.above hpasses hat, Node.belowAll_wayTo h.above hpasses,
    hat]
  rfl

theorem MadeAt.of_create (path : Path) (hplace : Node.IsPlace schema node)
    (hpasses : SchemaNode.Passes schema path.elems place)
    (hat : (node.create schema path).2.at? path.elems = some sub) :
    MadeAt schema node path.elems place sub := by
  have hcreated : Node.IsPlace schema (node.create schema path).2 := Node.isPlace_create hplace
  refine ⟨hplace, Node.isPlace_at? hcreated hpasses hat, ?_⟩
  rw [← (Node.create_of_passes path hplace hpasses).2, Node.belowAll_wayTo hcreated hpasses, hat]
  rfl

theorem MadeAt.raised {after subAfter : Node} {effect below : Effect}
    (h : MadeAt schema node elems place sub)
    (hraised : Effect.Raised (schema.wayTo elems) effect below)
    (hafter : Node.IsPlace schema after) (hcontents : after.contents = effect.apply node.contents)
    (hsubAfter : Node.IsPlace place subAfter)
    (hsubContents : subAfter.contents = below.apply sub.contents) :
    MadeAt schema after elems place subAfter := by
  refine ⟨hafter, hsubAfter, ?_⟩
  rw [hsubContents, h.contents, hcontents, ← Effect.apply_andThen, hraised.made]
  exact (Effect.belowAll_apply_intoAll _ below _).symm

variable {req : SetRequest} {path : Path} {after subAfter : Node}

/-- A delete that goes through below the base goes through from the root. -/
theorem MadeAt.exists_runDelete (h : MadeAt schema node req.baseElems place sub)
    (hpasses : SchemaNode.Passes schema req.baseElems place)
    (hdelete : runDelete place sub path = .ok subAfter) :
    ∃ after, runDelete schema node (req.fromRoot path) = .ok after := by
  have hbelow := (runDelete_eq_ok h.isPlace).mp ⟨subAfter, hdelete⟩
  refine (runDelete_eq_ok h.above).mpr ((Node.erasable_append hpasses path.elems).mpr ?_)
  intro found hfound
  rw [h.eq_of_at? hpasses hfound]
  exact hbelow

/-- It is refused below the base only, if there is nothing to delete from yet. -/
theorem MadeAt.at?_eq_none {e : SetError} (h : MadeAt schema node req.baseElems place sub)
    (hpasses : SchemaNode.Passes schema req.baseElems place)
    (hfromRoot : runDelete schema node (req.fromRoot path) = .ok after)
    (hdelete : runDelete place sub path = .error e) : node.at? req.baseElems = none := by
  have herasable := (runDelete_eq_ok h.above).mp ⟨after, hfromRoot⟩
  cases hat : node.at? req.baseElems with
  | none => rfl
  | some found =>
    have hbelow := (Node.erasable_append hpasses path.elems).mp herasable found hat
    rw [h.eq_of_at? hpasses hat] at hbelow
    obtain ⟨subAfter, hsubAfter⟩ := (runDelete_eq_ok h.isPlace).mpr hbelow
    rw [hdelete] at hsubAfter
    cases hsubAfter

theorem MadeAt.runDelete (h : MadeAt schema node req.baseElems place sub)
    (hpasses : SchemaNode.Passes schema req.baseElems place) (hne : req.baseElems ≠ [])
    (hfromRoot : runDelete schema node (req.fromRoot path) = .ok after)
    (hdelete : runDelete place sub path = .ok subAfter) :
    MadeAt schema after req.baseElems place subAfter := by
  obtain ⟨hafter, hcontents⟩ := runDelete_effect h.above hfromRoot
  obtain ⟨hsubAfter, hsubContents⟩ := runDelete_effect h.isPlace hdelete
  have hnonempty : req.baseElems ++ path.elems ≠ [] := by simp [hne]
  change after.contents = (schema.erasing (req.baseElems ++ path.elems)).apply _ at hcontents
  rw [SchemaNode.erasing_eq_clearing schema hnonempty] at hcontents
  exact h.raised (SchemaNode.raised_clearing hpasses hne path.elems) hafter hcontents hsubAfter
    hsubContents

/-- A delete takes away the place itself only if its path ends there. -/
theorem at?_eq_none_of_runDelete (hplace : Node.IsPlace schema node)
    (hpasses : SchemaNode.Passes schema req.baseElems place)
    (hdelete : runDelete schema node (req.fromRoot path) = .ok after) (hpath : path.elems ≠ [])
    (hgone : after.at? req.baseElems = none) : node.at? req.baseElems = none := by
  obtain ⟨hafter, hcontents⟩ := runDelete_effect hplace hdelete
  have hnonempty : req.baseElems ++ path.elems ≠ [] := by simp [hpath]
  change after.contents = (schema.erasing (req.baseElems ++ path.elems)).apply _ at hcontents
  rw [SchemaNode.erasing_eq_clearing schema hnonempty, hpasses.clearing_append] at hcontents
  have hbelow := congrFun (congrArg (Contents.belowAll · (schema.wayTo req.baseElems).moves)
    hcontents) []
  have hhere := place.erasing_here path.elems
  rw [SchemaNode.erasing_eq_clearing place hpath] at hhere
  simp only [Effect.belowAll_apply_underAll, Effect.apply_congr_nil hhere,
    Node.belowAll_wayTo hafter hpasses, Node.belowAll_wayTo hplace hpasses, hgone] at hbelow
  cases hat : node.at? req.baseElems with
  | none => rfl
  | some found =>
    rw [hat] at hbelow
    cases hbelow

/-- Deletes that go through below the base go through from the root. -/
theorem MadeAt.exists_deletes (h : MadeAt schema node req.baseElems place sub)
    (hpasses : SchemaNode.Passes schema req.baseElems place) (hne : req.baseElems ≠ [])
    {paths : List Path} (hdeletes : paths.foldlM (SetRequest.runDelete place) sub = .ok subAfter) :
    ∃ after, (paths.map req.fromRoot).foldlM (SetRequest.runDelete schema) node = .ok after := by
  induction paths generalizing node sub with
  | nil => exact ⟨node, rfl⟩
  | cons path rest ih =>
    rw [List.foldlM_cons] at hdeletes
    obtain ⟨subBetween, hfirst, hrest⟩ := bind_eq_ok.mp hdeletes
    obtain ⟨between, hbetween⟩ := h.exists_runDelete hpasses hfirst
    obtain ⟨after, hafter⟩ := ih (h.runDelete hpasses hne hbetween hfirst) hrest
    exact ⟨after, by rw [List.map_cons, List.foldlM_cons, hbetween]; exact hafter⟩

/-- They are refused below the base only, if the place that it leads to is missing or is deleted
on the way. -/
theorem MadeAt.missing_or_deleted {e : SetError} (h : MadeAt schema node req.baseElems place sub)
    (hpasses : SchemaNode.Passes schema req.baseElems place) (hne : req.baseElems ≠ [])
    {paths : List Path}
    (hfromRoot : (paths.map req.fromRoot).foldlM (SetRequest.runDelete schema) node = .ok after)
    (hdeletes : paths.foldlM (SetRequest.runDelete place) sub = .error e) :
    node.at? req.baseElems = none ∨ ∃ path ∈ paths, path.elems = [] := by
  induction paths generalizing node sub with
  | nil => cases hdeletes
  | cons path rest ih =>
    rw [List.map_cons, List.foldlM_cons] at hfromRoot
    obtain ⟨between, hbetween, hfromRoot⟩ := bind_eq_ok.mp hfromRoot
    rw [List.foldlM_cons] at hdeletes
    cases hfirst : SetRequest.runDelete place sub path with
    | error cause => exact Or.inl (h.at?_eq_none hpasses hbetween hfirst)
    | ok subBetween =>
      rw [hfirst] at hdeletes
      have hnext := h.runDelete hpasses hne hbetween hfirst
      rcases ih hnext hfromRoot hdeletes with hgone | ⟨other, hother, hempty⟩
      · by_cases hpath : path.elems = []
        · exact Or.inr ⟨path, List.mem_cons_self, hpath⟩
        · exact Or.inl (at?_eq_none_of_runDelete h.above hpasses hbetween hpath hgone)
      · exact Or.inr ⟨other, List.mem_cons_of_mem path hother, hempty⟩

end Deletes

section Run

variable {req : SetRequest} {schema place : SchemaNode} {root after other : Node}

theorem baseElems_spelledOut (req : SetRequest) : req.spelledOut.baseElems = [] := by
  unfold baseElems spelledOut
  cases req.base <;> rfl

/-- With an empty base path the operations are run at the root. -/
theorem run_eq_runBelow (hplace : Node.IsPlace schema root)
    (hroot : ∃ schemas, schema = .container schemas) (hnil : req.baseElems = []) :
    req.run schema root = req.runBelow schema root := by
  have helems : req.basePath.elems = [] := hnil
  have hat : req.RunsAt schema schema := by
    refine ⟨?_, Or.inl hroot⟩
    rw [SchemaNode.locate, helems]
    rfl
  obtain ⟨sub, hsub, -, hrun⟩ := run_eq_map_runBelow hplace hat
  have hcreate : (root.create schema req.basePath).2 = root := by
    unfold Node.create
    rw [hat.1]
    simp [helems]
  rw [hcreate, hnil] at hsub
  cases hsub
  rw [hrun, hnil]
  show (req.runBelow schema root).map id = _
  cases req.runBelow schema root <;> rfl

private theorem runBelow_spelledOut_of_nil (hnil : req.baseElems = []) :
    req.spelledOut.runBelow schema root = req.runBelow schema root := by
  have hpath : ∀ path : Path, req.fromRoot path = path := by
    intro path
    rw [fromRoot, hnil, List.nil_append]
  have hdelete : (fun node path => runDelete schema node (req.fromRoot path)) =
      runDelete schema := by
    funext node path
    rw [hpath]
  have hreplace : (fun node update => runReplace schema node (req.spellOut update)) =
      runReplace schema := by
    funext node update
    have hsame : pathOf (req.spellOut update) = pathOf update := hpath (pathOf update)
    unfold runReplace applyReplace applyWrite
    rw [hsame]
    rfl
  have hupdate : (fun node update => runUpdate schema node (req.spellOut update)) =
      runUpdate schema := by
    funext node update
    have hsame : pathOf (req.spellOut update) = pathOf update := hpath (pathOf update)
    unfold runUpdate applyUpdate applyWrite
    rw [hsame]
    rfl
  rw [runBelow_eq, runBelow_eq, spelledOut]
  simp only [List.foldlM_map, hdelete, hreplace, hupdate]

/-- Deletes alone take away only, and nothing where there is no place. -/
private theorem deletes_spelledOut (hplace : Node.IsPlace schema root)
    (hpasses : SchemaNode.Passes schema req.baseElems place) (hne : req.baseElems ≠ [])
    (hreplaces : req.replaces = []) (hupdates : req.updates = [])
    (hother : req.spelledOut.runBelow schema root = .ok other) :
    Node.IsPlace schema other ∧ other.contents.Within root.contents ∧
      (root.at? req.baseElems = none → other = root) := by
  obtain ⟨raised, hraised, hotherPlace, hcontents⟩ := runBelow_effect hplace hother
  have heffect : raised = Effect.inOrder (req.spelledOut.deleteEffects schema) := by
    obtain ⟨replaces, updates, hreplaceEffects, hupdateEffects, rfl⟩ :=
      effectBelow?_eq_some.mp hraised
    rw [spelledOut, hreplaces] at hreplaceEffects
    rw [spelledOut, hupdates] at hupdateEffects
    cases hreplaceEffects
    cases hupdateEffects
    rfl
  rw [heffect, deleteEffects_spelledOut req schema hne] at hcontents
  refine ⟨hotherPlace, ?_, ?_⟩
  · rw [hcontents]
    refine Effect.Clears.within (Effect.clears_inOrder ?_) _
    intro effect heffect
    obtain ⟨path, -, rfl⟩ := List.mem_map.mp heffect
    exact SchemaNode.clears_clearing schema _
  · intro hmissing
    refine hotherPlace.eq_of_contents hplace ?_
    rw [hcontents]
    refine Effect.apply_inOrder_eq_self ?_
    intro effect heffect
    obtain ⟨path, -, rfl⟩ := List.mem_map.mp heffect
    rw [hpasses.clearing_append]
    refine (SchemaNode.clears_clearing place path.elems).apply_underAll ?_
    rw [Node.belowAll_wayTo hplace hpasses, hmissing]
    rfl

section Both

variable (hplace : Node.IsPlace schema root) (hroot : ∃ schemas, schema = .container schemas)
  (hat : req.RunsAt schema place)

include hplace hroot hat

/-- Where both go through the one tree is the other one with the place made. -/
theorem contents_run_spelledOut (h : req.run schema root = .ok after)
    (hother : req.spelledOut.run schema root = .ok other) :
    Node.IsPlace schema after ∧ Node.IsPlace schema other ∧
      after.contents =
        (Effect.intoAll (schema.wayTo req.baseElems) .keep).apply other.contents := by
  rw [run_eq_runBelow hplace hroot (baseElems_spelledOut req)] at hother
  obtain ⟨raised, hraisedEffect, hotherPlace, hotherContents⟩ := runBelow_effect hplace hother
  obtain ⟨effect, heffect, hafterPlace, hafterContents⟩ := run_effect hplace hat h
  refine ⟨hafterPlace, hotherPlace, ?_⟩
  by_cases hnil : req.baseElems = []
  · rw [run_eq_runBelow hplace hroot hnil, ← runBelow_spelledOut_of_nil hnil, hother] at h
    cases h
    rw [hnil]
    rfl
  · have hagree := keysAgree_of_effectBelow? hat.passes hnil hraisedEffect
    obtain ⟨below, hbelow, hraised⟩ := exists_lowered hat.passes hnil hagree hraisedEffect
    rw [effectAt?, hbelow] at heffect
    cases heffect
    rw [hafterContents, hotherContents, ← Effect.apply_andThen, hraised.made]

/-- A request that goes through goes through spelled out, if its writes agree with the keys of its
base. -/
theorem exists_run_spelledOut (hagree : req.KeysAgree place) (h : req.run schema root = .ok after) :
    ∃ other, req.spelledOut.run schema root = .ok other := by
  rw [run_eq_runBelow hplace hroot (baseElems_spelledOut req)]
  by_cases hnil : req.baseElems = []
  · rw [runBelow_spelledOut_of_nil hnil, ← run_eq_runBelow hplace hroot hnil]
    exact ⟨after, h⟩
  · obtain ⟨sub, hsub, hsubPlace, hrun⟩ := run_eq_map_runBelow hplace hat
    have hmade := MadeAt.of_create req.basePath hplace hat.passes hsub
    obtain ⟨new, hnew, -⟩ := map_eq_ok.mp (hrun.symm.trans h)
    obtain ⟨effect, heffect, -⟩ := runBelow_effect hsubPlace hnew
    obtain ⟨raised, hraised, -⟩ := exists_raised hat.passes hnil hagree heffect
    obtain ⟨subDeleted, -, hdelete, -, -⟩ := runBelow_eq_ok.mp hnew
    obtain ⟨deleted, hdeleted⟩ := hmade.exists_deletes hat.passes hnil hdelete
    exact runBelow_of_deletes hplace hraised hdeleted

/-- A request that goes through spelled out goes through, unless a delete of a path that is not
accepted is refused at a place that was not there. -/
theorem run_of_spelledOut (h : req.spelledOut.run schema root = .ok other) :
    (∃ after, req.run schema root = .ok after) ∨
      ∃ e, req.run schema root = .error e ∧ RefusesDelete place req.deletes e ∧
        (root.at? req.baseElems = none ∨ ∃ path ∈ req.deletes, path.elems = []) := by
  rw [run_eq_runBelow hplace hroot (baseElems_spelledOut req)] at h
  by_cases hnil : req.baseElems = []
  · rw [runBelow_spelledOut_of_nil hnil, ← run_eq_runBelow hplace hroot hnil] at h
    exact Or.inl ⟨other, h⟩
  · obtain ⟨raised, hraised, -⟩ := runBelow_effect hplace h
    have hagree := keysAgree_of_effectBelow? hat.passes hnil hraised
    obtain ⟨effect, heffect, -⟩ := exists_lowered hat.passes hnil hagree hraised
    obtain ⟨sub, hsub, hsubPlace, hrun⟩ := run_eq_map_runBelow hplace hat
    have hmade := MadeAt.of_create req.basePath hplace hat.passes hsub
    cases hresult : req.runBelow place sub with
    | ok new =>
      rw [hresult] at hrun
      exact Or.inl ⟨_, hrun⟩
    | error e =>
      rw [hresult] at hrun
      have hdeletes := deletes_of_runBelow_error hsubPlace heffect hresult
      obtain ⟨deleted, -, hdeleted, -, -⟩ := runBelow_eq_ok.mp h
      exact Or.inr ⟨e, hrun, refusesDelete_of_deletes hsubPlace hdeletes,
        hmade.missing_or_deleted hat.passes hnil hdeleted hdeletes⟩

/-- The tree without the place made has nothing that the other one has not. -/
theorem conforms_spelledOut (h : req.run schema root = .ok after)
    (hother : req.spelledOut.run schema root = .ok other)
    (hconforms : Node.Conforms schema after) : Node.Conforms schema other := by
  obtain ⟨hafterPlace, hotherPlace, hcontents⟩ :=
    contents_run_spelledOut hplace hroot hat h hother
  obtain ⟨schemas, rfl⟩ := hroot
  refine hconforms.of_within hotherPlace hafterPlace ?_
  rw [hcontents]
  exact Node.adds_made hotherPlace hat.passes

/-- The tree with the place made conforms with the other one and the one before, unless there are
deletes only and the place was missing: then it is the one before with the place made. -/
theorem conforms_or_missing (h : req.run schema root = .ok after)
    (hother : req.spelledOut.run schema root = .ok other)
    (hconforms : Node.Conforms schema other) (hbefore : Node.Conforms schema root) :
    Node.Conforms schema after ∨ (req.replaces = [] ∧ req.updates = [] ∧
      root.at? req.baseElems = none ∧ after = (root.create schema req.basePath).2) := by
  obtain ⟨hafterPlace, hotherPlace, hcontents⟩ :=
    contents_run_spelledOut hplace hroot hat h hother
  have hsame : after.contents = other.contents → Node.Conforms schema after := by
    intro hsame
    rwa [hafterPlace.eq_of_contents hotherPlace hsame]
  rw [run_eq_runBelow hplace hroot (baseElems_spelledOut req)] at hother
  by_cases hnil : req.baseElems = []
  · rw [hnil] at hcontents
    exact Or.inl (hsame hcontents)
  by_cases hwrites : req.replaces ++ req.updates = []
  · obtain ⟨hreplaces, hupdates⟩ := List.append_eq_nil_iff.mp hwrites
    obtain ⟨-, hwithin, hmissing⟩ :=
      deletes_spelledOut hplace hat.passes hnil hreplaces hupdates hother
    cases hfound : root.at? req.baseElems with
    | none =>
      refine Or.inr ⟨hreplaces, hupdates, rfl, ?_⟩
      have hcreated : Node.IsPlace schema (root.create schema req.basePath).2 :=
        Node.isPlace_create hplace
      refine hafterPlace.eq_of_contents hcreated ?_
      rw [hcontents, hmissing hfound]
      exact (Node.create_of_passes req.basePath hplace hat.passes).2.symm
    | some found =>
      refine Or.inl ?_
      obtain ⟨schemas, rfl⟩ := hroot
      refine hbefore.of_within hafterPlace hplace ?_
      have hmore := Effect.apply_within hwithin
        (.intoAll (SchemaNode.wayTo (.container schemas) req.baseElems) .keep)
      rwa [Node.apply_made_of_at? hplace hat.passes hfound, ← hcontents] at hmore
  · obtain ⟨update, hupdate⟩ := List.exists_mem_of_ne_nil _ hwrites
    obtain ⟨raised, hraised, -, hotherContents⟩ := runBelow_effect hplace hother
    have hagree := keysAgree_of_effectBelow? hat.passes hnil hraised
    have hmade := made_of_writes hat.passes hnil hagree hraised hupdate
    refine Or.inl (hsame ?_)
    rw [hcontents, hotherContents, ← Effect.apply_andThen, hmade]

/-- Making the place changes no leaf. -/
theorem leafAt?_spelledOut (h : req.run schema root = .ok after)
    (hother : req.spelledOut.run schema root = .ok other) :
    after.leafAt? = other.leafAt? := by
  obtain ⟨hafterPlace, hotherPlace, hcontents⟩ :=
    contents_run_spelledOut hplace hroot hat h hother
  obtain ⟨⟨target, hcreate⟩, hcreated⟩ :=
    Node.create_of_passes req.basePath hotherPlace hat.passes
  have hsame : after = (other.create schema req.basePath).2 :=
    hafterPlace.eq_of_contents (Node.isPlace_create hotherPlace) (hcontents.trans hcreated.symm)
  rw [hsame]
  exact (Node.create_spec hotherPlace hcreate).2.1

end Both

end Run

end SetRequest

end Telemetry
