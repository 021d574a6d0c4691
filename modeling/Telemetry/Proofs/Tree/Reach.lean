import Telemetry.Proofs.Tree.Passing

/-!
How far effects reach. What is done along a path takes place at and below what the path names, and
on the way there it makes containers and lists. Which of the two is made is decided by the schema.
So two effects do not get in each other's way if neither takes place on the way of the other, and
they may be done in either order.
-/

namespace Telemetry

namespace Content

def IsInner : Content → Prop
  | .leaf _ => False
  | _ => True

def SameKind : Content → Content → Prop
  | .container, .container => True
  | .list, .list => True
  | .leaf _, .leaf _ => True
  | _, _ => False

theorem SameKind.eq_of_isInner {content other : Content} (h : content.SameKind other)
    (hinner : content.IsInner) : content = other := by
  cases content <;> cases other
  case container.container => rfl
  case list.list => rfl
  case leaf.leaf => exact hinner.elim
  all_goals exact h.elim

end Content

namespace Effect

/-- An effect takes place at and below some targets, and on the way to some ends it makes what
stands on the way. -/
def Touches (e : Effect) (targets ends : List (List Move)) : Prop :=
  ∀ moves fixed, e moves = some fixed → (∃ target ∈ targets, target <+: moves) ∨
    ∃ content, fixed = some content ∧ content.IsInner ∧ ∃ goal ∈ ends, moves <+: goal

variable {e f : Effect} {targets ends : List (List Move)}

theorem touches_keep (targets ends : List (List Move)) : keep.Touches targets ends := by
  intro moves fixed h
  cases h

/-- Whatever is done here takes place at or below here. -/
theorem touches_here (e : Effect) (ends : List (List Move)) : e.Touches [[]] ends := by
  intro moves fixed _
  exact Or.inl ⟨[], List.mem_singleton_self [], List.nil_prefix⟩

namespace Touches

theorem mono (h : e.Touches targets ends) {targets' ends' : List (List Move)}
    (htargets : targets ⊆ targets') (hends : ends ⊆ ends') : e.Touches targets' ends' := by
  intro moves fixed hfixed
  rcases h moves fixed hfixed with ⟨target, hmem, hleads⟩ | ⟨content, hcontent, hinner, goal, hmem,
    hleads⟩
  · exact Or.inl ⟨target, htargets hmem, hleads⟩
  · exact Or.inr ⟨content, hcontent, hinner, goal, hends hmem, hleads⟩

theorem of_mem {target goal : List Move} (h : e.Touches [target] [goal])
    (htarget : target ∈ targets) (hgoal : goal ∈ ends) : e.Touches targets ends := by
  refine h.mono ?_ ?_
  · intro other hother
    rwa [List.mem_singleton.mp hother]
  · intro other hother
    rwa [List.mem_singleton.mp hother]

theorem andThen (h : e.Touches targets ends) (hf : f.Touches targets ends) :
    (e.andThen f).Touches targets ends := by
  intro moves fixed hfixed
  cases hlater : f moves with
  | none =>
    rw [Effect.andThen, hlater] at hfixed
    exact h moves fixed hfixed
  | some later =>
    rw [Effect.andThen, hlater] at hfixed
    exact hf moves fixed (hlater.trans hfixed)

theorem under (h : e.Touches targets ends) (move : Move) :
    (Effect.under move e).Touches (targets.map (move :: ·)) (ends.map (move :: ·)) := by
  intro moves fixed hfixed
  cases moves with
  | nil => cases hfixed
  | cons other rest =>
    by_cases hmove : other = move
    · subst hmove
      simp only [Effect.under, if_true] at hfixed
      rcases h rest fixed hfixed with ⟨target, hmem, hleads⟩ | ⟨content, hcontent, hinner, goal,
        hmem, hleads⟩
      · exact Or.inl ⟨other :: target, List.mem_map_of_mem hmem,
          (List.prefix_cons_inj other).mpr hleads⟩
      · exact Or.inr ⟨content, hcontent, hinner, other :: goal, List.mem_map_of_mem hmem,
          (List.prefix_cons_inj other).mpr hleads⟩
    · simp [Effect.under, hmove] at hfixed

/-- What is made one move below stands on the way to whatever lies below it. -/
theorem into (h : e.Touches targets ends) (hends : ends ≠ []) (move : Move) {content : Content}
    (hcontent : content.IsInner) :
    (Effect.into move content e).Touches (targets.map (move :: ·)) (ends.map (move :: ·)) := by
  have hmade : (Effect.here content).Touches targets ends := by
    obtain ⟨goal, more, rfl⟩ := List.exists_cons_of_ne_nil hends
    intro moves fixed hfixed
    unfold Effect.here at hfixed
    split at hfixed
    · rename_i hnil
      subst hnil
      cases hfixed
      exact Or.inr ⟨content, rfl, hcontent, goal, List.mem_cons_self, List.nil_prefix⟩
    · cases hfixed
  exact (hmade.andThen h).under move

theorem intoAll (h : e.Touches targets ends) (hends : ends ≠ []) {way : Way}
    (hway : ∀ step ∈ way, step.2.IsInner) :
    (Effect.intoAll way e).Touches (targets.map (way.moves ++ ·)) (ends.map (way.moves ++ ·)) := by
  induction way with
  | nil =>
    have hsame : ∀ moves : List (List Move), moves.map ((Way.moves [] ++ ·)) = moves :=
      fun moves => List.map_id' moves
    rw [hsame, hsame]
    exact h
  | cons step rest ih =>
    have hrest := ih fun other hother => hway other (List.mem_cons_of_mem step hother)
    have hsame : ∀ moves : List (List Move), moves.map (Way.moves (step :: rest) ++ ·) =
        (moves.map (Way.moves rest ++ ·)).map (step.1 :: ·) := by
      intro moves
      rw [List.map_map]
      rfl
    rw [hsame, hsame]
    exact hrest.into (by simpa using hends) step.1 (hway step List.mem_cons_self)

end Touches

/-- Effects that do not contradict each other may be done in either order. -/
theorem apply_comm {c : Contents} (h : ∀ moves fixed other, e moves = some fixed →
    f moves = some other → fixed = other) : f.apply (e.apply c) = e.apply (f.apply c) := by
  funext moves
  unfold apply
  cases he : e moves with
  | none => cases hf : f moves <;> rfl
  | some fixed =>
    cases hf : f moves with
    | none => rfl
    | some other => exact (h moves fixed other he hf).symm

theorem apply_of_fixed {moves : List Move} {fixed : Option Content} (h : e moves = some fixed)
    (c : Contents) : e.apply c moves = fixed := by
  rw [apply, h]
  rfl

end Effect

namespace Node

/-- What stands somewhere in two trees of one shape is of the same kind in both. -/
theorem Fits.sameKind {schema : SchemaNode} {a b : Node} (ha : Fits schema a)
    (hb : Fits schema b) {moves : List Move} {content other : Content}
    (hcontent : a.contents moves = some content) (hother : b.contents moves = some other) :
    content.SameKind other := by
  induction moves generalizing schema a b with
  | nil =>
    cases hcontent
    cases hother
    cases ha with
    | leaf =>
      obtain ⟨_, rfl⟩ := fits_leaf hb
      trivial
    | container =>
      obtain ⟨_, rfl⟩ := fits_container hb
      trivial
    | list =>
      obtain ⟨_, rfl, -⟩ := select?_of_fits_list hb
      trivial
  | cons move rest ih =>
    obtain ⟨sub, hsub, hbelow⟩ := Option.bind_eq_some_iff.mp hcontent
    obtain ⟨found, hfound, hotherBelow⟩ := Option.bind_eq_some_iff.mp hother
    cases schema with
    | leaf leafSchema =>
      obtain ⟨value, rfl⟩ := fits_leaf ha
      cases hsub
    | container schemas =>
      obtain ⟨children, rfl⟩ := fits_container ha
      obtain ⟨others, rfl⟩ := fits_container hb
      cases move with
      | entry keys => cases hsub
      | child name =>
        have hplace : IsPlace (.container schemas) (.container children) := ha
        have hotherPlace : IsPlace (.container schemas) (.container others) := hb
        obtain ⟨childSchema, hchild, hfits⟩ := hplace.child hsub
        exact ih hfits (hotherPlace.child_fits hfound hchild) hbelow hotherBelow
    | list keys max schemas =>
      obtain ⟨entries, rfl, -, hentries⟩ := select?_of_fits_list ha
      obtain ⟨others, rfl, -, hothers⟩ := select?_of_fits_list hb
      cases move with
      | child name => cases hsub
      | entry key => exact ih (hentries key sub hsub) (hothers key found hfound) hbelow hotherBelow

/-- An effect changes something at or below a target, or it makes something on the way to an end
where there was nothing. -/
theorem contents_of_touches {schema : SchemaNode} {before after : Node} {e : Effect}
    {targets ends : List (List Move)} (hbefore : Fits schema before) (hafter : Fits schema after)
    (hcontents : after.contents = e.apply before.contents) (he : e.Touches targets ends)
    {moves : List Move} (hchanged : after.contents moves ≠ before.contents moves) :
    (∃ target ∈ targets, target <+: moves) ∨ before.contents moves = none ∧
      (∃ content, after.contents moves = some content ∧ content.IsInner) ∧
        ∃ goal ∈ ends, moves <+: goal := by
  cases hfixed : e moves with
  | none =>
    rw [hcontents, Effect.apply, hfixed] at hchanged
    exact absurd rfl hchanged
  | some fixed =>
    rcases he moves fixed hfixed with htarget | ⟨content, rfl, hinner, hgoal⟩
    · exact Or.inl htarget
    · have hmade : after.contents moves = some content := by
        rw [hcontents]
        exact Effect.apply_of_fixed hfixed _
      refine Or.inr ⟨?_, ⟨content, hmade, hinner⟩, hgoal⟩
      cases hold : before.contents moves with
      | none => rfl
      | some old =>
        have hsame := (hafter.sameKind hbefore hmade hold).eq_of_isInner hinner
        rw [hmade, hold, hsame] at hchanged
        exact absurd rfl hchanged

/-- Edits of two trees of one shape that keep off each other's targets may be done in either
order. -/
theorem apply_comm_of_touches {schema : SchemaNode} {tree a b : Node} {e f : Effect}
    {targets ends targets' ends' : List (List Move)} (ha : Fits schema a) (hb : Fits schema b)
    (hcontents : a.contents = e.apply tree.contents)
    (hother : b.contents = f.apply tree.contents) (he : e.Touches targets ends)
    (hf : f.Touches targets' ends') (hends : targets' ⊆ ends') (hends' : targets ⊆ ends)
    (hapart : ∀ target ∈ targets, ∀ goal ∈ ends', ¬ target <+: goal)
    (hapart' : ∀ target ∈ targets', ∀ goal ∈ ends, ¬ target <+: goal) :
    f.apply (e.apply tree.contents) = e.apply (f.apply tree.contents) := by
  refine Effect.apply_comm ?_
  intro moves fixed other hfixed hfixed'
  rcases he moves fixed hfixed with ⟨target, hmem, hleads⟩ | ⟨content, rfl, hinner, goal, hmem,
    hleads⟩
  · rcases hf moves other hfixed' with ⟨target', hmem', hleads'⟩ | ⟨_, -, -, goal', hmem',
      hleads'⟩
    · rcases List.prefix_or_prefix_of_prefix hleads hleads' with h | h
      · exact absurd h (hapart target hmem target' (hends hmem'))
      · exact absurd h (hapart' target' hmem' target (hends' hmem))
    · exact absurd (hleads.trans hleads') (hapart target hmem goal' hmem')
  · rcases hf moves other hfixed' with ⟨target', hmem', hleads'⟩ | ⟨content', rfl, -⟩
    · exact absurd (hleads'.trans hleads) (hapart' target' hmem' goal hmem)
    · -- Both make what stands on the way here, and there is one thing only that can.
      have hmade : a.contents moves = some content := by
        rw [hcontents]
        exact Effect.apply_of_fixed hfixed _
      have hmade' : b.contents moves = some content' := by
        rw [hother]
        exact Effect.apply_of_fixed hfixed' _
      rw [(ha.sameKind hb hmade hmade').eq_of_isInner hinner]

end Node

namespace SchemaNode

def movesPast (child : SchemaNode) (elem : PathElem) (below : List Move) : List Move :=
  match child with
  | .list _ _ _ => if elem.keys = [] then [] else .entry elem.keys :: below
  | _ => below

def movesTo : SchemaNode → List PathElem → List Move
  | _, [] => []
  | schema, elem :: rest =>
    match schema.child? elem.name with
    | none => []
    | some child => .child elem.name :: child.movesPast elem (child.movesTo rest)

/-- A path stands at or above another one: it is a beginning of it, or it names a whole list and
the other one names something in an entry. -/
def AtOrAbove (schema : SchemaNode) (path other : List PathElem) : Prop :=
  path <+: other ∨ Path.covers path other = true ∧
    ∃ keys max children, schema.descend path = some (.list keys max children)

variable {schema child place : SchemaNode} {elem : PathElem} {path other rest : List PathElem}

/-- A path covers what it stands above. -/
theorem AtOrAbove.covers (h : schema.AtOrAbove path other) : Path.covers path other = true := by
  rcases h with ⟨rest, rfl⟩ | ⟨hcovers, -⟩
  · cases List.eq_nil_or_concat path with
    | inl hnil =>
      rw [hnil]
      rfl
    | inr hlast =>
      obtain ⟨parents, last, rfl⟩ := hlast
      rw [List.concat_eq_append, Path.covers_append_singleton]
      simp [Path.covers]
  · exact hcovers

theorem AtOrAbove.step (h : child.AtOrAbove path other)
    (hchild : schema.child? elem.name = some child) :
    schema.AtOrAbove (elem :: path) (elem :: other) := by
  cases path with
  | nil => exact Or.inl ((List.prefix_cons_inj elem).mpr List.nil_prefix)
  | cons next more =>
    rcases h with hleads | ⟨hcovers, keys, max, children, hlist⟩
    · exact Or.inl ((List.prefix_cons_inj elem).mpr hleads)
    · refine Or.inr ⟨?_, keys, max, children, ?_⟩
      · simpa [Path.covers] using hcovers
      · rw [descend, hchild]
        exact hlist

theorem movesTo_cons (hchild : schema.child? elem.name = some child) (rest : List PathElem) :
    schema.movesTo (elem :: rest) =
      .child elem.name :: child.movesPast elem (child.movesTo rest) := by
  rw [movesTo, hchild]

/-- Of accepted paths, what leads to one leads on to the other only if the one stands at or above
the other. -/
theorem atOrAbove_of_prefix {full full' : Path} {depth depth' : Nat} {target target' : SchemaNode}
    (hpath : locateFrom full schema depth path = .ok target)
    (hother : locateFrom full' schema depth' other = .ok target')
    (h : schema.movesTo path <+: schema.movesTo other) : schema.AtOrAbove path other := by
  induction path generalizing schema other depth depth' with
  | nil => exact Or.inl List.nil_prefix
  | cons elem rest ih =>
    obtain ⟨child, hchild, hpassable, hrest⟩ := locateFrom_cons_eq_ok.mp hpath
    have hpassable := (requirePassable_eq_ok full depth).mp hpassable
    rw [movesTo_cons hchild] at h
    cases other with
    | nil => exact absurd (List.prefix_nil.mp h) (List.cons_ne_nil _ _)
    | cons elem' rest' =>
      obtain ⟨child', hchild', hpassable', hrest'⟩ := locateFrom_cons_eq_ok.mp hother
      have hpassable' := (requirePassable_eq_ok full' depth').mp hpassable'
      rw [movesTo_cons hchild'] at h
      obtain ⟨hmove, hbelow⟩ := List.cons_prefix_cons.mp h
      have hname : elem.name = elem'.name := Move.child.inj hmove
      have hsame : child = child' := by
        rw [hname, hchild'] at hchild
        exact (Option.some.inj hchild).symm
      subst hsame
      obtain ⟨name, keys⟩ := elem
      obtain ⟨name', keys'⟩ := elem'
      simp only at hname
      subst hname
      cases child with
      | leaf leafSchema =>
        cases rest with
        | cons next more => cases hpassable
        | nil =>
          have hkeys : keys = [] := passable_leaf.mp hpassable
          cases rest' with
          | cons next' more' => cases hpassable'
          | nil =>
            have hkeys' : keys' = [] := passable_leaf.mp hpassable'
            rw [hkeys, hkeys']
            exact Or.inl List.prefix_rfl
      | container schemas =>
        have hkeys : keys = [] := passable_container.mp hpassable
        have hkeys' : keys' = [] := passable_container.mp hpassable'
        rw [hkeys, hkeys']
        exact (ih hrest hrest' hbelow).step hchild
      | list names max schemas =>
        by_cases hkeys : keys = []
        · cases rest with
          | cons next more => exact absurd hkeys (keys_ne_nil_of_passable hpassable)
          | nil =>
            refine Or.inr ⟨?_, names, max, schemas, ?_⟩
            · simp [Path.covers, hkeys]
            · rw [descend, hchild]
              rfl
        · simp only [movesPast, if_neg hkeys] at hbelow
          by_cases hkeys' : keys' = []
          · rw [if_pos hkeys'] at hbelow
            exact absurd (List.prefix_nil.mp hbelow) (List.cons_ne_nil _ _)
          · rw [if_neg hkeys'] at hbelow
            obtain ⟨hentry, hbelow⟩ := List.cons_prefix_cons.mp hbelow
            rw [← Move.entry.inj hentry]
            exact (ih hrest hrest' hbelow).step hchild

/-- Whether a path is accepted does not depend on what messages name. -/
theorem locateFrom_congr {full : Path} {depth : Nat} {target : SchemaNode}
    (h : locateFrom full schema depth path = .ok target) (full' : Path) (depth' : Nat) :
    locateFrom full' schema depth' path = .ok target := by
  induction path generalizing schema depth depth' with
  | nil => exact h
  | cons elem rest ih =>
    obtain ⟨child, hchild, hpassable, hrest⟩ := locateFrom_cons_eq_ok.mp h
    refine locateFrom_cons_eq_ok.mpr ⟨child, hchild, ?_, ih hrest (depth' + 1)⟩
    exact (requirePassable_eq_ok full' depth').mpr ((requirePassable_eq_ok full depth).mp hpassable)

/-- What is accepted at a place is accepted at the end of a path to it. -/
theorem Passes.locateFrom_append {elems : List PathElem} (h : Passes schema elems place)
    {full : Path} {depth : Nat} {target : SchemaNode}
    (hrest : locateFrom full place depth rest = .ok target) (full' : Path) (depth' : Nat) :
    locateFrom full' schema depth' (elems ++ rest) = .ok target := by
  induction h generalizing depth' with
  | here => exact locateFrom_congr hrest full' depth'
  | step hchild hpassable hbelow ih =>
    rw [List.cons_append]
    refine locateFrom_cons_eq_ok.mpr ⟨_, hchild, ?_, ih hrest (depth' + 1)⟩
    exact (requirePassable_eq_ok full' depth').mpr (passable_of_passable hpassable _)

/-- The moves of a longer path lead along the way of its beginning. -/
theorem movesTo_append {elems : List PathElem} (h : Passes schema elems place)
    (rest : List PathElem) :
    schema.movesTo (elems ++ rest) = (schema.wayTo elems).moves ++ place.movesTo rest := by
  induction h with
  | here => rfl
  | @step schema child place elem more hchild hpassable hbelow ih =>
    rw [List.cons_append, movesTo_cons hchild, ih, wayTo_cons hchild, Way.moves_append]
    cases child with
    | leaf leafSchema => cases hpassable
    | container schemas => rfl
    | list keys max schemas =>
      have hkeys := keys_ne_nil_of_passable hpassable
      simp only [movesPast, if_neg hkeys]
      rfl

theorem isInner_of_mem_wayTo {elems : List PathElem} {step : Move × Content}
    (h : step ∈ schema.wayTo elems) : step.2.IsInner := by
  obtain ⟨edge, -, hstep⟩ := List.mem_flatMap.mp h
  cases edge with
  | child name =>
    rw [List.mem_singleton.mp hstep]
    trivial
  | entry name keys =>
    simp only [Step.way, List.mem_cons, List.not_mem_nil, or_false] at hstep
    rcases hstep with rfl | rfl <;> trivial

/-- A delete takes place at and below what its path names. -/
theorem touches_clearing (schema : SchemaNode) (path : List PathElem) (ends : List (List Move)) :
    (schema.clearing path).Touches [schema.movesTo path] ends := by
  have hbelow : (schema.clearing path).Touches [schema.movesTo path] [] := by
    induction path generalizing schema with
    | nil => exact Effect.touches_here _ _
    | cons elem rest ih =>
      cases hchild : schema.child? elem.name with
      | none =>
        rw [clearing, hchild]
        exact Effect.touches_keep _ _
      | some child =>
        rw [movesTo_cons hchild, clearing, hchild]
        cases child with
        | leaf leafSchema => exact (ih _).under (.child elem.name)
        | container schemas => exact (ih _).under (.child elem.name)
        | list keys max schemas =>
          by_cases hkeys : elem.keys = []
          · simp only [movesPast, if_pos hkeys]
            exact (Effect.touches_here .clear []).under (.child elem.name)
          · simp only [movesPast, if_neg hkeys]
            exact ((ih _).under (.entry elem.keys)).under (.child elem.name)
  exact hbelow.mono (List.Subset.refl _) (List.nil_subset ends)

theorem touches_erasing (schema : SchemaNode) (path : List PathElem) (ends : List (List Move)) :
    (schema.erasing path).Touches [schema.movesTo path] ends := by
  cases path with
  | nil => exact Effect.touches_here _ _
  | cons elem rest =>
    rw [erasing_eq_clearing schema (List.cons_ne_nil elem rest)]
    exact touches_clearing schema (elem :: rest) ends

end SchemaNode

/-- What is done along a path takes place at and below what the path names, or makes the way
there. -/
theorem Ending.touches_along? (ending : Ending) {schema : SchemaNode} {entry : Option Keys}
    {path : List PathElem} {effect : Effect}
    (h : ending.along? schema entry path = some effect) :
    effect.Touches [schema.movesTo path] [schema.movesTo path] := by
  induction path generalizing schema entry effect with
  | nil => exact Effect.touches_here _ _
  | cons elem rest ih =>
    obtain ⟨child, hchild, h⟩ := Option.bind_eq_some_iff.mp h
    rw [SchemaNode.movesTo_cons hchild]
    split at h
    · rename_i hpassable
      cases child with
      | leaf leafSchema =>
        obtain ⟨inner, -, rfl⟩ := Option.map_eq_some_iff.mp h
        cases rest with
        | cons next more => cases hpassable
        | nil => exact (Effect.touches_here inner [[]]).under (.child elem.name)
      | container schemas =>
        obtain ⟨inner, hinner, rfl⟩ := Option.map_eq_some_iff.mp h
        exact (ih hinner).into (List.cons_ne_nil _ _) (.child elem.name) trivial
      | list keys max schemas =>
        by_cases hkeys : elem.keys = []
        · simp only [Ending.atChild?, if_pos hkeys] at h
          obtain ⟨inner, -, rfl⟩ := Option.map_eq_some_iff.mp h
          simp only [SchemaNode.movesPast, if_pos hkeys]
          exact (Effect.touches_here inner [[]]).into (List.cons_ne_nil _ _) (.child elem.name)
            trivial
        · simp only [Ending.atChild?, if_neg hkeys] at h
          obtain ⟨inner, hinner, rfl⟩ := Option.map_eq_some_iff.mp h
          simp only [SchemaNode.movesPast, if_neg hkeys]
          have hentry : (Effect.into (.entry elem.keys) .container inner).Touches _ _ :=
            (ih hinner).into (List.cons_ne_nil _ _) (.entry elem.keys) trivial
          exact hentry.into (List.cons_ne_nil _ _) (.child elem.name) trivial
    · cases h

namespace Node

open SchemaNode (Passes)

/-- A delete that goes through does nothing if its path is not accepted: there is nothing in the
tree where it would have to be looked at. -/
theorem apply_clearing_of_not_located {schema : SchemaNode} {node : Node} {path : List PathElem}
    (hplace : IsPlace schema node) (herasable : Erasable schema node path) {full : Path}
    {depth : Nat} (h : ∀ target, SchemaNode.locateFrom full schema depth path ≠ .ok target) :
    (schema.clearing path).apply node.contents = node.contents := by
  induction path generalizing schema node depth with
  | nil => exact absurd rfl (h schema)
  | cons elem rest ih =>
    obtain ⟨child, hchild, hpassable, hbelow⟩ := herasable
    have hrequire := (SchemaNode.requirePassable_eq_ok full depth).mpr hpassable
    have hrest : ∀ target, SchemaNode.locateFrom full child (depth + 1) rest ≠ .ok target := by
      intro target htarget
      exact h target (SchemaNode.locateFrom_cons_eq_ok.mpr ⟨child, hchild, hrequire, htarget⟩)
    have hpasses : child.passable elem false = true := by
      cases rest with
      | nil => exact absurd rfl (hrest child)
      | cons next more => exact hpassable
    have hstep := Passes.stepInto hchild hpasses full depth
    have hleads := Passes.leads hchild hpasses
    rw [SchemaNode.clearing_step hstep]
    cases hnext : node.next? elem with
    | none => exact apply_underAll_of_absent hplace hleads hnext (SchemaNode.clears_clearing _ _)
    | some sub =>
      have hsub : node.contents.belowAll (Step.ofElem child elem).way.moves = sub.contents := by
        rw [belowAll_contents hplace hleads, hnext]
        rfl
      have hkeep : (Effect.underAll (Step.ofElem child elem).way.moves (child.clearing rest)).apply
          node.contents =
          (Effect.underAll (Step.ofElem child elem).way.moves .keep).apply node.contents := by
        refine Effect.apply_underAll_congr ?_
        rw [hsub, Effect.apply_keep]
        exact ih (isPlace_next hplace hleads hnext) (hbelow sub hnext) hrest
      rw [hkeep, Effect.underAll_keep, Effect.apply_keep]

end Node

end Telemetry
