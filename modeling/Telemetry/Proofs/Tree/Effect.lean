import Telemetry.Proofs.Tree.Contents

/-!
Effects of edits that do not look at what is there: they fix what stands at some places and leave
the others alone. Effects done one after the other are an effect, and doing an effect twice is
doing it once. An effect below a node that is made if it is missing fixes the kind of that node.
-/

namespace Telemetry

/-- What an edit fixes; nothing where it leaves alone what stands there. -/
abbrev Effect := List Move → Option (Option Content)

namespace Effect

def keep : Effect := fun _ => none

def clear : Effect := fun _ => some none

def const (node : Node) : Effect := fun moves => some (node.contents moves)

def here (content : Content) : Effect := fun moves =>
  if moves = [] then some (some content) else none

def under (move : Move) (e : Effect) : Effect
  | [] => none
  | other :: rest => if other = move then e rest else none

def underAll (moves : List Move) (e : Effect) : Effect := moves.foldr under e

def andThen (first second : Effect) : Effect := fun moves => (second moves).or (first moves)

/-- An effect below a node that is made of a kind where it is missing. -/
def into (move : Move) (content : Content) (e : Effect) : Effect :=
  under move ((here content).andThen e)

def apply (e : Effect) (c : Contents) : Contents := fun moves => (e moves).getD (c moves)

variable {e f : Effect} {c : Contents} {move : Move}

theorem apply_keep (c : Contents) : keep.apply c = c := rfl

theorem apply_andThen (first second : Effect) (c : Contents) :
    (first.andThen second).apply c = second.apply (first.apply c) := by
  funext moves
  show ((second moves).or (first moves)).getD (c moves) =
    (second moves).getD ((first moves).getD (c moves))
  cases second moves <;> rfl

theorem apply_congr_nil {e : Effect} (h : e [] = none) (c : Contents) : e.apply c [] = c [] := by
  unfold apply
  rw [h]
  rfl

/-- What is fixed is fixed: an effect done twice is done once. -/
theorem apply_apply (e : Effect) (c : Contents) : e.apply (e.apply c) = e.apply c := by
  funext moves
  unfold apply
  cases e moves <;> rfl

/-- Edits that leave a place itself alone leave it alone in a row. -/
theorem andThen_here_eq_none {first second : Effect} (hfirst : first [] = none)
    (hsecond : second [] = none) : first.andThen second [] = none := by
  rw [andThen, hsecond, hfirst]
  rfl

theorem andThen_assoc (first second third : Effect) :
    (first.andThen second).andThen third = first.andThen (second.andThen third) := by
  funext moves
  exact Option.or_assoc.symm

theorem keep_andThen (e : Effect) : keep.andThen e = e := by
  funext moves
  exact Option.or_none

theorem andThen_keep (e : Effect) : e.andThen keep = e := rfl

theorem apply_here (content : Content) (h : c [] = some content) : (here content).apply c = c := by
  funext moves
  cases moves with
  | nil => exact h.symm
  | cons move rest => rfl

theorem under_keep (move : Move) : under move keep = keep := by
  funext moves
  cases moves with
  | nil => rfl
  | cons other rest => simp [under, keep]

theorem under_andThen (move : Move) (first second : Effect) :
    under move (first.andThen second) = (under move first).andThen (under move second) := by
  funext moves
  cases moves with
  | nil => rfl
  | cons other rest =>
    by_cases h : other = move
    · simp [under, andThen, h]
    · simp [under, andThen, h]

theorem apply_under_nil (move : Move) (e : Effect) (c : Contents) :
    (under move e).apply c [] = c [] := rfl

theorem apply_under_self (move : Move) (e : Effect) (c : Contents) (rest : List Move) :
    (under move e).apply c (move :: rest) = e.apply (c.below move) rest := by
  simp [apply, under, Contents.below]

theorem apply_under_of_ne {other : Move} (h : other ≠ move) (e : Effect) (c : Contents)
    (rest : List Move) : (under move e).apply c (other :: rest) = c (other :: rest) := by
  simp [apply, under, h]

theorem below_apply_under (move : Move) (e : Effect) (c : Contents) :
    ((under move e).apply c).below move = e.apply (c.below move) := by
  funext rest
  exact apply_under_self move e c rest

/-- What an effect one move below does depends on the part there. -/
theorem apply_under_congr (h : e.apply (c.below move) = f.apply (c.below move)) :
    (under move e).apply c = (under move f).apply c := by
  funext moves
  cases moves with
  | nil => rfl
  | cons other rest =>
    by_cases hmove : other = move
    · subst hmove
      rw [apply_under_self, apply_under_self, h]
    · rw [apply_under_of_ne hmove, apply_under_of_ne hmove]

theorem underAll_keep (moves : List Move) : underAll moves keep = keep := by
  induction moves with
  | nil => rfl
  | cons move rest ih =>
    show under move (underAll rest keep) = keep
    rw [ih, under_keep]

/-- What an effect makes of more has all of what it makes of less. -/
theorem apply_within {c d : Contents} (h : c.Within d) (e : Effect) :
    (e.apply c).Within (e.apply d) := by
  intro moves content hcontent
  unfold apply at hcontent ⊢
  cases hfixed : e moves with
  | none =>
    rw [hfixed] at hcontent
    exact h moves content hcontent
  | some fixed =>
    rw [hfixed] at hcontent
    exact hcontent

theorem belowAll_apply_underAll (moves : List Move) (e : Effect) (c : Contents) :
    ((underAll moves e).apply c).belowAll moves = e.apply (c.belowAll moves) := by
  induction moves generalizing c with
  | nil => rfl
  | cons move rest ih =>
    show (((under move (underAll rest e)).apply c).below move).belowAll rest = _
    rw [below_apply_under, ih]
    rfl

theorem apply_underAll_congr {moves : List Move}
    (h : e.apply (c.belowAll moves) = f.apply (c.belowAll moves)) :
    (underAll moves e).apply c = (underAll moves f).apply c := by
  induction moves generalizing c with
  | nil => exact h
  | cons move rest ih => exact apply_under_congr (ih (c := c.below move) h)

def Adds (e : Effect) (c : Contents) : Prop := c.Within (e.apply c)

namespace Adds

theorem keep (c : Contents) : Adds .keep c := by
  intro moves content h
  exact h

theorem of_nothing (e : Effect) (h : c = fun _ => none) : Adds e c := by
  intro moves content hcontent
  rw [h] at hcontent
  cases hcontent

theorem andThen (he : Adds e c) (hf : Adds f c) : Adds (e.andThen f) c := by
  intro moves content hcontent
  rw [apply_andThen]
  have hfirst := he moves content hcontent
  have hsecond := hf moves content hcontent
  unfold apply at hfirst hsecond ⊢
  cases hfixed : f moves with
  | none => exact hfirst
  | some fixed =>
    rw [hfixed] at hsecond
    exact hsecond

theorem here {content : Content} (h : c [] = some content) : Adds (.here content) c := by
  unfold Adds
  rw [apply_here content h]
  intro moves found hfound
  exact hfound

theorem under (h : Adds e (c.below move)) : Adds (.under move e) c := by
  intro moves content hcontent
  cases moves with
  | nil => exact hcontent
  | cons other rest =>
    by_cases hmove : other = move
    · subst hmove
      rw [apply_under_self]
      exact h rest content hcontent
    · rw [apply_under_of_ne hmove]
      exact hcontent

end Adds

end Effect

/-- Moves with the kinds of the nodes that they lead to. -/
abbrev Way := List (Move × Content)

def Way.moves (way : Way) : List Move := way.map (·.1)

namespace Effect

/-- An effect at the end of a way, each node on the way being made if it is missing. -/
def intoAll (way : Way) (e : Effect) : Effect :=
  way.foldr (fun step e => into step.1 step.2 e) e

def emptying : Effect := fun moves => if moves = [] then none else some none

variable {e : Effect}

theorem intoAll_nil_of (way : Way) (h : e [] = none) : intoAll way e [] = none := by
  cases way with
  | nil => exact h
  | cons step rest => rfl

private theorem andThen_here (h : e [] = none) (content : Content) :
    e.andThen (here content) = (here content).andThen e := by
  funext moves
  cases moves with
  | nil => simp [andThen, here, h]
  | cons move rest => simp [andThen, here]

private theorem here_absorb (h : e [] = none) (content : Content) (f : Effect) :
    (here content).andThen (e.andThen ((here content).andThen f)) =
      (here content).andThen (e.andThen f) := by
  rw [← andThen_assoc e, andThen_here h]
  funext moves
  cases moves with
  | nil => simp [andThen, here, h]
  | cons move rest => simp [andThen, here]

private theorem intoAll_cons (step : Move × Content) (rest : Way) (e : Effect) :
    intoAll (step :: rest) e = under step.1 ((here step.2).andThen (intoAll rest e)) := rfl

private theorem underAll_moves_cons (step : Move × Content) (rest : Way) (e : Effect) :
    underAll (Way.moves (step :: rest)) e = under step.1 (underAll rest.moves e) := rfl

/-- A way that is made twice is made once. -/
theorem made_andThen_intoAll (way : Way) (e : Effect) :
    (intoAll way keep).andThen (intoAll way e) = intoAll way e := by
  induction way with
  | nil => exact keep_andThen e
  | cons step rest ih =>
    rw [intoAll_cons, intoAll_cons, ← under_andThen, andThen_assoc,
      here_absorb (intoAll_nil_of rest rfl), ih]

theorem intoAll_andThen (way : Way) (h : e [] = none) (f : Effect) :
    intoAll way (e.andThen f) = (intoAll way e).andThen (intoAll way f) := by
  induction way with
  | nil => rfl
  | cons step rest ih =>
    rw [intoAll_cons, intoAll_cons, intoAll_cons, ← under_andThen, andThen_assoc,
      here_absorb (intoAll_nil_of rest h), ih]

/-- The way may be made first. -/
theorem made_andThen_underAll (way : Way) (e : Effect) :
    (intoAll way keep).andThen (underAll way.moves e) = intoAll way e := by
  induction way with
  | nil => exact keep_andThen e
  | cons step rest ih =>
    rw [intoAll_cons, intoAll_cons, underAll_moves_cons, ← under_andThen, andThen_assoc, ih]

/-- Or it may be made last. -/
theorem underAll_andThen_made (way : Way) (h : e [] = none) :
    (underAll way.moves e).andThen (intoAll way keep) = intoAll way e := by
  induction way with
  | nil => rfl
  | cons step rest ih =>
    have hnil : underAll (Way.moves rest) e [] = none := by
      cases rest with
      | nil => exact h
      | cons next more => rfl
    rw [intoAll_cons, intoAll_cons, underAll_moves_cons, ← under_andThen, ← andThen_assoc,
      andThen_here hnil, andThen_assoc, ih]

/-- A node that is taken away and then made is emptied. -/
theorem cleared_andThen_made {way : Way} (hway : way ≠ []) :
    (underAll way.moves clear).andThen (intoAll way keep) = intoAll way emptying := by
  induction way with
  | nil => exact absurd rfl hway
  | cons step rest ih =>
    rw [intoAll_cons, intoAll_cons, underAll_moves_cons, ← under_andThen]
    refine congrArg (under step.1) ?_
    cases rest with
    | nil =>
      funext moves
      cases moves with
      | nil => rfl
      | cons move more => rfl
    | cons next more =>
      rw [← andThen_assoc, andThen_here rfl, andThen_assoc, ih (by simp)]

/-- What an effect makes of the end of a way. -/
theorem belowAll_apply_intoAll (way : Way) (e : Effect) (c : Contents) :
    ((intoAll way e).apply c).belowAll way.moves =
      e.apply (((intoAll way keep).apply c).belowAll way.moves) := by
  rw [← made_andThen_underAll, apply_andThen, belowAll_apply_underAll]

end Effect

namespace Node

section Changes

variable {node after : Node} {move : Move} {e : Effect}

/-- A node that changes one move below it only. -/
theorem contents_eq_apply_under (hcontent : after.content = node.content)
    (hother : ∀ other, other ≠ move → after.move? other = node.move? other)
    (h : after.contents.below move = e.apply (node.contents.below move)) :
    after.contents = (Effect.under move e).apply node.contents := by
  funext moves
  cases moves with
  | nil =>
    rw [Effect.apply_under_nil]
    exact congrArg some hcontent
  | cons other rest =>
    by_cases hmove : other = move
    · subst hmove
      rw [Effect.apply_under_self]
      exact congrFun h rest
    · rw [Effect.apply_under_of_ne hmove, contents, contents, hother other hmove]

variable {children : List (String × Node)} {name : String} {child : Node}
  {entries : List (Keys × Node)} {key : Keys} {entry : Node}

theorem contents_insert_child
    (h : child.contents = e.apply ((container children).contents.below (.child name))) :
    (container (SortedMap.insert children name child)).contents =
      (Effect.under (.child name) e).apply (container children).contents := by
  refine contents_eq_apply_under rfl ?_ ?_
  · intro other hother
    cases other with
    | entry keys => rfl
    | child otherName =>
      have hne : otherName ≠ name := fun hsame => hother (congrArg Move.child hsame)
      exact SortedMap.get?_insert_of_ne children child hne
  · rw [← h]
    funext rest
    show (SortedMap.get? (SortedMap.insert children name child) name).bind (contents · rest) = _
    rw [SortedMap.get?_insert_self]
    rfl

theorem contents_insert_entry
    (h : entry.contents = e.apply ((list entries).contents.below (.entry key))) :
    (list (SortedMap.insert entries key entry)).contents =
      (Effect.under (.entry key) e).apply (list entries).contents := by
  refine contents_eq_apply_under rfl ?_ ?_
  · intro other hother
    cases other with
    | child otherName => rfl
    | entry otherKey =>
      have hne : otherKey ≠ key := fun hsame => hother (congrArg Move.entry hsame)
      exact SortedMap.get?_insert_of_ne entries entry hne
  · rw [← h]
    funext rest
    show (SortedMap.get? (SortedMap.insert entries key entry) key).bind (contents · rest) = _
    rw [SortedMap.get?_insert_self]
    rfl

theorem contents_erase_child (children : List (String × Node)) (name : String) :
    (container (SortedMap.erase children name)).contents =
      (Effect.under (.child name) .clear).apply (container children).contents := by
  refine contents_eq_apply_under rfl ?_ ?_
  · intro other hother
    cases other with
    | entry keys => rfl
    | child otherName =>
      have hne : otherName ≠ name := fun hsame => hother (congrArg Move.child hsame)
      exact SortedMap.get?_erase_of_ne children hne
  · funext rest
    show (SortedMap.get? (SortedMap.erase children name) name).bind (contents · rest) = none
    rw [SortedMap.get?_erase_self]
    rfl

theorem contents_erase_entry (entries : List (Keys × Node)) (key : Keys) :
    (list (SortedMap.erase entries key)).contents =
      (Effect.under (.entry key) .clear).apply (list entries).contents := by
  refine contents_eq_apply_under rfl ?_ ?_
  · intro other hother
    cases other with
    | child otherName => rfl
    | entry otherKey =>
      have hne : otherKey ≠ key := fun hsame => hother (congrArg Move.entry hsame)
      exact SortedMap.get?_erase_of_ne entries hne
  · funext rest
    show (SortedMap.get? (SortedMap.erase entries key) key).bind (contents · rest) = none
    rw [SortedMap.get?_erase_self]
    rfl

/-- A node that is there, or an empty one of its kind. -/
theorem contents_getD {found : Option Node} {empty : Node}
    (hempty : ∀ move, empty.move? move = none)
    (hfound : ∀ node, found = some node → node.content = empty.content) :
    (found.getD empty).contents =
      (Effect.here empty.content).apply fun rest => found.bind (contents · rest) := by
  cases found with
  | some node =>
    have hcontent : node.contents [] = some empty.content := congrArg some (hfound node rfl)
    exact (Effect.apply_here empty.content hcontent).symm
  | none =>
    funext moves
    cases moves with
    | nil => rfl
    | cons move rest => rw [Option.getD_none, contents, hempty]; rfl

end Changes

section Into

variable {schema : SchemaNode} {children : List (String × Node)} {name : String} {sub : Node}
  {keys : List String} {max : Option UInt64} {schemas : List (String × SchemaNode)}
  {entries : List (Keys × Node)} {key : Keys} {e : Effect}

/-- What is put in place of a container, made from it or from an empty one. -/
theorem contents_insert_container (hplace : IsPlace schema (.container children))
    (hchild : schema.child? name = some (.container schemas))
    (h : sub.contents = e.apply ((SortedMap.get? children name).getD emptyContainer).contents) :
    (container (SortedMap.insert children name sub)).contents =
      (Effect.into (.child name) .container e).apply (container children).contents := by
  refine contents_insert_child ?_
  rw [h, Effect.apply_andThen, contents_getD move?_emptyContainer]
  · rfl
  · intro node hget
    obtain ⟨grandchildren, rfl⟩ := fits_container (hplace.child_fits hget hchild)
    rfl

/-- What is put in place of a list, made from it or from an empty one. -/
theorem contents_insert_list (hplace : IsPlace schema (.container children))
    (hchild : schema.child? name = some (.list keys max schemas))
    (h : sub.contents = e.apply ((SortedMap.get? children name).getD emptyList).contents) :
    (container (SortedMap.insert children name sub)).contents =
      (Effect.into (.child name) .list e).apply (container children).contents := by
  refine contents_insert_child ?_
  rw [h, Effect.apply_andThen, contents_getD move?_emptyList]
  · rfl
  · intro node hget
    obtain ⟨found, rfl, -⟩ := select?_of_fits_list (hplace.child_fits hget hchild)
    rfl

/-- What is put in place of an entry, made from it or from an empty one. -/
theorem contents_insert_into (hfits : Fits (.list keys max schemas) (.list entries))
    (h : sub.contents = e.apply ((SortedMap.get? entries key).getD emptyContainer).contents) :
    (list (SortedMap.insert entries key sub)).contents =
      (Effect.into (.entry key) .container e).apply (list entries).contents := by
  refine contents_insert_entry ?_
  rw [h, Effect.apply_andThen, contents_getD move?_emptyContainer]
  · rfl
  · intro node hget
    obtain ⟨_, hsame, -, hentries⟩ := select?_of_fits_list hfits
    cases hsame
    obtain ⟨grandchildren, rfl⟩ := fits_container (hentries key node hget)
    rfl

end Into

end Node

end Telemetry
