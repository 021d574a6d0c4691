import Telemetry.Proofs.Tree.Edits

/-!
Trees as maps from places to what stands there, empty containers and lists included. Lists count
as nodes of their own, with their entries one move below them. In the shape of a schema a tree is
determined by this map.
-/

namespace Telemetry

/-- One move down a tree. -/
inductive Move where
  | child (name : String)
  | entry (keys : Keys)
deriving DecidableEq

inductive Content where
  | container
  | list
  | leaf (value : LeafValue)

/-- What stands where. -/
abbrev Contents := List Move → Option Content

namespace Node

def content : Node → Content
  | .container _ => .container
  | .list _ => .list
  | .leaf value => .leaf value

def move? : Node → Move → Option Node
  | .container children, .child name => SortedMap.get? children name
  | .list entries, .entry keys => SortedMap.get? entries keys
  | _, _ => none

theorem move?_emptyContainer (move : Move) : emptyContainer.move? move = none := by
  cases move <;> rfl

theorem move?_emptyList (move : Move) : emptyList.move? move = none := by
  cases move <;> rfl

def contents (node : Node) : Contents
  | [] => some node.content
  | move :: rest => (node.move? move).bind (contents · rest)

end Node

def Contents.below (c : Contents) (move : Move) : Contents := fun rest => c (move :: rest)

def Contents.Within (c d : Contents) : Prop :=
  ∀ moves content, c moves = some content → d moves = some content

def Contents.belowAll (c : Contents) (moves : List Move) : Contents := fun rest => c (moves ++ rest)

namespace Node

theorem below_contents {node child : Node} {move : Move} (h : node.move? move = some child) :
    node.contents.below move = child.contents := by
  funext rest
  show (node.move? move).bind (contents · rest) = child.contents rest
  rw [h]
  rfl

theorem below_contents_of_none {node : Node} {move : Move} (h : node.move? move = none) :
    node.contents.below move = fun _ => none := by
  funext rest
  show (node.move? move).bind (contents · rest) = none
  rw [h]
  rfl

/-- What stands one move below a node stands there in any that has all of it. -/
theorem exists_move?_of_within {node other child : Node} (move : Move)
    (h : node.contents.Within other.contents) (hchild : node.move? move = some child) :
    ∃ found, other.move? move = some found ∧ child.contents.Within found.contents := by
  have hbelow : ∀ rest, node.contents (move :: rest) = child.contents rest :=
    congrFun (below_contents hchild)
  have hfound : other.contents [move] = some child.content := h [move] child.content (hbelow [])
  obtain ⟨found, hmove, -⟩ := Option.bind_eq_some_iff.mp hfound
  refine ⟨found, hmove, ?_⟩
  intro rest content hcontent
  have hsame : other.contents (move :: rest) = found.contents rest :=
    congrFun (below_contents hmove) rest
  rw [← hsame]
  exact h (move :: rest) content ((hbelow rest).trans hcontent)

section Ext

theorem eq_of_bind_contents {x y : Option Node}
    (hsame : ∀ rest, x.bind (contents · rest) = y.bind (contents · rest))
    (h : ∀ a b, x = some a → y = some b → a.contents = b.contents → a = b) : x = y := by
  have hroot := hsame []
  cases x with
  | none =>
    cases y with
    | none => rfl
    | some b => cases hroot
  | some a =>
    cases y with
    | none => cases hroot
    | some b => rw [h a b rfl rfl (funext hsame)]

/-- Nodes of one shape with the same contents are equal. -/
theorem Fits.eq_of_contents {schema : SchemaNode} {node other : Node} (h : Fits schema node)
    (hother : Fits schema other) (hsame : node.contents = other.contents) : node = other := by
  induction h generalizing other with
  | leaf leafSchema value =>
    obtain ⟨found, rfl⟩ := fits_leaf hother
    have hvalue : some (Content.leaf value) = some (Content.leaf found) := congrFun hsame []
    exact congrArg Node.leaf (Content.leaf.inj (Option.some.inj hvalue))
  | @container schemas children sorted known fits ih =>
    obtain ⟨others, rfl⟩ := fits_container hother
    have hplace : IsPlace (.container schemas) (.container others) := hother
    refine congrArg Node.container (SortedMap.ext_get? sorted hplace.sorted ?_)
    intro name
    refine eq_of_bind_contents (fun rest => congrFun hsame (.child name :: rest)) ?_
    intro child found hchild hfound hcontents
    obtain ⟨childSchema, hschema⟩ := Option.isSome_iff_exists.mp (known name child hchild)
    exact ih name child childSchema hchild hschema
      (hplace.child_fits hfound hschema) hcontents
  | @list keys max schemas entries sorted fits ih =>
    obtain ⟨others, rfl, hsorted, hentries⟩ := select?_of_fits_list hother
    refine congrArg Node.list (SortedMap.ext_get? sorted hsorted ?_)
    intro key
    refine eq_of_bind_contents (fun rest => congrFun hsame (.entry key :: rest)) ?_
    intro entry found hentry hfound hcontents
    exact ih key entry hentry (hentries key found hfound) hcontents

end Ext

end Node

end Telemetry
