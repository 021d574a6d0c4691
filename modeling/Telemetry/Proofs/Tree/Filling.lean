import Telemetry.Proofs.Tree.Contents
import Telemetry.Proofs.Tree.Defaults

/-!
What filling in defaults does to a tree whose nodes have the kinds of their schema nodes. Where the
schema has passed its check every default converts, so filling in goes through. A tree gets a leaf
for each default that is missing from a container that is there, and nothing else; hence there is
nothing left to fill in.
-/

namespace Telemetry

namespace SchemaNode

/-- Each default converts to a value of the type of its leaf, wherever that stands. -/
def DefaultsConvert (schema : SchemaNode) : Prop :=
  ∀ elems leafSchema default, schema.descend elems = some (.leaf leafSchema) →
    leafSchema.default = some default →
      ∃ value, ∀ place, LeafValue.ofJson leafSchema.type default place = .ok value

theorem DefaultsConvert.child {schema child : SchemaNode} (h : schema.DefaultsConvert)
    {name : String} (hchild : schema.child? name = some child) : child.DefaultsConvert :=
  fun elems leafSchema default hdescend =>
    h _ leafSchema default ((descend_plain hchild elems).trans hdescend)

end SchemaNode

theorem LeafValue.ofJson_of_ok {type : LeafType} {json : Json} {place : String} {value : LeafValue}
    (h : ofJson type json place = .ok value) (other : String) :
    ofJson type json other = .ok value := by
  rw [← toOption_eq_some, toOption_ofJson] at h ⊢
  exact h

theorem LeafSchema.ofJson_of_check {leaf : LeafSchema} {place : String} {default : Json}
    (h : leaf.check place = .ok ()) (hdefault : leaf.default = some default) :
    ∃ value, LeafValue.ofJson leaf.type default place = .ok value := by
  unfold check at h
  split at h
  · cases h
  · split at h
    · cases h
    · rw [hdefault] at h
      simp only at h
      split at h
      · rename_i value hvalue
        exact ⟨value, hvalue⟩
      · cases h

namespace SchemaNode

def move? : SchemaNode → Move → Option SchemaNode
  | .container schemas, .child name => SortedMap.get? schemas name
  | .list _ _ schemas, .entry _ => some (.container schemas)
  | _, _ => none

/-- The check of schemas lets no default pass that does not convert. -/
theorem defaultsConvert_of_check {schema : SchemaNode} {place : String}
    (h : schema.check place = .ok ()) : schema.DefaultsConvert := by
  intro elems leafSchema default hdescend hdefault
  obtain ⟨leafPlace, hleaf⟩ := check_of_descend h hdescend
  obtain ⟨value, hvalue⟩ := LeafSchema.ofJson_of_check hleaf hdefault
  exact ⟨value, LeafValue.ofJson_of_ok hvalue⟩

end SchemaNode

namespace Node

/-- Nodes have the kinds of their schema nodes, apart from what the schema does not know. -/
inductive Matches : SchemaNode → Node → Prop
  | leaf (schema : LeafSchema) (value : LeafValue) : Matches (.leaf schema) (.leaf value)
  | container {schemas : List (String × SchemaNode)} {children : List (String × Node)}
      (below : ∀ name child schema, SortedMap.get? children name = some child →
        SortedMap.get? schemas name = some schema → Matches schema child) :
      Matches (.container schemas) (.container children)
  | list {keys : List String} {max : Option UInt64} {schemas : List (String × SchemaNode)}
      {entries : List (Keys × Node)}
      (below : ∀ key entry, SortedMap.get? entries key = some entry →
        Matches (.container schemas) entry) : Matches (.list keys max schemas) (.list entries)

/-- A leaf with a default is missing from a container that is there, which may be a list entry. -/
inductive Missing : SchemaNode → Contents → List Move → LeafSchema → Json → Prop
  | here {schema : SchemaNode} {c : Contents} {name : String} {leafSchema : LeafSchema}
      {default : Json} (present : c [] = some .container) (absent : c [.child name] = none)
      (known : schema.move? (.child name) = some (.leaf leafSchema))
      (has : leafSchema.default = some default) :
      Missing schema c [.child name] leafSchema default
  | inside {schema child : SchemaNode} {c : Contents} {move : Move} {moves : List Move}
      {leafSchema : LeafSchema} {default : Json} (known : schema.move? move = some child)
      (rest : Missing child (c.below move) moves leafSchema default) :
      Missing schema c (move :: moves) leafSchema default

/-- A tree has all that was there, a leaf with its value for each default that was missing, and
nothing else. -/
structure FilledIn (schema : SchemaNode) (before after : Contents) : Prop where
  kept : before.Within after
  added : ∀ moves leafSchema default, Missing schema before moves leafSchema default →
    ∃ value, (∀ place, LeafValue.ofJson leafSchema.type default place = .ok value) ∧
      after moves = some (.leaf value)
  nothingElse : ∀ moves content, after moves = some content →
    before moves = some content ∨
      ∃ leafSchema default, Missing schema before moves leafSchema default

theorem not_missing_nothing {schema : SchemaNode} {moves : List Move} {leafSchema : LeafSchema}
    {default : Json} : ¬ Missing schema (fun _ => none) moves leafSchema default := by
  intro h
  generalize hc : (fun _ : List Move => (none : Option Content)) = c at h
  induction h with
  | here present absent known has =>
    subst hc
    cases present
  | inside known rest ih => exact ih (hc ▸ rfl)

theorem Missing.absent {schema : SchemaNode} {c : Contents} {moves : List Move}
    {leafSchema : LeafSchema} {default : Json} (h : Missing schema c moves leafSchema default) :
    c moves = none := by
  induction h with
  | here present absent known has => exact absent
  | inside known rest ih => exact ih

/-- What is missing after filling in was missing before. -/
theorem Missing.of_within {schema : SchemaNode} {before after : Contents} {moves : List Move}
    {leafSchema : LeafSchema} {default : Json} (h : Missing schema after moves leafSchema default)
    (hkept : before.Within after)
    (hcontainers : ∀ place, after place = some .container → before place = some .container) :
    Missing schema before moves leafSchema default := by
  induction h generalizing before with
  | @here schema c name leafSchema default present absent known has =>
    refine .here (hcontainers [] present) ?_ known has
    cases hbefore : before [.child name] with
    | none => rfl
    | some content =>
      rw [hkept _ _ hbefore] at absent
      cases absent
  | inside known rest ih =>
    exact .inside known (ih (fun rest => hkept _) fun place => hcontainers _)

/-- Nothing is missing once defaults are filled in. -/
theorem FilledIn.not_missing {schema : SchemaNode} {before after : Contents}
    (h : FilledIn schema before after) {moves : List Move} {leafSchema : LeafSchema}
    {default : Json} : ¬ Missing schema after moves leafSchema default := by
  intro hmissing
  have hcontainers : ∀ place, after place = some .container → before place = some .container := by
    intro place hafter
    rcases h.nothingElse place _ hafter with hbefore | ⟨_, _, hadded⟩
    · exact hbefore
    · obtain ⟨value, -, hvalue⟩ := h.added place _ _ hadded
      rw [hafter] at hvalue
      cases hvalue
  obtain ⟨value, -, hvalue⟩ := h.added moves _ _ (hmissing.of_within h.kept hcontainers)
  rw [hmissing.absent] at hvalue
  cases hvalue

theorem FilledIn.leaf (leafSchema : LeafSchema) (c : Contents) : FilledIn (.leaf leafSchema) c c :=
  ⟨fun _ _ h => h, nofun, fun _ _ h => Or.inl h⟩

/-- Trees in order with the same contents are equal. -/
theorem Ordered.eq_of_contents {node other : Node} (h : node.Ordered) (hother : other.Ordered)
    (hsame : node.contents = other.contents) : node = other := by
  have hcontent : node.content = other.content := Option.some.inj (congrFun hsame [])
  induction h generalizing other with
  | leaf value =>
    cases hother with
    | leaf found => exact congrArg Node.leaf (Content.leaf.inj hcontent)
    | container sorted below => cases hcontent
    | list sorted below => cases hcontent
  | container sorted below ih =>
    cases hother with
    | leaf found => cases hcontent
    | list sorted below => cases hcontent
    | container sorted' below' =>
      refine congrArg Node.container (SortedMap.ext_get? sorted sorted' ?_)
      intro name
      refine eq_of_bind_contents (fun rest => congrFun hsame (.child name :: rest)) ?_
      intro child found hchild hfound hcontents
      exact ih name child (SortedMap.mem_of_get?_eq_some hchild)
        (below' name found (SortedMap.mem_of_get?_eq_some hfound)) hcontents
        (Option.some.inj (congrFun hcontents []))
  | list sorted below ih =>
    cases hother with
    | leaf found => cases hcontent
    | container sorted below => cases hcontent
    | list sorted' below' =>
      refine congrArg Node.list (SortedMap.ext_get? sorted sorted' ?_)
      intro key
      refine eq_of_bind_contents (fun rest => congrFun hsame (.entry key :: rest)) ?_
      intro entry found hentry hfound hcontents
      exact ih key entry (SortedMap.mem_of_get?_eq_some hentry)
        (below' key found (SortedMap.mem_of_get?_eq_some hfound)) hcontents
        (Option.some.inj (congrFun hcontents []))

/-- A tree that defaults have been filled in is in order, has the kinds of its schema, and has got
what was missing. -/
structure Settled (schema : SchemaNode) (before after : Node) : Prop where
  ordered : after.Ordered
  kinds : Matches schema after
  filled : FilledIn schema before.contents after.contents

inductive FilledBelow : Option SchemaNode → Option Node → Option Node → Prop
  | unknown (node : Option Node) : FilledBelow none node node
  | present {schema : SchemaNode} {before after : Node} (settled : Settled schema before after) :
      FilledBelow (some schema) (some before) (some after)
  | default {leafSchema : LeafSchema} {default : Json} {value : LeafValue}
      (has : leafSchema.default = some default)
      (converts : ∀ place, LeafValue.ofJson leafSchema.type default place = .ok value) :
      FilledBelow (some (.leaf leafSchema)) none (some (.leaf value))
  | absent {schema : SchemaNode}
      (without : ∀ leafSchema, schema = .leaf leafSchema → leafSchema.default = none) :
      FilledBelow (some schema) none none

section Assembling

variable {schema : SchemaNode} {before after : Node} {known : Option SchemaNode}
  {found filled : Option Node}

theorem FilledBelow.exists_settled (h : FilledBelow (some schema) (some before) filled) :
    ∃ after, filled = some after ∧ Settled schema before after := by
  cases h with
  | present settled => exact ⟨_, rfl, settled⟩

theorem FilledBelow.kept (h : FilledBelow known (some before) filled) {moves : List Move}
    {content : Content} (hcontent : before.contents moves = some content) :
    filled.bind (contents · moves) = some content := by
  cases h with
  | unknown => exact hcontent
  | present settled => exact settled.filled.kept moves content hcontent

theorem FilledBelow.added {leafSchema : LeafSchema} {default : Json}
    (h : FilledBelow (some (.leaf leafSchema)) none filled)
    (hdefault : leafSchema.default = some default) :
    ∃ value, (∀ place, LeafValue.ofJson leafSchema.type default place = .ok value) ∧
      filled = some (.leaf value) := by
  cases h with
  | default has converts =>
    cases hdefault.symm.trans has
    exact ⟨_, converts, rfl⟩
  | absent without =>
    rw [without leafSchema rfl] at hdefault
    cases hdefault

theorem FilledBelow.ordered (h : FilledBelow known found (some after))
    (hfound : ∀ node, found = some node → node.Ordered) : after.Ordered := by
  cases h with
  | unknown => exact hfound after rfl
  | present settled => exact settled.ordered
  | default has converts => exact .leaf _

theorem FilledBelow.kinds (h : FilledBelow (some schema) found (some after)) :
    Matches schema after := by
  cases h with
  | present settled => exact settled.kinds
  | default has converts => exact .leaf _ _

theorem contents_cons (node : Node) (move : Move) (rest : List Move) :
    node.contents (move :: rest) = (node.move? move).bind (contents · rest) := rfl

/-- A node is filled in if what stands below it is, move by move. -/
theorem filledIn_of_moves (hkinds : Matches schema before)
    (hcontent : after.content = before.content)
    (hbelow : ∀ move, FilledBelow (schema.move? move) (before.move? move) (after.move? move)) :
    FilledIn schema before.contents after.contents := by
  refine ⟨?_, ?_, ?_⟩
  · rintro (_ | ⟨move, rest⟩) content hbefore
    · exact (congrArg some hcontent).trans hbefore
    · rw [contents_cons] at hbefore ⊢
      obtain ⟨child, hget, hcontent⟩ := Option.bind_eq_some_iff.mp hbefore
      have hmove := hbelow move
      rw [hget] at hmove
      exact hmove.kept hcontent
  · intro moves leafSchema default hmissing
    cases hmissing with
    | @here _ _ name _ _ present absent known has =>
      have hmove := hbelow (.child name)
      rw [contents_cons] at absent ⊢
      cases hget : before.move? (.child name) with
      | some child =>
        rw [hget] at absent
        cases absent
      | none =>
        rw [known, hget] at hmove
        obtain ⟨value, hvalue, hfilled⟩ := hmove.added has
        exact ⟨value, hvalue, by rw [hfilled]; rfl⟩
    | @inside _ child _ move rest _ _ known hrest =>
      have hmove := hbelow move
      rw [contents_cons]
      cases hget : before.move? move with
      | none =>
        rw [below_contents_of_none hget] at hrest
        exact absurd hrest not_missing_nothing
      | some old =>
        rw [below_contents hget] at hrest
        rw [known, hget] at hmove
        obtain ⟨new, hnew, settled⟩ := hmove.exists_settled
        rw [hnew]
        exact settled.filled.added rest leafSchema default hrest
  · rintro (_ | ⟨move, rest⟩) content hafter
    · exact Or.inl ((congrArg some hcontent).symm.trans hafter)
    · rw [contents_cons] at hafter ⊢
      obtain ⟨new, hget, hnew⟩ := Option.bind_eq_some_iff.mp hafter
      have hmove := hbelow move
      rw [hget] at hmove
      generalize hfound : before.move? move = found at hmove
      generalize hknown : schema.move? move = known at hmove
      cases hmove with
      | unknown => exact Or.inl hnew
      | present settled =>
        refine (settled.filled.nothingElse rest content hnew).imp_right ?_
        rintro ⟨leafSchema, default, hmissing⟩
        refine ⟨leafSchema, default, .inside hknown ?_⟩
        rw [below_contents hfound]
        exact hmissing
      | @default leafSchema default value has converts =>
        cases rest with
        | cons next more => cases next <;> cases hnew
        | nil =>
          have habsent : before.contents [move] = none := by rw [contents_cons, hfound]; rfl
          cases hkinds with
          | leaf => cases hknown
          | list below => cases move <;> cases hknown
          | container below =>
            cases move with
            | entry key => cases hknown
            | child name => exact Or.inr ⟨leafSchema, default, .here rfl habsent hknown has⟩

theorem settled_container {schemas : List (String × SchemaNode)}
    {children filled : List (String × Node)} (hordered : (container children).Ordered)
    (hkinds : Matches (.container schemas) (.container children))
    (hsorted : SortedMap.Sorted filled)
    (hbelow : ∀ name, FilledBelow (SortedMap.get? schemas name) (SortedMap.get? children name)
      (SortedMap.get? filled name)) :
    Settled (.container schemas) (.container children) (.container filled) := by
  refine ⟨.container hsorted ?_, .container ?_, filledIn_of_moves hkinds rfl ?_⟩
  · intro name child hmem
    have hchild := hbelow name
    rw [SortedMap.get?_eq_some_of_mem hsorted hmem] at hchild
    refine hchild.ordered ?_
    intro node hget
    cases hordered with
    | container sorted below => exact below name node (SortedMap.mem_of_get?_eq_some hget)
  · intro name child childSchema hget hschema
    have hchild := hbelow name
    rw [hget, hschema] at hchild
    exact hchild.kinds
  · rintro (name | key)
    · exact hbelow name
    · exact .unknown none

theorem settled_list {keys : List String} {max : Option UInt64}
    {schemas : List (String × SchemaNode)} {entries filled : List (Keys × Node)}
    (hkinds : Matches (.list keys max schemas) (.list entries)) (hsorted : SortedMap.Sorted filled)
    (hbelow : ∀ key, Option.Rel (Settled (.container schemas)) (SortedMap.get? entries key)
      (SortedMap.get? filled key)) :
    Settled (.list keys max schemas) (.list entries) (.list filled) := by
  have hfilled : ∀ key, FilledBelow (some (.container schemas)) (SortedMap.get? entries key)
      (SortedMap.get? filled key) := by
    intro key
    have hentry := hbelow key
    generalize SortedMap.get? entries key = before at hentry ⊢
    generalize SortedMap.get? filled key = after at hentry ⊢
    cases hentry with
    | none => exact .absent nofun
    | some settled => exact .present settled
  refine ⟨.list hsorted ?_, .list ?_, filledIn_of_moves hkinds rfl ?_⟩
  · intro key entry hmem
    have hentry := hfilled key
    rw [SortedMap.get?_eq_some_of_mem hsorted hmem] at hentry
    generalize SortedMap.get? entries key = before at hentry
    cases hentry with
    | present settled => exact settled.ordered
  · intro key entry hget
    have hentry := hfilled key
    rw [hget] at hentry
    exact hentry.kinds
  · rintro (name | key)
    · exact .unknown none
    · exact hfilled key

end Assembling

end Node

end Telemetry
