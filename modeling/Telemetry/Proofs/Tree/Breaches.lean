import Telemetry.Proofs.Tree.Conforms

/-!
What the check of a tree reports. A breach is one rule broken at one node, found by going down
through nodes of the kinds that their schema nodes have. The check reports each of them once, in
the order of the tree: a node before all below it, children and entries by their names and keys,
and of an entry its keys before its kind.
-/

namespace Telemetry

namespace LeafType

def complaint (type : LeafType) (value : LeafValue) (place : String) : Violation :=
  match type, value with
  | .string _ _, .string s => .lengthRange place s.length
  | .enumeration values, .string s => .notListed place s values
  | .int _ _, .int i => .intRange place i.toInt
  | .uint _ _, .uint u => .intRange place u.toNat
  | .double _ _, .double d => .doubleRange place d
  | type, _ => .wrongType place type.name

/-- A value is complained of once. -/
theorem violations_of_not_allows {type : LeafType} {value : LeafValue} (h : ¬ type.Allows value)
    (place : String) : type.violations value place = [type.complaint value place] := by
  have hsome : type.violations value place ≠ [] := fun hnone => h (violations_eq_nil_iff.mp hnone)
  cases type <;> cases value <;> simp only [violations, complaint] at hsome ⊢ <;>
    first
    | rfl
    | exact absurd rfl hsome
    | (split at hsome <;> simp_all)

end LeafType

def Move.before : Move → Move → Prop
  | .child name, .child other => compare name other = .lt
  | .entry keys, .entry other => compare keys other = .lt
  | _, _ => False

/-- A rule broken at a place, with the moves that lead there. -/
abbrev Breach := List Move × Violation

def Breach.before (a b : Breach) : Prop :=
  List.Lex Move.before a.1 b.1 ∨
    a.1 = b.1 ∧ ∃ path keys, a.2 = .entryKeys path keys ∧ b.2 = .entryKind path

theorem Move.before_irrefl (move : Move) : ¬ move.before move := by
  cases move <;> simp [Move.before, Std.ReflOrd.compare_self]

/-- No breach is reported before itself. -/
theorem Breach.before_irrefl (breach : Breach) : ¬ Breach.before breach breach := by
  have hlex : ∀ moves : List Move, ¬ List.Lex Move.before moves moves := by
    intro moves
    induction moves with
    | nil => nofun
    | cons move rest ih =>
      rintro (_ | hmove | hrest)
      · exact Move.before_irrefl move hmove
      · exact ih hrest
  rintro (h | ⟨-, path, keys, hkeys, hkind⟩)
  · exact hlex _ h
  · rw [hkeys] at hkind
    cases hkind

namespace Node

inductive KindOf : SchemaNode → Node → Prop
  | container (schemas : List (String × SchemaNode)) (children : List (String × Node)) :
      KindOf (.container schemas) (.container children)
  | list (keys : List String) (max : Option UInt64) (schemas : List (String × SchemaNode))
      (entries : List (Keys × Node)) : KindOf (.list keys max schemas) (.list entries)
  | leaf (schema : LeafSchema) (value : LeafValue) : KindOf (.leaf schema) (.leaf value)

def HasKeys (keys : List String) (key : Keys) : Prop :=
  key.length = keys.length ∧ ∀ name ∈ keys, (SortedMap.get? key name).isSome

/-- Some node at or below a node breaks a rule: where it stands and what is reported of it. -/
inductive Breaks : SchemaNode → Node → String → List Move → Violation → Prop
  | kind {schema : SchemaNode} {node : Node} {place : String} (other : ¬ KindOf schema node) :
      Breaks schema node place [] (.wrongKind (placeText place) schema.kind)
  | value {schema : LeafSchema} {value : LeafValue} {place : String}
      (refused : ¬ schema.type.Allows value) :
      Breaks (.leaf schema) (.leaf value) place [] (schema.type.complaint value place)
  | unknown {schemas : List (String × SchemaNode)} {children : List (String × Node)}
      {place name : String} {child : Node} (mem : (name, child) ∈ children)
      (unknown : SortedMap.get? schemas name = none) :
      Breaks (.container schemas) (.container children) place [.child name]
        (.unknownChild (place ++ "/" ++ name))
  | child {schemas : List (String × SchemaNode)} {children : List (String × Node)}
      {place name : String} {child : Node} {schema : SchemaNode} {moves : List Move}
      {violation : Violation} (mem : (name, child) ∈ children)
      (known : SortedMap.get? schemas name = some schema)
      (below : Breaks schema child (place ++ "/" ++ name) moves violation) :
      Breaks (.container schemas) (.container children) place (.child name :: moves) violation
  | size {keys : List String} {bound : UInt64} {schemas : List (String × SchemaNode)}
      {entries : List (Keys × Node)} {place : String} (long : bound.toNat < entries.length) :
      Breaks (.list keys (some bound) schemas) (.list entries) place []
        (.tooManyEntries (placeText place) entries.length bound)
  | keys {keys : List String} {max : Option UInt64} {schemas : List (String × SchemaNode)}
      {entries : List (Keys × Node)} {place : String} {key : Keys} {entry : Node}
      (mem : (key, entry) ∈ entries) (other : ¬ HasKeys keys key) :
      Breaks (.list keys max schemas) (.list entries) place [.entry key]
        (.entryKeys (place ++ keysText key) keys)
  | entryKind {keys : List String} {max : Option UInt64} {schemas : List (String × SchemaNode)}
      {entries : List (Keys × Node)} {place : String} {key : Keys} {entry : Node}
      (mem : (key, entry) ∈ entries) (other : ¬ KindOf (.container schemas) entry) :
      Breaks (.list keys max schemas) (.list entries) place [.entry key]
        (.entryKind (place ++ keysText key))
  | entry {keys : List String} {max : Option UInt64} {schemas : List (String × SchemaNode)}
      {entries : List (Keys × Node)} {place : String} {key : Keys} {entry : Node}
      {moves : List Move} {violation : Violation} (mem : (key, entry) ∈ entries)
      (kind : KindOf (.container schemas) entry)
      (below : Breaks (.container schemas) entry (place ++ keysText key) moves violation) :
      Breaks (.list keys max schemas) (.list entries) place (.entry key :: moves) violation

def Accounts (reported : List Violation) (breaks : List Move → Violation → Prop)
    (sorted : Prop) : Prop :=
  ∃ breaches : List Breach, reported = breaches.map (·.2) ∧
    (∀ moves violation, (moves, violation) ∈ breaches ↔ breaks moves violation) ∧
    (sorted → breaches.Pairwise Breach.before)

namespace Accounts

variable {reported further : List Violation} {breaks others : List Move → Violation → Prop}
  {sorted sorted' : Prop}

theorem congr (h : Accounts reported breaks sorted)
    (hbreaks : ∀ moves violation, breaks moves violation ↔ others moves violation)
    (hsorted : sorted' → sorted) : Accounts reported others sorted' := by
  obtain ⟨breaches, hreported, hmem, horder⟩ := h
  refine ⟨breaches, hreported, ?_, fun hs => horder (hsorted hs)⟩
  intro moves violation
  rw [hmem, hbreaks]

theorem nothing (h : ∀ moves violation, ¬ breaks moves violation) :
    Accounts [] breaks sorted := by
  refine ⟨[], rfl, ?_, fun _ => List.Pairwise.nil⟩
  intro moves violation
  simp [h]

theorem one (violation : Violation) :
    Accounts [violation] (fun moves v => moves = [] ∧ v = violation) sorted := by
  refine ⟨[([], violation)], rfl, ?_, fun _ => List.pairwise_singleton _ _⟩
  simp

/-- One rule that is broken unless something holds. -/
theorem unlessHolds (holds : Prop) [Decidable holds] (violation : Violation) :
    Accounts (if holds then [] else [violation])
      (fun moves v => moves = [] ∧ ¬ holds ∧ v = violation) sorted := by
  by_cases h : holds
  · rw [if_pos h]
    exact nothing fun moves v hbreaks => hbreaks.2.1 h
  · rw [if_neg h]
    refine (one violation).congr ?_ id
    simp [h]

/-- What comes first is reported first. -/
theorem append (h : Accounts reported breaks sorted) (hothers : Accounts further others sorted)
    (hcross : sorted → ∀ moves violation moves' violation', breaks moves violation →
      others moves' violation' → Breach.before (moves, violation) (moves', violation')) :
    Accounts (reported ++ further)
      (fun moves violation => breaks moves violation ∨ others moves violation) sorted := by
  obtain ⟨breaches, rfl, hmem, horder⟩ := h
  obtain ⟨breaches', rfl, hmem', horder'⟩ := hothers
  refine ⟨breaches ++ breaches', List.map_append.symm, ?_, ?_⟩
  · intro moves violation
    rw [List.mem_append, hmem, hmem']
  · intro hs
    refine List.pairwise_append.mpr ⟨horder hs, horder' hs, ?_⟩
    rintro ⟨moves, violation⟩ hfirst ⟨moves', violation'⟩ hsecond
    exact hcross hs _ _ _ _ ((hmem _ _).mp hfirst) ((hmem' _ _).mp hsecond)

/-- Seen from one move above. -/
theorem below (h : Accounts reported breaks sorted) (move : Move) :
    Accounts reported (fun moves violation => ∃ rest, moves = move :: rest ∧ breaks rest violation)
      sorted := by
  obtain ⟨breaches, rfl, hmem, horder⟩ := h
  refine ⟨breaches.map fun breach => (move :: breach.1, breach.2), by simp, ?_, ?_⟩
  · intro moves violation
    simp only [List.mem_map, Prod.mk.injEq, Prod.exists]
    constructor
    · rintro ⟨rest, v, hrest, rfl, rfl⟩
      exact ⟨rest, rfl, (hmem _ _).mp hrest⟩
    · rintro ⟨rest, rfl, hbreaks⟩
      exact ⟨rest, violation, (hmem _ _).mpr hbreaks, rfl, rfl⟩
  · intro hs
    refine List.pairwise_map.mpr ((horder hs).imp ?_)
    rintro a b (hlex | ⟨hsame, hparts⟩)
    · exact Or.inl (List.Lex.cons hlex)
    · exact Or.inr ⟨by rw [hsame], hparts⟩

end Accounts

section Ordered

variable {name : String} {child : Node} {children : List (String × Node)} {key : Keys}
  {entry : Node} {entries : List (Keys × Node)}

theorem ordered_container_cons (h : Ordered (.container ((name, child) :: children))) :
    child.Ordered ∧ Ordered (.container children) ∧
      ∀ other ∈ children, compare name other.1 = .lt := by
  obtain _ | ⟨sorted, below⟩ | _ := h
  obtain ⟨hfirst, hrest⟩ := List.pairwise_cons.mp sorted
  refine ⟨below name child List.mem_cons_self, ?_, hfirst⟩
  exact .container hrest fun other node hmem => below other node (List.mem_cons_of_mem _ hmem)

theorem ordered_list_cons (h : Ordered (.list ((key, entry) :: entries))) :
    entry.Ordered ∧ Ordered (.list entries) ∧
      ∀ other ∈ entries, compare key other.1 = .lt := by
  obtain _ | _ | ⟨sorted, below⟩ := h
  obtain ⟨hfirst, hrest⟩ := List.pairwise_cons.mp sorted
  refine ⟨below key entry List.mem_cons_self, ?_, hfirst⟩
  exact .list hrest fun other node hmem => below other node (List.mem_cons_of_mem _ hmem)

end Ordered

section Parts

variable {schema : SchemaNode} {schemas : List (String × SchemaNode)}
  {children : List (String × Node)} {keys : List String} {max : Option UInt64}
  {entries : List (Keys × Node)} {place : String} {moves : List Move} {violation : Violation}

def ChildBreaks (schemas : List (String × SchemaNode)) (name : String) (child : Node)
    (place : String) (moves : List Move) (violation : Violation) : Prop :=
  match SortedMap.get? schemas name with
  | none => moves = [] ∧ violation = .unknownChild place
  | some schema => Breaks schema child place moves violation

def EntryBreaks (keys : List String) (schemas : List (String × SchemaNode)) (key : Keys)
    (entry : Node) (place : String) (moves : List Move) (violation : Violation) : Prop :=
  (moves = [] ∧ ¬ HasKeys keys key ∧ violation = .entryKeys place keys) ∨
    (moves = [] ∧ ¬ KindOf (.container schemas) entry ∧ violation = .entryKind place) ∨
    (KindOf (.container schemas) entry ∧
      Breaks (.container schemas) entry place moves violation)

/-- A node of another kind than its schema node is not looked into. -/
theorem breaks_iff_of_not_kindOf {node : Node} (h : ¬ KindOf schema node) :
    Breaks schema node place moves violation ↔
      moves = [] ∧ violation = .wrongKind (placeText place) schema.kind := by
  constructor
  · intro hbreaks
    cases hbreaks with
    | kind other => exact ⟨rfl, rfl⟩
    | value => exact absurd (.leaf _ _) h
    | unknown => exact absurd (.container _ _) h
    | child => exact absurd (.container _ _) h
    | size => exact absurd (.list _ _ _ _) h
    | keys => exact absurd (.list _ _ _ _) h
    | entryKind => exact absurd (.list _ _ _ _) h
    | entry => exact absurd (.list _ _ _ _) h
  · rintro ⟨rfl, rfl⟩
    exact .kind h

theorem breaks_leaf_iff {leafSchema : LeafSchema} {value : LeafValue} :
    Breaks (.leaf leafSchema) (.leaf value) place moves violation ↔ moves = [] ∧
      ¬ leafSchema.type.Allows value ∧ violation = leafSchema.type.complaint value place := by
  constructor
  · intro h
    cases h with
    | kind other => exact absurd (.leaf leafSchema value) other
    | value refused => exact ⟨rfl, refused, rfl⟩
  · rintro ⟨rfl, refused, rfl⟩
    exact .value refused

theorem breaks_container_iff :
    Breaks (.container schemas) (.container children) place moves violation ↔
      ∃ entry ∈ children, ∃ rest, moves = .child entry.1 :: rest ∧
        ChildBreaks schemas entry.1 entry.2 (place ++ "/" ++ entry.1) rest violation := by
  constructor
  · intro h
    cases h with
    | kind other => exact absurd (.container schemas children) other
    | @unknown _ _ _ name child mem unknown =>
      exact ⟨_, mem, [], rfl, by simp [ChildBreaks, unknown]⟩
    | @child _ _ _ name child schema rest _ mem known below =>
      refine ⟨_, mem, rest, rfl, ?_⟩
      simp only [ChildBreaks, known]
      exact below
  · rintro ⟨⟨name, child⟩, mem, rest, rfl, h⟩
    cases known : SortedMap.get? schemas name with
    | none =>
      simp only [ChildBreaks, known] at h
      obtain ⟨rfl, rfl⟩ := h
      exact .unknown mem known
    | some schema =>
      simp only [ChildBreaks, known] at h
      exact .child mem known h

theorem breaks_list_iff :
    Breaks (.list keys max schemas) (.list entries) place moves violation ↔
      (moves = [] ∧ ∃ bound, max = some bound ∧ bound.toNat < entries.length ∧
        violation = .tooManyEntries (placeText place) entries.length bound) ∨
      ∃ entry ∈ entries, ∃ rest, moves = .entry entry.1 :: rest ∧
        EntryBreaks keys schemas entry.1 entry.2 (place ++ keysText entry.1) rest violation := by
  constructor
  · intro h
    cases h with
    | kind other => exact absurd (.list keys max schemas entries) other
    | size long => exact Or.inl ⟨rfl, _, rfl, long, rfl⟩
    | keys mem other => exact Or.inr ⟨_, mem, [], rfl, Or.inl ⟨rfl, other, rfl⟩⟩
    | entryKind mem other => exact Or.inr ⟨_, mem, [], rfl, Or.inr (Or.inl ⟨rfl, other, rfl⟩)⟩
    | entry mem kind below => exact Or.inr ⟨_, mem, _, rfl, Or.inr (Or.inr ⟨kind, below⟩)⟩
  · rintro (⟨rfl, bound, rfl, long, rfl⟩ | ⟨⟨key, entry⟩, mem, rest, rfl, h⟩)
    · exact .size long
    · rcases h with ⟨rfl, other, rfl⟩ | ⟨rfl, other, rfl⟩ | ⟨kind, below⟩
      · exact .keys mem other
      · exact .entryKind mem other
      · exact .entry mem kind below

/-- What is found among the children is below the container. -/
theorem ne_nil_of_breaks_container
    (h : Breaks (.container schemas) (.container children) place moves violation) :
    moves ≠ [] := by
  obtain ⟨_, -, _, rfl, -⟩ := breaks_container_iff.mp h
  exact List.cons_ne_nil _ _

theorem accounts_otherKind {node : Node} (h : ¬ KindOf schema node) (sorted : Prop) :
    Accounts [.wrongKind (placeText place) schema.kind] (Breaks schema node place) sorted :=
  (Accounts.one _).congr (fun _ _ => (breaks_iff_of_not_kindOf h).symm) id

theorem accounts_leaf (leafSchema : LeafSchema) (value : LeafValue) (place : String)
    (sorted : Prop) : Accounts (leafSchema.type.violations value place)
      (Breaks (.leaf leafSchema) (.leaf value) place) sorted := by
  by_cases allowed : leafSchema.type.Allows value
  · rw [LeafType.violations_eq_nil_iff.mpr allowed]
    exact Accounts.nothing fun moves violation h => (breaks_leaf_iff.mp h).2.1 allowed
  · rw [LeafType.violations_of_not_allows allowed]
    refine (Accounts.one _).congr ?_ id
    intro moves violation
    rw [breaks_leaf_iff]
    simp [allowed]

theorem accounts_size (max : Option UInt64) (entries : List (Keys × Node)) (place : String)
    (sorted : Prop) :
    Accounts (if breaksBound (UInt64.toNat · < entries.length) max then
        max.toList.map (Violation.tooManyEntries (placeText place) entries.length ·) else [])
      (fun moves violation => moves = [] ∧ ∃ bound, max = some bound ∧
        bound.toNat < entries.length ∧
        violation = .tooManyEntries (placeText place) entries.length bound) sorted := by
  cases max with
  | none => exact Accounts.nothing fun moves violation h => by simp at h
  | some bound =>
    by_cases long : bound.toNat < entries.length
    · simp only [breaksBound, long, decide_true, if_true]
      refine (Accounts.one _).congr ?_ id
      simp [long]
    · simp only [breaksBound, long, decide_false]
      exact Accounts.nothing fun moves violation h => by simp [long] at h

theorem hasKeys_iff {key : Keys} :
    key.length = keys.length ∧ keys.all (SortedMap.contains key ·) = true ↔ HasKeys keys key := by
  simp [HasKeys, SortedMap.contains]

end Parts

mutual

/-- All breaches of a tree are reported, each once. -/
theorem accounts_violations (node : Node) (schema : SchemaNode) (place : String) :
    Accounts (node.violations schema place) (Breaks schema node place) node.Ordered := by
  cases node with
  | leaf value =>
    cases schema with
    | container schemas => exact accounts_otherKind (by nofun) _
    | list keys max schemas => exact accounts_otherKind (by nofun) _
    | leaf leafSchema => exact accounts_leaf leafSchema value place _
  | container children =>
    cases schema with
    | container schemas => exact accounts_childViolations children _ schemas rfl place
    | list keys max schemas => exact accounts_otherKind (by nofun) _
    | leaf leafSchema => exact accounts_otherKind (by nofun) _
  | list entries =>
    cases schema with
    | container schemas => exact accounts_otherKind (by nofun) _
    | leaf leafSchema => exact accounts_otherKind (by nofun) _
    | list keys max schemas =>
      have hentries := accounts_entryViolations entries keys max schemas place
      rw [violations]
      refine ((accounts_size max entries place _).append hentries ?_).congr
        (fun moves violation => breaks_list_iff.symm) id
      rintro - moves violation moves' violation' ⟨rfl, -⟩ ⟨entry, -, rest, rfl, -⟩
      exact Or.inl List.Lex.nil

theorem accounts_childViolations (children : List (String × Node)) (schema : SchemaNode)
    (schemas : List (String × SchemaNode)) (hschema : schema.children? = some schemas)
    (place : String) :
    Accounts (childViolations children schema place)
      (Breaks (.container schemas) (.container children) place)
      (Ordered (.container children)) := by
  cases children with
  | nil =>
    refine Accounts.nothing ?_
    intro moves violation h
    obtain ⟨_, hmem, -⟩ := breaks_container_iff.mp h
    cases hmem
  | cons head rest =>
    obtain ⟨name, child⟩ := head
    have hrest := accounts_childViolations rest schema schemas hschema place
    have hhead : Accounts
        (match schema.child? name with
          | some childSchema => child.violations childSchema (place ++ "/" ++ name)
          | none => [.unknownChild (place ++ "/" ++ name)])
        (ChildBreaks schemas name child (place ++ "/" ++ name)) child.Ordered := by
      rw [SchemaNode.child?, hschema, Option.bind_some]
      unfold ChildBreaks
      cases SortedMap.get? schemas name with
      | none => exact Accounts.one _
      | some childSchema => exact accounts_violations child childSchema _
    rw [childViolations]
    refine (((hhead.below (.child name)).congr (fun _ _ => Iff.rfl) ?_).append
      (hrest.congr (fun _ _ => Iff.rfl) ?_) ?_).congr ?_ id
    · exact fun hordered => (ordered_container_cons hordered).1
    · exact fun hordered => (ordered_container_cons hordered).2.1
    · rintro hordered _ _ moves' violation' ⟨below, rfl, -⟩ hbreaks
      obtain ⟨other, hother, below', rfl, -⟩ := breaks_container_iff.mp hbreaks
      exact Or.inl (List.Lex.rel ((ordered_container_cons hordered).2.2 other hother))
    · intro moves violation
      simp only [breaks_container_iff, List.mem_cons, exists_eq_or_imp]

theorem accounts_entryViolations (entries : List (Keys × Node)) (keys : List String)
    (max : Option UInt64) (schemas : List (String × SchemaNode)) (place : String) :
    Accounts (entryViolations entries (.list keys max schemas) keys place)
      (fun moves violation => ∃ entry ∈ entries, ∃ rest, moves = .entry entry.1 :: rest ∧
        EntryBreaks keys schemas entry.1 entry.2 (place ++ keysText entry.1) rest violation)
      (Ordered (.list entries)) := by
  cases entries with
  | nil => exact Accounts.nothing fun moves violation h => by simp at h
  | cons head rest =>
    obtain ⟨key, entry⟩ := head
    have hrest := accounts_entryViolations rest keys max schemas place
    have hinner : Accounts
        (match entry with
          | .container children =>
            childViolations children (.list keys max schemas) (place ++ keysText key)
          | _ => [.entryKind (place ++ keysText key)])
        (fun moves violation =>
          (moves = [] ∧ ¬ KindOf (.container schemas) entry ∧
            violation = .entryKind (place ++ keysText key)) ∨
          (KindOf (.container schemas) entry ∧
            Breaks (.container schemas) entry (place ++ keysText key) moves violation))
        entry.Ordered := by
      cases entry with
      | container children =>
        refine (accounts_childViolations children _ schemas rfl _).congr ?_ id
        simp [KindOf.container schemas children]
      | list inner =>
        have hnot : ¬ KindOf (.container schemas) (.list inner) := nofun
        exact (Accounts.one _).congr (by simp [hnot]) id
      | leaf value =>
        have hnot : ¬ KindOf (.container schemas) (.leaf value) := nofun
        exact (Accounts.one _).congr (by simp [hnot]) id
    have hkeys : Accounts _ _ entry.Ordered := Accounts.unlessHolds
      (key.length = keys.length ∧ keys.all (SortedMap.contains key ·) = true)
      (.entryKeys (place ++ keysText key) keys)
    have hentry := (hkeys.append hinner ?_).below (.entry key)
    · unfold entryViolations
      refine ((hentry.congr (fun _ _ => Iff.rfl) ?_).append
        (hrest.congr (fun _ _ => Iff.rfl) ?_) ?_).congr ?_ id
      · exact fun hordered => (ordered_list_cons hordered).1
      · exact fun hordered => (ordered_list_cons hordered).2.1
      · rintro hordered _ _ moves' violation' ⟨below, rfl, -⟩ ⟨other, hother, below', rfl, -⟩
        exact Or.inl (List.Lex.rel ((ordered_list_cons hordered).2.2 other hother))
      · intro moves violation
        simp only [List.mem_cons, exists_eq_or_imp, EntryBreaks, hasKeys_iff]
    · -- The keys are checked first, then the kind, and only then what is inside.
      rintro - moves violation moves' violation' ⟨rfl, -, rfl⟩ (⟨rfl, -, rfl⟩ | ⟨kind, hinside⟩)
      · exact Or.inr ⟨rfl, _, _, rfl, rfl⟩
      · obtain ⟨_, children⟩ := kind
        obtain ⟨move, below, rfl⟩ := List.exists_cons_of_ne_nil (ne_nil_of_breaks_container hinside)
        exact Or.inl List.Lex.nil

end

/-- A tree passes the check if and only if it conforms. For one that does not, the breaches are
reported: all of them, each once and in the order of the tree. -/
theorem validate_reports (schema : SchemaNode) (root : Node) :
    (validate schema root = .ok () ↔ Conforms schema root) ∧
      ∃ breaches : List Breach,
        (¬ Conforms schema root →
          validate schema root = .error (.validation (breaches.map (·.2)))) ∧
        (∀ moves violation, (moves, violation) ∈ breaches ↔
          Breaks schema root "" moves violation) ∧
        (root.Ordered → breaches.Nodup ∧ breaches.Pairwise Breach.before) := by
  obtain ⟨breaches, hreported, hmem, horder⟩ := accounts_violations root schema ""
  refine ⟨validate_eq_ok_iff_conforms, breaches, ?_, hmem, ?_⟩
  · intro hnot
    have hsome : root.violations schema "" ≠ [] := fun hnone =>
      hnot ((violations_eq_nil_iff root schema "").mp hnone)
    unfold validate
    split
    · contradiction
    · rw [← hreported]
  · intro hordered
    refine ⟨(horder hordered).imp ?_, horder hordered⟩
    rintro breach _ hbefore rfl
    exact Breach.before_irrefl breach hbefore

/-- A list that is too long, with an entry that has another key and is no container. -/
theorem validate_reports_interfaces :
    let schema : SchemaNode := .container [("interface", .list ["name"] (some 1) [])]
    let root : Node := .container [("interface", .list [
      ([("id", "eth0")], .leaf (.uint 1)), ([("name", "eth1")], .container [])])]
    ¬ Conforms schema root ∧ root.Ordered ∧
      ∃ breaches : List Breach,
        validate schema root = .error (.validation (breaches.map (·.2))) ∧
        breaches.Nodup ∧ breaches.Pairwise Breach.before ∧
        ([.child "interface"], .tooManyEntries "/interface" 2 1) ∈ breaches ∧
        ([.child "interface", .entry [("id", "eth0")]],
          .entryKind "/interface[id=eth0]") ∈ breaches := by
  intro schema root
  have hbreaks : Breaks schema root "" [.child "interface"]
      (.tooManyEntries "/interface" 2 1) :=
    .child List.mem_cons_self rfl (.size (by decide))
  have hkind : Breaks schema root "" [.child "interface", .entry [("id", "eth0")]]
      (.entryKind "/interface[id=eth0]") :=
    .child List.mem_cons_self rfl (.entryKind List.mem_cons_self (by nofun))
  have hnot : ¬ Conforms schema root := by
    simp only [schema, root]
    rintro (_ | ⟨-, below⟩)
    obtain _ | _ | ⟨size, -, -⟩ := below _ _ _ List.mem_cons_self rfl
    exact absurd (size 1 rfl) (by decide)
  have hordered : root.Ordered := by
    refine .container (List.pairwise_singleton _ _) ?_
    rintro name child (_ | ⟨_, ⟨⟩⟩)
    refine .list (List.pairwise_pair.mpr (by decide)) ?_
    rintro key entry (_ | ⟨_, _ | ⟨_, ⟨⟩⟩⟩)
    · exact .leaf _
    · exact .container List.Pairwise.nil nofun
  obtain ⟨-, breaches, hreported, hmem, hsorted⟩ := validate_reports schema root
  exact ⟨hnot, hordered, breaches, hreported hnot, (hsorted hordered).1, (hsorted hordered).2,
    (hmem _ _).mpr hbreaks, (hmem _ _).mpr hkind⟩

end Node

end Telemetry
