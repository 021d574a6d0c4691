import Telemetry.Proofs.Tree.Difference
import Telemetry.Proofs.Tree.Located
import Telemetry.Schema.Check
import Telemetry.Tree.Violations

/-!
Trees that break no rule of their schema. Such a tree has the shape of the schema, and if all
lists of the schema have keys then each of its leaves stands at a path that the schema accepts and
holds a value that is read back from an update as it is.
-/

namespace Telemetry

namespace SchemaNode

def Keyed (schema : SchemaNode) : Prop :=
  ∀ elems names max children, schema.descend elems = some (.list names max children) → names ≠ []

theorem Keyed.child {schema child : SchemaNode} (h : schema.Keyed) {name : String}
    (hchild : schema.child? name = some child) : child.Keyed :=
  fun elems names max children hdescend =>
    h _ names max children ((descend_plain hchild elems).trans hdescend)

private theorem check_of_mem_checkChildren {children : List (String × SchemaNode)}
    {place name : String} {child : SchemaNode} (h : checkChildren children place = .ok ())
    (hmem : (name, child) ∈ children) : ∃ childPlace, child.check childPlace = .ok () := by
  induction children with
  | nil => cases hmem
  | cons head rest ih =>
    obtain ⟨other, first⟩ := head
    obtain ⟨_, hfirst, hrest⟩ := bind_eq_ok.mp h
    rcases List.mem_cons.mp hmem with hhead | hmem
    · cases hhead
      exact ⟨_, hfirst⟩
    · exact ih hrest hmem

theorem check_of_child? {schema child : SchemaNode} {place name : String}
    (h : schema.check place = .ok ()) (hchild : schema.child? name = some child) :
    ∃ childPlace, child.check childPlace = .ok () := by
  cases schema with
  | leaf leafSchema => cases hchild
  | container children =>
    exact check_of_mem_checkChildren h (SortedMap.mem_of_get?_eq_some hchild)
  | list names max children =>
    cases names with
    | nil => cases h
    | cons first more => exact check_of_mem_checkChildren h (SortedMap.mem_of_get?_eq_some hchild)

/-- A schema passes its check only if all its nodes do. -/
theorem check_of_descend {schema target : SchemaNode} {elems : List PathElem} {place : String}
    (h : schema.check place = .ok ()) (hdescend : schema.descend elems = some target) :
    ∃ targetPlace, target.check targetPlace = .ok () := by
  induction elems generalizing schema place with
  | nil =>
    cases hdescend
    exact ⟨place, h⟩
  | cons elem rest ih =>
    obtain ⟨child, hchild, hrest⟩ := Option.bind_eq_some_iff.mp hdescend
    obtain ⟨childPlace, hcheck⟩ := check_of_child? h hchild
    exact ih hcheck hrest

/-- The check of schemas lets no list without keys pass. -/
theorem keyed_of_check {schema : SchemaNode} {place : String} (h : schema.check place = .ok ()) :
    schema.Keyed := by
  rintro elems names max children hdescend rfl
  obtain ⟨listPlace, hlist⟩ := check_of_descend h hdescend
  cases hlist

/-- The schema accepts a path below its root that ends at a leaf, for whose type a value breaks no
rule. -/
def Admits (schema : SchemaNode) (elems : List PathElem) (value : LeafValue) : Prop :=
  elems ≠ [] ∧ ∃ leafSchema, schema.locate (Path.ofElems elems) = .ok (.leaf leafSchema) ∧
    ∃ place, leafSchema.type.violations value place = []

/-- No admitted leaf is covered by another one. -/
theorem Admits.eq_of_covers {schema : SchemaNode} {elems path : List PathElem}
    {value other : LeafValue} (helems : schema.Admits elems value)
    (hpath : schema.Admits path other) (hcovers : Path.covers path elems = true) :
    elems = path := by
  obtain ⟨-, leafSchema, hlocate, -⟩ := helems
  obtain ⟨hne, otherSchema, hother, -⟩ := hpath
  exact SchemaNode.eq_of_covers hlocate hother hne hcovers

end SchemaNode

/-- The root of a schema that passes its check is a container that passes. -/
theorem Schema.root_of_check {schema : Schema} (h : schema.check = .ok ()) :
    (∃ schemas, schema.root = .container schemas) ∧ schema.root.check "" = .ok () := by
  unfold check at h
  split at h
  · rename_i children hroot
    exact ⟨⟨children, hroot⟩, h⟩
  · cases h

def LeafType.Stores : LeafType → LeafValue → Prop
  | .string _ _, .string _ => True
  | .enumeration _, .string _ => True
  | .bool, .bool _ => True
  | .int _ _, .int _ => True
  | .uint _ _, .uint _ => True
  | .double _ _, .double _ => True
  | .bytes, .bytes _ => True
  | _, _ => False

/-- A value of the kind of its type is read back from an update. -/
theorem LeafType.Stores.ofTyped_toTyped {type : LeafType} {value : LeafValue}
    (h : type.Stores value) (hfinite : value.IsFinite) (path : String) :
    LeafValue.ofTyped type value.toTyped path = .ok value := by
  cases type <;> cases value <;> try cases h
  case double.double => exact LeafValue.ofDouble_eq_ok.mpr ⟨hfinite, rfl⟩
  all_goals rfl

namespace LeafValue

theorem stores_of_violations {type : LeafType} {value : LeafValue} {place : String}
    (h : type.violations value place = []) : type.Stores value := by
  cases type <;> cases value <;> simp only [LeafType.violations, List.cons_ne_nil] at h
  all_goals trivial

/-- A value that breaks no rule of its type is read back from an update. -/
theorem ofTyped_toTyped {type : LeafType} {value : LeafValue} {place : String}
    (hvalid : type.violations value place = []) (hfinite : value.IsFinite) (path : String) :
    ofTyped type value.toTyped path = .ok value :=
  (stores_of_violations hvalid).ofTyped_toTyped hfinite path

end LeafValue

namespace SchemaNode

/-- A leaf can be stored as it is: the schema has a leaf at its path, and its value is read back
from an update. -/
def Takes (schema : SchemaNode) (leaf : List PathElem × LeafValue) : Prop :=
  leaf.1 ≠ [] ∧ ∃ leafSchema,
    schema.locate (Path.ofElems leaf.1) = .ok (.leaf leafSchema) ∧
      LeafValue.ofTyped leafSchema.type leaf.2.toTyped (Path.ofElems leaf.1).text = .ok leaf.2

theorem Admits.takes {schema : SchemaNode} {leaf : List PathElem × LeafValue}
    (h : schema.Admits leaf.1 leaf.2) (hfinite : leaf.2.IsFinite) : schema.Takes leaf := by
  obtain ⟨hne, leafSchema, hlocate, place, hvalid⟩ := h
  exact ⟨hne, leafSchema, hlocate, LeafValue.ofTyped_toTyped hvalid hfinite _⟩

end SchemaNode

namespace Node

inductive Ordered : Node → Prop
  | leaf (value : LeafValue) : Ordered (.leaf value)
  | container {children : List (String × Node)} (sorted : SortedMap.Sorted children)
      (below : ∀ name child, (name, child) ∈ children → Ordered child) :
      Ordered (.container children)
  | list {entries : List (Keys × Node)} (sorted : SortedMap.Sorted entries)
      (below : ∀ key entry, (key, entry) ∈ entries → Ordered entry) : Ordered (.list entries)

theorem validate_eq_ok {schema : SchemaNode} {root : Node} :
    validate schema root = .ok () ↔ root.violations schema "" = [] := by
  unfold validate
  split <;> simp_all

section Violations

variable {schema : SchemaNode} {place : String}

theorem violations_of_mem_children {children : List (String × Node)}
    (h : childViolations children schema place = []) {name : String} {child : Node}
    (hmem : (name, child) ∈ children) :
    ∃ childSchema, schema.child? name = some childSchema ∧
      child.violations childSchema (place ++ "/" ++ name) = [] := by
  induction children with
  | nil => cases hmem
  | cons head rest ih =>
    obtain ⟨other, first⟩ := head
    simp only [childViolations, List.append_eq_nil_iff] at h
    rcases List.mem_cons.mp hmem with hhead | hmem
    · cases hhead
      cases hchild : schema.child? name with
      | none => simp [hchild] at h
      | some childSchema =>
        rw [hchild] at h
        exact ⟨childSchema, rfl, h.1⟩
    · exact ih h.2 hmem

theorem violations_of_mem_entries {entries : List (Keys × Node)} {names : List String}
    (h : entryViolations entries schema names place = []) {key : Keys} {entry : Node}
    (hmem : (key, entry) ∈ entries) :
    (key.length = names.length ∧ names.all (SortedMap.contains key ·)) ∧
      ∃ children, entry = .container children ∧
        childViolations children schema (place ++ keysText key) = [] := by
  induction entries with
  | nil => cases hmem
  | cons head rest ih =>
    obtain ⟨other, first⟩ := head
    unfold entryViolations at h
    obtain ⟨hfirst, hrest⟩ := List.append_eq_nil_iff.mp h
    obtain ⟨hkeys, hentry⟩ := List.append_eq_nil_iff.mp hfirst
    rcases List.mem_cons.mp hmem with hhead | hmem
    · cases hhead
      refine ⟨by simpa using hkeys, ?_⟩
      cases entry with
      | container children => exact ⟨children, rfl, hentry⟩
      | list inner => cases hentry
      | leaf value => cases hentry
    · exact ih hrest hmem

theorem violations_container {children : List (String × Node)}
    (h : (container children).violations schema place = []) :
    (∃ schemas, schema = .container schemas) ∧ childViolations children schema place = [] := by
  cases schema with
  | container schemas => exact ⟨⟨schemas, rfl⟩, by simpa [violations] using h⟩
  | list names max schemas => simp [violations] at h
  | leaf leafSchema => simp [violations] at h

theorem violations_list {entries : List (Keys × Node)}
    (h : (list entries).violations schema place = []) :
    ∃ names max schemas, schema = .list names max schemas ∧
      entryViolations entries schema names place = [] := by
  cases schema with
  | container schemas => simp [violations] at h
  | list names max schemas =>
    simp only [violations, List.append_eq_nil_iff] at h
    exact ⟨names, max, schemas, rfl, h.2⟩
  | leaf leafSchema => simp [violations] at h

theorem violations_leaf {value : LeafValue} (h : (leaf value).violations schema place = []) :
    ∃ leafSchema, schema = .leaf leafSchema ∧ leafSchema.type.violations value place = [] := by
  cases schema with
  | container schemas => simp [violations] at h
  | list names max schemas => simp [violations] at h
  | leaf leafSchema => exact ⟨leafSchema, rfl, by simpa [violations] using h⟩

end Violations

/-- Children without violations make a place if each of them fits where it breaks no rule. -/
private theorem isPlace_of_childViolations {children : List (String × Node)}
    (sorted : SortedMap.Sorted children)
    (hbelow : ∀ name child, (name, child) ∈ children →
      ∀ schema place, child.violations schema place = [] → Fits schema child)
    {schema : SchemaNode} {place : String} (h : childViolations children schema place = []) :
    IsPlace schema (.container children) := by
  have hchild : ∀ name child, SortedMap.get? children name = some child →
      ∃ childSchema, SortedMap.get? schema.fields name = some childSchema ∧
        Fits childSchema child := by
    intro name child hget
    have hmem := SortedMap.mem_of_get?_eq_some hget
    obtain ⟨childSchema, hschema, hvalid⟩ := violations_of_mem_children h hmem
    rw [schema.child?_eq_get?_fields] at hschema
    exact ⟨childSchema, hschema, hbelow name child hmem childSchema _ hvalid⟩
  refine Fits.container sorted ?_ ?_
  · intro name child hget
    obtain ⟨childSchema, hschema, -⟩ := hchild name child hget
    rw [hschema]
    rfl
  · intro name child childSchema hget hschema
    obtain ⟨found, hfound, hfits⟩ := hchild name child hget
    cases hschema.symm.trans hfound
    exact hfits

/-- The children of a place are checked with the place's schema whether that is a container's or
a list's, so the shape is proved for both at once. -/
private theorem shape_of_violations {node : Node} (hordered : node.Ordered) :
    (∀ schema place, node.violations schema place = [] → Fits schema node) ∧
      ∀ children, node = .container children →
        ∀ schema place, childViolations children schema place = [] → IsPlace schema node := by
  induction hordered with
  | leaf value =>
    refine ⟨?_, fun children h => by cases h⟩
    intro schema place h
    obtain ⟨leafSchema, rfl, -⟩ := violations_leaf h
    exact Fits.leaf leafSchema value
  | @container children sorted below ih =>
    have hbelow : ∀ name child, (name, child) ∈ children →
        ∀ schema place, child.violations schema place = [] → Fits schema child :=
      fun name child hmem => (ih name child hmem).1
    refine ⟨?_, ?_⟩
    · intro schema place h
      obtain ⟨⟨schemas, rfl⟩, hvalid⟩ := violations_container h
      exact isPlace_of_childViolations sorted hbelow hvalid
    · intro own hown schema place h
      cases hown
      exact isPlace_of_childViolations sorted hbelow h
  | @list entries sorted below ih =>
    refine ⟨?_, fun children h => by cases h⟩
    intro schema place h
    obtain ⟨names, max, schemas, rfl, hvalid⟩ := violations_list h
    refine Fits.list sorted ?_
    intro key entry hget
    have hmem := SortedMap.mem_of_get?_eq_some hget
    obtain ⟨-, children, rfl, hentry⟩ := violations_of_mem_entries hvalid hmem
    exact (ih key _ hmem).2 children rfl _ _ hentry

section Valid

variable {schema : SchemaNode} {root : Node}

/-- A valid tree has the shape of its schema. -/
theorem fits_of_validate (hordered : root.Ordered) (h : validate schema root = .ok ()) :
    Fits schema root :=
  (shape_of_violations hordered).1 schema "" (validate_eq_ok.mp h)

/-- A leaf of a valid tree stands at a path that the schema accepts, with a value of its type. -/
private theorem locateFrom_of_leafAt? {children : List (String × Node)} {place : String}
    (hkeyed : schema.Keyed) (hvalid : childViolations children schema place = [])
    {elems : List PathElem} {value : LeafValue}
    (hleaf : (container children).leafAt? elems = some value) (full : Path) (depth : Nat) :
    ∃ leafSchema, SchemaNode.locateFrom full schema depth elems = .ok (.leaf leafSchema) ∧
      ∃ leafPlace, leafSchema.type.violations value leafPlace = [] := by
  induction elems generalizing schema children place depth with
  | nil => cases hleaf
  | cons elem rest ih =>
    rw [leafAt?_container_cons] at hleaf
    obtain ⟨child, hget, hleaf⟩ := Option.bind_eq_some_iff.mp hleaf
    obtain ⟨sub, hselect, hleaf⟩ := Option.bind_eq_some_iff.mp hleaf
    obtain ⟨childSchema, hchild, hbelow⟩ :=
      violations_of_mem_children hvalid (SortedMap.mem_of_get?_eq_some hget)
    have hchildKeyed := hkeyed.child hchild
    simp only [SchemaNode.locateFrom_cons_eq_ok, hchild, Option.some.injEq, exists_eq_left']
    cases child with
    | leaf found =>
      obtain ⟨hkeys, rfl⟩ := (isSingle_leaf found).select?_eq_some.mp hselect
      obtain ⟨leafSchema, rfl, htype⟩ := violations_leaf hbelow
      cases rest with
      | cons next more => cases hleaf
      | nil =>
        cases hleaf
        exact ⟨leafSchema, ⟨SchemaNode.requireNoKeys_eq_ok.mpr hkeys, rfl⟩, _, htype⟩
    | container grandchildren =>
      obtain ⟨hkeys, rfl⟩ := (isSingle_container grandchildren).select?_eq_some.mp hselect
      obtain ⟨⟨schemas, rfl⟩, hinner⟩ := violations_container hbelow
      obtain ⟨leafSchema, hlocate, htype⟩ := ih hchildKeyed hinner hleaf (depth + 1)
      exact ⟨leafSchema, ⟨SchemaNode.requireNoKeys_eq_ok.mpr hkeys, hlocate⟩, htype⟩
    | list entries =>
      rw [select?_list] at hselect
      obtain ⟨names, max, schemas, rfl, hentries⟩ := violations_list hbelow
      obtain ⟨⟨hlength, hnames⟩, inner, rfl, hinner⟩ :=
        violations_of_mem_entries hentries (SortedMap.mem_of_get?_eq_some hselect)
      obtain ⟨leafSchema, hlocate, htype⟩ := ih hchildKeyed hinner hleaf (depth + 1)
      have hne : names ≠ [] := hchildKeyed [] names max schemas rfl
      refine ⟨leafSchema, ⟨?_, hlocate⟩, htype⟩
      exact SchemaNode.requirePassable_entry hne hlength.symm hnames

/-- Every leaf of a valid tree is one that the schema admits. -/
theorem admits_of_leafAt? {schemas : List (String × SchemaNode)}
    (hkeyed : (SchemaNode.container schemas).Keyed)
    (hvalid : validate (.container schemas) root = .ok ()) {elems : List PathElem}
    {value : LeafValue} (hleaf : root.leafAt? elems = some value) :
    (SchemaNode.container schemas).Admits elems value := by
  cases root with
  | container children =>
    obtain ⟨-, hchildren⟩ := violations_container (validate_eq_ok.mp hvalid)
    refine ⟨?_, locateFrom_of_leafAt? hkeyed hchildren hleaf (Path.ofElems elems) 0⟩
    rintro rfl
    cases hleaf
  | list entries =>
    obtain ⟨names, max, found, h, -⟩ := violations_list (validate_eq_ok.mp hvalid)
    cases h
  | leaf found =>
    obtain ⟨leafSchema, h, -⟩ := violations_leaf (validate_eq_ok.mp hvalid)
    cases h

end Valid

end Node

end Telemetry
